import Locking.Proofs.Lock.Sole

/-! The count of parked requests.  A notification sets the count back to zero while the requests
that it concerns are still to wake up, and each of them tells from its epoch whether it was counted
until then.  Notifications are counted in a word, which starts over after `2^64` of them.  As long
as no request sleeps through as many, that makes no difference, and the count is exact. -/

namespace Locking

/-- Two numbers that are less than `2^64` apart are told apart by their words. -/
theorem ofNat_eq_ofNat_iff {m n : Nat} (hle : m ≤ n) (hlt : n < m + UInt64.size) :
    UInt64.ofNat m = UInt64.ofNat n ↔ m = n := by
  rw [← UInt64.toNat_inj, UInt64.toNat_ofNat', UInt64.toNat_ofNat']
  rw [UInt64.size] at hlt
  omega

/-- The word of the epoch in which the request fell asleep. -/
def Waiter.word (w : Waiter) : UInt64 := .ofNat w.epoch

namespace Lock

variable {l : Lock} {w : Waiter}

/-- The word that counts the notifications of the lock. -/
def word (l : Lock) : UInt64 := .ofNat l.epoch

/-- A notification adds one to the word, which may start over. -/
theorem word_notify : l.notify.word = l.word + 1 := UInt64.ofNat_add l.epoch 1

/-- Lets a waiter wake up that compares words. -/
def rouseByWord (l : Lock) (w : Waiter) : Lock :=
  { l with
    parked := if w.word = l.word then l.parked - 1 else l.parked
    waiters := l.waiters.filter (·.call ≠ w.call) }

/-- No request has slept through `2^64` notifications. -/
def Timely (l : Lock) : Prop := ∀ w ∈ l.waiters, l.epoch < w.epoch + UInt64.size

instance : Decidable l.Timely :=
  inferInstanceAs (Decidable (∀ w ∈ l.waiters, l.epoch < w.epoch + UInt64.size))

theorem Sound.word_eq_iff (h : l.Sound) (ht : l.Timely) (hw : w ∈ l.waiters) :
    w.word = l.word ↔ w.epoch = l.epoch :=
  ofNat_eq_ofNat_iff (h.epoch_le w hw) (ht w hw)

theorem Sound.rouseByWord_eq (h : l.Sound) (ht : l.Timely) (hw : w ∈ l.waiters) :
    l.rouseByWord w = l.rouse w := by
  simp only [rouseByWord, Lock.rouse, h.word_eq_iff ht hw]

/-- Whoever wakes up and was counted finds a count that is not zero. -/
theorem Sound.parked_pos (h : l.Sound) (hw : w ∈ l.waiters) (he : w.epoch = l.epoch) :
    0 < l.parked := by
  rw [h.parked, List.countP_pos_iff]
  exact ⟨w, hw, by simp [(h.notified w hw).mpr he]⟩

end Lock

namespace Traffic

variable {t : Traffic} {m : Move} {moves : List Move} {a : Attempt} {l : Lock} {g : WaitForGraph}

/-- What a critical section does at a lock that counts its notifications in a word. -/
def stepByWord (t : Traffic) : Move → Traffic
  | .wake c isInterrupted isLate g =>
    match t.lock.waiter? c with
    | some w =>
      let attempt : Attempt := ⟨c, w.transaction, w.request, isInterrupted, isLate, true⟩
      { t with lock := (attempt.run (t.lock.rouseByWord w) g).1 }
    | none => t
  | m => t.step m

def runByWord (t : Traffic) (moves : List Move) : Traffic := moves.foldl stepByWord t

namespace Orderly

/-- Counting in words makes no difference in time. -/
theorem stepByWord_eq (h : t.Orderly) (ht : t.lock.Timely) (m : Move) :
    t.stepByWord m = t.step m := by
  cases m with
  | wake c isInterrupted isLate g =>
    cases hw : t.lock.waiter? c with
    | none => simp only [stepByWord, Traffic.step, hw]
    | some w =>
      have hmem : w ∈ t.lock.waiters := (h.sound.waiter?_eq_some_iff.mp hw).1
      simp only [stepByWord, Traffic.step, hw, h.sound.rouseByWord_eq ht hmem]
  | _ => rfl

theorem runByWord_eq (h : t.Orderly) (ht : t.lock.Timely)
    (hlater : Obeys stepByWord (fun t m => (t.stepByWord m).lock.Timely) t moves) :
    t.runByWord moves = t.run moves ∧ (t.run moves).lock.Timely := by
  induction moves generalizing t with
  | nil => exact ⟨rfl, ht⟩
  | cons m moves ih =>
    obtain ⟨hm, hlater⟩ := hlater
    have heq : t.stepByWord m = t.step m := h.stepByWord_eq ht m
    rw [heq] at hm hlater
    rw [runByWord, List.foldl_cons, heq]
    exact ih (h.step m) hm hlater

/-- A request looks at a sound lock. -/
theorem sound_of_look (h : t.Orderly) (hl : t.look? m = some (a, l, g)) : l.Sound := by
  cases m with
  | enter c isInterrupted isLate g =>
    obtain ⟨e, -, heq⟩ := Option.map_eq_some_iff.mp hl
    cases heq
    exact h.sound.enter
  | wake c isInterrupted isLate g =>
    obtain ⟨w, hw, heq⟩ := Option.map_eq_some_iff.mp hl
    cases heq
    exact h.sound.rouse (h.sound.waiter?_eq_some_iff.mp hw).1
  | _ => exact absurd hl (by simp [look?])

/-- Nobody sleeps unnotified when a request for a shared hold is granted. -/
theorem all_notified_of_granted {i : TransactionId} (h : t.Orderly)
    (hv : t.verdict? m = some (i, .shared, .granted)) :
    ∀ w ∈ (t.step m).lock.waiters, w.isNotified = true := by
  obtain ⟨a, l, g, hl, rfl, hkind, hgranted⟩ := verdict?_eq_some_iff.mp hv
  have hs : l.Sound := h.sound_of_look hl
  have hj : a.judge l g = ((a.judge l g).1, .granted) := Prod.ext rfl hgranted
  have hfree : l.parked = 0 := by
    have hg := (Attempt.judge_eq_granted_iff.mp hj).2.1
    rw [hkind] at hg
    exact (Lock.grantable_shared_iff.mp hg).2.2
  rw [hs.parked, List.countP_eq_zero] at hfree
  have hwaiters : (t.step m).lock.waiters = l.waiters := by
    rw [lock_of_look hl, Attempt.run, hj]
    exact Lock.waiters_grant
  intro w hw
  simpa using hfree w (hwaiters ▸ hw)

end Orderly

/-- The count of parked requests is exact.  Take any run of critical sections on a fresh lock that
counts its notifications in a word, in which no request sleeps through `2^64` of them.  The run is
the same as if the word were unbounded; the count is the number of requests that are asleep and have
not been notified, which are just those that fell asleep in the current epoch; a request that takes
itself off the count when it wakes up finds a count that is not zero; and when a request for a
shared hold is granted, every request that is asleep has been notified. -/
theorem parked_exact (moves : List Move)
    (ht : Obeys stepByWord (fun t m => (t.stepByWord m).lock.Timely) {} moves) :
    let t := runByWord {} moves
    (t = run {} moves ∧ ∀ m, t.stepByWord m = t.step m) ∧
      t.lock.parked = t.lock.waiters.countP (!·.isNotified) ∧
      (∀ w ∈ t.lock.waiters, w.isNotified = false ↔ w.epoch = t.lock.epoch) ∧
      (∀ w ∈ t.lock.waiters, w.word = t.lock.word → 0 < t.lock.parked) ∧
      ∀ m i, t.verdict? m = some (i, .shared, .granted) →
        ∀ w ∈ (t.stepByWord m).lock.waiters, w.isNotified = true := by
  intro t
  have hfresh : Orderly {} := ⟨.default, by simp⟩
  obtain ⟨heq, htimely⟩ := hfresh.runByWord_eq (by simp [Lock.Timely]) ht
  have h : t.Orderly := by
    rw [show t = run {} moves from heq]
    exact hfresh.run moves
  have htimely : t.lock.Timely := by
    rwa [show t = run {} moves from heq]
  have hstep := h.stepByWord_eq htimely
  refine ⟨⟨heq, hstep⟩, h.sound.parked, h.sound.notified, fun w hw hword => ?_,
    fun m i hv => ?_⟩
  · exact h.sound.parked_pos hw ((h.sound.word_eq_iff htimely hw).mp hword)
  · rw [hstep m]
    exact h.all_notified_of_granted hv

/-- Two requests sleep, a third one has given up, and after a notification one of the two has
fallen asleep again while the other one has still to wake up; then the lock is free and a reader
gets it. -/
theorem parked_after_notification :
    let moves : List Move := [.acquire 0 1 .exclusive, .enter 0 false false {},
      .acquire 1 2 .shared, .enter 1 false false {}, .acquire 2 3 .shared,
      .enter 2 false false {}, .acquire 3 4 .exclusive, .enter 3 false false {},
      .wake 3 false true {}, .notify, .wake 2 false false {}, .release 1]
    let t := runByWord {} moves
    Obeys stepByWord (fun t m => (t.stepByWord m).lock.Timely) {} moves ∧
      (runByWord {} moves.dropLast).lock.parked = 1 ∧ t.lock.waiters.length = 2 ∧
      t.lock.parked = t.lock.waiters.countP (!·.isNotified) ∧
      t.verdict? (.wake 1 false false {}) = some (2, .shared, .granted) ∧
      ∀ w ∈ (t.stepByWord (.wake 1 false false {})).lock.waiters, w.isNotified = true := by
  intro moves t
  have ht : Obeys stepByWord (fun t m => (t.stepByWord m).lock.Timely) {} moves := by
    decide +kernel
  have hv : t.verdict? (.wake 1 false false {}) = some (2, .shared, .granted) := by decide +kernel
  obtain ⟨-, hparked, -, -, hgranted⟩ := parked_exact moves ht
  exact ⟨ht, by decide +kernel, by decide +kernel, hparked, hv, hgranted _ _ hv⟩

end Traffic

end Locking
