import Locking.Proofs.Lock.Sound

/-! One lock under any traffic.  A request meets its lock in several critical sections: the first
one decides what kind of request it is, the next one enters it and looks at the lock, and each
waking brings another look.  Between any two of them other requests and releases may come, also
those of the same transaction, so the kind of a request can be out of date when it is used.  The
lock excludes conflicting holds all the same. -/

namespace Locking

/-- A request whose kind has been decided and that has not looked at the lock yet. -/
structure Errand where
  call : CallId
  transaction : TransactionId
  kind : Request
deriving DecidableEq, Repr

/-- A lock with the requests on their way to it. -/
structure Traffic where
  lock : Lock := {}
  errands : List Errand := []

/-- The critical sections of a lock.  Whether a transaction has been interrupted, whether a
deadline has passed, and what the wait-for graph holds is up to the surroundings. -/
inductive Move where
  /-- A transaction asks for the lock in a mode. -/
  | acquire (c : CallId) (i : TransactionId) (mode : LockMode)
  /-- A transaction asks to upgrade its hold. -/
  | upgrade (c : CallId) (i : TransactionId)
  /-- A request enters and looks at the lock for the first time. -/
  | enter (c : CallId) (isInterrupted isLate : Bool) (g : WaitForGraph)
  /-- A sleeping request wakes up, notified or not, and looks at the lock again. -/
  | wake (c : CallId) (isInterrupted isLate : Bool) (g : WaitForGraph)
  /-- The lock is released on behalf of a transaction, whether it has the lock or not. -/
  | release (i : TransactionId)
  /-- All waiters are told to look again, as after an interrupt. -/
  | notify

namespace Traffic

/-- Whether a call has a request on its way to the lock or asleep on it. -/
def isBusy (t : Traffic) (c : CallId) : Bool :=
  t.errands.any (·.call == c) || t.lock.waiters.any (·.call == c)

/-- Sends a request on its way, unless the number of the call is in use. -/
def send (t : Traffic) (e : Errand) : Traffic :=
  if t.isBusy e.call then t else { t with errands := e :: t.errands }

/-- What a critical section does. -/
def step (t : Traffic) : Move → Traffic
  | .acquire c i mode =>
    match Request.of? (t.lock.modeOf i) mode with
    | some kind => t.send ⟨c, i, kind⟩
    | none => t
  | .upgrade c i => if t.lock.modeOf i = some .exclusive then t else t.send ⟨c, i, .upgrade⟩
  | .enter c isInterrupted isLate g =>
    match t.errands.find? (·.call == c) with
    | some e =>
      let attempt : Attempt := ⟨c, e.transaction, e.kind, isInterrupted, isLate, false⟩
      { lock := (attempt.run (t.lock.enter e.transaction e.kind) g).1
        errands := t.errands.filter (·.call ≠ c) }
    | none => t
  | .wake c isInterrupted isLate g =>
    match t.lock.waiter? c with
    | some w =>
      let attempt : Attempt := ⟨c, w.transaction, w.request, isInterrupted, isLate, true⟩
      { t with lock := (attempt.run (t.lock.rouse w) g).1 }
    | none => t
  | .release i => { t with lock := t.lock.release i }
  | .notify => { t with lock := t.lock.notify }

def run (t : Traffic) (moves : List Move) : Traffic := moves.foldl step t

theorem lock_send (t : Traffic) (e : Errand) : (t.send e).lock = t.lock := by
  unfold send
  split <;> rfl

theorem lock_acquire (t : Traffic) (c : CallId) (i : TransactionId) (mode : LockMode) :
    (t.step (.acquire c i mode)).lock = t.lock := by
  simp only [step]
  split
  · exact lock_send _ _
  · rfl

theorem lock_upgrade (t : Traffic) (c : CallId) (i : TransactionId) :
    (t.step (.upgrade c i)).lock = t.lock := by
  simp only [step]
  split
  · rfl
  · exact lock_send _ _

/-! ### Every critical section leaves the lock sound -/

/-- The lock is sound, and no request on its way has the number of a sleeping one. -/
structure Orderly (t : Traffic) : Prop where
  sound : t.lock.Sound
  apart : ∀ e ∈ t.errands, ∀ w ∈ t.lock.waiters, w.call ≠ e.call

variable {t : Traffic}

theorem isBusy_eq_false_iff {c : CallId} : t.isBusy c = false ↔
    (∀ e ∈ t.errands, e.call ≠ c) ∧ ∀ w ∈ t.lock.waiters, w.call ≠ c := by
  simp [isBusy]

namespace Orderly

theorem send (h : t.Orderly) (e : Errand) : (t.send e).Orderly := by
  unfold Traffic.send
  split
  · exact h
  · next hb =>
    obtain ⟨-, hw⟩ := isBusy_eq_false_iff.mp (Bool.eq_false_iff.mpr hb)
    refine ⟨h.sound, fun e' he' w hmem => ?_⟩
    rcases List.mem_cons.mp he' with rfl | he'
    · exact hw w hmem
    · exact h.apart e' he' w hmem

theorem call_of_mem_run {a : Attempt} {l : Lock} {g : WaitForGraph} {w : Waiter}
    (hw : w ∈ (a.run l g).1.waiters) : w.call = a.call ∨ ∃ v ∈ l.waiters, v.call = w.call := by
  unfold Attempt.run at hw
  split at hw
  · rcases List.mem_append.mp hw with hw | hw
    · exact .inr ⟨w, hw, rfl⟩
    · exact .inl (by rw [List.mem_singleton.mp hw])
  · exact .inr ⟨w, by simpa using hw, rfl⟩
  · unfold Lock.abandon at hw
    split at hw
    · obtain ⟨v, hv, rfl⟩ := List.mem_map.mp hw
      exact .inr ⟨v, hv, rfl⟩
    · exact .inr ⟨w, hw, rfl⟩

theorem enter (h : t.Orderly) (c : CallId) (isInterrupted isLate : Bool) (g : WaitForGraph) :
    (t.step (.enter c isInterrupted isLate g)).Orderly := by
  simp only [step]
  split
  swap
  · exact h
  next e he =>
  obtain rfl : e.call = c := by simpa using List.find?_some he
  have hfree : ∀ w ∈ t.lock.waiters, w.call ≠ e.call :=
    h.apart e (List.mem_of_find?_eq_some he)
  refine ⟨h.sound.enter.run _ g (by simpa using hfree), fun e' he' w hw => ?_⟩
  obtain ⟨he', hne⟩ := List.mem_filter.mp he'
  rcases call_of_mem_run hw with hc | ⟨v, hv, hc⟩
  · rw [hc]
    exact fun heq => (of_decide_eq_true hne) heq.symm
  · rw [← hc]
    exact h.apart e' he' v (by simpa using hv)

theorem wake (h : t.Orderly) (c : CallId) (isInterrupted isLate : Bool) (g : WaitForGraph) :
    (t.step (.wake c isInterrupted isLate g)).Orderly := by
  simp only [step]
  split
  swap
  · exact h
  next w hw =>
  obtain ⟨hmem, rfl⟩ := h.sound.waiter?_eq_some_iff.mp hw
  have hgone : ∀ v ∈ (t.lock.rouse w).waiters, v ∈ t.lock.waiters ∧ v.call ≠ w.call :=
    fun v hv => by simpa [Lock.rouse] using hv
  refine ⟨(h.sound.rouse hmem).run _ g fun v hv => (hgone v hv).2, fun e he v hv => ?_⟩
  rcases call_of_mem_run hv with hc | ⟨u, hu, hc⟩
  · rw [hc]
    exact h.apart e he w hmem
  · rw [← hc]
    exact h.apart e he u (hgone u hu).1

theorem step (h : t.Orderly) (m : Move) : (t.step m).Orderly := by
  cases m with
  | acquire c i mode =>
    simp only [Traffic.step]
    split
    · exact h.send _
    · exact h
  | upgrade c i =>
    simp only [Traffic.step]
    split
    · exact h
    · exact h.send _
  | enter c isInterrupted isLate g => exact h.enter c isInterrupted isLate g
  | wake c isInterrupted isLate g => exact h.wake c isInterrupted isLate g
  | release i =>
    refine ⟨h.sound.release, fun e he w hw => ?_⟩
    obtain ⟨v, hv, rfl⟩ := List.mem_map.mp hw
    exact h.apart e he v hv
  | notify =>
    refine ⟨h.sound.notify, fun e he w hw => ?_⟩
    obtain ⟨v, hv, rfl⟩ := List.mem_map.mp hw
    exact h.apart e he v hv

theorem run (h : t.Orderly) (moves : List Move) : (t.run moves).Orderly := by
  induction moves generalizing t with
  | nil => exact h
  | cons m moves ih => exact ih (h.step m)

end Orderly

theorem sound_run (moves : List Move) : (run {} moves).lock.Sound :=
  (Orderly.run ⟨.default, by simp⟩ moves).sound

end Traffic

/-! ### Mutual exclusion -/

/-- A sound lock that one transaction holds exclusively is held by no other. -/
theorem Lock.Sound.modeOf_eq_none {l : Lock} (h : l.Sound) {i j : TransactionId}
    (hi : l.modeOf i = some .exclusive) (hij : j ≠ i) : l.modeOf j = none := by
  have hmem : i ∈ l.owners := by
    by_contra hn
    simp [Lock.modeOf, hn] at hi
  rw [Lock.modeOf, if_pos hmem] at hi
  exact if_neg fun hj => hij (h.exclusive hi j hj i hmem)

/-- Mutual exclusion: after any sequence of critical sections on a fresh lock, it has no mode
exactly if it has no owner, an exclusive hold is the only one, no transaction both owns the lock
and waits to upgrade it, and no transaction holds the lock while another holds it exclusively. -/
theorem Traffic.mutual_exclusion (moves : List Move) :
    let l := (Traffic.run {} moves).lock
    (l.mode = none ↔ l.owners = ∅) ∧ (l.mode = some .exclusive → l.owners.size = 1) ∧
      (∀ i, ¬ (i ∈ l.owners ∧ i ∈ l.upgraders)) ∧
      ∀ i j, i ≠ j → l.modeOf i = some .exclusive → l.modeOf j = none := by
  intro l
  have h : l.Sound := Traffic.sound_run moves
  refine ⟨?_, fun hm => ?_, fun i hi => h.apart i hi.1 hi.2, fun i j hij hi =>
    h.modeOf_eq_none hi hij.symm⟩
  · rw [h.mode_eq_none, Std.ExtTreeSet.eq_empty_iff_forall_not_mem]
  · -- A lock with a mode has an owner, and this one has no other.
    have hne : ¬ ∀ i, i ∉ l.owners := fun hn => by
      rw [h.mode_eq_none.mpr hn] at hm
      exact absurd hm (by simp)
    simp only [not_forall, not_not] at hne
    obtain ⟨i, hi⟩ := hne
    exact (IdSet.size_eq_one_iff hi).mpr fun j hj => h.exclusive hm j hj i hi

end Locking
