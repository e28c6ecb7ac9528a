import Locking.Proofs.Lock.Traffic

/-! Who is left asleep on a lock.  Nobody sleeps on a free lock without having been notified.  A
request for a shared hold sleeps behind a writer only, as long as no writer gives up before it is
notified: one that does so tells nobody, and the readers behind it sleep on. -/

namespace Locking

theorem Request.mode_eq_exclusive_iff {kind : Request} :
    kind.mode = .exclusive ↔ kind ≠ .shared := by
  cases kind <;> simp [mode]

namespace Lock

variable {l : Lock} {i : TransactionId} {c : CallId} {kind : Request} {w : Waiter}

/-! ### Who is in front of a reader -/

/-- Every request for a shared hold that sleeps without having been notified has a writer in front
of it: an exclusive hold, a pending upgrade, or a request for an exclusive hold that sleeps so,
too. -/
def Queued (l : Lock) : Prop :=
  ∀ w ∈ l.waiters, w.isNotified = false → w.request = .shared →
    l.mode = some .exclusive ∨ (∃ i, i ∈ l.upgraders) ∨
      ∃ v ∈ l.waiters, v.isNotified = false ∧ v.request.mode = .exclusive

theorem queued_of_all_notified (h : ∀ w ∈ l.waiters, w.isNotified = true) : l.Queued :=
  fun w hw hn => absurd (h w hw) (by simp [hn])

theorem queued_notify : l.notify.Queued := by
  refine queued_of_all_notified fun w hw => ?_
  obtain ⟨v, -, rfl⟩ := List.mem_map.mp hw
  rfl

theorem queued_release : (l.release i).Queued := queued_notify

/-- A request for an exclusive hold that falls asleep is in front of every reader. -/
theorem queued_park_writer (hk : kind.mode = .exclusive) : (l.park c i kind).Queued :=
  fun _ _ _ _ => .inr (.inr ⟨_, List.mem_append_right _ (List.mem_singleton.mpr rfl), rfl, hk⟩)

namespace Queued

theorem enter (h : l.Queued) : (l.enter i kind).Queued := by
  by_cases hk : kind = .upgrade
  · exact fun _ _ _ _ => .inr (.inl ⟨i, mem_upgraders_enter.mpr (.inr ⟨hk, rfl⟩)⟩)
  · rwa [Lock.enter, if_neg hk]

/-- A reader that wakes up, or anyone that was notified, was in front of nobody. -/
theorem rouse (h : l.Queued) (hs : l.Sound) (hw : w ∈ l.waiters)
    (hback : w.isNotified = true ∨ w.request = .shared) : (l.rouse w).Queued := by
  intro u hu hn hk
  rcases h u (List.mem_of_mem_filter hu) hn hk with hx | hup | ⟨v, hv, hvn, hvk⟩
  · exact .inl hx
  · exact .inr (.inl hup)
  · refine .inr (.inr ⟨v, List.mem_filter.mpr ⟨hv, ?_⟩, hvn, hvk⟩)
    simp only [ne_eq, decide_eq_true_eq]
    intro hc
    rw [hs.waiter_eq hv hw hc] at hvn hvk
    rcases hback with hb | hb
    · exact absurd hb (by simp [hvn])
    · exact absurd hb (Request.mode_eq_exclusive_iff.mp hvk)

/-- A reader falls asleep behind a writer, or behind a reader that has one in front of it. -/
theorem park_reader (h : l.Queued) (hs : l.Sound) (hg : l.grantable i .shared = false) :
    (l.park c i .shared).Queued := by
  have hfront : l.mode = some .exclusive ∨ (∃ i, i ∈ l.upgraders) ∨
      ∃ v ∈ l.waiters, v.isNotified = false ∧ v.request.mode = .exclusive := by
    by_contra hn
    simp only [not_or, not_exists] at hn
    obtain ⟨hmode, hup, hwriter⟩ := hn
    have hawake : l.parked = 0 := by
      rw [hs.parked, List.countP_eq_zero]
      intro v hv hvn
      have hvn : v.isNotified = false := by simpa using hvn
      by_cases hvk : v.request = .shared
      · rcases h v hv hvn hvk with hx | ⟨j, hj⟩ | ⟨u, hu⟩
        · exact hmode hx
        · exact hup j hj
        · exact hwriter u hu
      · exact hwriter v ⟨hv, hvn, Request.mode_eq_exclusive_iff.mpr hvk⟩
    have hheld : (∀ j, j ∉ l.owners) ∨ l.mode = some .shared := by
      cases hm : l.mode with
      | none => exact .inl (hs.mode_eq_none.mp hm)
      | some mode =>
        cases mode with
        | shared => exact .inr rfl
        | exclusive => exact absurd hm hmode
    rw [grantable_shared_iff.mpr ⟨hheld, hup, hawake⟩] at hg
    exact absurd hg (by simp)
  intro u _ _ _
  rcases hfront with hx | hup | ⟨v, hv, hvf⟩
  · exact .inl hx
  · exact .inr (.inl hup)
  · exact .inr (.inr ⟨v, List.mem_append_left _ hv, hvf⟩)

end Queued

/-- A reader is granted the lock only if nobody sleeps; a writer is in front of all readers. -/
theorem queued_grant (hs : l.Sound) (hg : l.grantable i kind = true) :
    (l.grant i kind).Queued := by
  by_cases hk : kind = .shared
  · subst hk
    have hp : l.parked = 0 := (grantable_shared_iff.mp hg).2.2
    rw [hs.parked, List.countP_eq_zero] at hp
    exact queued_of_all_notified fun w hw => by simpa using hp w (by simpa using hw)
  · intro _ _ _ _
    rw [mode_grant, Request.mode_eq_exclusive_iff.mpr hk]
    exact .inl rfl

/-- What a look leaves, unless it fails and the lock is left as it was. -/
theorem queued_run {a : Attempt} {g : WaitForGraph} (hs : l.Sound)
    (hq : l.Queued ∨ a.request.mode = .exclusive ∧
      (a.transaction ∈ l.upgraders ∨ ∀ g' error, a.judge l g ≠ (g', .failed error))) :
    (a.run l g).1.Queued := by
  unfold Attempt.run
  split
  · next hj =>
    by_cases hk : a.request = .shared
    · have hg := (Attempt.judge_eq_sleeps_iff.mp hj).2.1
      rw [hk] at hg ⊢
      exact (hq.resolve_right fun h => Request.mode_eq_exclusive_iff.mp h.1 hk).park_reader hs hg
    · exact queued_park_writer (Request.mode_eq_exclusive_iff.mpr hk)
  · next hj => exact queued_grant hs (Attempt.judge_eq_granted_iff.mp hj).2.1
  · next hj =>
    unfold Lock.abandon
    split
    · exact queued_notify
    · next hup =>
      exact hq.resolve_right fun h => h.2.elim (fun h => hup h) fun h => h _ _ hj

end Lock

namespace Traffic

/-- No wake-up is lost on a free lock: whatever critical sections have been run on a fresh lock,
when it has neither an owner nor a pending upgrade, no request is counted as parked, and every
request that is asleep has been notified since it fell asleep.  Epochs never start over here;
`Orderly.runByWord_eq` says when it makes no difference that a lock counts them in a word. -/
theorem no_sleeper_on_free_lock (moves : List Move)
    (ho : (run {} moves).lock.owners = ∅) (hu : (run {} moves).lock.upgraders = ∅) :
    (run {} moves).lock.parked = 0 ∧ ∀ w ∈ (run {} moves).lock.waiters, w.isNotified = true := by
  have hs : (run {} moves).lock.Sound := sound_run moves
  have hp : (run {} moves).lock.parked = 0 :=
    hs.free (Std.ExtTreeSet.eq_empty_iff_forall_not_mem.mp ho)
      (Std.ExtTreeSet.eq_empty_iff_forall_not_mem.mp hu)
  refine ⟨hp, fun w hw => ?_⟩
  -- The counter is the number of waiters that have not been notified.
  have hcount := hs.parked.symm.trans hp
  rw [List.countP_eq_zero] at hcount
  simpa using hcount w hw

/-- An upgrade fails while two requests sleep behind it, and leaves the lock free. -/
theorem told_by_failed_upgrade :
    let moves : List Move := [.acquire 0 1 .shared, .enter 0 false false {},
      .acquire 1 2 .shared, .enter 1 false false {}, .upgrade 2 1, .enter 2 false false {},
      .acquire 3 3 .shared, .enter 3 false false {}, .acquire 4 4 .exclusive,
      .enter 4 false false {}, .upgrade 5 2, .enter 5 true false {}, .wake 2 true false {}]
    (run {} moves).lock.owners = ∅ ∧ (run {} moves).lock.upgraders = ∅ ∧
      (run {} moves).lock.waiters.map (·.call) = [3, 4] ∧
      (run {} moves).lock.parked = 0 ∧ ∀ w ∈ (run {} moves).lock.waiters, w.isNotified = true := by
  intro moves
  have ho : (run {} moves).lock.owners = ∅ := by decide +kernel
  have hu : (run {} moves).lock.upgraders = ∅ := by decide +kernel
  exact ⟨ho, hu, by decide +kernel, no_sleeper_on_free_lock moves ho hu⟩

/-! ### Writers that give up -/

/-- Whether a writer gives up before it is notified: a request for an exclusive hold that sleeps
without having been notified wakes up and fails, and it is no pending upgrade, so that nobody is
told. -/
def givesUp (t : Traffic) : Move → Bool
  | .wake c isInterrupted isLate g =>
    match t.lock.waiter? c with
    | some w =>
      let attempt : Attempt := ⟨c, w.transaction, w.request, isInterrupted, isLate, true⟩
      !w.isNotified && w.request.mode == .exclusive && !t.lock.upgraders.contains w.transaction &&
        match (attempt.judge (t.lock.rouse w) g).2 with
        | .failed _ => true
        | _ => false
    | none => false
  | _ => false

/-- No writer gives up before it is notified. -/
def Patient : Traffic → List Move → Prop
  | _, [] => True
  | t, m :: moves => t.givesUp m = false ∧ Patient (t.step m) moves

instance Patient.decidable : (t : Traffic) → (moves : List Move) → Decidable (Patient t moves)
  | _, [] => .isTrue trivial
  | t, m :: moves =>
    have : Decidable (Patient (t.step m) moves) := Patient.decidable (t.step m) moves
    inferInstanceAs (Decidable (t.givesUp m = false ∧ Patient (t.step m) moves))

variable {t : Traffic} {m : Move}

/-- No critical section leaves a reader asleep behind nobody, unless a writer gives up in it. -/
theorem queued_step (ht : t.Orderly) (hq : t.lock.Queued) (hm : t.givesUp m = false) :
    (t.step m).lock.Queued := by
  have hsend : ∀ e : Errand, (t.send e).lock = t.lock := fun e => by
    unfold send
    split <;> rfl
  cases m with
  | acquire c i mode =>
    simp only [step]
    split
    · rwa [hsend]
    · exact hq
  | upgrade c i =>
    simp only [step]
    split
    · exact hq
    · rwa [hsend]
  | enter c isInterrupted isLate g =>
    simp only [step]
    split
    · exact Lock.queued_run ht.sound.enter (.inl hq.enter)
    · exact hq
  | wake c isInterrupted isLate g =>
    simp only [step]
    split
    swap
    · exact hq
    next w hw =>
    obtain ⟨hmem, rfl⟩ := ht.sound.waiter?_eq_some_iff.mp hw
    refine Lock.queued_run (ht.sound.rouse hmem) ?_
    by_cases hback : w.isNotified = true ∨ w.request = .shared
    · exact .inl (hq.rouse ht.sound hmem hback)
    · -- The writer may have been the only one in front of a reader, but it does not give up.
      rw [not_or, Bool.not_eq_true] at hback
      have hk : w.request.mode = .exclusive := Request.mode_eq_exclusive_iff.mpr hback.2
      refine .inr ⟨hk, ?_⟩
      by_contra hfail
      simp only [not_or, not_forall, not_not] at hfail
      obtain ⟨hup, g', error, hj⟩ := hfail
      have hup : t.lock.upgraders.contains w.transaction = false := by
        rw [Bool.eq_false_iff, ne_eq, Std.ExtTreeSet.contains_iff_mem]
        exact hup
      simp only [givesUp, hw, hback.1, hk, hup, hj] at hm
      exact absurd hm (by decide)
  | release i => exact Lock.queued_release
  | notify => exact Lock.queued_notify

theorem queued_run (ht : t.Orderly) (hq : t.lock.Queued) {moves : List Move}
    (hp : Patient t moves) : (t.run moves).lock.Queued := by
  induction moves generalizing t with
  | nil => exact hq
  | cons m moves ih => exact ih (ht.step m) (queued_step ht hq hp.1) hp.2

/-- Readers sleep behind a writer: as long as no writer gives up before it is notified, a request
for a shared hold that sleeps without having been notified does so because the lock is held
exclusively, an upgrade is pending, or a request for an exclusive hold sleeps so, too. -/
theorem readers_sleep_behind_writer (moves : List Move) (hp : Patient {} moves) :
    (run {} moves).lock.Queued :=
  queued_run ⟨.default, by simp⟩ (fun w hw => absurd hw (by simp)) hp

/-- A writer that was notified gives up, and a reader sleeps behind the next one. -/
theorem reader_behind_next_writer :
    let moves : List Move := [.acquire 0 1 .shared, .enter 0 false false {},
      .acquire 1 2 .exclusive, .enter 1 false false {}, .acquire 2 3 .exclusive,
      .enter 2 false false {}, .notify, .wake 1 true false {}, .wake 2 false false {},
      .acquire 3 4 .shared, .enter 3 false false {}]
    Patient {} moves ∧ (run {} moves).lock.waiters.map (fun w => (w.transaction, w.isNotified)) =
      [(3, false), (4, false)] ∧ (run {} moves).lock.Queued := by
  intro moves
  have hp : Patient {} moves := by decide +kernel
  exact ⟨hp, by decide +kernel, readers_sleep_behind_writer moves hp⟩

/-- A writer that gives up leaves the reader behind it asleep on a lock that is held shared, with
nobody else asleep, and nothing tells the reader to look again. -/
theorem reader_left_asleep :
    let moves : List Move := [.acquire 0 1 .shared, .enter 0 false false {},
      .acquire 1 2 .exclusive, .enter 1 false false {}, .acquire 2 3 .shared,
      .enter 2 false false {}, .wake 1 false true {}]
    let l := (run {} moves).lock
    ¬ Patient {} moves ∧ l.heldMode = some .shared ∧ l.holders = [1] ∧ l.upgraders = ∅ ∧
      l.waiters.map (fun w => (w.transaction, w.request, w.isNotified)) = [(3, .shared, false)] ∧
      ((⟨2, 3, .shared, false, false, true⟩ : Attempt).judge
        (l.rouse (l.waiters.headD default)) {}).2 = .granted := by
  decide +kernel

end Traffic

end Locking
