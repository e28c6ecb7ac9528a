import Locking.Proofs.Lock.Traffic

/-! Nobody takes a hold away from another.  Granting an exclusive request or an upgrade replaces all
owners of a lock, and the start of an upgrade as well as a release may reset its mode, but the
conditions of a grant are such that each of them touches only the hold of the transaction in whose
name it happens.  A hold therefore ends by an upgrade or a release of its own transaction. -/

namespace Locking

namespace LockMode

theorem covers_self (mode : LockMode) : mode.covers mode = true := by cases mode <;> rfl

theorem covers_trans {a b c : LockMode} (h : a.covers b = true) (h' : b.covers c = true) :
    a.covers c = true := by
  cases a <;> cases b <;> cases c <;> first | rfl | exact h | exact h'

end LockMode

namespace Lock

variable {l l' : Lock} {i u : TransactionId} {kind : Request} {mode : LockMode}

/-- The two states of a lock agree on the hold and on the pending upgrade of a transaction. -/
def Agree (u : TransactionId) (l l' : Lock) : Prop :=
  l'.modeOf u = l.modeOf u ∧ (u ∈ l'.upgraders ↔ u ∈ l.upgraders)

theorem Agree.refl (l : Lock) : Agree u l l := ⟨rfl, Iff.rfl⟩

theorem Agree.trans {l l' l'' : Lock} (h : Agree u l l') (h' : Agree u l' l'') : Agree u l l'' :=
  ⟨h'.1.trans h.1, h'.2.trans h.2⟩

theorem agree_enter (hu : u ≠ i) : Agree u l (l.enter i kind) := by
  refine ⟨?_, by rw [mem_upgraders_enter]; simp [hu]⟩
  unfold enter
  split
  · rw [modeOf_beginUpgrade, if_neg hu]
  · rfl

/-- A grant changes the hold of no other transaction. -/
theorem modeOf_grant_ne (hu : u ≠ i) (hg : l.grantable i kind = true) :
    (l.grant i kind).modeOf u = l.modeOf u := by
  have hnone : kind ≠ .shared → u ∉ l.owners → (l.grant i kind).modeOf u = l.modeOf u := by
    intro hk ho
    rw [modeOf_grant_exclusive hk, if_neg hu, modeOf, if_neg ho]
  cases kind with
  | shared =>
    rw [modeOf_grant_shared, modeOf]
    by_cases ho : u ∈ l.owners
    · rw [if_pos (.inr ho), if_pos ho]
      exact ((grantable_shared_iff.mp hg).1.resolve_left fun hfree => hfree u ho).symm
    · rw [if_neg (not_or.mpr ⟨hu, ho⟩), if_neg ho]
  | exclusive => exact hnone (by simp) ((grantable_exclusive_iff.mp hg).1 u)
  | upgrade => exact hnone (by simp) fun ho => hu (grantable_upgrade_iff.mp hg u ho)

theorem agree_grant (hu : u ≠ i) (hg : l.grantable i kind = true) : Agree u l (l.grant i kind) :=
  ⟨modeOf_grant_ne hu hg, by rw [mem_upgraders_grant]; simp [hu]⟩

theorem agree_abandon (hu : u ≠ i) : Agree u l (l.abandon i) :=
  ⟨modeOf_abandon, by rw [mem_upgraders_abandon]; simp [hu]⟩

theorem agree_release (hu : u ≠ i) : Agree u l (l.release i) :=
  ⟨by rw [modeOf_release, if_neg hu], by rw [mem_upgraders_release]; simp [hu]⟩

/-- Whatever a look at the lock decides, it leaves the holds of others alone. -/
theorem agree_run (a : Attempt) (g : WaitForGraph) (hu : u ≠ a.transaction) :
    Agree u l (a.run l g).1 := by
  unfold Attempt.run
  split
  · exact ⟨rfl, Iff.rfl⟩
  · next hj => exact agree_grant hu (Attempt.judge_eq_granted_iff.mp hj).2.1
  · exact agree_abandon hu

/-! ### The hold of the transaction itself -/

/-- A transaction holds the lock in a mode that gives all that `mode` asks for. -/
def Covers (l : Lock) (u : TransactionId) (mode : LockMode) : Prop :=
  ∃ held, l.modeOf u = some held ∧ held.covers mode = true

theorem Agree.covers (h : Agree u l l') (hc : l.Covers u mode) : l'.Covers u mode := by
  obtain ⟨held, hheld, hmode⟩ := hc
  exact ⟨held, h.1.trans hheld, hmode⟩

theorem covers_congr (h : l'.modeOf u = l.modeOf u) : l'.Covers u mode ↔ l.Covers u mode := by
  rw [Covers, Covers, h]

/-- A request of the transaction itself is granted in a mode that is no weaker than its hold. -/
theorem covers_grant (hg : l.grantable i kind = true) (hc : l.Covers i mode) :
    (l.grant i kind).Covers i mode := by
  obtain ⟨held, hheld, hmode⟩ := hc
  refine ⟨kind.mode, modeOf_grant_self kind, ?_⟩
  have hown : i ∈ l.owners := by
    by_contra hn
    rw [modeOf, if_neg hn] at hheld
    exact absurd hheld (by simp)
  cases kind with
  | shared =>
    rw [modeOf, if_pos hown] at hheld
    rcases (grantable_shared_iff.mp hg).1 with hempty | hshared
    · exact absurd hown (hempty i)
    · rw [hshared] at hheld
      cases hheld
      exact hmode
  | exclusive | upgrade => cases mode <;> rfl

theorem covers_run (a : Attempt) (g : WaitForGraph) (hc : l.Covers u mode) :
    (a.run l g).1.Covers u mode := by
  by_cases hu : u = a.transaction
  swap
  · exact (agree_run a g hu).covers hc
  subst hu
  unfold Attempt.run
  split
  · exact hc
  · next hj => exact covers_grant (Attempt.judge_eq_granted_iff.mp hj).2.1 hc
  · exact (covers_congr modeOf_abandon).mpr hc

end Lock

namespace Traffic

variable {t : Traffic} {m : Move} {u : TransactionId} {mode : LockMode}

/-- The transaction in whose name a critical section is run; a mere notification has none. -/
def mover? (t : Traffic) : Move → Option TransactionId
  | .acquire _ i _ | .upgrade _ i | .release i => some i
  | .enter c _ _ _ => (t.errands.find? (·.call == c)).map (·.transaction)
  | .wake c _ _ _ => (t.lock.waiter? c).map (·.transaction)
  | .notify => none

/-- The state in which a request looks at the lock: an upgrade has given up its shared hold, and a
request that wakes up is no longer asleep. -/
def looked? (t : Traffic) : Move → Option Lock
  | .enter c _ _ _ => (t.errands.find? (·.call == c)).map fun e => t.lock.enter e.transaction e.kind
  | .wake c _ _ _ => (t.lock.waiter? c).map t.lock.rouse
  | _ => none

/-- The states through which a critical section takes the lock, the last one included. -/
def passed (t : Traffic) (m : Move) : List Lock := (t.looked? m).toList ++ [(t.step m).lock]

/-- Whether a critical section is one in which a transaction gives up its own hold: it releases
the lock, or it starts an upgrade. -/
def surrenders (t : Traffic) (u : TransactionId) : Move → Bool
  | .release i => i == u
  | .enter c _ _ _ =>
    (t.errands.find? (·.call == c)).any fun e => e.transaction == u && e.kind == .upgrade
  | _ => false

/-- A critical section leaves the holds and the pending upgrades of others alone. -/
theorem agree_passed (hu : t.mover? m ≠ some u) : ∀ l ∈ t.passed m, t.lock.Agree u l := by
  intro l hl
  cases m with
  | acquire c i mode =>
    obtain rfl : l = (t.step (.acquire c i mode)).lock := by simpa [passed, looked?] using hl
    rw [lock_acquire]
    exact .refl _
  | upgrade c i =>
    obtain rfl : l = (t.step (.upgrade c i)).lock := by simpa [passed, looked?] using hl
    rw [lock_upgrade]
    exact .refl _
  | enter c isInterrupted isLate g =>
    cases he : t.errands.find? (·.call == c) with
    | none =>
      obtain rfl : l = t.lock := by simpa [passed, looked?, step, he] using hl
      exact .refl _
    | some e =>
      have hne : u ≠ e.transaction := fun h => hu (by simp [mover?, he, h])
      have henter : Lock.Agree u t.lock (t.lock.enter e.transaction e.kind) := Lock.agree_enter hne
      simp only [passed, looked?, step, he, Option.map_some, Option.toList_some, List.mem_append,
        List.mem_singleton] at hl
      rcases hl with rfl | rfl
      · exact henter
      · exact henter.trans (Lock.agree_run _ g hne)
  | wake c isInterrupted isLate g =>
    cases hw : t.lock.waiter? c with
    | none =>
      obtain rfl : l = t.lock := by simpa [passed, looked?, step, hw] using hl
      exact .refl _
    | some w =>
      have hne : u ≠ w.transaction := fun h => hu (by simp [mover?, hw, h])
      simp only [passed, looked?, step, hw, Option.map_some, Option.toList_some, List.mem_append,
        List.mem_singleton] at hl
      rcases hl with rfl | rfl
      · exact ⟨rfl, Iff.rfl⟩
      · exact Lock.Agree.trans ⟨rfl, Iff.rfl⟩ (Lock.agree_run _ g hne)
  | release i =>
    obtain rfl : l = t.lock.release i := by simpa [passed, looked?, step] using hl
    exact Lock.agree_release fun h => hu (by simp [mover?, h])
  | notify =>
    obtain rfl : l = t.lock.notify := by simpa [passed, looked?, step] using hl
    exact ⟨rfl, Iff.rfl⟩

/-- A hold is at least as strong after every critical section in which its transaction does not
give it up, also after one of its own. -/
theorem covers_step (hs : t.surrenders u m = false) (hc : t.lock.Covers u mode) :
    (t.step m).lock.Covers u mode := by
  have hlast : (t.step m).lock ∈ t.passed m := by simp [passed]
  by_cases hm : t.mover? m = some u
  swap
  · exact (agree_passed hm _ hlast).covers hc
  cases m with
  | acquire c i mode => rwa [lock_acquire]
  | upgrade c i => rwa [lock_upgrade]
  | enter c isInterrupted isLate g =>
    obtain ⟨e, he, rfl⟩ := Option.map_eq_some_iff.mp hm
    have hk : e.kind ≠ .upgrade := by simpa [surrenders, he] using hs
    simp only [step, he, Lock.enter, if_neg hk]
    exact Lock.covers_run _ g hc
  | wake c isInterrupted isLate g =>
    obtain ⟨w, hw, rfl⟩ := Option.map_eq_some_iff.mp hm
    simp only [step, hw]
    exact Lock.covers_run _ g ((Lock.covers_congr Lock.modeOf_rouse).mpr hc)
  | release i => exact absurd (Option.some.inj hm) (by simpa [surrenders] using hs)
  | notify => exact absurd hm (by simp [mover?])

/-- A hold that is gone at the end of a run was given up by its own transaction on the way. -/
theorem exists_surrenders {moves : List Move} (hc : t.lock.Covers u mode)
    (hend : ¬ (t.run moves).lock.Covers u mode) : ∃ before m after,
      moves = before ++ m :: after ∧ (t.run before).lock.Covers u mode ∧
        (t.run before).surrenders u m = true := by
  induction moves generalizing t with
  | nil => exact absurd hc hend
  | cons m moves ih =>
    by_cases hs : t.surrenders u m = true
    · exact ⟨[], m, moves, rfl, hc, hs⟩
    · obtain ⟨before, m', after, rfl, hkept, hs'⟩ :=
        ih (covers_step (Bool.eq_false_iff.mpr hs) hc) hend
      exact ⟨m :: before, m', after, rfl, hkept, hs'⟩

/-- A hold is never taken away by others.  Every critical section, at each state of the lock that
it passes through, leaves a transaction other than its own with the hold and the pending upgrade
that it had.  And if a transaction holds the lock at some point of a run, and later no longer in
that mode or a stronger one, then in between it has released the lock or started an upgrade. -/
theorem hold_ends_by_its_own (moves : List Move) (u : TransactionId) :
    let t := run {} moves
    (∀ m, t.mover? m ≠ some u → ∀ l ∈ t.passed m,
      l.modeOf u = t.lock.modeOf u ∧ (u ∈ l.upgraders ↔ u ∈ t.lock.upgraders)) ∧
    ∀ mode later, t.lock.Covers u mode → ¬ (t.run later).lock.Covers u mode →
      ∃ before m after, later = before ++ m :: after ∧ (t.run before).lock.Covers u mode ∧
        (t.run before).surrenders u m = true := by
  intro t
  exact ⟨fun m hm => agree_passed hm, fun mode later => exists_surrenders⟩

/-- Two readers upgrade, and the first to be granted leaves the upgrade of the other pending, whose
own hold has ended by that upgrade. -/
theorem ended_by_upgrade :
    let moves : List Move := [.acquire 0 1 .shared, .enter 0 false false {},
      .acquire 1 2 .shared, .enter 1 false false {}]
    let later : List Move := [.upgrade 2 1, .enter 2 false false {}, .upgrade 3 2,
      .enter 3 false false {}]
    let t := run {} moves
    t.lock.modeOf 1 = some .shared ∧ (t.run later).lock.modeOf 1 = none ∧
      (t.run later).lock.modeOf 2 = some .exclusive ∧ (1 ∈ (t.run later).lock.upgraders) ∧
      ∃ before m after, later = before ++ m :: after ∧ (t.run before).lock.Covers 1 .shared ∧
        (t.run before).surrenders 1 m = true := by
  intro moves later t
  have hheld : t.lock.modeOf 1 = some .shared := by decide +kernel
  have hgone : (t.run later).lock.modeOf 1 = none := by decide +kernel
  refine ⟨hheld, hgone, by decide +kernel, by decide +kernel, ?_⟩
  refine (hold_ends_by_its_own moves 1).2 .shared later ⟨_, hheld, rfl⟩ ?_
  rintro ⟨held, hheld', -⟩
  exact absurd (hgone.symm.trans hheld') (by simp)

end Traffic

end Locking
