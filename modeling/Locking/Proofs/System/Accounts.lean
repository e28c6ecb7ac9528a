import Locking.Proofs.Commit.Failures
import Locking.Proofs.System.Deadlock
import Locking.Proofs.System.Tally

/-! The counters account for every transaction.  Who has ended was counted once when it did, and
each lock request that has failed is put down to a transaction of its own, which is rolled back and
never asks for locks again. -/

namespace Locking

/-- A transaction is being rolled back, or has been. -/
def State.Undone (x : State) : Prop := x = .aborting ∨ x = .aborted

theorem State.Turns.undone {a b : State} (h : Turns a b) (ha : a.Undone) : b.Undone := by
  cases h with
  | begins h =>
    cases h with
    | stay => exact ha
    | commit => exact absurd ha (by simp [State.Undone])
    | abort => exact .inl rfl
  | committed => exact absurd ha (by simp [State.Undone])
  | aborted => exact .inr rfl

/-- Whether a call at this point is asleep with a request whose lock enters the lock set. -/
def Point.plans : Point → Bool
  | waiting _ _ (.plan ..) => true
  | _ => false

theorem Point.isAsleep_of_plans {point : Point} (h : point.plans = true) :
    point.isAsleep = true := by
  cases point with
  | waiting => rfl
  | _ => exact absurd h (by simp [plans])

/-- The transaction that is about to take locks into its lock set. -/
def Stage.planner? : Stage → Option TransactionRef
  | taking _ r .. => some r
  | looking _ r _ _ _ (.plan ..) _ | granted _ r _ (.plan ..) _ | failed _ r (.plan ..) _ => some r
  | _ => none

theorem Stage.user?_of_planner? {p : Stage} {r : TransactionRef} (h : p.planner? = some r) :
    p.user? = some (r, .shared) := by
  cases p with
  | taking => cases h; rfl
  | looking _ _ _ _ _ goal | granted _ _ _ goal | failed _ _ goal =>
    cases goal with
    | single => exact absurd h (by simp [planner?])
    | plan => cases h; rfl
  | _ => exact absurd h (by simp [planner?])

theorem Stage.task?_of_planner? {p : Stage} {r : TransactionRef} (h : p.planner? = some r) :
    p.task? = none := by
  cases p with
  | undoing | preparing | committing => exact absurd h (by simp [planner?])
  | _ => rfl

/-- The number of lock requests that have lost a conflict. -/
def Statistics.failures (s : Statistics) : Nat := s.deadlocks + s.interrupts + s.timeouts

theorem Statistics.failures_countFailure (s : Statistics) (error : Error) :
    (s.countFailure error).failures ≤ s.failures + 1 := by
  cases error <;> simp only [countFailure, failures] <;> omega

namespace System

variable {s s' : System} {p p' : Stage} {e : Event} {r q : TransactionRef} {b c : CallId}
  {k : Call} {hs : History}

/-! ### One request at a time -/

/-- No transaction asks for locks while a request of it is asleep. -/
def OneAtATime (s : System) (e : Event) : Prop :=
  ∀ r, e.asker? = some r → ∀ (c : CallId) (k : Call),
    s.calls[c]? = some k → k.transaction = r → k.point.isAsleep = false

instance (s : System) (e : Event) : Decidable (s.OneAtATime e) :=
  decidable_of_iff (∀ r ∈ e.asker?.toList, ∀ entry ∈ s.calls.toList,
    entry.2.transaction = r → entry.2.point.isAsleep = false) <| by
    simp only [Option.mem_toList, Prod.forall, OneAtATime,
      Std.ExtTreeMap.mem_toList_iff_getElem?_eq_some]

/-- A request of a transaction for locks that enter its lock set is asleep, or goes on. -/
def Plans (s : System) (p : Stage) (r : TransactionRef) : Prop :=
  p.planner? = some r ∨
    ∃ (c : CallId) (k : Call), s.calls[c]? = some k ∧ k.transaction = r ∧ k.point.plans = true

/-- No transaction has two requests for locks that enter its lock set, and whoever has one has not
committed. -/
structure Alone (s : System) (p : Stage) : Prop where
  aside : ∀ r, p.planner? = some r → ∀ (c : CallId) (k : Call), s.calls[c]? = some k →
    k.transaction = r → k.point.plans = false
  apart : ∀ (b c : CallId) (j k : Call), s.calls[b]? = some j → s.calls[c]? = some k →
    j.transaction = k.transaction → j.point.plans = true → k.point.plans = true → b = c
  uncommitted : ∀ r, s.Plans p r → (s.transactionAt r).state ≠ .committed

theorem Advance.planner? (ha : Advance s p s' p') :
    p'.planner? = none ∨ p'.planner? = p.planner? := by
  cases ha with
  | refuse | covered | ask | keep | giveBack => exact .inr rfl
  | @grant _ _ _ _ _ goal | @fail _ _ _ _ _ goal => cases goal <;> exact .inr rfl
  | _ => exact .inl rfl

/-- A request that is asleep after an advance was so before, or has just fallen asleep. -/
theorem Advance.calls_of_plans (ha : Advance s p s' p') (hk : s'.calls[c]? = some k)
    (hp : k.point.plans = true) : s.calls[c]? = some k ∨
      p.call? = some c ∧ p.planner? = some k.transaction ∧ p'.planner? = none := by
  rcases ha.calls_of_asleep hk (Point.isAsleep_of_plans hp) with
    hk | ⟨r, name, kind, d, goal, w, rfl, rfl, rfl⟩
  · exact .inl hk
  · cases goal with
    | single => exact absurd hp (by simp [Point.plans])
    | plan => exact .inr ⟨rfl, rfl, rfl⟩

theorem Advance.plans (ha : Advance s p s' p') (h : s'.Plans p' q) : s.Plans p q := by
  rcases h with hp | ⟨c, k, hk, rfl, hp⟩
  · rcases ha.planner? with hnone | hsame
    · exact absurd (hnone.symm.trans hp) (by simp)
    · exact .inl (hsame.symm.trans hp)
  · rcases ha.calls_of_plans hk hp with hk | ⟨-, hplanner, -⟩
    · exact .inr ⟨c, k, hk, rfl, hp⟩
    · exact .inl hplanner

/-- A request that goes on after a start is one that the event makes, or it has been asleep. -/
theorem Start.planner? (hst : Start s e s' p) (hp : p.planner? = some r) :
    (e.asker? = some r ∧ (s.transactionAt r).state = .active) ∨
      ∃ (c : CallId) (k : Call), s.calls[c]? = some k ∧ k.transaction = r ∧
        k.point.plans = true ∧ s'.calls[c]? = none := by
  cases hst with
  | lock _ hs | lockAll _ hs =>
    cases hp
    exact .inl ⟨rfl, hs⟩
  | @wake c _ _ _ goal _ hk | @expire c _ _ _ goal _ hk =>
    cases goal with
    | single => exact absurd hp (by simp [Stage.planner?])
    | plan =>
      cases hp
      refine .inr ⟨c, _, hk, rfl, rfl, ?_⟩
      exact calls_dismiss.trans (if_pos rfl)
  | _ => exact absurd hp (by simp [Stage.planner?])

/-- A request that is asleep after a start was so before. -/
theorem InOrder.calls_of_plans (ho : InOrder s idle) (hst : Start s e s' p)
    (hk : s'.calls[c]? = some k) (hp : k.point.plans = true) : ∃ j, s.calls[c]? = some j ∧
      j.transaction = k.transaction ∧ j.point.plans = true := by
  obtain ⟨r, access, point⟩ := k
  cases point with
  | waiting name d goal =>
    obtain ⟨d', hk'⟩ := ho.calls_of_asleep hst hk
    exact ⟨_, hk', rfl, by cases goal <;> exact hp⟩
  | _ => exact absurd hp (by simp [Point.plans])

theorem InOrder.plans (ho : InOrder s idle) (hst : Start s e s' p) (h : s'.Plans p q) :
    s.Plans idle q ∨ (s.transactionAt q).state = .active := by
  rcases h with hp | ⟨c, k, hk, rfl, hp⟩
  · rcases hst.planner? hp with ⟨-, hactive⟩ | ⟨c, k, hk, hr, hp, -⟩
    · exact .inr hactive
    · exact .inl (.inr ⟨c, k, hk, hr, hp⟩)
  · obtain ⟨j, hj, hr, hp⟩ := ho.calls_of_plans hst hk hp
    exact .inl (.inr ⟨c, j, hj, hr, hp⟩)

/-- No transaction is committing while it asks for locks, for a commit excludes all other calls. -/
theorem Ledger.ne_committing_of_plans (hl : Ledger s p hs) (h : s.Plans p r) :
    (s.transactionAt r).state ≠ .committing := by
  intro hstate
  have hphase : ∀ {phase : Phase}, (s.transactionAt r).state = phase.state → phase ≠ .rollback := by
    rintro phase hphase rfl
    exact absurd (hstate.symm.trans hphase) (by simp [Phase.state])
  rcases h with hp | ⟨c, k, hk, rfl, hp⟩
  · have haside := hl.inOrder.aside r .shared (Stage.user?_of_planner? hp)
    have hactive := hl.active_of_canRollBack (Stage.task?_of_planner? hp) (hstate ▸ rfl)
      (by simp) haside
    exact absurd (hstate.symm.trans hactive) (by simp)
  · have hshared : k.access = .shared := by
      have hsuits := hl.inOrder.suited c k hk
      cases hpoint : k.point with
      | waiting => rwa [hpoint] at hsuits
      | _ => exact absurd hp (by simp [hpoint, Point.plans])
    rcases (hl.entry k.transaction).underway .commit hstate with
      ⟨b, ⟨phase, store, rest⟩, hb⟩ | ⟨b, ⟨phase, rest⟩, hb⟩
    · have hne := hphase ((hl.entry k.transaction).calling b phase store rest hb).1
      obtain ⟨j, hj, hjr, htask⟩ := taskAt_eq_some hb
      have hsuits := hl.inOrder.suited b j hj
      have hexclusive : j.access = .exclusive := by
        cases hpoint : j.point with
        | waiting => exact absurd htask (by simp [hpoint, Point.task?])
        | rollingBack =>
          rw [hpoint] at htask
          cases htask
          exact absurd rfl hne
        | _ => rwa [hpoint] at hsuits
      have hbc : b ≠ c := by
        rintro rfl
        obtain rfl := Option.some.inj (hj.symm.trans hk)
        exact absurd (hshared.symm.trans hexclusive) (by simp)
      have hpermits := hl.inOrder.apart b c j k hj hk hbc hjr
      rw [hshared, hexclusive] at hpermits
      exact absurd hpermits (by simp [Access.permits])
    · have hne := hphase ((hl.entry k.transaction).going b phase rest hb).1
      have huser : p.user? = some (k.transaction, .exclusive) := by
        cases p with
        | preparing | committing => cases hb; rfl
        | undoing =>
          cases hb
          exact absurd rfl hne
        | _ => exact absurd hb (by simp [Stage.task?])
      have hpermits := hl.inOrder.aside _ _ huser c k hk rfl
      rw [hshared] at hpermits
      exact absurd hpermits (by simp [Access.permits])

namespace Alone

theorem start (h : Alone s idle) (ho : InOrder s idle) (he : s.OneAtATime e)
    (hst : Start s e s' p) : Alone s' p where
  aside r hp c k hk hr := by
    refine Bool.eq_false_iff.mpr fun hplans => ?_
    obtain ⟨j, hj, hjk, hjplans⟩ := ho.calls_of_plans hst hk hplans
    rcases hst.planner? hp with ⟨hasker, -⟩ | ⟨b, i, hi, hir, hiplans, hgone⟩
    · have hawake := he r hasker c j hj (hjk.trans hr)
      exact absurd (Point.isAsleep_of_plans hjplans) (by simp [hawake])
    · obtain rfl := h.apart c b j i hj hi (by rw [hjk, hr, hir]) hjplans hiplans
      exact absurd (hgone.symm.trans hk) (by simp)
  apart b c j k hj hk hjk hjplans hkplans := by
    obtain ⟨j', hj', hjj, hjplans'⟩ := ho.calls_of_plans hst hj hjplans
    obtain ⟨k', hk', hkk, hkplans'⟩ := ho.calls_of_plans hst hk hkplans
    exact h.apart b c j' k' hj' hk' (by rw [hjj, hkk, hjk]) hjplans' hkplans'
  uncommitted r hplans := by
    rw [ne_eq, (hst.begins ho r).eq_iff rfl]
    rcases ho.plans hst hplans with hplans | hactive
    · exact h.uncommitted r hplans
    · simp [hactive]

theorem advance (h : Alone s p) (hl : Ledger s p hs) (ha : Advance s p s' p') : Alone s' p' where
  aside r hp c k hk hr := by
    refine Bool.eq_false_iff.mpr fun hplans => ?_
    have hbefore : p.planner? = some r := by
      rcases ha.planner? with hnone | hsame
      · exact absurd (hnone.symm.trans hp) (by simp)
      · exact hsame.symm.trans hp
    rcases ha.calls_of_plans hk hplans with hk | ⟨-, -, hnone⟩
    · exact absurd (h.aside r hbefore c k hk hr) (by simp [hplans])
    · exact absurd (hnone.symm.trans hp) (by simp)
  apart b c j k hj hk hjk hjplans hkplans := by
    rcases ha.calls_of_plans hj hjplans with hj | ⟨hb, hbplanner, -⟩ <;>
      rcases ha.calls_of_plans hk hkplans with hk | ⟨hc, hcplanner, -⟩
    · exact h.apart b c j k hj hk hjk hjplans hkplans
    · exact absurd (h.aside _ hcplanner b j hj hjk) (by simp [hjplans])
    · exact absurd (h.aside _ hbplanner c k hk hjk.symm) (by simp [hkplans])
    · exact Option.some.inj (hb.symm.trans hc)
  uncommitted r hplans := by
    have hplans := ha.plans hplans
    have hcommitting := hl.ne_committing_of_plans hplans
    have hcommitted := h.uncommitted r hplans
    have hturns := ha.turns hl r
    intro hafter
    rw [hafter] at hturns
    generalize (s.transactionAt r).state = x at hturns hcommitting hcommitted
    cases hturns with
    | begins hbegins =>
      cases hbegins with
      | stay => exact hcommitted rfl
    | committed => exact hcommitting rfl

theorem rest {response : Response} (h : Alone s (.concluded response)) : Alone s idle :=
  ⟨h.aside, h.apart, h.uncommitted⟩

theorem new (g : Granularity) (configs : List Config) (lockConfig : Config) :
    Alone (System.new g configs lockConfig) idle where
  aside _ hp := absurd hp (by simp [Stage.planner?])
  apart b c j k hj := absurd hj (by simp [System.new])
  uncommitted r _ := by
    rw [transactionAt_new]
    simp [default]

end Alone

/-! ### The accounts -/

/-- A transaction is rolled back and has no request that could fail once more. -/
def Spent (s : System) (p : Stage) (r : TransactionRef) : Prop :=
  (s.transactionAt r).state.Undone ∧ ¬ s.Plans p r

/-- What the counters tell.  Every failure is put down to a transaction of its own. -/
structure Accounts (s : System) (p : Stage) : Prop where
  commits : s.statistics.commits = (s.inState .committed).card
  rollbacks : s.statistics.rollbacks = (s.inState .aborted).card
  waited : s.statistics.waited ≤ s.statistics.granted
  spent : ∃ blamed : Finset TransactionRef, s.statistics.failures ≤ blamed.card ∧
    ∀ r ∈ blamed, s.Spent p r

theorem Spent.start (h : s.Spent idle r) (ho : InOrder s idle) (hst : Start s e s' p) :
    s'.Spent p r := by
  refine ⟨(State.Turns.begins (hst.begins ho r)).undone h.1, fun hplans => ?_⟩
  rcases ho.plans hst hplans with hplans | hactive
  · exact h.2 hplans
  · exact absurd h.1 (by simp [hactive, State.Undone])

theorem Spent.advance (h : s.Spent p r) (hl : Ledger s p hs) (ha : Advance s p s' p') :
    s'.Spent p' r :=
  ⟨(ha.turns hl r).undone h.1, fun hplans => h.2 (ha.plans hplans)⟩

/-- Who ends is counted, and nobody else. -/
theorem Ledger.counts_endings (hl : Ledger s p hs) (ha : Advance s p s' p')
    (hcommits : s.statistics.commits = (s.inState .committed).card)
    (hrollbacks : s.statistics.rollbacks = (s.inState .aborted).card) :
    s'.statistics.commits = (s'.inState .committed).card ∧
      s'.statistics.rollbacks = (s'.inState .aborted).card := by
  have huser := hl.inOrder.user
  have haborts : ∀ {c r access cause}, p = .undoing c r access cause [] →
      Moves s s' r .aborted → s'.statistics = s.statistics.countRollback →
      s'.statistics.commits = (s'.inState .committed).card ∧
        s'.statistics.rollbacks = (s'.inState .aborted).card := by
    rintro c r access cause rfl hmoves hstat
    have hstate : (s.transactionAt r).state = .aborting := ((hl.entry r).going c .rollback [] rfl).1
    rw [hstat, card_inState_of_moves (by simp) hmoves (by simp [hstate]),
      inState_of_moves (by simp) hmoves (by simp) (by simp [hstate])]
    exact ⟨hcommits, congrArg (· + 1) hrollbacks⟩
  by_cases hdone : ∃ c r phase, p.task? = some (c, r, phase, []) ∧ phase ≠ .prepare
  · obtain ⟨c, r, phase, hp, hne⟩ := hdone
    cases ha with
    | undone =>
      cases hp
      exact haborts rfl ((moves_setState (huser r _ rfl) .aborted).congr fun _ => ending_retire) rfl
    | removed =>
      cases hp
      refine haborts rfl ((moves_setState (huser r _ rfl) .aborted).congr fun q => ?_)
        (statistics_alert _ _)
      rw [transactionAt_alert]
      exact ending_retire
    | committed =>
      cases hp
      have hstate : (s.transactionAt r).state = .committing :=
        ((hl.entry r).going c .commit [] rfl).1
      have hmoves : Moves s (((s.setState r .committed).retire r).setStatistics
          s.statistics.countCommit) r .committed :=
        (moves_setState (huser r _ rfl) .committed).congr fun _ => ending_retire
      rw [card_inState_of_moves (by simp) hmoves (by simp [hstate]),
        inState_of_moves (by simp) hmoves (by simp) (by simp [hstate])]
      exact ⟨congrArg (· + 1) hcommits, hrollbacks⟩
    | prepared =>
      cases hp
      exact absurd rfl hne
    | _ => exact absurd hp (by simp [Stage.task?])
  · have hbegins := ha.begins hl.inOrder hl.current fun c r phase hp =>
      not_not.mp fun hne => hdone ⟨c, r, phase, hp, hne⟩
    rw [inState_congr (by simp) fun q => (hbegins q).eq_iff rfl,
      inState_congr (by simp) fun q => (hbegins q).eq_iff rfl, ← hcommits, ← hrollbacks]
    cases ha with
    | undone | removed | committed => exact absurd ⟨_, _, _, rfl, by simp⟩ hdone
    | @abort _ _ _ _ error | @abortEnded _ _ _ _ error => cases error <;> exact ⟨rfl, rfl⟩
    | _ => exact ⟨rfl, rfl⟩

theorem Advance.waited_le (ha : Advance s p s' p')
    (h : s.statistics.waited ≤ s.statistics.granted) :
    s'.statistics.waited ≤ s'.statistics.granted := by
  cases ha with
  | @keep _ _ _ _ _ w =>
    show (if w then s.statistics.waited + 1 else s.statistics.waited) ≤ s.statistics.granted + 1
    split <;> omega
  | @abort _ _ _ _ error | @abortEnded _ _ _ _ error => cases error <;> exact h
  | removed => rw [statistics_alert]; exact h
  | _ => exact h

/-- A request that fails leaves its transaction rolled back and without a request. -/
theorem Alone.spent_of_failure (h : Alone s p) (hl : Ledger s p hs) (ha : Advance s p s' p') :
    s'.statistics.failures = s.statistics.failures ∨
      s'.statistics.failures ≤ s.statistics.failures + 1 ∧
        ∃ r, p.planner? = some r ∧ s'.Spent p' r := by
  have hidle : ∀ {c r e rest error}, p = .failed c r (.plan e rest) error →
      s'.calls = s.calls → p'.planner? = none → ¬ s'.Plans p' r := by
    rintro c r e rest error rfl hcalls hnone (hp | ⟨b, k, hk, hr, hp⟩)
    · exact absurd (hnone.symm.trans hp) (by simp)
    · rw [hcalls] at hk
      exact absurd (h.aside r rfl b k hk hr) (by simp [hp])
  cases ha with
  | @abort c r e rest error hs =>
    refine .inr ⟨Statistics.failures_countFailure _ _, r, rfl, .inl ?_, hidle rfl rfl rfl⟩
    exact (moves_setState (s := s.setStatistics _) (hl.inOrder.user r _ rfl) .aborting).self
  | @abortEnded c r e rest error hs =>
    refine .inr ⟨Statistics.failures_countFailure _ _, r, rfl, ?_, hidle rfl rfl rfl⟩
    have hne := h.uncommitted r (.inl rfl)
    show (s.transactionAt r).state.Undone
    cases hstate : (s.transactionAt r).state with
    | active | committing => exact absurd hs (by simp [hstate, State.canRollBack])
    | committed => exact absurd hstate hne
    | aborting => exact .inl rfl
    | aborted => exact .inr rfl
  | removed => rw [statistics_alert]; exact .inl rfl
  | _ => exact .inl rfl

namespace Accounts

theorem start (h : Accounts s idle) (ho : InOrder s idle) (hst : Start s e s' p)
    (hstat : s'.statistics = s.counted e) : Accounts s' p := by
  have hsame : ∀ {x : State}, x.isFinal = true → s'.inState x = s.inState x := by
    intro x hx
    refine inState_congr ?_ fun q => (hst.begins ho q).eq_iff hx
    rintro rfl
    exact absurd hx (by simp [State.isFinal])
  have hcounted : ∀ {α : Type} (f : Statistics → α),
      f s.statistics.countStoreRollbackFailure = f s.statistics → f s'.statistics = f s.statistics := by
    intro α f hf
    rw [hstat, counted]
    split
    · exact hf
    · rfl
  obtain ⟨blamed, hle, hspent⟩ := h.spent
  refine ⟨?_, ?_, ?_, blamed, ?_, fun r hr => (hspent r hr).start ho hst⟩
  · rw [hsame rfl, hcounted Statistics.commits rfl, h.commits]
  · rw [hsame rfl, hcounted Statistics.rollbacks rfl, h.rollbacks]
  · rw [hcounted Statistics.waited rfl, hcounted Statistics.granted rfl]
    exact h.waited
  · rw [hcounted Statistics.failures rfl]
    exact hle

theorem advance (h : Accounts s p) (hl : Ledger s p hs) (halone : Alone s p)
    (ha : Advance s p s' p') : Accounts s' p' := by
  obtain ⟨hcommits, hrollbacks⟩ := hl.counts_endings ha h.commits h.rollbacks
  refine ⟨hcommits, hrollbacks, ha.waited_le h.waited, ?_⟩
  obtain ⟨blamed, hle, hspent⟩ := h.spent
  rcases halone.spent_of_failure hl ha with hsame | ⟨hmore, r, hr, hspent'⟩
  · exact ⟨blamed, hsame ▸ hle, fun q hq => (hspent q hq).advance hl ha⟩
  · -- The request is the only one of its transaction, so nothing was put down to it before.
    have hnew : r ∉ blamed := fun hmem => (hspent r hmem).2 (.inl hr)
    refine ⟨insert r blamed, ?_, fun q hq => ?_⟩
    · rw [Finset.card_insert_of_notMem hnew]
      omega
    · rcases Finset.mem_insert.mp hq with rfl | hq
      · exact hspent'
      · exact (hspent q hq).advance hl ha

theorem rest {response : Response} (h : Accounts s (.concluded response)) : Accounts s idle :=
  ⟨h.commits, h.rollbacks, h.waited, h.spent⟩

theorem new (g : Granularity) (configs : List Config) (lockConfig : Config) :
    Accounts (System.new g configs lockConfig) idle := by
  have hnone : ∀ x, (System.new g configs lockConfig).inState x = ∅ := by
    intro x
    rw [inState, refs_new, Finset.filter_empty]
  refine ⟨?_, ?_, Nat.le_refl _, ∅, Nat.zero_le _, by simp⟩ <;> rw [hnone] <;> rfl

/-- At rest nobody is half rolled back, so whoever a failure is put down to was counted. -/
theorem failures_le (h : Accounts s idle) (hl : Ledger s idle hs)
    (hrest : ∀ (c : CallId) (k : Call), s.calls[c]? = some k → k.point.isAsleep = true) :
    s.statistics.failures ≤ s.statistics.rollbacks := by
  obtain ⟨blamed, hle, hspent⟩ := h.spent
  have hsub : blamed ⊆ s.inState .aborted := by
    intro r hr
    rw [mem_inState (by simp)]
    refine (hspent r hr).1.resolve_left fun haborting => ?_
    rcases (hl.entry r).underway .rollback haborting with ⟨c, task, hc⟩ | ⟨c, task, hc⟩
    · obtain ⟨k, hk, -, -⟩ := taskAt_eq_some hc
      rw [Ledger.taskAt_asleep hk (hrest c k hk)] at hc
      exact absurd hc (by simp)
    · exact absurd hc (by simp [Stage.task?])
  exact hle.trans ((Finset.card_le_card hsub).trans h.rollbacks.ge)

end Accounts

/-- All that is known of the counters and of those whom they count. -/
structure Balanced (s : System) (p : Stage) : Prop where
  ledger : ∃ hs, Ledger s p hs
  alone : Alone s p
  accounts : Accounts s p

namespace Balanced

theorem advance (h : Balanced s p) (ha : Advance s p s' p') : Balanced s' p' := by
  obtain ⟨hs, hl⟩ := h.ledger
  exact ⟨⟨_, (hl.advance ha).ledger⟩, h.alone.advance hl ha, h.accounts.advance hl h.alone ha⟩

theorem step (h : Balanced s idle) (he : s.OneAtATime e) : Balanced (s.step e).1 idle := by
  obtain ⟨hs, hl⟩ := h.ledger
  obtain ⟨s', p, hst, hend, hstat⟩ := hl.inOrder.tidy.follows_counted e
  have hstart : Balanced s' p := ⟨⟨_, (hl.start hst).ledger⟩,
    h.alone.start hl.inOrder he hst, h.accounts.start hl.inOrder hst hstat⟩
  clear hst hstat
  generalize s.step e = result at hend
  induction hend with
  | concluded =>
    obtain ⟨hs', hl'⟩ := hstart.ledger
    exact ⟨⟨_, hl'.rest.ledger⟩, hstart.alone.rest, hstart.accounts.rest⟩
  | step ha _ ih => exact ih (hstart.advance ha)

theorem run {events : List Event} (h : Balanced s idle) (he : Obeys OneAtATime s events) :
    Balanced (s.run events) idle := by
  induction events generalizing s with
  | nil => exact h
  | cons e events ih => exact ih (h.step he.1) he.2

end Balanced

/-- The counters account for every transaction.  Over any run of any number of managers in which no
transaction asks for locks while a request of it is asleep, whatever the stores reply and whoever
interrupts or removes transactions: as many transactions were begun as are counted as committed, as
are counted as rolled back, and as the managers still list; no more requests have waited than were
granted; as many rollbacks of stores are counted as failed as stores have replied so; and whenever
no call is in progress but requests that are asleep, no more requests are counted as failed than
transactions as rolled back. -/
theorem counters_account (g : Granularity) (configs : List Config) (lockConfig : Config)
    (events : List Event)
    (ho : Obeys OneAtATime (System.new g configs lockConfig) events) :
    let fresh := System.new g configs lockConfig
    let s := fresh.run events
    events.countP (Event.begins configs.length) = s.statistics.commits + s.statistics.rollbacks +
        ∑ m ∈ Finset.range configs.length, (s.registered m).length ∧
      s.statistics.waited ≤ s.statistics.granted ∧
      s.statistics.storeRollbackFailures =
        (fresh.history events).countP Contact.isFailedRollback ∧
      ((∀ (c : CallId) (k : Call), s.calls[c]? = some k → k.point.isAsleep = true) →
        s.statistics.deadlocks + s.statistics.interrupts + s.statistics.timeouts ≤
          s.statistics.rollbacks) := by
  intro fresh s
  have hnew : Ledger fresh idle [] := Ledger.new g configs lockConfig
  have h : Balanced s idle := Balanced.run
    ⟨⟨[], hnew⟩, .new g configs lockConfig, .new g configs lockConfig⟩ ho
  obtain ⟨hs, hl⟩ := h.ledger
  obtain ⟨hlen, hbegun⟩ := hnew.inOrder.card_refs_run events
  have hmanagers : fresh.begun.length = configs.length := List.length_replicate
  rw [refs_new, Finset.card_empty, Nat.zero_add] at hbegun
  rw [hmanagers] at hlen hbegun
  refine ⟨?_, h.accounts.waited, hnew.storeRollbackFailures_run rfl events,
    h.accounts.failures_le hl⟩
  rw [← hbegun, h.accounts.commits, h.accounts.rollbacks]
  have hcard := card_refs hl.inOrder (listed_run g configs lockConfig events)
    (departed_run g configs lockConfig events)
  rwa [hlen] at hcard

/-- Two managers share the locks.  One transaction commits, one runs into its timeout and a store
fails to roll it back, one commits while another one waits for it, which then holds its lock, and
the last one is asleep. -/
theorem counters_of_five :
    let events : List Event := [.begin 0, .begin 0, .begin 1, .begin 1, .begin 1, .begin 2,
      .lock ⟨0, 1⟩ ⟨["a"]⟩ .exclusive, .register ⟨0, 2⟩ ⟨7, "rows"⟩,
      .lock ⟨0, 2⟩ ⟨["a"]⟩ .shared, .expire 0, .reply 0 (.failed "lost"), .commit ⟨0, 1⟩,
      .lock ⟨1, 1⟩ ⟨["b"]⟩ .exclusive, .lock ⟨1, 3⟩ ⟨["b"]⟩ .exclusive, .commit ⟨1, 1⟩, .wake 1,
      .lock ⟨1, 2⟩ ⟨["b"]⟩ .shared]
    let configs : List Config := [{ twoPhaseCommit := false }, {}]
    let lockConfig : Config := { lockWaitTimeout := some (.ofSeconds 5 0) }
    let fresh := System.new .hierarchical configs lockConfig
    let s := fresh.run events
    Obeys OneAtATime fresh events ∧
      (∀ (c : CallId) (k : Call), s.calls[c]? = some k → k.point.isAsleep = true) ∧
      s.statistics = ⟨3, 1, 0, 0, 1, 2, 1, 1⟩ ∧
      s.statistics.commits + s.statistics.rollbacks +
        ∑ m ∈ Finset.range 2, (s.registered m).length = 5 ∧
      s.statistics.deadlocks + s.statistics.interrupts + s.statistics.timeouts ≤
        s.statistics.rollbacks := by
  intro events configs lockConfig fresh s
  have ho : Obeys OneAtATime fresh events := by decide +kernel
  have hasleep : ∀ entry ∈ s.calls.toList, entry.2.point.isAsleep = true := by decide +kernel
  have hrest : ∀ (c : CallId) (k : Call), s.calls[c]? = some k → k.point.isAsleep = true :=
    fun c k hk => hasleep (c, k) (Std.ExtTreeMap.mem_toList_iff_getElem?_eq_some.mpr hk)
  have hbegun : events.countP (Event.begins 2) = 5 := by decide +kernel
  obtain ⟨hcount, -, -, hle⟩ := counters_account .hierarchical configs lockConfig events ho
  refine ⟨ho, hrest, by decide +kernel, ?_, ?_⟩
  · simp only [s, fresh]
    exact hcount.symm.trans hbegun
  · simp only [s, fresh]
    exact hle hrest

end System

end Locking
