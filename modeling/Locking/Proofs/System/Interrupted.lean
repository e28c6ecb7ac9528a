import Locking.Proofs.Commit.Undoing
import Locking.Proofs.Hierarchy.Plan
import Locking.Proofs.Lock.Kept
import Locking.Proofs.System.Registry

/-! What an interrupt is good for.  A transaction that is interrupted while it is active, or that
its manager removes, gets no lock any more and never commits, whichever of its requests were asleep
by then and in whatever order things happen: the flag is never lowered, and every request looks at
it before it is granted, as every commit does before it begins.  As long as such a transaction is
still active, the next thing that it tries rolls it back. -/

namespace Locking

namespace Event

/-- The transaction for which a call asks for the locks of entities, at least for one, or commits,
and the use that the call makes of it. -/
def demand? : Event → Option (TransactionRef × Access)
  | lock r _ _ | lockAll r (_ :: _) => some (r, .shared)
  | commit r => some (r, .exclusive)
  | _ => none

end Event

namespace Transaction

/-- From one moment to the next, a transaction that was interrupted before has not been granted a
lock and has not begun to commit. -/
structure Withers (t t' : Transaction) : Prop where
  interrupted : t.isInterrupted = true → t'.isInterrupted = true
  lockSet : ∀ e ∈ t'.lockSet, e ∈ t.lockSet
  uncommitted : t.state ≠ .committing ∧ t.state ≠ .committed →
    t'.state ≠ .committing ∧ t'.state ≠ .committed

variable {t t' t'' : Transaction}

theorem Withers.refl (t : Transaction) : t.Withers t := ⟨id, fun _ => id, id⟩

theorem Withers.trans (h : t.Withers t') (h' : t'.Withers t'') : t.Withers t'' :=
  ⟨h'.interrupted ∘ h.interrupted, fun e he => h.lockSet e (h'.lockSet e he),
    h'.uncommitted ∘ h.uncommitted⟩

theorem withers_clear (t : Transaction) : t.Withers { t with lockSet := ∅ } :=
  ⟨id, fun _ he => absurd he Std.ExtTreeSet.not_mem_empty, id⟩

end Transaction

/-- A transaction number has the same hold of a lock as before, or none. -/
def Lock.Dwindles (u : TransactionId) (l l' : Lock) : Prop :=
  l'.modeOf u = l.modeOf u ∨ l'.modeOf u = none

namespace Lock.Dwindles

variable {l l' l'' : Lock} {i u : TransactionId} {kind : Request} {w : Bool}

theorem refl (l : Lock) : Dwindles u l l := .inl rfl

theorem trans (h : Dwindles u l l') (h' : Dwindles u l' l'') : Dwindles u l l'' :=
  h'.elim (fun h' => h.imp h'.trans h'.trans) .inr

theorem of_modeOf (h : l'.modeOf u = if u = i then none else l.modeOf u) : Dwindles u l l' := by
  by_cases hu : u = i
  · exact .inr (h.trans (if_pos hu))
  · exact .inl (h.trans (if_neg hu))

theorem lenient : Lenient (Dwindles u) :=
  ⟨refl, trans, fun _ => .inl rfl, fun _ _ => of_modeOf modeOf_release⟩

theorem approach (l : Lock) (i : TransactionId) (kind : Request) (w : Bool) :
    Dwindles u l (l.approach i kind w) := by
  unfold Lock.approach Lock.enter
  split
  · exact refl l
  · split
    · exact of_modeOf modeOf_beginUpgrade
    · exact refl l

end Lock.Dwindles

namespace System

open Transaction

variable {s s' : System} {p p' : Stage} {e : Event} {r q : TransactionRef} {hs : History}
  {held : Std.ExtTreeSet EntityId} {c : CallId} {d : Deadline} {goal : Goal} {w : Bool}
  {name : LockName} {kind : Request} {access : Access}

/-! ### From one moment to the next -/

theorem withers_releaseAll (s : System) (r q : TransactionRef) :
    (s.transactionAt q).Withers ((s.releaseAll r).transactionAt q) := by
  rw [releaseAll_eq]
  exact rel_modifyTransaction .refl withers_clear

theorem withers_retire (s : System) (r q : TransactionRef) :
    (s.transactionAt q).Withers ((s.retire r).transactionAt q) :=
  (withers_releaseAll s r q).trans (rel_modifyTransaction .refl fun _ => ⟨id, fun _ => id, id⟩)

theorem withers_setState {state : State} (s : System) (r q : TransactionRef)
    (hstate : state ≠ .committing ∧ state ≠ .committed) :
    (s.transactionAt q).Withers ((s.setState r state).transactionAt q) :=
  rel_modifyTransaction .refl fun _ => ⟨id, fun _ => id, fun _ => hstate⟩

theorem Start.withers (ho : InOrder s idle) (hst : Start s e s' p) :
    (s.transactionAt q).Withers (s'.transactionAt q) := by
  cases hst with
  | begin hn => exact transactionAt_begin ho hn _ q ▸ .refl _
  | acquire | upgrade | register | dropEnded =>
    exact rel_modifyTransaction .refl fun _ => ⟨id, fun _ => id, id⟩
  | commitInterrupted | rollback => exact withers_setState s _ q (by simp)
  | notPrepared | notCommitted => exact withers_setState (s.dismiss _) _ q (by simp)
  | @drop r =>
    have hdropped : (s.transactionAt q).Withers
        ((s.modifyTransaction r fun t => { t with isOwned := false }).transactionAt q) :=
      rel_modifyTransaction .refl fun _ => ⟨id, fun _ => id, id⟩
    exact hdropped.trans (withers_setState _ r q (by simp))
  | interrupt | managerInterrupt =>
    rw [System.interrupt, transactionAt_alert]
    exact rel_modifyTransaction .refl fun _ => ⟨fun _ => rfl, fun _ => id, id⟩
  | remove =>
    exact rel_modifyTransaction .refl fun _ => ⟨fun _ => rfl, fun _ => id, fun _ => by simp⟩
  | unlockAll => exact withers_releaseAll s _ q
  | forget => exact withers_releaseAll s _ q
  | _ => exact .refl _

/-- Only a request that has been granted and the beginning and the end of a commit do anything
else. -/
theorem Advance.withers (ha : Advance s p s' p') (hg : ∀ c d goal w, p ≠ .granted c q d goal w)
    (hd : ∀ c, p ≠ .deciding c q) (hc : ∀ c, p ≠ .committing c q []) :
    (s.transactionAt q).Withers (s'.transactionAt q) := by
  cases ha with
  | ask | grant | fail => exact rel_modifyTransaction .refl fun _ => ⟨id, fun _ => id, id⟩
  | @keep c r =>
    have hqr : q ≠ r := by
      rintro rfl
      exact hg _ _ _ _ rfl
    exact (transactionAt_modifyTransaction_ne hqr).symm ▸ .refl _
  | abort => exact withers_setState _ _ q (by simp)
  | @beginPhased c r | @beginAtOnce c r =>
    have hqr : q ≠ r := by
      rintro rfl
      exact hd c rfl
    rw [setState, transactionAt_modifyTransaction_ne hqr]
    exact .refl _
  | undone =>
    exact (withers_setState s _ q (by simp)).trans (withers_retire (s.setState _ .aborted) _ q)
  | removed =>
    rw [transactionAt_alert]
    exact (withers_setState s _ q (by simp)).trans (withers_retire (s.setState _ .aborted) _ q)
  | @committed c r =>
    have hqr : q ≠ r := by
      rintro rfl
      exact hc _ rfl
    have hother : (s.setState r .committed).transactionAt q = s.transactionAt q :=
      transactionAt_modifyTransaction_ne hqr
    exact hother ▸ withers_retire (s.setState r .committed) r q
  | _ => exact .refl _

/-! ### A transaction that has been told to end -/

/-- The transaction has been interrupted before it began to commit: it holds no more locks than
those in `held`, and none of its requests is granted. -/
structure Doomed (held : Std.ExtTreeSet EntityId) (r : TransactionRef) (s : System) (p : Stage) :
    Prop where
  known : r ∈ s.transactions
  interrupted : (s.transactionAt r).isInterrupted = true
  uncommitted : (s.transactionAt r).state ≠ .committing ∧ (s.transactionAt r).state ≠ .committed
  ungranted : ∀ c d goal w, p ≠ .granted c r d goal w
  undecided : ∀ c, p ≠ .deciding c r
  lockSet : ∀ e ∈ (s.transactionAt r).lockSet, e ∈ held

namespace Doomed

theorem start (h : Doomed held r s idle) (ho : InOrder s idle) (hst : Start s e s' p) :
    Doomed held r s' p := by
  have hw := hst.withers ho (q := r)
  refine ⟨hst.mem_transactions h.known, hw.interrupted h.interrupted, hw.uncommitted h.uncommitted,
    ?_, ?_, fun e he => h.lockSet e (hw.lockSet e he)⟩
  · rintro c d goal w rfl
    nomatch hst
  · rintro c rfl
    cases hst with
    | commit _ _ hi => exact absurd (h.interrupted.symm.trans hi) (by simp)

theorem advance (h : Doomed held r s p) (hl : Ledger s p hs) (ha : Advance s p s' p') :
    Doomed held r s' p' := by
  have hw := ha.withers h.ungranted h.undecided fun c hp => by
    subst hp
    exact h.uncommitted.1 ((hl.entry r).going c .commit [] rfl).1
  refine ⟨ha.mem_transactions.mpr h.known, hw.interrupted h.interrupted,
    hw.uncommitted h.uncommitted, ?_, ?_, fun e he => h.lockSet e (hw.lockSet e he)⟩
  · -- The flag is looked at before anything is granted.
    rintro c d goal w rfl
    cases ha with
    | covered hi => exact absurd (h.interrupted.symm.trans hi) (by simp)
    | grant hj =>
      have hi : (s.transactionAt r).isInterrupted = false := (Attempt.judge_eq_granted_iff.mp hj).1
      exact absurd (h.interrupted.symm.trans hi) (by simp)
  · rintro c rfl
    nomatch ha

theorem invariant (held : Std.ExtTreeSet EntityId) (r : TransactionRef) :
    Invariant (fun _ _ => True) fun s p => (∃ hs, Ledger s p hs) ∧ Doomed held r s p where
  inOrder h := Ledger.invariant.inOrder h.1
  rest h := ⟨Ledger.invariant.rest h.1, h.2.known, h.2.interrupted, h.2.uncommitted, by simp,
    by simp, h.2.lockSet⟩
  start he h hst := ⟨Ledger.invariant.start he h.1 hst,
    h.2.start (Ledger.invariant.inOrder h.1) hst⟩
  advance h ha := ⟨Ledger.invariant.advance h.1 ha, h.2.advance h.1.choose_spec ha⟩

end Doomed

/-! ### The interrupt -/

/-- An event interrupts a transaction that is active: somebody does who has the means to, or its
manager does, or its manager removes it. -/
def Strikes (s : System) (e : Event) (r : TransactionRef) : Prop :=
  r ∈ s.transactions ∧ (s.transactionAt r).state = .active ∧
    (e = .interrupt r ∨ e = .managerInterrupt r ∨ e = .remove r)

instance : Decidable (s.Strikes e r) :=
  inferInstanceAs (Decidable (r ∈ s.transactions ∧ (s.transactionAt r).state = .active ∧
    (e = .interrupt r ∨ e = .managerInterrupt r ∨ e = .remove r)))

theorem registeredState?_of_active (hr : r ∈ s.transactions)
    (hs : (s.transactionAt r).state = .active) (hlisted : (s.transactionAt r).Listed) :
    s.registeredState? r = some .active :=
  registeredState?_eq_some_iff.mpr ⟨hr, hlisted (by rw [hs]; rfl), hs⟩

theorem doomed_interrupt {response : Response} (hr : r ∈ s.transactions)
    (hs : (s.transactionAt r).state = .active) :
    Doomed (s.transactionAt r).lockSet r (s.interrupt r) (.concluded response) := by
  have hat : (s.interrupt r).transactionAt r = { s.transactionAt r with isInterrupted := true } := by
    rw [interrupt, transactionAt_alert, transactionAt_modifyTransaction s r r _ hr, if_pos rfl]
  refine ⟨?_, ?_, ?_, by simp, by simp, ?_⟩
  · exact (mem_transactions_alert _ _).mpr (mem_transactions_modifyTransaction.mpr hr)
  · rw [hat]
  · rw [hat]
    simp [hs]
  · rw [hat]
    exact fun e he => he

/-- What the removal of a transaction is about to begin with, before it calls the first store. -/
def markRemoved (s : System) (r : TransactionRef) : System :=
  s.modifyTransaction r fun t => { t with state := .aborting, isInterrupted := true }

theorem transactionAt_markRemoved (hr : r ∈ s.transactions) : (s.markRemoved r).transactionAt r =
    { s.transactionAt r with state := .aborting, isInterrupted := true } := by
  rw [markRemoved, transactionAt_modifyTransaction s r r _ hr, if_pos rfl]

/-- A transaction that is listed and active is marked and then rolled back. -/
theorem Tidy.removing_course (h : s.Tidy) (hactive : s.registeredState? r = some .active) :
    Advances (s.markRemoved r)
      (.undoing s.nextCall r .unowned .removal (s.transactionAt r).stores) (s.step (.remove r)) := by
  have hcourse := undoing_course (s.markRemoved r) s.nextCall r .unowned .removal
    (s.transactionAt r).stores
  have hdismiss : (s.markRemoved r).dismiss s.nextCall = s.markRemoved r :=
    congrArg (markRemoved · r) h.dismiss_nextCall
  rw [hdismiss] at hcourse
  simp only [step, remove, hactive]
  exact hcourse

theorem doomed_markRemoved {stores : List Store} (hr : r ∈ s.transactions) :
    Doomed (s.transactionAt r).lockSet r (s.markRemoved r)
      (.undoing c r access .removal stores) := by
  refine ⟨mem_transactions_modifyTransaction.mpr hr, ?_, ?_, by simp, by simp, ?_⟩
  · rw [transactionAt_markRemoved hr]
  · rw [transactionAt_markRemoved hr]
    simp
  · rw [transactionAt_markRemoved hr]
    exact fun e he => he

theorem Strikes.doomed (h : s.Strikes e r) (hl : Ledger s idle hs)
    (hlisted : (s.transactionAt r).Listed) :
    Doomed (s.transactionAt r).lockSet r (s.step e).1 idle := by
  obtain ⟨hr, hactive, he⟩ := h
  have hstate := registeredState?_of_active hr hactive hlisted
  rcases he with rfl | rfl | rfl
  · simp only [step, Std.ExtTreeMap.contains_iff_mem.mpr hr, if_true]
    exact doomed_interrupt hr hactive
  · simp only [step, hstate, Option.isSome_some, if_true]
    exact doomed_interrupt hr hactive
  · -- The removal interrupts the transaction before it calls the first store.
    have hst : Start s (.remove r) (s.markRemoved r) _ := .remove hstate
    exact ((Doomed.invariant _ r).advances ⟨⟨_, (hl.start hst).ledger⟩, doomed_markRemoved hr⟩
      (hl.inOrder.tidy.removing_course hstate)).2

/-! ### Holds -/

/-- Nothing but a grant gives a transaction number a hold. -/
theorem Advance.dwindles {u : TransactionId} (ha : Advance s p s' p')
    (hg : ∀ c q d goal w, p' = .granted c q d goal w → q.id ≠ u) (name : LockName) :
    Lock.Dwindles u (s.lockAt name) (s'.lockAt name) := by
  by_cases hlook : p.lock? = none
  · exact Lock.Dwindles.lenient.advance ha hlook name
  cases ha with
  | sleep => exact rel_modifyLock .refl (fun _ => Lock.Dwindles.approach _ _ _ _) name
  | @grant c r name' kind d goal w g hj =>
    have hgrantable := (Attempt.judge_eq_granted_iff.mp hj).2.1
    refine rel_modifyLock .refl (fun _ => (Lock.Dwindles.approach _ r.id kind w).trans ?_) name
    exact .inl (Lock.modeOf_grant_ne (hg c r d goal w rfl).symm hgrantable)
  | fail =>
    exact rel_modifyLock .refl
      (fun _ => (Lock.Dwindles.approach _ _ _ _).trans (.inl Lock.modeOf_abandon)) name
  | _ => exact absurd rfl hlook

theorem Start.dwindles {u : TransactionId} (hst : Start s e s' p) (name : LockName) :
    Lock.Dwindles u (s.lockAt name) (s'.lockAt name) := by
  by_cases hlook : p.lock? = none
  · exact Lock.Dwindles.lenient.start hst hlook name
  cases hst with
  | acquire | upgrade => exact .refl _
  | @wake c _ name' _ _ v | @expire c _ name' _ _ v =>
    exact rel_modifyLock (s := s.dismiss c) (f := (Lock.rouse · v)) .refl (fun _ => .inl rfl) name
  | _ => exact absurd rfl hlook

/-- A hold that is there after an event and was not there before has been granted. -/
theorem Tidy.exists_granted (h : s.Tidy) {u : TransactionId} {mode : LockMode}
    (hbefore : (s.lockAt name).modeOf u ≠ some mode)
    (hafter : ((s.step e).1.lockAt name).modeOf u = some mode) :
    ∃ s₁ p₁ s₂ c q d goal w, Passes s e s₁ p₁ s₂ (.granted c q d goal w) ∧ q.id = u := by
  obtain ⟨s₁, p₁, s₂, p₂, hpass, hnot, hheld⟩ := h.exists_passes
    (P := fun s' _ => (s'.lockAt name).modeOf u ≠ some mode) hbefore (not_not.mpr hafter)
  by_contra hnone
  have hg : ∀ c q d goal w, p₂ = .granted c q d goal w → q.id ≠ u := by
    rintro c q d goal w rfl hq
    exact hnone ⟨s₁, p₁, s₂, c, q, d, goal, w, hpass, hq⟩
  have hdwindles : Lock.Dwindles u (s₁.lockAt name) (s₂.lockAt name) := by
    cases hpass with
    | start hst => exact hst.dwindles name
    | advance _ ha => exact ha.dwindles hg name
  rcases hdwindles with hsame | hgone
  · exact hheld (hsame ▸ hnot)
  · exact hheld (by simp [hgone])

/-! ### What becomes of the next request -/

theorem rollBackStores_ne_ok {error : Error} {v : Value} (stores : List Store) :
    (s.rollBackStores c r access (.failure error) stores).2 ≠ .returned (.ok v) := by
  cases stores with
  | nil => simp [rollBackStores, conclusion, conclude]
  | cons store rest => simp [rollBackStores]

theorem abort_ne_ok {error : Error} {v : Value} :
    (s.abort c r error).2 ≠ .returned (.ok v) := by
  unfold abort rollBack
  split
  · exact rollBackStores_ne_ok _
  · simp [conclusion, conclude]

/-- A request of a transaction that was interrupted fails at the first lock. -/
theorem take_interrupted (hi : (s.transactionAt r).isInterrupted = true) {needs : List Need}
    (hn : needs ≠ []) : ∃ name, s.take c r d needs = (s.addLock name).abort c r .interrupted := by
  obtain ⟨n, rest, rfl⟩ := List.exists_cons_of_ne_nil hn
  have hi' : ((s.addLock (.entity n.entity)).transactionAt r).isInterrupted = true := hi
  exact ⟨.entity n.entity, by simp only [take, ask, if_pos hi']⟩

theorem needs_ne_nil (g : Granularity) (e : EntityId) (mode : LockMode) : g.needs e mode ≠ [] :=
  List.ne_nil_of_mem (g.mem_needs_self e mode)

theorem needsOfAll_ne_nil (g : Granularity) {requests : List Need} (hr : requests ≠ []) :
    g.needsOfAll requests ≠ [] := by
  obtain ⟨n, hn⟩ := List.exists_mem_of_ne_nil _ hr
  obtain ⟨mode, hmem, -⟩ := g.exists_mem_needsOfAll hn
  exact List.ne_nil_of_mem hmem

/-- The transaction whose request for a lock, or for several, an event makes or lets go on. -/
def requester? (s : System) : Event → Option TransactionRef
  | .lock r _ _ | .lockAll r (_ :: _) | .acquire r _ _ _ | .upgrade r _ _ => some r
  | .wake c | .expire c => s.calls[c]?.map (·.transaction)
  | _ => none

theorem look_interrupted (hi : (s.transactionAt r).isInterrupted = true) :
    (s.look c r name kind d w).2 = .failed .interrupted := by
  rw [look_eq]
  have hj : ∀ l g, (s.attempt c r kind d w).judge l g = (g, .failed .interrupted) := fun l g =>
    if_pos hi
  simp only [Attempt.run, hj]

theorem wake_ne_ok {v : Value} {k : Call} (hk : s.calls[c]? = some k)
    (hi : (s.transactionAt k.transaction).isInterrupted = true) :
    (s.wake c).2 ≠ .returned (.ok v) := by
  obtain ⟨r, access, point⟩ := k
  cases point with
  | waiting name d goal =>
    simp only [wake, hk]
    cases hw : (s.lockAt name).waiter? c with
    | none => simp
    | some w =>
      have hlook : ((s.modifyLock name (·.rouse w)).look c r name w.request d true).2 =
          .failed .interrupted := look_interrupted hi
      simp only
      generalize (s.modifyLock name (·.rouse w)).look c r name w.request d true = result at hlook ⊢
      obtain ⟨s', verdict⟩ := result
      obtain rfl : verdict = .failed .interrupted := hlook
      cases goal with
      | single => simp [conclude]
      | plan e rest => exact abort_ne_ok
  | _ => simp [wake, hk]

/-- No request of a transaction that was interrupted succeeds, whether it is made now or has been
asleep. -/
theorem request_ne_ok {v : Value} (hi : (s.transactionAt r).isInterrupted = true)
    (he : s.requester? e = some r) : (s.step e).2 ≠ .returned (.ok v) := by
  have htake : ∀ {needs : List Need}, needs ≠ [] →
      (s.take s.nextCall r s.lockDeadline needs).2 ≠ .returned (.ok v) := by
    intro needs hn
    obtain ⟨name, htake⟩ := take_interrupted (c := s.nextCall) (d := s.lockDeadline) hi hn
    rw [htake]
    exact abort_ne_ok
  cases e with
  | lock q e mode =>
    obtain rfl : q = r := Option.some.inj he
    simp only [step, withAccess, lock]
    split
    · split
      · simp
      · exact htake (needs_ne_nil _ e mode)
    · simp
  | lockAll q requests =>
    cases requests with
    | nil => exact absurd he (by simp [requester?])
    | cons n requests =>
      obtain rfl : q = r := Option.some.inj he
      simp only [step, withAccess, lockAll]
      split
      · split
        · simp
        · exact htake (needsOfAll_ne_nil _ (by simp))
      · simp
  | acquire q name mode d =>
    obtain rfl : q = r := Option.some.inj he
    simp only [step, withAccess, withLock]
    split
    · split
      · simp [acquire, ask, hi, single, conclude]
      · simp
    · simp
  | upgrade q name d =>
    obtain rfl : q = r := Option.some.inj he
    simp only [step, withAccess, withLock]
    split
    · split
      · simp [upgrade, hi, conclude]
      · simp
    · simp
  | wake c =>
    obtain ⟨k, hk, rfl⟩ := Option.map_eq_some_iff.mp he
    exact wake_ne_ok hk hi
  | expire c =>
    obtain ⟨k, hk, rfl⟩ := Option.map_eq_some_iff.mp he
    obtain ⟨r, access, point⟩ := k
    simp only [step]
    cases point with
    | waiting name d goal =>
      by_cases hd : d = .never
      · subst hd
        simp [expire, hk]
      · rw [expire_eq_wake hk hd]
        exact wake_ne_ok calls_suspend_self hi
    | _ => simp [expire, hk]
  | _ => exact absurd he (by simp [requester?])

theorem undoes_abort {error : Error} (hr : r ∈ s.transactions)
    (hs : (s.transactionAt r).state.canRollBack = true) :
    Undoes c r .shared (.failure error) (s.abort c r error) (s.transactionAt r).stores :=
  undoes_rollBack (s := s.setStatistics (s.statistics.countFailure error)) hr hs

/-- The next thing that an active transaction tries rolls it back if it has been interrupted. -/
theorem undoes_demand (hi : (s.transactionAt r).isInterrupted = true)
    (hactive : (s.transactionAt r).state = .active) (he : e.demand? = some (r, access))
    (ha : s.admits r access = true) :
    Undoes s.nextCall r access (.failure .interrupted) (s.step e) (s.transactionAt r).stores := by
  have hr : r ∈ s.transactions := (admits_iff.mp ha).1
  have hroll : (s.transactionAt r).state.canRollBack = true := by rw [hactive]; rfl
  have hrefusal : (s.transactionAt r).refusal? = none := by simp [Transaction.refusal?, hactive]
  have htake : ∀ {needs : List Need}, needs ≠ [] → Undoes s.nextCall r .shared
      (.failure .interrupted) (s.take s.nextCall r s.lockDeadline needs)
      (s.transactionAt r).stores := by
    intro needs hn
    obtain ⟨name, htake⟩ := take_interrupted (c := s.nextCall) (d := s.lockDeadline) hi hn
    rw [htake]
    exact undoes_abort (s := s.addLock name) hr hroll
  cases e with
  | lock q e mode =>
    cases he
    simp only [step, withAccess, ha, if_true, lock, hrefusal]
    exact htake (needs_ne_nil _ e mode)
  | lockAll q requests =>
    cases requests with
    | nil => exact absurd he (by simp [Event.demand?])
    | cons n requests =>
      cases he
      simp only [step, withAccess, ha, if_true, lockAll, hrefusal]
      exact htake (needsOfAll_ne_nil _ (by simp))
  | commit q =>
    cases he
    simp only [step, withAccess, ha, if_true, commit, hi, hactive, ne_eq, reduceCtorEq,
      not_false_eq_true, and_self]
    exact undoes_rollBack hr hroll
  | _ => exact absurd he (by simp [Event.demand?])

/-! ### From the interrupt on -/

/-- Interrupt safety.  Take any run of any number of managers, and let an active transaction be
interrupted in it, or removed by its manager.  Whatever happens afterwards, it never commits, its
lock set does not grow, and at no moment of any event is one of its requests granted: those that
are made or let go on do not succeed, and whatever lock its number comes to hold is granted to a
transaction of another manager that has the same number.  If it is still active, the next time that
it asks for the locks of entities or tries to commit, the call rolls its stores back one after the
other, returns with the last reply and not before that it was interrupted, and leaves the
transaction aborted. -/
theorem interrupt_is_safe (g : Granularity) (configs : List Config) (lockConfig : Config)
    (before later : List Event) (e : Event) (r : TransactionRef)
    (hstrikes : ((System.new g configs lockConfig).run before).Strikes e r) :
    let fresh := System.new g configs lockConfig
    let events := before ++ e :: later
    let s := fresh.run events
    (s.transactionAt r).isInterrupted = true ∧ (s.transactionAt r).state ≠ .committed ∧
      (∀ entity ∈ (s.transactionAt r).lockSet,
        entity ∈ ((fresh.run before).transactionAt r).lockSet) ∧
      (∀ next s₁ p₁ s₂ c d goal w, ¬ Passes s next s₁ p₁ s₂ (.granted c r d goal w)) ∧
      (∀ next v, s.requester? next = some r → (s.step next).2 ≠ .returned (.ok v)) ∧
      (∀ next name mode, ((s.step next).1.lockAt name).modeOf r.id = some mode →
        (s.lockAt name).modeOf r.id = some mode ∨ ∃ s₁ p₁ s₂ c q d goal w,
          Passes s next s₁ p₁ s₂ (.granted c q d goal w) ∧ q ≠ r ∧ q.id = r.id) ∧
      ((s.transactionAt r).state = .active → ∀ next access rest,
        next.demand? = some (r, access) → s.admits r access = true →
        let stores := (s.transactionAt r).stores
        let calls := fresh.history (events ++ next :: rest)
        let n := replies s.nextCall rest
        calls.requestsOf r = rollbacks r stores (n + 1) ∧
          (s.step next).2.outcome?.or ((s.step next).1.returned? s.nextCall rest) =
            (if stores.length ≤ n then some (.failed .interrupted) else none) ∧
          (stores.length ≤ n → (∀ k ∈ calls.of r, k.reply? ≠ none) ∧
            ((fresh.run (events ++ next :: rest)).transactionAt r).state = .aborted)) := by
  intro fresh events s
  have hnew := Ledger.new g configs lockConfig
  have hl : Ledger s idle (fresh.history events) := (hnew.run events).ledger
  have hdoomed : Doomed ((fresh.run before).transactionAt r).lockSet r s idle := by
    have hstruck := (hnew.run before).ledger
    have hstart := hstrikes.doomed hstruck (listed_run g configs lockConfig before r)
    have hrun : s = ((fresh.run before).step e).1.run later := run_append fresh before (e :: later)
    rw [hrun]
    exact ((Doomed.invariant _ r).run ⟨⟨_, (hstruck.step e).ledger⟩, hstart⟩
      (Obeys.trivial _ later)).2
  have hgranted : ∀ next s₁ p₁ s₂ c d goal w, ¬ Passes s next s₁ p₁ s₂ (.granted c r d goal w) :=
    fun next s₁ p₁ s₂ c d goal w hpass => ((Doomed.invariant _ r).passes
      ⟨⟨_, hl⟩, hdoomed⟩ trivial hpass).2.2.ungranted c d goal w rfl
  refine ⟨hdoomed.interrupted, hdoomed.uncommitted.2, hdoomed.lockSet, hgranted,
    fun next v => request_ne_ok hdoomed.interrupted, fun next name mode hheld => ?_,
    fun hactive next access rest hnext ha => ?_⟩
  · by_cases hbefore : (s.lockAt name).modeOf r.id = some mode
    · exact .inl hbefore
    · obtain ⟨s₁, p₁, s₂, c, q, d, goal, w, hpass, hid⟩ :=
        hl.inOrder.tidy.exists_granted hbefore hheld
      refine .inr ⟨s₁, p₁, s₂, c, q, d, goal, w, hpass, ?_, hid⟩
      rintro rfl
      exact hgranted next s₁ p₁ s₂ c d goal w hpass
  · intro stores calls n
    have hundoes := undoes_demand hdoomed.interrupted hactive hnext ha
    have hcalls : calls = (s.step next).1.historyFrom
        (((fresh.history events).answered next).noted (s.step next).2) rest :=
      historyFrom_append fresh [] events (next :: rest)
    have hrun : fresh.run (events ++ next :: rest) = (s.step next).1.run rest :=
      run_append fresh events (next :: rest)
    rw [hcalls, hrun]
    exact hundoes.run_of_active hl hactive rest

/-- A transaction is interrupted while one of its requests is asleep.  The lock becomes free, but the
request fails all the same, and so does the next one that the transaction makes. -/
theorem interrupted_asleep :
    let one : Store := ⟨1, "one"⟩
    let r : TransactionRef := ⟨0, 2⟩
    let before : List Event := [.begin 0, .begin 0, .register r one,
      .lock ⟨0, 1⟩ ⟨["a"]⟩ .exclusive, .lock r ⟨["b"]⟩ .exclusive, .lock r ⟨["a"]⟩ .exclusive]
    let later : List Event := [.rollback ⟨0, 1⟩]
    let next : Event := .lock r ⟨["c"]⟩ .shared
    let rest : List Event := [.wake 0, .reply 1 .done]
    let fresh := System.new .flat [{}] {}
    let events := before ++ .interrupt r :: later
    let s := fresh.run events
    (fresh.run before).Strikes (.interrupt r) r ∧ (s.transactionAt r).state = .active ∧
      s.requester? (.wake 0) = some r ∧ (s.lockAt (.entity ⟨["a"]⟩)).heldMode = none ∧
      (∀ v, (s.step (.wake 0)).2 ≠ .returned (.ok v)) ∧
      next.demand? = some (r, .shared) ∧ s.admits r .shared = true ∧
      (fresh.history (events ++ next :: rest)).requestsOf r = [⟨one, r, .rollback⟩] ∧
      (s.step next).2.outcome?.or ((s.step next).1.returned? 1 rest) =
        some (.failed .interrupted) ∧
      ((fresh.run (events ++ next :: rest)).transactionAt r).state = .aborted := by
  intro one r before later next rest fresh events s
  have hstrikes : (fresh.run before).Strikes (.interrupt r) r := by decide +kernel
  have hactive : (s.transactionAt r).state = .active := by decide +kernel
  have hasleep : s.requester? (.wake 0) = some r := by decide +kernel
  have ha : s.admits r .shared = true := by decide +kernel
  obtain ⟨-, -, -, -, hfails, -, hnext⟩ :=
    interrupt_is_safe .flat [{}] {} before later (.interrupt r) r hstrikes
  obtain ⟨hcalls, hreturned, hstate⟩ := hnext hactive next .shared rest rfl ha
  have hcall : s.nextCall = 1 := by decide +kernel
  have hstores : (s.transactionAt r).stores = [one] := by decide +kernel
  rw [hcall, hstores] at hcalls hreturned hstate
  exact ⟨hstrikes, hactive, hasleep, by decide +kernel, fun v => hfails (.wake 0) v hasleep, rfl, ha,
    hcalls.trans (by decide +kernel), hreturned.trans (by decide +kernel),
    (hstate (by decide +kernel)).2⟩

end System

end Locking
