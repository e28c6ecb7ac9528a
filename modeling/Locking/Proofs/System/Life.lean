import Locking.Proofs.Commit.Ledger

/-! The life of a transaction.  Its state is left alone by all that happens, but for the moments in
which it begins to commit or to abort, and those in which it ends. -/

namespace Locking

namespace State

/-- A state is left alone, or the transaction begins to end. -/
inductive Begins : State → State → Prop
  | stay {a} : Begins a a
  | commit : Begins .active .committing
  | abort {a : State} (ha : a.canRollBack = true) : Begins a .aborting

/-- What may become of a state in one moment. -/
inductive Turns : State → State → Prop
  | begins {a b} (h : Begins a b) : Turns a b
  | committed : Turns .committing .committed
  | aborted : Turns .aborting .aborted

variable {a b : State}

theorem Begins.of_eq (h : b = a) : Begins a b := h ▸ .stay

/-- No transaction ends by beginning to end. -/
theorem Begins.isFinal (h : Begins a b) (hb : b.isFinal = true) : a.isFinal = true := by
  cases h with
  | stay => exact hb
  | _ => exact absurd hb (by simp [State.isFinal])

/-- No transaction that has ended turns to anything else. -/
theorem Turns.unfinished (h : Turns a b) (hb : b.isFinal = false) : a.isFinal = false := by
  cases h with
  | begins h =>
    cases h with
    | stay => exact hb
    | commit => rfl
    | abort ha =>
      cases a with
      | committed | aborted => nomatch ha
      | _ => rfl
  | _ => rfl

/-- A transaction that has begun to end is never active again. -/
theorem Turns.ne_active (h : Turns a b) (ha : a ≠ .active) : b ≠ .active := by
  cases h with
  | begins h =>
    cases h with
    | stay => exact ha
    | _ => simp
  | _ => simp

end State

namespace System

variable {s s' : System} {p p' : Stage} {e : Event} {r q : TransactionRef} {hs : History}

theorem Moves.rel {R : State → State → Prop} {state : State} (h : Moves s s' r state)
    (hrefl : ∀ a, R a a) (hr : R (s.transactionAt r).state state) (q : TransactionRef) :
    R (s.transactionAt q).state (s'.transactionAt q).state := by
  by_cases hq : q = r
  · rw [hq, h.self]
    exact hr
  · rw [h.other q hq]
    exact hrefl _

theorem ending_retire {q : TransactionRef} :
    ((s.retire r).transactionAt q).ending = (s.transactionAt q).ending :=
  view_retire Transaction.ending (fun _ => rfl) fun _ => rfl

theorem state_retired (hr : r ∈ s.transactions) (state : State) :
    (((s.setState r state).retire r).transactionAt r).state = state :=
  (congrArg Prod.fst ending_retire).trans (moves_setState hr state).self

/-- A start leaves the state of a transaction alone, or the transaction begins to abort. -/
theorem Start.stays_or_aborts (ho : InOrder s idle) (hst : Start s e s' p) (q : TransactionRef) :
    (s'.transactionAt q).state = (s.transactionAt q).state ∨
      (s.transactionAt q).state.canRollBack = true ∧ (s'.transactionAt q).state = .aborting := by
  have hmem : ∀ {r access}, s.admits r access = true → r ∈ s.transactions := fun ha =>
    (admits_iff.mp ha).1
  have haborts : ∀ {r t}, Moves s t r .aborting → (s.transactionAt r).state.canRollBack = true →
      (t.transactionAt q).state = (s.transactionAt q).state ∨
        (s.transactionAt q).state.canRollBack = true ∧ (t.transactionAt q).state = .aborting :=
    fun hmoves hr => hmoves.rel (R := fun a b => b = a ∨ a.canRollBack = true ∧ b = .aborting)
      (fun _ => .inl rfl) (.inr ⟨hr, rfl⟩) q
  cases hst with
  | begin hn => exact .inl (congrArg Transaction.state (transactionAt_begin ho hn _ q))
  | acquire | upgrade | register | dropEnded =>
    exact .inl (view_modifyTransaction Transaction.state fun _ => rfl)
  | commitInterrupted ha _ hs | rollback ha hs =>
    exact haborts (moves_setState (hmem ha) .aborting) hs
  | @drop r ha hs =>
    have hr : r ∈ (s.modifyTransaction r fun t => { t with isOwned := false }).transactions :=
      mem_transactions_modifyTransaction.mpr (hmem ha)
    exact haborts ((moves_setState hr .aborting).after fun _ =>
      view_modifyTransaction Transaction.ending fun _ => rfl) hs
  | remove hs =>
    have hmoves := moves_modifyTransaction (mem_of_registeredState? hs)
      (f := fun t => { t with state := .aborting, isInterrupted := true }) fun _ => ⟨rfl, rfl⟩
    exact haborts hmoves (by rw [state_of_registeredState? hs]; rfl)
  | interrupt | managerInterrupt =>
    rw [System.interrupt, transactionAt_alert]
    exact .inl (view_modifyTransaction Transaction.state fun _ => rfl)
  | unlockAll => exact .inl (view_releaseAll Transaction.state fun _ => rfl)
  | forget => exact .inl (view_forget Transaction.state fun _ => rfl)
  | notPrepared hk _ hs | notCommitted hk _ hs =>
    have hmoves := haborts (moves_setState (ho.known _ _ hk) .aborting) hs
    exact hmoves
  | _ => exact .inl rfl

theorem Start.begins (ho : InOrder s idle) (hst : Start s e s' p) (q : TransactionRef) :
    (s.transactionAt q).state.Begins (s'.transactionAt q).state := by
  rcases hst.stays_or_aborts ho q with h | ⟨ha, h⟩
  · exact .of_eq h
  · exact h ▸ .abort ha

/-- A call that has no store left to ask ends its transaction. -/
theorem Ledger.moves_of_done {c : CallId} {phase : Phase} (hl : Ledger s p hs)
    (ha : Advance s p s' p') (hp : p.task? = some (c, r, phase, [])) (hne : phase ≠ .prepare) :
    ∃ state, Moves s s' r state ∧ (s.transactionAt r).state = phase.state ∧
      phase.state.Turns state := by
  have hstate := ((hl.entry r).going c phase [] hp).1
  have huser := hl.inOrder.user
  cases ha with
  | undone =>
    cases hp
    exact ⟨.aborted, (moves_setState (huser r _ rfl) .aborted).congr fun _ => ending_retire,
      hstate, .aborted⟩
  | removed =>
    cases hp
    refine ⟨.aborted, (moves_setState (huser r _ rfl) .aborted).congr fun q => ?_, hstate, .aborted⟩
    rw [transactionAt_alert]
    exact ending_retire
  | committed =>
    cases hp
    exact ⟨.committed, (moves_setState (huser r _ rfl) .committed).congr fun _ => ending_retire,
      hstate, .committed⟩
  | prepared =>
    cases hp
    exact absurd rfl hne
  | _ => exact absurd hp (by simp [Stage.task?])

/-- Unless it has no store left to ask, a call at most lets its transaction begin to end. -/
theorem Advance.begins (ho : InOrder s p) (hd : s.Current p) (ha : Advance s p s' p')
    (hp : ∀ c r phase, p.task? = some (c, r, phase, []) → phase = .prepare) (q : TransactionRef) :
    (s.transactionAt q).state.Begins (s'.transactionAt q).state := by
  cases ha with
  | ask | grant | fail | keep => exact .of_eq (view_modifyTransaction Transaction.state fun _ => rfl)
  | @abort c r e rest error hr =>
    exact (moves_setState (ho.user r .shared rfl) .aborting).rel (fun _ => .stay) (.abort hr) q
  | @beginPhased c r | @beginAtOnce c r =>
    exact (moves_setState (ho.user r .exclusive rfl) .committing).rel (fun _ => .stay)
      (hd c r rfl ▸ .commit) q
  | undone | removed | committed => exact absurd (hp _ _ _ rfl) (by simp)
  | _ => exact .stay

theorem Advance.turns (hl : Ledger s p hs) (ha : Advance s p s' p') (q : TransactionRef) :
    (s.transactionAt q).state.Turns (s'.transactionAt q).state := by
  by_cases hdone : ∃ c r phase, p.task? = some (c, r, phase, []) ∧ phase ≠ .prepare
  · obtain ⟨c, r, phase, hp, hne⟩ := hdone
    obtain ⟨state, hmoves, hstate, hturns⟩ := hl.moves_of_done ha hp hne
    exact hmoves.rel (fun _ => .begins .stay) (hstate ▸ hturns) q
  · refine .begins (ha.begins hl.inOrder hl.current (fun c r phase hp => ?_) q)
    exact not_not.mp fun hne => hdone ⟨c, r, phase, hp, hne⟩

theorem active_of_turns (h : (s.transactionAt q).state.Turns (s'.transactionAt q).state)
    (hq : (s'.transactionAt q).state = .active) : (s.transactionAt q).state = .active := by
  by_contra hn
  exact h.ne_active hn hq

/-- A transaction that is active or commits after an advance was in that state before, unless its
call has just begun to commit it. -/
theorem Advance.state_before {a : State} (ha : Advance s p s' p') (hcan : a.canRollBack = true)
    (hu : a = .committing → p.user? ≠ some (q, .exclusive))
    (hq : (s'.transactionAt q).state = a) : (s.transactionAt q).state = a := by
  have hne : ∀ {state : State}, state.canRollBack = false → state ≠ a := by
    rintro state hs rfl
    exact absurd (hs.symm.trans hcan) (by simp)
  have hset : ∀ {t : System} {r : TransactionRef} {state : State}, state ≠ a →
      ((t.setState r state).transactionAt q).state = a → (t.transactionAt q).state = a := fun hne =>
    rel_modifyTransaction (R := fun t t' => t'.state = a → t.state = a) (fun _ => id)
      fun _ h => absurd h hne
  have hended : ∀ {r : TransactionRef} {state : State}, state.canRollBack = false →
      (((s.setState r state).retire r).transactionAt q).state = a →
        (s.transactionAt q).state = a := fun hs h =>
    hset (hne hs) ((congrArg Prod.fst ending_retire).symm.trans h)
  cases ha with
  | ask | grant | fail => exact state_setWaitingOn.symm.trans hq
  | @keep c r d b =>
    have hsame := view_modifyTransaction (s := s) (r := r) (q := q) Transaction.state
      (f := fun t => { t with lockSet := t.lockSet.insert b }) fun _ => rfl
    exact hsame.symm.trans hq
  | abort => exact hset (hne rfl) hq
  | @beginPhased c r | @beginAtOnce c r =>
    by_cases hqr : q = r
    · subst hqr
      exact hset (fun h => hu h.symm rfl) hq
    · rwa [setState, transactionAt_modifyTransaction_ne hqr] at hq
  | undone | committed => exact hended rfl hq
  | removed =>
    rw [transactionAt_alert] at hq
    exact hended rfl hq
  | _ => exact hq

/-- No advance makes a transaction active. -/
theorem Advance.active (ha : Advance s p s' p')
    (hq : (s'.transactionAt q).state = .active) : (s.transactionAt q).state = .active :=
  ha.state_before rfl (by simp) hq

end System

end Locking
