import Mathlib.Logic.Relation
import Locking.Proofs.Commit.Outcome
import Locking.Proofs.System.Ended
import Locking.Proofs.System.Life
import Locking.Proofs.System.Passage

/-! The state machine of a transaction and the lists of the managers.  A state moves along five
arrows only, also where the program assigns it without looking, and a manager lists exactly those
of its transactions that have not ended. -/

namespace Locking

/-- The moves in the life of a transaction. -/
inductive State.Arrow : State → State → Prop
  | commit : Arrow .active .committing
  | abort : Arrow .active .aborting
  | committed : Arrow .committing .committed
  | revoke : Arrow .committing .aborting
  | aborted : Arrow .aborting .aborted

theorem State.Arrow.unfinished {a b : State} (h : Arrow a b) : a.isFinal = false := by
  cases h <;> rfl

theorem State.Turns.arrow {a b : State} (h : Turns a b) : b = a ∨ Arrow a b := by
  cases h with
  | begins h =>
    cases h with
    | stay => exact .inl rfl
    | commit => exact .inr .commit
    | abort ha =>
      cases a with
      | active => exact .inr .abort
      | committing => exact .inr .revoke
      | _ => nomatch ha
  | committed => exact .inr .committed
  | aborted => exact .inr .aborted

/-- A manager lists whoever has not ended. -/
def Transaction.Listed (t : Transaction) : Prop := t.state.isFinal = false → t.isRegistered = true

/-- The stages from which a call assigns the state of a transaction without a look at what it was
before: when it is about to commit it, when its last store has committed, and when its last store
has been rolled back. -/
inductive Stage.Assigns : Stage → TransactionRef → State → Prop
  | committing {c r} : Assigns (deciding c r) r .committing
  | committed {c r} : Assigns (committing c r []) r .committed
  | aborted {c r access cause} : Assigns (undoing c r access cause []) r .aborted

namespace System

open Relation

variable {s s' s₁ s₂ : System} {p p' p₁ p₂ : Stage} {e : Event} {r q : TransactionRef}
  {state : State} {hs : History}

/-! ### The state -/

theorem Passes.turns {hs₁ : History} (hl : Ledger s₁ p₁ hs₁) (h : Passes s e s₁ p₁ s₂ p₂)
    (q : TransactionRef) : (s₁.transactionAt q).state.Turns (s₂.transactionAt q).state := by
  cases h with
  | start hst => exact .begins (hst.begins hl.inOrder q)
  | advance _ ha => exact ha.turns hl q

/-- An assignment takes the transaction along an arrow, so it had not ended before. -/
theorem Advance.assigns (hl : Ledger s p hs) (ha : Advance s p s' p')
    (hassigns : p.Assigns r state) :
    (s.transactionAt r).state.Arrow state ∧ (s'.transactionAt r).state = state := by
  cases hassigns with
  | @committing c =>
    have hafter := (moves_setState (hl.inOrder.user r .exclusive rfl) .committing).self
    have harrow : (s.transactionAt r).state.Arrow .committing := hl.current c r rfl ▸ .commit
    cases ha with
    | beginPhased | beginAtOnce => exact ⟨harrow, hafter⟩
  | @committed c =>
    have hstate := ((hl.entry r).going c .commit [] rfl).1
    cases ha with
    | committed => exact ⟨hstate ▸ .committed, state_retired (hl.inOrder.user r _ rfl) _⟩
  | @aborted c =>
    have hstate := ((hl.entry r).going c .rollback [] rfl).1
    have hafter := state_retired (hl.inOrder.user r _ rfl) .aborted
    cases ha with
    | undone => exact ⟨hstate ▸ .aborted, hafter⟩
    | removed =>
      refine ⟨hstate ▸ .aborted, ?_⟩
      rw [transactionAt_alert]
      exact hafter

theorem Passes.assigns {hs₁ : History} (hl : Ledger s₁ p₁ hs₁) (h : Passes s e s₁ p₁ s₂ p₂)
    (hassigns : p₁.Assigns r state) : (s₁.transactionAt r).state.Arrow state ∧
      (s₂.transactionAt r).state = state := by
  cases h with
  | start => nomatch hassigns
  | advance _ ha => exact ha.assigns hl hassigns

/-- Over a run a state moves along arrows only. -/
theorem Ledger.arrows_run (h : Ledger s idle hs) (later : List Event) (q : TransactionRef) :
    ReflTransGen State.Arrow (s.transactionAt q).state ((s.run later).transactionAt q).state := by
  have hturns : ∀ {a b c : State}, ReflTransGen State.Arrow a b → b.Turns c →
      ReflTransGen State.Arrow a c := by
    intro a b c hab hbc
    obtain rfl | hbc := hbc.arrow
    · exact hab
    · exact hab.tail hbc
  have hinvariant : Invariant (fun _ _ => True) fun s' p => (∃ hs, Ledger s' p hs) ∧
      ReflTransGen State.Arrow (s.transactionAt q).state (s'.transactionAt q).state :=
    { inOrder := fun h => Ledger.invariant.inOrder h.1
      rest := fun h => ⟨Ledger.invariant.rest h.1, h.2⟩
      start := fun he h hst => ⟨Ledger.invariant.start he h.1 hst,
        hturns h.2 (.begins (hst.begins (Ledger.invariant.inOrder h.1) q))⟩
      advance := fun h ha => ⟨Ledger.invariant.advance h.1 ha,
        hturns h.2 (ha.turns h.1.choose_spec q)⟩ }
  exact (hinvariant.run ⟨⟨hs, h⟩, .refl⟩ (Obeys.trivial s later)).2

/-! ### The list -/

theorem listed_of_turns
    (hkept : (s'.transactionAt q).isRegistered = (s.transactionAt q).isRegistered ∨
      (s'.transactionAt q).state.isFinal = true)
    (hturns : (s.transactionAt q).state.Turns (s'.transactionAt q).state)
    (h : (s.transactionAt q).Listed) : (s'.transactionAt q).Listed := by
  intro hf
  rcases hkept with hkept | hfinal
  · rw [hkept]
    exact h (hturns.unfinished hf)
  · exact absurd (hf.symm.trans hfinal) (by simp)

/-- Whoever is taken off the list has ended. -/
theorem isRegistered_retired (hr : r ∈ s.transactions) (hf : state.isFinal = true) :
    (((s.setState r state).retire r).transactionAt q).isRegistered =
        (s.transactionAt q).isRegistered ∨
      (((s.setState r state).retire r).transactionAt q).state.isFinal = true := by
  by_cases hq : q = r
  · refine .inr ?_
    rw [hq, state_retired hr]
    exact hf
  · refine .inl ?_
    have hr' : r ∈ (s.setState r state).transactions := mem_transactions_modifyTransaction.mpr hr
    rw [transactionAt_retire hr', if_neg hq, setState, transactionAt_modifyTransaction_ne hq]

theorem Advance.isRegistered (ho : InOrder s p) (ha : Advance s p s' p') (q : TransactionRef) :
    (s'.transactionAt q).isRegistered = (s.transactionAt q).isRegistered ∨
      (s'.transactionAt q).state.isFinal = true := by
  cases ha with
  | ask | grant | fail | keep | abort | beginPhased | beginAtOnce =>
    exact .inl (view_modifyTransaction Transaction.isRegistered fun _ => rfl)
  | undone | committed => exact isRegistered_retired (ho.user _ _ rfl) rfl
  | removed =>
    rw [transactionAt_alert]
    exact isRegistered_retired (ho.user _ _ rfl) rfl
  | _ => exact .inl rfl

theorem Start.isRegistered (ho : InOrder s idle) (hst : Start s e s' p) (q : TransactionRef) :
    (s'.transactionAt q).isRegistered = (s.transactionAt q).isRegistered := by
  cases hst with
  | begin hn => rw [transactionAt_begin ho hn]
  | acquire | upgrade | register | dropEnded | commitInterrupted | rollback | notPrepared
  | notCommitted | remove =>
    exact view_modifyTransaction Transaction.isRegistered fun _ => rfl
  | @drop r =>
    have hdropped : ((s.modifyTransaction r fun t => { t with isOwned := false }).transactionAt
        q).isRegistered = (s.transactionAt q).isRegistered :=
      view_modifyTransaction Transaction.isRegistered fun _ => rfl
    rw [← hdropped]
    exact view_modifyTransaction Transaction.isRegistered fun _ => rfl
  | interrupt | managerInterrupt =>
    rw [System.interrupt, transactionAt_alert]
    exact view_modifyTransaction Transaction.isRegistered fun _ => rfl
  | unlockAll => exact view_releaseAll Transaction.isRegistered fun _ => rfl
  | forget => exact view_forget Transaction.isRegistered fun _ => rfl
  | _ => rfl

/-- In every run, whoever has not ended is listed. -/
theorem listed_invariant : Invariant (fun _ _ => True) fun s p =>
    (∃ hs, Ledger s p hs) ∧ ∀ q, (s.transactionAt q).Listed where
  inOrder h := Ledger.invariant.inOrder h.1
  rest h := ⟨Ledger.invariant.rest h.1, h.2⟩
  start := by
    rintro s e s' p he ⟨hl, hlisted⟩ hst
    have ho := Ledger.invariant.inOrder hl
    exact ⟨Ledger.invariant.start he hl hst, fun q => listed_of_turns (.inl (hst.isRegistered ho q))
      (.begins (hst.begins ho q)) (hlisted q)⟩
  advance := by
    rintro s p s' p' ⟨⟨hs, hl⟩, hlisted⟩ ha
    exact ⟨Ledger.invariant.advance ⟨hs, hl⟩ ha, fun q =>
      listed_of_turns (ha.isRegistered hl.inOrder q) (ha.turns hl q) (hlisted q)⟩

theorem listed_run (g : Granularity) (configs : List Config) (lockConfig : Config)
    (events : List Event) (q : TransactionRef) :
    (((System.new g configs lockConfig).run events).transactionAt q).Listed := by
  have hfresh : ∀ q, ((System.new g configs lockConfig).transactionAt q).Listed := by
    intro q
    rw [transactionAt_new]
    exact fun _ => rfl
  exact (listed_invariant.run ⟨⟨[], .new g configs lockConfig⟩, hfresh⟩
    (Obeys.trivial _ events)).2 q

theorem departed_run (g : Granularity) (configs : List Config) (lockConfig : Config)
    (events : List Event) (q : TransactionRef) :
    (((System.new g configs lockConfig).run events).transactionAt q).Departed := by
  have hfresh : ∀ q, ((System.new g configs lockConfig).transactionAt q).Departed := by
    intro q
    rw [transactionAt_new]
    exact fun hf => absurd hf (by simp [default, State.isFinal])
  exact (departed_invariant.run ⟨.new g configs lockConfig, hfresh⟩
    (Obeys.trivial _ events)).2 q

/-- A transaction is listed just while it has not ended. -/
theorem registeredState?_iff_of_listed (hlisted : (s.transactionAt q).Listed)
    (hdeparted : (s.transactionAt q).Departed) : s.registeredState? q = some state ↔
      q ∈ s.transactions ∧ (s.transactionAt q).state = state ∧ state.isFinal = false := by
  rw [registeredState?_eq_some_iff]
  constructor
  · rintro ⟨hmem, hregistered, rfl⟩
    refine ⟨hmem, rfl, Bool.eq_false_iff.mpr fun hf => ?_⟩
    exact absurd (hregistered.symm.trans (hdeparted hf).1) (by simp)
  · rintro ⟨hmem, rfl, hf⟩
    exact ⟨hmem, hlisted hf, rfl⟩

/-- The state machine and the lists agree.  In every run of any number of managers, and at every
moment of what any event does next, a state stays as it is or moves along one of five arrows.  Where
a state is assigned without a look at the one before, the transaction has not ended, and its state
moves along an arrow all the same.  Over any continuation a state comes along arrows from what it
was.  Whenever no call goes on, that is whenever each of them has returned, sleeps or
calls a store, a manager lists exactly those of its transactions that are active, committing or
aborting, with the states they have. -/
theorem arrows_and_lists (g : Granularity) (configs : List Config) (lockConfig : Config)
    (events : List Event) :
    let s := (System.new g configs lockConfig).run events
    (∀ e s₁ p₁ s₂ p₂, Passes s e s₁ p₁ s₂ p₂ →
      (∀ q, (s₂.transactionAt q).state = (s₁.transactionAt q).state ∨
        (s₁.transactionAt q).state.Arrow (s₂.transactionAt q).state) ∧
      ∀ r state, p₁.Assigns r state →
        (s₁.transactionAt r).state.isFinal = false ∧ (s₁.transactionAt r).state.Arrow state ∧
          (s₂.transactionAt r).state = state) ∧
      (∀ later q, ReflTransGen State.Arrow (s.transactionAt q).state
        ((s.run later).transactionAt q).state) ∧
      (∀ q state, s.registeredState? q = some state ↔ q ∈ s.transactions ∧
        (s.transactionAt q).state = state ∧ state.isFinal = false) ∧
      ∀ manager i, i ∈ s.registered manager ↔ ⟨manager, i⟩ ∈ s.transactions ∧
        (s.transactionAt ⟨manager, i⟩).state.isFinal = false := by
  intro s
  have hnew := Ledger.new g configs lockConfig
  have hfresh : ∀ q, (System.new g configs lockConfig).transactionAt q = default :=
    fun q => transactionAt_new
  have hall := Obeys.trivial (System.new g configs lockConfig) events
  obtain ⟨⟨hs, hl⟩, hlisted⟩ : (∃ hs, Ledger s idle hs) ∧ ∀ q, (s.transactionAt q).Listed :=
    listed_invariant.run ⟨⟨[], hnew⟩, fun q => hfresh q ▸ fun _ => rfl⟩ hall
  have hdeparted : ∀ q, (s.transactionAt q).Departed := (departed_invariant.run
    ⟨hnew.inOrder, fun q => hfresh q ▸ fun hf => absurd hf (by simp [default, State.isFinal])⟩
    hall).2
  have hstate : ∀ q state, s.registeredState? q = some state ↔ q ∈ s.transactions ∧
      (s.transactionAt q).state = state ∧ state.isFinal = false :=
    fun q state => registeredState?_iff_of_listed (hlisted q) (hdeparted q)
  refine ⟨?_, hl.arrows_run, hstate, fun manager i => ?_⟩
  · intro e s₁ p₁ s₂ p₂ hpass
    obtain ⟨hs₁, hl₁⟩ := (Ledger.invariant.passes ⟨hs, hl⟩ trivial hpass).1
    refine ⟨fun q => (hpass.turns hl₁ q).arrow, fun r state hassigns => ?_⟩
    obtain ⟨harrow, hafter⟩ := hpass.assigns hl₁ hassigns
    exact ⟨harrow.unfinished, harrow, hafter⟩
  · simp only [mem_registered, hstate]
    constructor
    · rintro ⟨_, hmem, hst, hf⟩
      exact ⟨hmem, hst ▸ hf⟩
    · rintro ⟨hmem, hf⟩
      exact ⟨_, hmem, rfl, hf⟩

end System

end Locking
