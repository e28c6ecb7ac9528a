import Locking.Proofs.Commit.History
import Locking.Proofs.System.Order

/-! The history of store calls beside the system.  Where a transaction stands in its ending decides
what its calls have been so far, and a transaction that has ended is never the reason for another
call. -/

namespace Locking

/-- The state of a transaction while one of the phases goes on. -/
def Phase.state : Phase → State
  | prepare | commit => .committing
  | rollback => .aborting

theorem Phase.isFinal_state (phase : Phase) : phase.state.isFinal = false := by
  cases phase <;> rfl

theorem Phase.state_ne_active (phase : Phase) : phase.state ≠ .active := by
  cases phase <;> simp [state]

theorem Phase.state_ne_committed (phase : Phase) : phase.state ≠ .committed := by
  cases phase <;> simp [state]

theorem Phase.state_ne_aborted (phase : Phase) : phase.state ≠ .aborted := by
  cases phase <;> simp [state]

/-- The phase that a call goes through, the store that is asked, and those that come next. -/
def Point.task? : Point → Option (Phase × Store × List Store)
  | waiting .. => none
  | preparing store rest => some (.prepare, store, rest)
  | committing store rest => some (.commit, store, rest)
  | rollingBack store rest _ => some (.rollback, store, rest)

/-- The phase that the call that goes on goes through, and the stores that are left. -/
def Stage.task? : Stage → Option (CallId × TransactionRef × Phase × List Store)
  | preparing c r stores => some (c, r, .prepare, stores)
  | committing c r stores => some (c, r, .commit, stores)
  | undoing c r _ _ stores => some (c, r, .rollback, stores)
  | _ => none

theorem Reply.prepareError?_eq_none_iff {store : Store} {a : Reply} :
    a.prepareError? store = none ↔ Phase.prepare.accepts a = true := by
  cases a <;> simp [prepareError?, Phase.accepts]

theorem Reply.commitError?_eq_none_iff {store : Store} {a : Reply} :
    a.commitError? store = none ↔ Phase.commit.accepts a = true := by
  cases a <;> simp [commitError?, Phase.accepts]

/-- What matters of a transaction for its ending. -/
def Transaction.ending (t : Transaction) : State × List Store := (t.state, t.stores)

/-- The history once a call has come to a stage. -/
def History.at (hs : History) : Stage → History
  | .concluded response => hs.noted response
  | _ => hs

namespace System

/-- One transaction has moved to a state, and nothing else has happened to any that matters for
their endings. -/
structure Moves (s s' : System) (r : TransactionRef) (state : State) : Prop where
  stores : ∀ q, (s'.transactionAt q).stores = (s.transactionAt q).stores
  self : (s'.transactionAt r).state = state
  other : ∀ q, q ≠ r → (s'.transactionAt q).state = (s.transactionAt q).state

/-- The transaction of a call in progress and what the call is doing for it. -/
def taskAt (s : System) (c : CallId) : Option (TransactionRef × Phase × Store × List Store) :=
  s.calls[c]?.bind fun k => k.point.task?.map fun task => (k.transaction, task)

/-- What the store calls of one transaction tell about it. -/
structure Entry (s : System) (p : Stage) (r : TransactionRef) (calls : History) : Prop where
  keys : ((s.transactionAt r).stores.map (·.key)).Nodup
  calling : ∀ c phase store rest, s.taskAt c = some (r, phase, store, rest) →
    (s.transactionAt r).state = phase.state ∧ ∃ done before,
      (s.transactionAt r).stores = done ++ store :: rest ∧
      calls = before ++ [⟨c, ⟨store, r, phase⟩, none⟩] ∧
      Progress r (s.transactionAt r).stores phase done before
  going : ∀ c phase rest, p.task? = some (c, r, phase, rest) →
    (s.transactionAt r).state = phase.state ∧ ∃ done,
      (s.transactionAt r).stores = done ++ rest ∧
      Progress r (s.transactionAt r).stores phase done calls
  active : (s.transactionAt r).state = .active → calls = []
  underway : ∀ phase : Phase, (s.transactionAt r).state = phase.state →
    (∃ c task, s.taskAt c = some (r, task)) ∨ ∃ c task, p.task? = some (c, r, task)
  committed : (s.transactionAt r).state = .committed →
    Progress r (s.transactionAt r).stores .commit (s.transactionAt r).stores calls
  aborted : (s.transactionAt r).state = .aborted →
    Progress r (s.transactionAt r).stores .rollback (s.transactionAt r).stores calls

/-- What the history of store calls tells about all transactions. -/
structure Ledger (s : System) (p : Stage) (hs : History) : Prop where
  inOrder : InOrder s p
  current : s.Current p
  /-- The calls without a reply are those that are in progress. -/
  opens : ∀ h ∈ hs, h.reply? = none → ∃ task, s.taskAt h.call = some (h.request.transaction, task)
  entry : ∀ r, Entry s p r (hs.of r)

/-- The ledger is kept, and nothing has happened to the transactions that had ended. -/
structure Ledger.Next (s : System) (hs : History) (s' : System) (p : Stage) (hs' : History) :
    Prop where
  ledger : Ledger s' p hs'
  ended : ∀ r, (s.transactionAt r).state.isFinal = true →
    (s'.transactionAt r).ending = (s.transactionAt r).ending ∧ hs'.of r = hs.of r

variable {s s' : System} {p p' : Stage} {e : Event} {r q : TransactionRef} {c b : CallId}
  {access : Access} {hs hs' calls : History} {phase phase' : Phase} {store : Store}
  {rest rest' : List Store}

theorem taskAt_congr (h : s'.calls = s.calls) (c : CallId) : s'.taskAt c = s.taskAt c := by
  rw [taskAt, h, taskAt]

theorem taskAt_suspend {k : Call} (b : CallId) : (s.suspend c k).taskAt b =
    if b = c then k.point.task?.map fun task => (k.transaction, task) else s.taskAt b := by
  rw [taskAt, calls_suspend]
  split <;> rfl

theorem taskAt_dismiss (b : CallId) :
    (s.dismiss c).taskAt b = if b = c then none else s.taskAt b := by
  rw [taskAt, calls_dismiss]
  split <;> rfl

theorem taskAt_eq_some {task : Phase × Store × List Store} (h : s.taskAt c = some (r, task)) :
    ∃ k, s.calls[c]? = some k ∧ k.transaction = r ∧ k.point.task? = some task := by
  obtain ⟨k, hk, h⟩ := Option.bind_eq_some_iff.mp h
  obtain ⟨task', ht, h⟩ := Option.map_eq_some_iff.mp h
  obtain ⟨rfl, rfl⟩ := Prod.mk.inj h
  exact ⟨k, hk, rfl, ht⟩

theorem taskAt_of_call {k : Call} {task : Phase × Store × List Store} (hk : s.calls[c]? = some k)
    (ht : k.point.task? = some task) : s.taskAt c = some (k.transaction, task) := by
  rw [taskAt, hk, Option.bind_some, ht]
  rfl

theorem moves_modifyTransaction {f : Transaction → Transaction} {state : State}
    (hr : r ∈ s.transactions) (hf : ∀ t, (f t).state = state ∧ (f t).stores = t.stores) :
    Moves s (s.modifyTransaction r f) r state where
  stores _ := view_modifyTransaction Transaction.stores fun t => (hf t).2
  self := by rw [transactionAt_modifyTransaction s r r f hr, if_pos rfl, (hf _).1]
  other q hq := by rw [transactionAt_modifyTransaction s r q f hr, if_neg hq]

theorem moves_setState (hr : r ∈ s.transactions) (state : State) :
    Moves s (s.setState r state) r state :=
  moves_modifyTransaction hr fun _ => ⟨rfl, rfl⟩

theorem Moves.refl {state : State} (hs : (s.transactionAt r).state = state) : Moves s s r state :=
  ⟨fun _ => rfl, hs, fun _ _ => rfl⟩

theorem Moves.congr {t : System} {state : State} (h : Moves s s' r state)
    (hend : ∀ q, (t.transactionAt q).ending = (s'.transactionAt q).ending) :
    Moves s t r state where
  stores q := (congrArg Prod.snd (hend q)).trans (h.stores q)
  self := (congrArg Prod.fst (hend r)).trans h.self
  other q hq := (congrArg Prod.fst (hend q)).trans (h.other q hq)

theorem Moves.ending {state : State} (h : Moves s s' r state) (hq : q ≠ r) :
    (s'.transactionAt q).ending = (s.transactionAt q).ending :=
  Prod.ext (h.other q hq) (h.stores q)

theorem Moves.after {t : System} {state : State} (h : Moves t s' r state)
    (hend : ∀ q, (t.transactionAt q).ending = (s.transactionAt q).ending) :
    Moves s s' r state where
  stores q := (h.stores q).trans (congrArg Prod.snd (hend q))
  self := h.self
  other q hq := (h.other q hq).trans (congrArg Prod.fst (hend q))

namespace Entry

/-- At most one call at a time goes through a phase for a transaction. -/
theorem not_calling (h : Entry s p r calls) {task : Phase × List Store}
    (hp : p.task? = some (c, r, task)) (b : CallId) (task' : Phase × Store × List Store) :
    s.taskAt b ≠ some (r, task') := by
  intro hb
  obtain ⟨phase, rest⟩ := task
  obtain ⟨phase', store, rest'⟩ := task'
  obtain ⟨-, done, -, hprogress⟩ := h.going c phase rest hp
  obtain ⟨-, done', before, -, hof, -⟩ := h.calling b phase' store rest' hb
  exact hprogress.closed ⟨b, ⟨store, r, phase'⟩, none⟩ (by rw [hof]; simp) rfl

theorem call_eq (h : Entry s p r calls) {task task' : Phase × Store × List Store}
    (hc : s.taskAt c = some (r, task)) (hb : s.taskAt b = some (r, task')) : c = b := by
  obtain ⟨phase, store, rest⟩ := task
  obtain ⟨phase', store', rest'⟩ := task'
  obtain ⟨-, -, before, -, hof, -⟩ := h.calling c phase store rest hc
  obtain ⟨-, -, before', -, hof', -⟩ := h.calling b phase' store' rest' hb
  have hlast := (List.append_inj' (hof.symm.trans hof') rfl).2
  simp only [List.cons.injEq, Contact.mk.injEq] at hlast
  exact hlast.1.1

theorem not_calling_of_active (h : Entry s p r calls)
    (hactive : (s.transactionAt r).state = .active) (b : CallId)
    (task : Phase × Store × List Store) : s.taskAt b ≠ some (r, task) := by
  intro hb
  obtain ⟨phase, store, rest⟩ := task
  obtain ⟨hstate, -⟩ := h.calling b phase store rest hb
  exact phase.state_ne_active (hstate.symm.trans hactive)

theorem frame (h : Entry s p r calls)
    (ht : ∀ b task, s'.taskAt b = some (r, task) ↔ s.taskAt b = some (r, task))
    (hp : ∀ b task, p'.task? = some (b, r, task) ↔ p.task? = some (b, r, task))
    (hend : (s'.transactionAt r).ending = (s.transactionAt r).ending) : Entry s' p' r calls := by
  have hstate : (s'.transactionAt r).state = (s.transactionAt r).state := congrArg Prod.fst hend
  have hstores : (s'.transactionAt r).stores = (s.transactionAt r).stores := congrArg Prod.snd hend
  constructor
  · simpa only [hstores] using h.keys
  · simpa only [ht, hstate, hstores] using h.calling
  · simpa only [hp, hstate, hstores] using h.going
  · simpa only [hstate] using h.active
  · simpa only [ht, hp, hstate] using h.underway
  · simpa only [hstate, hstores] using h.committed
  · simpa only [hstate, hstores] using h.aborted

/-! A transaction is active, or a call goes through a phase for it, or one waits for a store to
reply, or it has ended. -/

variable (hkeys : ((s.transactionAt r).stores.map (·.key)).Nodup)

include hkeys

theorem of_active (hs : (s.transactionAt r).state = .active)
    (ht : ∀ b task, s.taskAt b ≠ some (r, task)) (hp : p.task? = none) : Entry s p r [] where
  keys := hkeys
  calling b _ _ _ hb := absurd hb (ht b _)
  going _ _ _ hb := absurd (hp.symm.trans hb) (by simp)
  active _ := rfl
  underway phase hs' := absurd (hs'.symm.trans hs) phase.state_ne_active
  committed hs' := absurd (hs.symm.trans hs') (by simp)
  aborted hs' := absurd (hs.symm.trans hs') (by simp)

theorem of_going {done : List Store} (hs : (s.transactionAt r).state = phase.state)
    (ht : ∀ b task, s.taskAt b ≠ some (r, task)) (hp : p.task? = some (c, r, phase, rest))
    (hprogress : Progress r (s.transactionAt r).stores phase done calls)
    (hdone : (s.transactionAt r).stores = done ++ rest) : Entry s p r calls where
  keys := hkeys
  calling b _ _ _ hb := absurd hb (ht b _)
  going _ _ _ hb := by
    cases hp.symm.trans hb
    exact ⟨hs, done, hdone, hprogress⟩
  active hs' := absurd (hs.symm.trans hs') phase.state_ne_active
  underway _ _ := .inr ⟨c, _, hp⟩
  committed hs' := absurd (hs.symm.trans hs') phase.state_ne_committed
  aborted hs' := absurd (hs.symm.trans hs') phase.state_ne_aborted

theorem of_calling {done : List Store} (hs : (s.transactionAt r).state = phase.state)
    (hc : s.taskAt c = some (r, phase, store, rest))
    (hone : ∀ b task, s.taskAt b = some (r, task) → b = c) (hp : p.task? = none)
    (hprogress : Progress r (s.transactionAt r).stores phase done calls)
    (hdone : (s.transactionAt r).stores = done ++ store :: rest) :
    Entry s p r (calls ++ [⟨c, ⟨store, r, phase⟩, none⟩]) where
  keys := hkeys
  calling b _ _ _ hb := by
    obtain rfl := hone b _ hb
    cases hc.symm.trans hb
    exact ⟨hs, done, calls, hdone, rfl, hprogress⟩
  going _ _ _ hb := absurd (hp.symm.trans hb) (by simp)
  active hs' := absurd (hs.symm.trans hs') phase.state_ne_active
  underway _ _ := .inl ⟨c, _, hc⟩
  committed hs' := absurd (hs.symm.trans hs') phase.state_ne_committed
  aborted hs' := absurd (hs.symm.trans hs') phase.state_ne_aborted

theorem of_ended (hs : phase = .commit ∧ (s.transactionAt r).state = .committed ∨
      phase = .rollback ∧ (s.transactionAt r).state = .aborted)
    (ht : ∀ b task, s.taskAt b ≠ some (r, task)) (hp : p.task? = none)
    (hprogress : Progress r (s.transactionAt r).stores phase (s.transactionAt r).stores calls) :
    Entry s p r calls where
  keys := hkeys
  calling b _ _ _ hb := absurd hb (ht b _)
  going _ _ _ hb := absurd (hp.symm.trans hb) (by simp)
  active hs' := by
    rcases hs with ⟨-, hs⟩ | ⟨-, hs⟩ <;> exact absurd (hs.symm.trans hs') (by simp)
  underway phase' hs' := by
    rcases hs with ⟨-, hs⟩ | ⟨-, hs⟩
    · exact absurd (hs'.symm.trans hs) phase'.state_ne_committed
    · exact absurd (hs'.symm.trans hs) phase'.state_ne_aborted
  committed hs' := by
    rcases hs with ⟨rfl, -⟩ | ⟨-, hs⟩
    · exact hprogress
    · exact absurd (hs.symm.trans hs') (by simp)
  aborted hs' := by
    rcases hs with ⟨-, hs⟩ | ⟨rfl, -⟩
    · exact absurd (hs.symm.trans hs') (by simp)
    · exact hprogress

end Entry

namespace Ledger

theorem taskAt_going (h : Ledger s p hs) (hc : p.call? = some c) : s.taskAt c = none := by
  rw [taskAt, (h.inOrder.going c hc).1]
  rfl

/-- Nothing that matters for the ending of a transaction has happened. -/
theorem frame (h : Ledger s p hs) (ho : InOrder s' p') (hd : s'.Current p')
    (ht : ∀ c, s'.taskAt c = s.taskAt c) (hp : p'.task? = p.task?)
    (hend : ∀ q, (s'.transactionAt q).ending = (s.transactionAt q).ending) :
    Next s hs s' p' hs := by
  refine ⟨⟨ho, hd, by simpa only [ht] using h.opens, fun q => ?_⟩, fun q _ => ⟨hend q, rfl⟩⟩
  exact (h.entry q).frame (fun b task => by rw [ht]) (fun b task => by rw [hp]) (hend q)

/-- One transaction that has not ended goes on, and all others are left alone. -/
theorem turn (h : Ledger s p hs) (ho : InOrder s' p') (hd : s'.Current p')
    (hr : (s.transactionAt r).state.isFinal = false)
    (hopens : ∀ k ∈ hs', k.reply? = none →
      ∃ task, s'.taskAt k.call = some (k.request.transaction, task))
    (hself : Entry s' p' r (hs'.of r))
    (hend : ∀ q, q ≠ r → (s'.transactionAt q).ending = (s.transactionAt q).ending)
    (hof : ∀ q, q ≠ r → hs'.of q = hs.of q)
    (ht : ∀ q, q ≠ r → ∀ b task, s'.taskAt b = some (q, task) ↔ s.taskAt b = some (q, task))
    (hp : ∀ task ∈ p.task?, task.2.1 = r) (hp' : ∀ task ∈ p'.task?, task.2.1 = r) :
    Next s hs s' p' hs' := by
  refine ⟨⟨ho, hd, hopens, fun q => ?_⟩, fun q hq => ?_⟩
  · by_cases hqr : q = r
    · rw [hqr]
      exact hself
    · rw [hof q hqr]
      exact (h.entry q).frame (ht q hqr)
        (fun b task => iff_of_false (fun hb => hqr (hp' _ hb)) fun hb => hqr (hp _ hb))
        (hend q hqr)
  · have hqr : q ≠ r := by
      rintro rfl
      rw [hr] at hq
      exact absurd hq (by simp)
    exact ⟨hend q hqr, hof q hqr⟩

/-- An active transaction begins to end. -/
theorem begins (h : Ledger s p hs) (ho : InOrder s' p') (hd : s'.Current p')
    (ht : ∀ c, s'.taskAt c = s.taskAt c) (hp : p.task? = none)
    (hp' : p'.task? = some (c, r, phase, (s.transactionAt r).stores))
    (hactive : (s.transactionAt r).state = .active) (hm : Moves s s' r phase.state) :
    Next s hs s' p' hs := by
  have hr := h.entry r
  refine h.turn ho hd (by rw [hactive]; rfl) (by simpa only [ht] using h.opens) ?_
    (fun q => hm.ending) (fun _ _ => rfl) (fun q _ b task => by rw [ht]) (by simp [hp])
    (by simp [hp'])
  have hprogress : Progress r (s'.transactionAt r).stores phase [] (hs.of r) := by
    rw [hr.active hactive]
    exact Before.nothing.progress
  refine .of_going (by rw [hm.stores]; exact hr.keys) hm.self (fun b task => ?_) hp' hprogress
    (hm.stores r)
  rw [ht]
  exact hr.not_calling_of_active hactive b task

/-- The next store is called. -/
theorem contact (h : Ledger s p hs) (ho : InOrder s' p') (hd : s'.Current p') (hc : p.call? = some c)
    (hp : p.task? = some (c, r, phase, store :: rest)) (hp' : p'.task? = none)
    (ht : ∀ b, s'.taskAt b = if b = c then some (r, phase, store, rest) else s.taskAt b)
    (hend : ∀ q, (s'.transactionAt q).ending = (s.transactionAt q).ending) :
    Next s hs s' p' (hs ++ [⟨c, ⟨store, r, phase⟩, none⟩]) := by
  have hr := h.entry r
  obtain ⟨hself, done, hdone, hprogress⟩ := hr.going c phase (store :: rest) hp
  have hm : Moves s s' r phase.state := (Moves.refl hself).congr hend
  refine h.turn ho hd (by rw [hself, phase.isFinal_state]) (fun k hk hopen => ?_) ?_
    (fun q _ => hend q) (fun q hq => ?_) (fun q hq b task => ?_) (by simp [hp]) (by simp [hp'])
  · rcases List.mem_append.mp hk with hk | hk
    · obtain ⟨task, htask⟩ := h.opens k hk hopen
      have hkc : k.call ≠ c := by
        intro hkc
        rw [hkc, h.taskAt_going hc] at htask
        exact absurd htask (by simp)
      exact ⟨task, by rw [ht, if_neg hkc]; exact htask⟩
    · rw [List.mem_singleton.mp hk]
      exact ⟨_, by rw [ht, if_pos rfl]⟩
  · rw [History.of_append, History.of_singleton_same ⟨c, ⟨store, r, phase⟩, none⟩]
    rw [← hm.stores r] at hdone hprogress
    refine .of_calling (by rw [hm.stores]; exact hr.keys) hm.self (by rw [ht, if_pos rfl])
      (fun b task hb => ?_) hp' hprogress hdone
    by_contra hbc
    rw [ht, if_neg hbc] at hb
    exact hr.not_calling hp b task hb
  · rw [History.of_append, History.of_singleton_ne hq.symm, List.append_nil]
  · rw [ht]
    split
    · next hb =>
      rw [hb, h.taskAt_going hc]
      simp [hq.symm]
    · rfl

/-- The last store has replied, and the transaction has ended. -/
theorem ends {state : State} (h : Ledger s p hs) (ho : InOrder s' p') (hd : s'.Current p')
    (hp : p.task? = some (c, r, phase, [])) (hp' : p'.task? = none)
    (ht : ∀ b, s'.taskAt b = s.taskAt b) (hm : Moves s s' r state)
    (hphase : phase = .commit ∧ state = .committed ∨ phase = .rollback ∧ state = .aborted) :
    Next s hs s' p' hs := by
  have hr := h.entry r
  obtain ⟨hself, done, hdone, hprogress⟩ := hr.going c phase [] hp
  rw [List.append_nil] at hdone
  rw [← hdone, ← hm.stores r] at hprogress
  refine h.turn ho hd (by rw [hself, phase.isFinal_state]) (by simpa only [ht] using h.opens) ?_
    (fun q => hm.ending) (fun _ _ => rfl) (fun q _ b task => by rw [ht]) (by simp [hp])
    (by simp [hp'])
  refine .of_ended (by rw [hm.stores]; exact hr.keys) (by rwa [hm.self]) (fun b task => ?_) hp'
    hprogress
  rw [ht]
  exact hr.not_calling hp b task

theorem of_answered (h : Ledger s p hs) {done : List Store} {before : History} {a : Reply}
    (hc : s.taskAt c = some (r, phase, store, rest))
    (hof : hs.of r = before ++ [⟨c, ⟨store, r, phase⟩, none⟩])
    (hprogress : Progress r (s.transactionAt r).stores phase done before) (q : TransactionRef) :
    History.of (hs.map (·.answer c a)) q =
      if q = r then before ++ [⟨c, ⟨store, r, phase⟩, some a⟩] else hs.of q := by
  rw [History.of_answered]
  split
  · next hq =>
    have hclosed : before.map (·.answer c a) = before :=
      History.map_answer_of_closed a fun k hk hopen => absurd hopen (hprogress.closed k hk)
    rw [hq, hof, List.map_append, hclosed]
    simp [Contact.answer]
  · next hq =>
    refine History.map_answer_of_closed a fun k hk hopen hkc => hq ?_
    obtain ⟨hmem, hkq⟩ := List.mem_filter.mp hk
    obtain ⟨task, htask⟩ := h.opens k hmem hopen
    rw [hkc, hc] at htask
    have htr := (Prod.mk.inj (Option.some.inj htask)).1
    exact (of_decide_eq_true hkq).symm.trans htr.symm

/-- A store has replied, and the call goes on with the same phase or the next one. -/
theorem reply {a : Reply} (h : Ledger s idle hs) (ho : InOrder s' p') (hd : s'.Current p')
    (hc : s.taskAt c = some (r, phase, store, rest))
    (ht : ∀ b, s'.taskAt b = if b = c then none else s.taskAt b)
    (hp' : p'.task? = some (c, r, phase', rest')) (hm : Moves s s' r phase'.state)
    (hnext : ∀ done before, (s.transactionAt r).stores = done ++ store :: rest →
      Progress r (s.transactionAt r).stores phase done before →
      ∃ done', (s.transactionAt r).stores = done' ++ rest' ∧
        Progress r (s.transactionAt r).stores phase' done'
          (before ++ [⟨c, ⟨store, r, phase⟩, some a⟩])) :
    Next s hs s' p' (hs.map (·.answer c a)) := by
  have hr := h.entry r
  obtain ⟨hself, done, before, hdone, hof, hprogress⟩ := hr.calling c phase store rest hc
  have hof' := h.of_answered (a := a) hc hof hprogress
  refine h.turn ho hd (by rw [hself, phase.isFinal_state]) (fun k hk hopen => ?_) ?_
    (fun q => hm.ending) (fun q hq => by rw [hof', if_neg hq]) (fun q hq b task => ?_)
    (by simp [Stage.task?]) (by simp [hp'])
  · obtain ⟨j, hj, rfl⟩ := List.mem_map.mp hk
    unfold Contact.answer at hopen ⊢
    split
    · next hjc => simp [hjc] at hopen
    · next hjc =>
      rw [if_neg hjc] at hopen
      obtain ⟨task, htask⟩ := h.opens j hj hopen
      exact ⟨task, by rw [ht, if_neg fun hcall => hjc ⟨hcall, hopen⟩]; exact htask⟩
  · obtain ⟨done', hdone', hprogress'⟩ := hnext done before hdone hprogress
    rw [← hm.stores r] at hdone' hprogress'
    rw [hof', if_pos rfl]
    refine .of_going (by rw [hm.stores]; exact hr.keys) hm.self (fun b task hb => ?_) hp' hprogress'
      hdone'
    rw [ht] at hb
    split at hb
    · exact absurd hb (by simp)
    · next hbc => exact hbc (hr.call_eq hb hc)
  · rw [ht]
    split
    · next hb =>
      rw [hb, hc]
      simp [hq.symm]
    · rfl

theorem register (h : Ledger s idle hs) (ho : InOrder s' p') (hd : s'.Current p')
    (hp' : p'.task? = none) (ht : ∀ c, s'.taskAt c = s.taskAt c)
    (hactive : (s.transactionAt r).state = .active)
    (hstate : ∀ q, (s'.transactionAt q).state = (s.transactionAt q).state)
    (hkeys : (((s'.transactionAt r).stores).map (·.key)).Nodup)
    (hother : ∀ q, q ≠ r → (s'.transactionAt q).stores = (s.transactionAt q).stores) :
    Next s hs s' p' hs := by
  have hr := h.entry r
  refine h.turn ho hd (by rw [hactive]; rfl) (by simpa only [ht] using h.opens) ?_
    (fun q hq => Prod.ext (hstate q) (hother q hq)) (fun _ _ => rfl) (fun q _ b task => by rw [ht])
    (by simp [Stage.task?]) (by simp [hp'])
  rw [hr.active hactive]
  refine .of_active hkeys ((hstate r).trans hactive) (fun b task => ?_) hp'
  rw [ht]
  exact hr.not_calling_of_active hactive b task

/-- A transaction that no other call keeps from being rolled back is active, for one that is being
committed is in use. -/
theorem active_of_canRollBack (h : Ledger s p hs) (hp : p.task? = none)
    (hr : (s.transactionAt r).state.canRollBack = true) (hne : access ≠ .unowned)
    (ha : ∀ (c : CallId) (k : Call), s.calls[c]? = some k → k.transaction = r →
      k.access.permits access = true) : (s.transactionAt r).state = .active := by
  cases hstate : (s.transactionAt r).state with
  | active => rfl
  | committing =>
    rcases (h.entry r).underway .commit hstate with ⟨c, ⟨phase, store, rest⟩, hc⟩ | ⟨c, task, hc⟩
    · obtain ⟨k, hk, hkr, hktask⟩ := taskAt_eq_some hc
      obtain ⟨hphase, -⟩ := (h.entry r).calling c phase store rest hc
      have hsuits := h.inOrder.suited c k hk
      have hpermits := ha c k hk hkr
      obtain ⟨q, access', point⟩ := k
      cases point with
      | waiting => exact absurd hktask (by simp [Point.task?])
      | rollingBack =>
        cases hktask
        exact absurd (hstate.symm.trans hphase) (by simp [Phase.state])
      | preparing | committing =>
        obtain rfl : access' = .exclusive := hsuits
        cases access with
        | unowned => exact absurd rfl hne
        | _ => exact absurd hpermits (by simp [Access.permits])
    · rw [hp] at hc
      exact absurd hc (by simp)
  | _ =>
    rw [hstate] at hr
    exact absurd hr (by simp [State.canRollBack])

theorem prepared (h : Ledger s (.preparing c r []) hs)
    (ho : InOrder s (.committing c r (s.transactionAt r).stores)) :
    Next s hs s (.committing c r (s.transactionAt r).stores) hs := by
  have hd : s.Current (.committing c r (s.transactionAt r).stores) := Advance.prepared.current
  have hr := h.entry r
  obtain ⟨hself, done, hdone, hprogress⟩ := hr.going c .prepare [] rfl
  rw [List.append_nil] at hdone
  rw [← hdone] at hprogress
  refine h.turn ho hd (by rw [hself, Phase.isFinal_state]) h.opens ?_ (fun _ _ => rfl) (fun _ _ => rfl)
    (fun _ _ _ _ => .rfl) (by simp [Stage.task?]) (by simp [Stage.task?])
  have hcommit : (s.transactionAt r).state = Phase.commit.state := hself
  exact .of_going hr.keys hcommit (hr.not_calling rfl) rfl hprogress.prepared rfl

theorem advance (h : Ledger s p hs) (ha : Advance s p s' p') : Next s hs s' p' (hs.at p') := by
  have ho := h.inOrder.advance ha
  have hd := ha.current
  have huser := h.inOrder.user
  have hkept : ∀ {f : Transaction → Transaction} {r}, (∀ t, (f t).ending = t.ending) → ∀ q,
      ((s.modifyTransaction r f).transactionAt q).ending = (s.transactionAt q).ending :=
    fun hf q => view_modifyTransaction Transaction.ending hf
  cases ha with
  | sleep =>
    refine h.frame ho hd (fun b => ?_) rfl fun _ => rfl
    apply (taskAt_suspend _).trans
    split
    · next hb => exact hb ▸ (h.taskAt_going rfl).symm
    · rfl
  | ask | grant | fail | keep =>
    exact h.frame ho hd (fun _ => rfl) rfl (hkept fun _ => rfl)
  | @abort c r e rest error hs =>
    have hr := huser r .shared rfl
    have hactive := h.active_of_canRollBack rfl hs (by simp) (h.inOrder.aside r .shared rfl)
    exact h.begins ho hd (fun _ => rfl) rfl rfl hactive
      ((moves_setState hr .aborting).congr fun _ => rfl)
  | @beginPhased c r | @beginAtOnce c r =>
    exact h.begins ho hd (fun _ => rfl) rfl rfl (h.current c r rfl)
      (moves_setState (huser r .exclusive rfl) .committing)
  | undo | prepare | commit =>
    exact h.contact ho hd rfl rfl rfl (fun _ => taskAt_suspend _) fun _ => rfl
  | prepared => exact h.prepared ho
  | @undone c r access cause =>
    have hr := huser r access rfl
    exact h.ends ho hd rfl rfl (taskAt_congr (calls_retire _ r).1)
      ((moves_setState hr .aborted).congr fun q =>
        view_retire Transaction.ending (fun _ => rfl) fun _ => rfl)
      (.inr ⟨rfl, rfl⟩)
  | @removed c r access =>
    have hr := huser r access rfl
    refine h.ends ho hd rfl rfl (taskAt_congr ((calls_alert _ r).1.trans (calls_retire _ r).1))
      ((moves_setState hr .aborted).congr fun q => ?_) (.inr ⟨rfl, rfl⟩)
    rw [transactionAt_alert]
    exact view_retire Transaction.ending (fun _ => rfl) fun _ => rfl
  | @committed c r =>
    have hr := huser r .exclusive rfl
    exact h.ends ho hd rfl rfl (taskAt_congr (calls_retire _ r).1)
      ((moves_setState hr .committed).congr fun q =>
        view_retire Transaction.ending (fun _ => rfl) fun _ => rfl)
      (.inl ⟨rfl, rfl⟩)
  | _ => exact h.frame ho hd (fun _ => rfl) rfl fun _ => rfl

theorem taskAt_asleep {k : Call} (hk : s.calls[c]? = some k) (hp : k.point.isAsleep) :
    s.taskAt c = none := by
  obtain ⟨r, access, point⟩ := k
  cases point with
  | waiting => rw [taskAt, hk]; rfl
  | _ => exact absurd hp (by simp [Point.isAsleep])

theorem start_quiet {response : Response} (h : Ledger s idle hs)
    (hr : ∀ c call, response ≠ .storeCall c call)
    (hc : ∀ c answer, e = .reply c answer → ∀ k, s.calls[c]? = some k → k.point.isAsleep) :
    Next s hs s (.concluded response) ((hs.answered e).at (.concluded response)) := by
  have hanswered : hs.answered e = hs := by
    cases e with
    | reply c a =>
      refine History.map_answer_of_closed a fun k hk hopen hkc => ?_
      obtain ⟨task, htask⟩ := h.opens k hk hopen
      rw [hkc] at htask
      obtain ⟨j, hj, -⟩ := taskAt_eq_some htask
      rw [taskAt_asleep hj (hc c a rfl j hj)] at htask
      exact absurd htask (by simp)
    | _ => rfl
  have hnoted : hs.noted response = hs := by
    cases response with
    | storeCall c call => exact absurd rfl (hr c call)
    | _ => rfl
  rw [hanswered]
  show Next s hs s (.concluded response) (hs.noted response)
  rw [hnoted]
  exact h.frame (h.inOrder.start (.quiet hr hc)) current_concluded (fun _ => rfl) rfl fun _ => rfl

theorem reply_accepted {a : Reply} (h : Ledger s idle hs) (ho : InOrder s' p') (hd : s'.Current p')
    (hc : s.taskAt c = some (r, phase, store, rest)) (hok : phase.accepts a = true)
    (ht : ∀ b, s'.taskAt b = if b = c then none else s.taskAt b)
    (hp' : p'.task? = some (c, r, phase, rest))
    (hend : ∀ q, (s'.transactionAt q).ending = (s.transactionAt q).ending) :
    Next s hs s' p' (hs.map (·.answer c a)) := by
  have hself := ((h.entry r).calling c phase store rest hc).1
  refine h.reply ho hd hc ht hp' ((Moves.refl hself).congr hend) fun done before hdone hprogress => ?_
  exact ⟨done ++ [store], by rw [hdone, List.append_assoc]; rfl, hprogress.concat rfl rfl hok⟩

theorem reply_failed {a : Reply} (h : Ledger s idle hs) (ho : InOrder s' p') (hd : s'.Current p')
    (hc : s.taskAt c = some (r, phase, store, rest)) (hne : phase ≠ .rollback)
    (hf : phase.accepts a = false) (ht : ∀ b, s'.taskAt b = if b = c then none else s.taskAt b)
    (hp' : p'.task? = some (c, r, .rollback, (s.transactionAt r).stores))
    (hm : Moves s s' r .aborting) : Next s hs s' p' (hs.map (·.answer c a)) := by
  refine h.reply ho hd hc ht hp' hm fun done before hdone hprogress => ?_
  exact ⟨[], rfl, hprogress.failed hne hdone rfl rfl hf⟩

theorem canRollBack (h : Ledger s p hs) (hc : s.taskAt c = some (r, phase, store, rest))
    (hne : phase ≠ .rollback) : (s.transactionAt r).state.canRollBack = true := by
  rw [((h.entry r).calling c phase store rest hc).1]
  cases phase with
  | rollback => exact absurd rfl hne
  | _ => rfl

theorem start (h : Ledger s idle hs) (hst : Start s e s' p) :
    Next s hs s' p ((hs.answered e).at p) := by
  have ho := h.inOrder.start hst
  have hd := hst.current
  have hkept : ∀ {f : Transaction → Transaction} {r}, (∀ t, (f t).ending = t.ending) → ∀ q,
      ((s.modifyTransaction r f).transactionAt q).ending = (s.transactionAt q).ending :=
    fun hf q => view_modifyTransaction Transaction.ending hf
  have hactive : ∀ {r}, s.admits r .exclusive = true →
      (s.transactionAt r).state.canRollBack = true → (s.transactionAt r).state = .active :=
    fun ha hs => h.active_of_canRollBack rfl hs (by simp) (admits_iff.mp ha).2.2
  have hdismiss : ∀ {c r access name d goal}, s.calls[c]? = some ⟨r, access, .waiting name d goal⟩ →
      ∀ b, (s.dismiss c).taskAt b = s.taskAt b := by
    intro c r access name d goal hk b
    rw [taskAt_dismiss]
    split
    · next hb => rw [hb, taskAt_asleep hk rfl]
    · rfl
  have hknown : ∀ {c : CallId} {r : TransactionRef} {access : Access} {point : Point},
      s.calls[c]? = some ⟨r, access, point⟩ → r ∈ s.transactions :=
    fun hk => h.inOrder.known _ _ hk
  have hrefused : ∀ {o : Option Error} {b : Bool} {error}, (o = none ↔ b = true) →
      o = some error → b = false := by
    intro o b error hiff ho
    rw [ho] at hiff
    simpa using hiff
  cases hst with
  | quiet hr hc => exact h.start_quiet hr hc
  | begin hn =>
    exact h.frame ho hd (fun _ => rfl) rfl fun q =>
      congrArg Transaction.ending (transactionAt_begin h.inOrder hn _ q)
  | acquire | upgrade | dropEnded => exact h.frame ho hd (fun _ => rfl) rfl (hkept fun _ => rfl)
  | @register r store ha hs hn =>
    have hr : r ∈ s.transactions := (admits_iff.mp ha).1
    refine h.register ho hd rfl (fun _ => rfl) hs
      (fun q => view_modifyTransaction Transaction.state fun _ => rfl) ?_ fun q hq => ?_
    · rw [transactionAt_modifyTransaction s r r _ hr, if_pos rfl, List.map_append,
        List.nodup_append]
      refine ⟨(h.entry r).keys, List.nodup_singleton _, fun a ha b hb => ?_⟩
      obtain ⟨known, hknown, rfl⟩ := List.mem_map.mp ha
      rw [List.mem_singleton.mp hb]
      exact hn known hknown
    · rw [transactionAt_modifyTransaction s r q _ hr, if_neg hq]
  | @commitInterrupted r ha _ hs | @rollback r ha hs =>
    exact h.begins ho hd (fun _ => rfl) rfl rfl (hactive ha hs)
      (moves_setState (admits_iff.mp ha).1 .aborting)
  | @drop r ha hs =>
    have hr : r ∈ (s.modifyTransaction r fun t => { t with isOwned := false }).transactions :=
      mem_transactions_modifyTransaction.mpr (admits_iff.mp ha).1
    exact h.begins ho hd (fun _ => rfl) rfl rfl (hactive ha hs)
      ((moves_setState hr .aborting).after (hkept fun _ => rfl))
  | @remove r hs =>
    exact h.begins ho hd (fun _ => rfl) rfl rfl (state_of_registeredState? hs)
      (moves_modifyTransaction (mem_of_registeredState? hs) fun _ => ⟨rfl, rfl⟩)
  | interrupt | managerInterrupt =>
    refine h.frame ho hd (taskAt_congr (calls_alert _ _).1) rfl fun q => ?_
    rw [interrupt, transactionAt_alert]
    exact view_modifyTransaction Transaction.ending fun _ => rfl
  | unlockAll =>
    exact h.frame ho hd (taskAt_congr (calls_releaseAll s _).1) rfl fun q =>
      view_releaseAll Transaction.ending fun _ => rfl
  | forget =>
    exact h.frame ho hd (taskAt_congr (calls_releaseAll s _).1) rfl fun q =>
      view_forget Transaction.ending fun _ => rfl
  | wake hk | expire hk => exact h.frame ho hd (hdismiss hk) rfl fun _ => rfl
  | expireIdle hk =>
    refine h.frame ho hd (fun b => ?_) rfl fun _ => rfl
    rw [taskAt_suspend]
    split
    · next hb => rw [hb, taskAt_asleep hk rfl]; rfl
    · rfl
  | @prepared c r access store rest answer hk ha =>
    exact h.reply_accepted ho hd (taskAt_of_call hk rfl) (Reply.prepareError?_eq_none_iff.mp ha)
      (fun _ => taskAt_dismiss _) rfl fun _ => rfl
  | @notPrepared c r access store rest answer error hk ha =>
    exact h.reply_failed ho hd (taskAt_of_call hk rfl) (by simp)
      (hrefused Reply.prepareError?_eq_none_iff ha)
      (fun _ => taskAt_dismiss _) rfl ((moves_setState (hknown hk) .aborting).congr fun _ => rfl)
  | @committed c r access store rest answer hk ha =>
    exact h.reply_accepted ho hd (taskAt_of_call hk rfl) (Reply.commitError?_eq_none_iff.mp ha)
      (fun _ => taskAt_dismiss _) rfl fun _ => rfl
  | @notCommitted c r access store rest answer error hk ha =>
    exact h.reply_failed ho hd (taskAt_of_call hk rfl) (by simp)
      (hrefused Reply.commitError?_eq_none_iff ha)
      (fun _ => taskAt_dismiss _) rfl ((moves_setState (hknown hk) .aborting).congr fun _ => rfl)
  | notPreparedEnded hk _ hs | notCommittedEnded hk _ hs =>
    exact absurd (h.canRollBack (taskAt_of_call hk rfl) (by simp)) (by simp [hs])
  | rolledBack hk =>
    exact h.reply_accepted ho hd (taskAt_of_call hk rfl) rfl (fun _ => taskAt_dismiss _) rfl
      fun _ => rfl
  | _ => exact h.frame ho hd (fun _ => rfl) rfl fun _ => rfl

end Ledger

end System

end Locking
