import Locking.Proofs.Commit.Outcome
import Locking.Proofs.Commit.Plan
import Locking.Proofs.System.Life

/-! Where a commit stands.  Each reply takes it to the next call of its plan, or lets it return what
the plan says, and whatever else happens leaves it where it is. -/

namespace Locking

namespace Event

/-- The call to which an event brings a reply, and the reply. -/
def reply? : Event → Option (CallId × Reply)
  | reply c a => some (c, a)
  | _ => none

/-- Whether an event is the reply to what a call has asked of a store. -/
def repliesTo (c : CallId) (e : Event) : Bool := e.reply?.any (·.1 == c)

theorem exists_of_repliesTo {c : CallId} {e : Event} (h : e.repliesTo c = true) :
    ∃ a, e = .reply c a := by
  cases e with
  | reply b a =>
    obtain rfl : b = c := eq_of_beq h
    exact ⟨a, rfl⟩
  | _ => exact absurd h (by simp [repliesTo, reply?])

/-- Whether an event lets a call in progress go on. -/
def resumes (c : CallId) : Event → Bool
  | wake b | expire b | reply b _ => b == c
  | _ => false

end Event

namespace Commit

/-- What is left of a commit at a point, where `all` are the stores that take part: the calls that
have no reply yet, and the error with which it will end, if any. -/
inductive Remains (answers : Answers) (all : List Store) :
    Point → List (Phase × Store) → Option Error → Prop
  | preparing {store rest} : Remains answers all (.preparing store rest)
      (prepares answers all (store :: rest))
      ((firstFailure? answers .prepare (store :: rest)).or (firstFailure? answers .commit all))
  | committing {store rest} : Remains answers all (.committing store rest)
      (commits answers all (store :: rest)) (firstFailure? answers .commit (store :: rest))
  | rollingBack {store rest error} : Remains answers all (.rollingBack store rest (.failure error))
      ((store :: rest).map (.rollback, ·)) (some error)

/-- The first of the calls that are left is the one that has been made. -/
theorem Remains.exists_cons {answers : Answers} {all rest : List Store} {point : Point}
    {calls : List (Phase × Store)} {error : Option Error} {phase : Phase} {store : Store}
    (h : Remains answers all point calls error) (ht : point.task? = some (phase, store, rest)) :
    ∃ todo, calls = (phase, store) :: todo := by
  cases h with
  | preparing =>
    cases ht
    cases hf : failure? answers .prepare store with
    | none => exact ⟨_, prepares_cons_of_none hf⟩
    | some error => exact ⟨_, prepares_cons_of_some hf⟩
  | committing =>
    cases ht
    cases hf : failure? answers .commit store with
    | none => exact ⟨_, commits_cons_of_none hf⟩
    | some error => exact ⟨_, commits_cons_of_some hf⟩
  | rollingBack =>
    cases ht
    exact ⟨_, rfl⟩

end Commit

namespace System

open Commit

/-! ### Where a commit stands -/

/-- What a commit has come to when it goes no further at once: it has returned, or it has made the
first of the calls that are left. -/
inductive Stands (answers : Answers) (c : CallId) (r : TransactionRef) :
    System × Response → List (Phase × Store) → Option Error → Prop
  | returned {s error} (hs : (s.transactionAt r).state = finalState error) :
    Stands answers c r (s, .returned (outcome error)) [] error
  | storeCall {s point phase store rest calls error}
      (hk : s.calls[c]? = some ⟨r, .exclusive, point⟩)
      (ht : point.task? = some (phase, store, rest))
      (hr : Remains answers (s.transactionAt r).stores point calls error) :
    Stands answers c r (s, .storeCall c ⟨store, r, phase⟩) calls error

variable {s s' : System} {p p' : Stage} {e : Event} {c : CallId} {r q : TransactionRef}
  {hs : History} {answers : Answers} {all rest : List Store} {store : Store}
  {phase : Phase} {error : Option Error} {failure : Error} {point : Point} {response : Response}
  {calls todo : List (Phase × Store)}

theorem calls_suspend_self {k : Call} : (s.suspend c k).calls[c]? = some k := by
  rw [calls_suspend, if_pos rfl]

theorem stands_rollBackStores (hr : r ∈ s.transactions) (stores : List Store) :
    Stands answers c r (s.rollBackStores c r .exclusive (.failure failure) stores)
      (stores.map (.rollback, ·)) (some failure) := by
  cases stores with
  | nil =>
    show Stands answers c r (_, .returned (outcome (some failure))) [] (some failure)
    exact .returned (state_retired hr .aborted)
  | cons store rest => exact .storeCall calls_suspend_self rfl .rollingBack

theorem stands_commitStores (hr : r ∈ s.transactions) (hall : (s.transactionAt r).stores = all)
    (stores : List Store) : Stands answers c r (s.commitStores c r stores)
      (commits answers all stores) (firstFailure? answers .commit stores) := by
  cases stores with
  | nil =>
    rw [commits_nil]
    show Stands answers c r (_, .returned (outcome none)) [] none
    exact .returned (state_retired hr .committed)
  | cons store rest =>
    subst hall
    exact .storeCall calls_suspend_self rfl .committing

theorem stands_prepareStores (hr : r ∈ s.transactions) (hall : (s.transactionAt r).stores = all)
    (stores : List Store) : Stands answers c r (s.prepareStores c r stores)
      (prepares answers all stores)
      ((firstFailure? answers .prepare stores).or (firstFailure? answers .commit all)) := by
  cases stores with
  | nil =>
    rw [prepares_nil, prepareStores, hall]
    exact stands_commitStores hr hall all
  | cons store rest =>
    subst hall
    exact .storeCall calls_suspend_self rfl .preparing

theorem stands_rollBack (hr : r ∈ s.transactions)
    (hs : (s.transactionAt r).state.canRollBack = true) :
    Stands answers c r (s.rollBack c r .exclusive (.failure failure))
      ((s.transactionAt r).stores.map (.rollback, ·)) (some failure) := by
  rw [rollBack, if_pos hs]
  exact stands_rollBackStores (mem_transactions_modifyTransaction.mpr hr) _

theorem stands_commit (ha : s.admits r .exclusive = true)
    (hactive : (s.transactionAt r).state = .active)
    (hi : (s.transactionAt r).isInterrupted = false) :
    Stands answers s.nextCall r (s.step (.commit r))
      (plan answers (s.twoPhaseCommit r.manager) (s.transactionAt r).stores)
      (planError? answers (s.twoPhaseCommit r.manager) (s.transactionAt r).stores) := by
  have hr : r ∈ (s.setState r .committing).transactions :=
    mem_transactions_modifyTransaction.mpr (admits_iff.mp ha).1
  have hall : ((s.setState r .committing).transactionAt r).stores = (s.transactionAt r).stores :=
    view_modifyTransaction Transaction.stores fun _ => rfl
  simp only [step, withAccess, ha, if_true, commit, hi, hactive, Bool.false_eq_true, false_and,
    if_false, ne_eq, not_true_eq_false, plan, planError?]
  cases s.twoPhaseCommit r.manager with
  | true => exact stands_prepareStores hr hall _
  | false => exact stands_commitStores hr hall _

section Reply

variable {access : Access} {a : Reply}

theorem reply_prepared (hk : s.calls[c]? = some ⟨r, access, .preparing store rest⟩)
    (ha : a.prepareError? store = none) : s.reply c a = s.prepareStores c r rest := by
  unfold reply
  rw [hk]
  cases a with
  | done => rfl
  | _ => exact absurd ha (by simp [Reply.prepareError?])

theorem reply_notPrepared (hk : s.calls[c]? = some ⟨r, access, .preparing store rest⟩)
    (ha : a.prepareError? store = some failure) :
    s.reply c a = s.rollBack c r access (.failure failure) := by
  unfold reply
  rw [hk]
  cases a with
  | done => exact absurd ha (by simp [Reply.prepareError?])
  | _ =>
    cases ha
    rfl

theorem reply_committed (hk : s.calls[c]? = some ⟨r, access, .committing store rest⟩)
    (ha : a.commitError? store = none) : s.reply c a = s.commitStores c r rest := by
  unfold reply
  rw [hk]
  cases a with
  | failed => exact absurd ha (by simp [Reply.commitError?])
  | _ => rfl

theorem reply_notCommitted (hk : s.calls[c]? = some ⟨r, access, .committing store rest⟩)
    (ha : a.commitError? store = some failure) :
    s.reply c a = s.rollBack c r access (.failure failure) := by
  unfold reply
  rw [hk]
  cases a with
  | failed =>
    cases ha
    rfl
  | _ => exact absurd ha (by simp [Reply.commitError?])

theorem reply_rolledBack {cause : Cause}
    (hk : s.calls[c]? = some ⟨r, access, .rollingBack store rest cause⟩) (a : Reply) :
    ∃ statistics,
      s.reply c a = (s.setStatistics statistics).rollBackStores c r access cause rest := by
  unfold reply
  rw [hk]
  exact ⟨_, rfl⟩

end Reply

/-- The reply of a store takes a commit to the next of the calls that are left. -/
theorem stands_reply (hl : Ledger s idle hs) (hk : s.calls[c]? = some ⟨r, .exclusive, point⟩)
    (ht : point.task? = some (phase, store, rest))
    (hr : Remains answers (s.transactionAt r).stores point calls error)
    (hcalls : calls = (phase, store) :: todo) :
    Stands answers c r (s.reply c (answers phase store)) todo error := by
  have hmem : r ∈ s.transactions := hl.inOrder.known c _ hk
  cases hr with
  | preparing =>
    cases ht
    have hroll := hl.canRollBack (taskAt_of_call hk rfl) (by simp)
    cases hf : failure? answers .prepare store with
    | none =>
      rw [prepares_cons_of_none hf, List.cons.injEq] at hcalls
      rw [← hcalls.2, firstFailure?_cons_of_none hf, reply_prepared hk hf]
      exact stands_prepareStores hmem rfl rest
    | some failure =>
      rw [prepares_cons_of_some hf, List.cons.injEq] at hcalls
      rw [← hcalls.2, firstFailure?_cons_of_some hf, reply_notPrepared hk hf]
      exact stands_rollBack hmem hroll
  | committing =>
    cases ht
    have hroll := hl.canRollBack (taskAt_of_call hk rfl) (by simp)
    cases hf : failure? answers .commit store with
    | none =>
      rw [commits_cons_of_none hf, List.cons.injEq] at hcalls
      rw [← hcalls.2, firstFailure?_cons_of_none hf, reply_committed hk hf]
      exact stands_commitStores hmem rfl rest
    | some failure =>
      rw [commits_cons_of_some hf, List.cons.injEq] at hcalls
      rw [← hcalls.2, firstFailure?_cons_of_some hf, reply_notCommitted hk hf]
      exact stands_rollBack hmem hroll
  | rollingBack =>
    cases ht
    obtain ⟨-, rfl⟩ := List.cons.inj hcalls
    obtain ⟨statistics, hreply⟩ := reply_rolledBack hk (answers .rollback store)
    rw [hreply]
    exact stands_rollBackStores (s := s.setStatistics statistics) hmem rest

/-! ### What other events leave alone -/

theorem Advance.stores (ha : Advance s p s' p') :
    (s'.transactionAt q).stores = (s.transactionAt q).stores := by
  cases ha with
  | ask | grant | fail | keep | abort | beginPhased | beginAtOnce =>
    exact view_modifyTransaction Transaction.stores fun _ => rfl
  | undone | committed =>
    exact (congrArg Prod.snd ending_retire).trans
      (view_modifyTransaction Transaction.stores fun _ => rfl)
  | removed =>
    rw [transactionAt_alert]
    exact (congrArg Prod.snd ending_retire).trans
      (view_modifyTransaction Transaction.stores fun _ => rfl)
  | _ => rfl

theorem Start.stores (ho : InOrder s idle) (hst : Start s e s' p)
    (he : ∀ store, e = .register q store → (s.transactionAt q).state ≠ .active) :
    (s'.transactionAt q).stores = (s.transactionAt q).stores := by
  cases hst with
  | begin hn => exact congrArg Transaction.stores (transactionAt_begin ho hn _ q)
  | @register r store _ hs =>
    have hq : q ≠ r := by
      rintro rfl
      exact he store rfl hs
    rw [transactionAt_modifyTransaction_ne hq]
  | acquire | upgrade | commitInterrupted | rollback | dropEnded | remove | notPrepared
  | notCommitted =>
    exact view_modifyTransaction Transaction.stores fun _ => rfl
  | @drop r =>
    have hdropped : ((s.modifyTransaction r fun t => { t with isOwned := false }).transactionAt
        q).stores = (s.transactionAt q).stores :=
      view_modifyTransaction Transaction.stores fun _ => rfl
    rw [← hdropped]
    exact view_modifyTransaction Transaction.stores fun _ => rfl
  | interrupt | managerInterrupt =>
    rw [System.interrupt, transactionAt_alert]
    exact view_modifyTransaction Transaction.stores fun _ => rfl
  | unlockAll => exact view_releaseAll Transaction.stores fun _ => rfl
  | forget => exact view_forget Transaction.stores fun _ => rfl
  | _ => rfl

theorem stores_step (ho : InOrder s idle)
    (he : ∀ store, e = .register q store → (s.transactionAt q).state ≠ .active) :
    ((s.step e).1.transactionAt q).stores = (s.transactionAt q).stores := by
  obtain ⟨s', p, hst, hend⟩ := follows_step ho.tidy e
  rw [← hst.stores ho he]
  clear hst
  generalize s.step e = result at hend
  induction hend with
  | concluded => rfl
  | step ha _ ih => exact ih.trans ha.stores

/-- Only an event that lets a call go on takes it off its point. -/
theorem Start.calls_of_not_resumes (hst : Start s e s' p) (he : e.resumes c = false) :
    s'.calls[c]? = s.calls[c]? := by
  have hother : ∀ {b : CallId}, (b == c) = false → c ≠ b := fun hb hcb => by simp [hcb] at hb
  cases hst with
  | wake | expire | prepared | notPrepared | notPreparedEnded | committed | notCommitted
  | notCommittedEnded | rolledBack => exact calls_dismiss.trans (if_neg (hother he))
  | expireIdle => exact calls_suspend.trans (if_neg (hother he))
  | interrupt | managerInterrupt => exact congrArg (·[c]?) (calls_alert _ _).1
  | unlockAll => rw [(calls_releaseAll _ _).1]
  | forget => rw [forget_eq]; exact congrArg (·[c]?) (calls_releaseAll s _).1
  | _ => rfl

/-- Only the reply to what a call has asked of a store takes the call off its point. -/
theorem Start.calls_of_task {k : Call} {task : Phase × Store × List Store} (hst : Start s e s' p)
    (hk : s.calls[c]? = some k) (ht : k.point.task? = some task) (he : e.repliesTo c = false) :
    s'.calls[c]? = some k := by
  cases hresumes : e.resumes c with
  | false => exact (hst.calls_of_not_resumes hresumes).trans hk
  | true =>
    have hasleep : ∀ {q : TransactionRef} {access : Access} {name : LockName} {d : Deadline}
        {goal : Goal}, s.calls[c]? ≠ some ⟨q, access, .waiting name d goal⟩ := by
      intro q access name d goal hc
      cases hk.symm.trans hc
      exact absurd ht (by simp [Point.task?])
    cases e with
    | wake b =>
      obtain rfl : b = c := eq_of_beq hresumes
      cases hst with
      | quiet => exact hk
      | wake hb => exact absurd hb hasleep
    | expire b =>
      obtain rfl : b = c := eq_of_beq hresumes
      cases hst with
      | quiet => exact hk
      | expire hb | expireIdle hb => exact absurd hb hasleep
    | reply b a => exact absurd (he.symm.trans hresumes) (by simp)
    | _ => exact absurd hresumes (by simp [Event.resumes])

theorem InOrder.calls_of_advance {k : Call} (ho : InOrder s p) (ha : Advance s p s' p')
    (hk : s.calls[c]? = some k) : s'.calls[c]? = some k := by
  cases ha.keeps with
  | nothing hc => rw [hc, hk]
  | @call b r access point hb hu hs hc =>
    have hbc : b ≠ c := by
      rintro rfl
      rw [(ho.going b hb).1] at hk
      exact absurd hk (by simp)
    rw [hc, Std.ExtTreeMap.getElem?_insert, if_neg (by simpa using hbc), hk]

/-- What starts leave at its point is there when they have run their course. -/
theorem InOrder.calls_of_starts {k : Call} (ho : InOrder s idle)
    (hk : ∀ s' p, Start s e s' p → s'.calls[c]? = some k) : (s.step e).1.calls[c]? = some k := by
  obtain ⟨s', p, hst, hend⟩ := follows_step ho.tidy e
  have hk' := hk s' p hst
  have ho' := ho.start hst
  generalize s.step e = result at hend
  clear hst
  induction hend with
  | concluded => exact hk'
  | step ha _ ih => exact ih (ho'.calls_of_advance ha hk') (ho'.advance ha)

theorem InOrder.calls_step {k : Call} {task : Phase × Store × List Store} (ho : InOrder s idle)
    (hk : s.calls[c]? = some k) (ht : k.point.task? = some task) (he : e.repliesTo c = false) :
    (s.step e).1.calls[c]? = some k :=
  ho.calls_of_starts fun _ _ hst => hst.calls_of_task hk ht he

theorem InOrder.calls_step_of_not_resumes {k : Call} (ho : InOrder s idle)
    (hk : s.calls[c]? = some k) (he : e.resumes c = false) : (s.step e).1.calls[c]? = some k :=
  ho.calls_of_starts fun _ _ hst => (hst.calls_of_not_resumes he).trans hk

/-- As long as a transaction waits for the same reply, the history of its calls stays as it is. -/
theorem Ledger.of_eq_of_open (h : Ledger s idle hs) (hk : s.taskAt c = some (r, phase, store, rest))
    (he : e.repliesTo c = false)
    (h' : Ledger s' idle ((hs.answered e).noted response))
    (hk' : s'.taskAt c = some (r, phase, store, rest)) :
    ((hs.answered e).noted response).of r = hs.of r := by
  obtain ⟨-, _, before, -, hof, hprogress⟩ := (h.entry r).calling c phase store rest hk
  have hanswered : (hs.answered e).of r = hs.of r := by
    cases e with
    | reply b a =>
      refine (History.of_answered b a).trans (History.map_answer_of_closed a fun k hmem hopen => ?_)
      rw [hof] at hmem
      rcases List.mem_append.mp hmem with hmem | hmem
      · exact absurd hopen (hprogress.closed k hmem)
      · rintro rfl
        rw [List.mem_singleton.mp hmem] at he
        exact absurd he (by simp [Event.repliesTo, Event.reply?])
    | _ => rfl
  cases response with
  | storeCall b request =>
    by_cases hr : request.transaction = r
    · -- The new call would be the open one, and the old one would not be open any more.
      obtain ⟨-, _, before', -, hof', hprogress'⟩ := (h'.entry r).calling c phase store rest hk'
      have hnew : ((hs.answered e).noted (.storeCall b request)).of r =
          hs.of r ++ [⟨b, request, none⟩] := by
        subst hr
        rw [← hanswered]
        exact History.of_append.trans
          (congrArg _ (History.of_singleton_same ⟨b, request, none⟩))
      have hbefore := (List.append_inj' (hnew.symm.trans hof') rfl).1
      refine absurd rfl (hprogress'.closed ⟨c, ⟨store, r, phase⟩, none⟩ ?_)
      rw [← hbefore, hof]
      simp
    · exact History.of_append.trans (by
        rw [History.of_singleton_ne (h := ⟨b, request, none⟩) hr, List.append_nil, hanswered])
  | _ => exact hanswered

/-- The reply of a store closes the one call that is open. -/
theorem Ledger.of_reply {done : History} (h : Ledger s idle hs)
    (hc : s.taskAt c = some (r, phase, store, rest))
    (hof : hs.of r = done ++ [⟨c, ⟨store, r, phase⟩, none⟩]) (a : Reply) :
    (hs.answered (.reply c a)).of r = done ++ [⟨c, ⟨store, r, phase⟩, some a⟩] := by
  obtain ⟨-, _, before, -, hbefore, hprogress⟩ := (h.entry r).calling c phase store rest hc
  obtain rfl : before = done := (List.append_inj' (hbefore.symm.trans hof) rfl).1
  exact (h.of_answered hc hof hprogress r).trans (if_pos rfl)

/-- Whatever is not the reply of the store leaves a commit where it stands. -/
theorem stands_other (hl : Ledger s idle hs) (hk : s.calls[c]? = some ⟨r, .exclusive, point⟩)
    (ht : point.task? = some (phase, store, rest))
    (hr : Remains answers (s.transactionAt r).stores point calls error)
    (he : e.repliesTo c = false) :
    Stands answers c r ((s.step e).1, .storeCall c ⟨store, r, phase⟩) calls error ∧
      ((hs.answered e).noted (s.step e).2).of r = hs.of r := by
  have htask := taskAt_of_call hk ht
  have hk' := hl.inOrder.calls_step hk ht he
  have hstores := stores_step (e := e) hl.inOrder fun _ _ => by
    rw [((hl.entry r).calling c phase store rest htask).1]
    exact phase.state_ne_active
  rw [← hstores] at hr
  exact ⟨.storeCall hk' ht hr,
    hl.of_eq_of_open htask he (hl.step e).ledger (taskAt_of_call hk' ht)⟩

/-- The call that a commit has made is open in the history. -/
theorem Stands.of_noted {result : System × Response} (h : Stands answers c r result calls error)
    (hs : History) : (hs.noted result.2).of r = hs.of r ++ contacts answers c r calls 0 := by
  cases h with
  | returned => simp [History.noted, contacts_nil]
  | @storeCall _ point phase store rest _ _ hk ht hr =>
    obtain ⟨todo, rfl⟩ := hr.exists_cons ht
    rw [contacts_zero]
    exact History.of_append.trans
      (congrArg _ (History.of_singleton_same ⟨c, ⟨store, r, phase⟩, none⟩))

end System

end Locking
