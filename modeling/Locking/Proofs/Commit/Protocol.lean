import Locking.Proofs.Commit.Standing

/-! The commit protocol.  Whatever else happens while its stores are called, a commit makes exactly
the calls of its plan, one after the other, and then returns what the plan says. -/

namespace Locking

/-- The store that an event has registered with a transaction, be it new there or not. -/
def Event.registered? (r : TransactionRef) : Event → Response → Option Store
  | register q store, .returned (.ok (.flag _)) => if q = r then some store else none
  | _, _ => none

namespace System

open Commit

variable {s : System} {e : Event} {c : CallId} {r : TransactionRef} {hs done : History}
  {answers : Answers} {error : Option Error} {response : Response} {later : List Event}
  {calls : List (Phase × Store)}

/-! ### The stores that take part -/

/-- The stores that a list of events has registered with a transaction, in the order in which that
happened. -/
def registrations (s : System) (r : TransactionRef) : List Event → List Store
  | [] => []
  | e :: events => (e.registered? r (s.step e).2).toList ++ (s.step e).1.registrations r events

/-- An event adds the store that it has registered, unless the transaction knows it. -/
theorem stores_of_registered? (ho : InOrder s idle) : ((s.step e).1.transactionAt r).stores =
    (s.transactionAt r).stores ++
      (e.registered? r (s.step e).2).toList.filter (isNew (s.transactionAt r).stores) := by
  by_cases he : ∃ store, e = .register r store
  swap
  · have hnone : e.registered? r (s.step e).2 = none := by
      unfold Event.registered?
      split
      · next q store b hres => exact if_neg fun hq => he ⟨store, by rw [hq]⟩
      · rfl
    rw [hnone, stores_step ho fun store hreg => absurd ⟨store, hreg⟩ he]
    simp
  obtain ⟨store, rfl⟩ := he
  have hnew : isNew (s.transactionAt r).stores store =
      !(s.transactionAt r).stores.any (·.key == store.key) := by
    simp [isNew, List.not_any_eq_all_not, bne]
  simp only [step, withAccess]
  split
  · next ha =>
    have hr : r ∈ s.transactions := (admits_iff.mp ha).1
    simp only [register]
    split
    · simp [Event.registered?]
    · split
      · next hknown => simp [Event.registered?, hnew, hknown]
      · next hknown =>
        simp [Event.registered?, hnew, hknown, transactionAt_modifyTransaction s r r _ hr]
  · simp [Event.registered?]

/-- The stores of a transaction are those registered with it, each where it occurs first. -/
theorem stores_run (ho : InOrder s idle) (events : List Event) :
    ((s.run events).transactionAt r).stores = (s.transactionAt r).stores ++
      (firsts (s.registrations r events)).filter (isNew (s.transactionAt r).stores) := by
  induction events generalizing s with
  | nil => simp [run, registrations, firsts]
  | cons e events ih =>
    have hstep : InOrder (s.step e).1 idle := InOrder.invariant.step ho trivial
    have hrun : s.run (e :: events) = (s.step e).1.run events := rfl
    rw [hrun, ih hstep, stores_of_registered? ho, registrations]
    cases e.registered? r (s.step e).2 with
    | none => simp
    | some store =>
      have hboth : ∀ known : List Store, isNew (known ++ [store]) =
          fun other => isNew known other && decide (other.key ≠ store.key) := by
        intro known
        funext other
        simp [isNew, bne, beq_eq_decide, eq_comm]
      simp only [Option.toList_some, List.singleton_append, firsts]
      cases hknown : isNew (s.transactionAt r).stores store with
      | true => simp [hknown, hboth, List.filter_filter]
      | false =>
        -- Whoever is new here has another key than the store that is known.
        have hother : ∀ other, isNew (s.transactionAt r).stores other = true →
            other.key ≠ store.key := by
          rintro other hother hkey
          rw [isNew, hkey] at hother
          exact absurd (hother.symm.trans hknown) (by simp)
        simp only [hknown, List.filter_cons, Bool.false_eq_true, if_false, List.filter_nil,
          List.append_nil, List.filter_filter]
        congr 1
        refine List.filter_congr fun other _ => ?_
        cases hn : isNew (s.transactionAt r).stores other with
        | false => rfl
        | true => simp [hother other hn]

/-! ### The run of a commit -/

/-- What an event replies to a store call of a transaction is what `answers` says. -/
def Answered (s : System) (r : TransactionRef) (answers : Answers) (e : Event) : Prop :=
  ∀ reply ∈ e.reply?, ∀ task ∈ s.taskAt reply.1, task.1 = r → reply.2 = answers task.2.1 task.2.2.1

instance : Decidable (s.Answered r answers e) :=
  inferInstanceAs (Decidable (∀ reply ∈ e.reply?, ∀ task ∈ s.taskAt reply.1,
    task.1 = r → reply.2 = answers task.2.1 task.2.2.1))

/-- The number of replies to what a call has asked of stores. -/
def replies (c : CallId) (events : List Event) : Nat := events.countP (·.repliesTo c)

/-- What a call that waits for stores to reply returns first. -/
def returned? (s : System) (c : CallId) : List Event → Option Outcome
  | [] => none
  | e :: events => (if e.repliesTo c then (s.step e).2.outcome? else none).or
      ((s.step e).1.returned? c events)

theorem isFinal_finalState : (finalState error).isFinal = true := by
  cases error <;> rfl

/-- From where it stands a commit makes the calls that are left as long as there are replies, and
then it returns. -/
theorem Stands.run (h : Stands answers c r (s, response) calls error) (hl : Ledger s idle hs)
    (hof : hs.of r = done ++ contacts answers c r calls 0)
    (ho : Obeys (fun s e => s.Answered r answers e) s later) :
    (s.historyFrom hs later).of r = done ++ contacts answers c r calls (replies c later) ∧
      response.outcome?.or (s.returned? c later) =
        (if calls.length ≤ replies c later then some (outcome error) else none) ∧
      (calls.length ≤ replies c later →
        ((s.run later).transactionAt r).state = finalState error) := by
  induction later generalizing s response hs done calls with
  | nil =>
    refine ⟨hof, ?_, fun hle => ?_⟩
    · cases h with
      | returned => rfl
      | storeCall hk ht hr =>
        obtain ⟨todo, rfl⟩ := hr.exists_cons ht
        rfl
    · cases h with
      | returned hs => exact hs
      | storeCall hk ht hr =>
        obtain ⟨todo, rfl⟩ := hr.exists_cons ht
        exact absurd hle (by simp [replies])
  | cons e later ih =>
    have hnext : Ledger (s.step e).1 idle ((hs.answered e).noted (s.step e).2) :=
      (hl.step e).ledger
    cases h with
    | returned hfinal =>
      obtain ⟨hend, hkept⟩ := (hl.run (e :: later)).ended r (hfinal ▸ isFinal_finalState)
      refine ⟨?_, by simp [Response.outcome?], fun _ => (congrArg Prod.fst hend).trans hfinal⟩
      rw [hkept, hof, contacts_nil, contacts_nil]
    | @storeCall _ point phase store rest _ _ hk ht hr =>
      cases he : e.repliesTo c with
      | true =>
        obtain ⟨todo, rfl⟩ := hr.exists_cons ht
        obtain ⟨a, rfl⟩ := Event.exists_of_repliesTo he
        have htask := taskAt_of_call hk ht
        obtain rfl : a = answers phase store := ho.1 (c, a) rfl (r, phase, store, rest) htask rfl
        have hstands : Stands answers c r (s.step (.reply c (answers phase store))) todo error :=
          stands_reply hl hk ht hr rfl
        -- The call that was open is now the last of those that are done.
        have hof' := hstands.of_noted (hs.answered (.reply c (answers phase store)))
        rw [hl.of_reply htask hof] at hof'
        obtain ⟨hhistory, hreturned, hstate⟩ := ih hstands hnext hof' ho.2
        have hcount : replies c (.reply c (answers phase store) :: later) = replies c later + 1 := by
          simp [replies, Event.repliesTo, Event.reply?]
        simp only [hcount, List.length_cons, Nat.add_le_add_iff_right]
        refine ⟨?_, ?_, hstate⟩
        · rw [contacts_succ, List.append_cons]
          exact hhistory
        · rw [returned?, he]
          exact hreturned
      | false =>
        obtain ⟨hstands, hsame⟩ := stands_other hl hk ht hr he
        obtain ⟨hhistory, hreturned, hstate⟩ := ih hstands hnext (hsame.trans hof) ho.2
        have hcount : replies c (e :: later) = replies c later := by
          simp [replies, he]
        rw [hcount]
        refine ⟨hhistory, ?_, hstate⟩
        rw [returned?, he]
        exact hreturned

theorem registrations_fresh {g : Granularity} {configs : List Config} {lockConfig : Config}
    (before : List Event) :
    (((System.new g configs lockConfig).run before).transactionAt r).stores =
      firsts ((System.new g configs lockConfig).registrations r before) := by
  have hr : (System.new g configs lockConfig).transactionAt r = default :=
    transactionAt_new
  have hnew : isNew [] = fun _ => true := by
    funext store
    simp [isNew]
  rw [stores_run (InOrder.new g configs lockConfig), hr]
  show [] ++ (firsts _).filter (isNew []) = _
  rw [hnew, List.filter_true, List.nil_append]

/-- The commit protocol.  Take any run of any number of managers, and let an active transaction that
nobody has interrupted be committed; its stores are those registered with it, each where it occurs
first.  Whatever happens while they are called, the calls made for the transaction are those of the
plan for their replies, one after the other; once all of these have been answered the commit returns
what the plan says, not before, and leaves the transaction in the state that belongs to it. -/
theorem commit_protocol (g : Granularity) (configs : List Config) (lockConfig : Config)
    (before later : List Event) (r : TransactionRef) (answers : Answers)
    (ha : ((System.new g configs lockConfig).run before).admits r .exclusive = true)
    (hactive : (((System.new g configs lockConfig).run before).transactionAt r).state =
      .active)
    (hi : (((System.new g configs lockConfig).run before).transactionAt r).isInterrupted =
      false)
    (ho : Obeys (fun s e => s.Answered r answers e)
      (((System.new g configs lockConfig).run before).step (.commit r)).1 later) :
    let fresh := System.new g configs lockConfig
    let s := fresh.run before
    let stores := firsts (fresh.registrations r before)
    let config := configs[r.manager]?.getD {}
    let calls := plan answers config.twoPhaseCommit stores
    let error := planError? answers config.twoPhaseCommit stores
    let n := replies s.nextCall later
    (s.transactionAt r).stores = stores ∧
      (fresh.history (before ++ .commit r :: later)).of r = contacts answers s.nextCall r calls n ∧
      (s.step (.commit r)).2.outcome?.or ((s.step (.commit r)).1.returned? s.nextCall later) =
        (if calls.length ≤ n then some (outcome error) else none) ∧
      (calls.length ≤ n → ((fresh.run (before ++ .commit r :: later)).transactionAt r).state =
        finalState error) := by
  intro fresh s stores config calls error n
  have hl : Ledger s idle (fresh.history before) :=
    ((Ledger.new g configs lockConfig).run before).ledger
  have hstores : (s.transactionAt r).stores = stores := registrations_fresh before
  have hphases : s.twoPhaseCommit r.manager = config.twoPhaseCommit := by
    have hconfigs : s.configs = configs :=
      congrArg (fun p => p.2.1) (settings_run (InOrder.new g configs lockConfig) before)
    rw [System.twoPhaseCommit, hconfigs]
  have hstands : Stands answers s.nextCall r (s.step (.commit r)) calls error := by
    have h : Stands answers s.nextCall r _ _ _ := stands_commit ha hactive hi
    rwa [hphases, hstores] at h
  -- No store has been called for the transaction as long as it is active.
  have hbefore : (fresh.history before).of r = [] := (hl.entry r).active hactive
  have hof := hstands.of_noted (fresh.history before)
  rw [hbefore] at hof
  obtain ⟨hhistory, hreturned, hstate⟩ := hstands.run (hl.step (.commit r)).ledger hof ho
  refine ⟨hstores, ?_, hreturned, fun hle => ?_⟩
  · rw [history, historyFrom_append]
    exact hhistory
  · rw [run_append]
    exact hstate hle

/-- The second of two stores fails to commit, and both are rolled back, although the transaction is
interrupted and its manager tries to remove it in between. -/
theorem second_store_fails :
    let one : Store := ⟨1, "one"⟩
    let two : Store := ⟨2, "two"⟩
    let answers : Answers := fun phase store =>
      if phase = .commit ∧ store = two then .failed "full" else .done
    let r : TransactionRef := ⟨0, 1⟩
    let before : List Event := [.begin 0, .register r one, .register r two, .register r one]
    let later : List Event := [.reply 0 .done, .interrupt r, .reply 0 .done, .reply 0 .done,
      .remove r, .reply 0 (.failed "full"), .managerInterrupt r, .reply 0 .done, .reply 0 .done]
    let fresh := System.new .flat [{}] {}
    let s := fresh.run before
    s.admits r .exclusive = true ∧ (s.transactionAt r).state = .active ∧
      (s.transactionAt r).isInterrupted = false ∧
      Obeys (fun s e => s.Answered r answers e) (s.step (.commit r)).1 later ∧
      (s.transactionAt r).stores = [one, two] ∧
      (fresh.history (before ++ .commit r :: later)).of r =
        [⟨0, ⟨one, r, .prepare⟩, some .done⟩, ⟨0, ⟨two, r, .prepare⟩, some .done⟩,
          ⟨0, ⟨one, r, .commit⟩, some .done⟩, ⟨0, ⟨two, r, .commit⟩, some (.failed "full")⟩,
          ⟨0, ⟨one, r, .rollback⟩, some .done⟩, ⟨0, ⟨two, r, .rollback⟩, some .done⟩] ∧
      (s.step (.commit r)).2.outcome?.or ((s.step (.commit r)).1.returned? 0 later) =
        some (.failed (.commitFailed "two" "full")) ∧
      ((fresh.run (before ++ .commit r :: later)).transactionAt r).state = .aborted := by
  intro one two answers r before later fresh s
  have ha : s.admits r .exclusive = true := by decide +kernel
  have hactive : (s.transactionAt r).state = .active := by decide +kernel
  have hi : (s.transactionAt r).isInterrupted = false := by decide +kernel
  have ho : Obeys (fun s e => s.Answered r answers e) (s.step (.commit r)).1 later := by
    decide +kernel
  obtain ⟨hstores, hhistory, hreturned, hstate⟩ :=
    commit_protocol .flat [{}] {} before later r answers ha hactive hi ho
  have hcall : s.nextCall = 0 := by decide +kernel
  rw [hcall] at hhistory hreturned hstate
  exact ⟨ha, hactive, hi, ho, hstores.trans (by decide +kernel), hhistory.trans (by decide +kernel),
    hreturned.trans (by decide +kernel), (hstate (by decide +kernel)).trans (by decide +kernel)⟩

end System

end Locking
