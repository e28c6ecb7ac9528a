import Locking.Proofs.System.Justified

/-! What a transaction leaves behind that has ended and has no call any more: its lock set is empty, it
has no lock, it waits for nobody and its manager does not list it.  Others may still be noted to wait
for it, but only until their requests, which have been told, look at their locks again. -/

namespace Locking

namespace State

variable {a b : State}

/-- Whoever has ended cannot be rolled back. -/
theorem canRollBack_of_isFinal (h : a.isFinal = true) : a.canRollBack = false := by
  cases a with
  | active | committing | aborting => nomatch h
  | committed | aborted => rfl

/-- Whoever has ended does not begin to end. -/
theorem Begins.eq_of_isFinal (h : Begins a b) (ha : a.isFinal = true) : b = a := by
  cases h with
  | stay => rfl
  | commit => nomatch ha
  | abort hr => exact absurd hr (by simp [canRollBack_of_isFinal ha])

end State

namespace System

variable {s s' : System} {p p' : Stage} {r : TransactionRef}

/-- An advance changes the state of no transaction but that of its call. -/
theorem Advance.state_eq (ha : Advance s p s' p') (hr : ∀ access, p.user? ≠ some (r, access)) :
    (s'.transactionAt r).state = (s.transactionAt r).state := by
  have hset : ∀ {q : TransactionRef} {access : Access} {state : State},
      p.user? = some (q, access) →
        ((s.setState q state).transactionAt r).state = (s.transactionAt r).state := by
    rintro q access state hu
    have hne : r ≠ q := by
      rintro rfl
      exact hr access hu
    rw [setState, transactionAt_modifyTransaction_ne hne]
  have hretired : ∀ {q : TransactionRef} {access : Access} {state : State},
      p.user? = some (q, access) →
        (((s.setState q state).retire q).transactionAt r).state = (s.transactionAt r).state :=
    fun hu => (congrArg Prod.fst ending_retire).trans (hset hu)
  cases ha with
  | ask | grant | fail => exact state_setWaitingOn
  | keep => exact view_modifyTransaction Transaction.state fun _ => rfl
  | abort | beginPhased | beginAtOnce => exact hset rfl
  | undone | committed => exact hretired rfl
  | removed =>
    rw [transactionAt_alert]
    exact hretired rfl
  | _ => rfl

end System

namespace Crowd

open Locking.System Relation

/-- No call of a transaction goes on or is in progress. -/
def Done (k : Crowd) (r : TransactionRef) : Prop :=
  ∀ c q access, k.stage? c = some q → q.user? ≠ some (r, access)

variable {k k' : Crowd} {s' : System} {p p' q : Stage} {e : Event} {d : Deed} {c : CallId}
  {r : TransactionRef}

/-! ### No more calls -/

theorem Done.advance (hd : k.Done r) (h : k.Orderly) (hc : k.going c = some p)
    (ha : Advance k.system p s' p') : (k.follow c s' p').Done r := by
  intro b q access hq hu
  rcases h.stage?_follow hc ha hq with ⟨-, hq⟩ | ⟨-, ⟨-, rfl⟩ | ⟨-, hsuspends⟩⟩
  · exact hd b q access hq hu
  · have hsame := ha.user?_eq.resolve_right (by simp [hu])
    exact hd c p access (stage?_of_going hc) (hsame.symm.trans hu)
  · exact hd c p access (stage?_of_going hc) (hsuspends.user?.symm.trans hu)

/-- Whoever has ended and has no call any more makes no new one. -/
theorem Done.start (hd : k.Done r) (h : k.Orderly) (he : e.usesLock = false)
    (hf : (k.system.transactionAt r).state.isFinal = true) (hs : Start k.system e s' p) :
    (k.enter s' p).Done r := by
  intro b q access hq hu
  rcases h.stage?_enter hs hq with ⟨-, rfl⟩ | ⟨-, hq⟩
  swap
  · exact hd b q access hq hu
  have hactive : (k.system.transactionAt r).state ≠ .active := fun hr =>
    absurd hf (by simp [hr, State.isFinal])
  have hended : (k.system.transactionAt r).state.canRollBack ≠ true := fun hr =>
    absurd hr (by simp [State.canRollBack_of_isFinal hf])
  have hcall : ∀ {c : CallId} {j : Call}, k.system.calls[c]? = some j → j.transaction ≠ r := by
    rintro c j hj rfl
    obtain ⟨q, hq, hu⟩ := h.exists_stage? hj
    exact hd c q _ hq hu
  cases hs with
  | acquire | upgrade => exact absurd he (by simp [Event.usesLock])
  | lock _ hr | lockAll _ hr | commit _ hr =>
    cases hu
    exact hactive hr
  | commitInterrupted _ _ hr | rollback _ hr | drop _ hr =>
    cases hu
    exact hended hr
  | remove hr =>
    cases hu
    exact hactive (state_of_registeredState? hr)
  | wake hk | expire hk | prepared hk | notPrepared hk | committed hk | notCommitted hk
  | rolledBack hk =>
    cases hu
    exact hcall hk rfl
  | _ => exact absurd hu (by simp [Stage.user?])

/-- Whoever has ended and has no call any more has ended for good. -/
theorem Done.step (hd : k.Done r) (h : k.Orderly) (hi : k.Indirect d)
    (hf : (k.system.transactionAt r).state.isFinal = true) (hs : k.Step d k') :
    (k'.system.transactionAt r).state.isFinal = true ∧ k'.Done r := by
  cases hs with
  | event _ hs =>
    refine ⟨?_, hd.start h hi hf hs⟩
    exact (congrArg State.isFinal ((hs.begins h.resting r).eq_of_isFinal hf)).trans hf
  | advance hc ha =>
    refine ⟨?_, hd.advance h hc ha⟩
    have hsame := ha.state_eq fun access hu => hd _ _ access (stage?_of_going hc) hu
    exact (congrArg State.isFinal hsame).trans hf
  | release => exact ⟨hf, fun c q access hq => hd c q access (stage?_release.symm.trans hq)⟩
  | number => exact ⟨hf, hd⟩

/-- Whether no call of a transaction goes on or is in progress. -/
def isDone (k : Crowd) (r : TransactionRef) : Bool :=
  (List.range (k.system.nextCall + 1)).all fun c => (k.stage? c).all fun q =>
    q.user?.all fun u => u.1 ≠ r

theorem Orderly.done (h : k.Orderly) (hd : k.isDone r = true) : k.Done r := by
  intro c q access hq hu
  have hall := List.all_eq_true.mp hd c (List.mem_range.mpr (Nat.lt_succ_of_le (h.le_of_stage? hq)))
  exact absurd hall (by simp [hq, hu])

/-! ### What is left -/

/-- An ended transaction leaves nothing behind that lasts: whatever the calls do that go on side by
side for the transactions of one manager, if locks are used through transactions only and no transaction
makes two lock requests at a time, then from the moment on at which a transaction has committed or was
aborted and no call of it goes on or is in progress, its lock set is empty, it neither owns a lock nor
waits to upgrade one, it waits for nobody, and its manager does not list it.  Who is still noted to wait
for it has a request that has looked at a lock in vain and has been told to look again. -/
theorem leaves_nothing_behind (g : Granularity) (config lockConfig : Config)
    (hk : Leads OneRequest (still (System.new g [config] lockConfig)) k)
    (hf : (k.system.transactionAt r).state.isFinal = true) (hd : k.Done r)
    (hlater : Leads OneRequest k k') :
    (k'.system.transactionAt r).lockedEntities = [] ∧
      (∀ name, r.id ∉ (k'.system.lockAt name).owners ∧
        r.id ∉ (k'.system.lockAt name).upgraders) ∧
      k'.system.graph.waitsFor r.id = [] ∧
      (∀ i, r.id ∈ k'.system.graph.waitsFor i → ∃ c t name kind d goal,
        k'.stage? c = some (.looking c t name kind d goal true) ∧ t.id = i ∧
          (k'.system.lockAt name).Told c) ∧
      k'.system.registeredState? r = none ∧ r.id ∉ k'.system.registered r.manager := by
  obtain ⟨h, hf, hd⟩ : k'.Justified ∧ (k'.system.transactionAt r).state.isFinal = true ∧
      k'.Done r :=
    hlater.preserve (P := fun k => k.Justified ∧ (k.system.transactionAt r).state.isFinal = true ∧
      k.Done r) ⟨(Justified.fresh g config lockConfig).leads hk, hf, hd⟩ fun ⟨h, hf, hd⟩ hrule hs =>
        ⟨h.step hrule hs, hd.step h.orderly hrule.indirect hf hs⟩
  have hmem : r ∈ k'.system.transactions := by
    by_contra hn
    rw [transactionAt_of_not_mem hn] at hf
    exact absurd hf (by simp [default, State.isFinal])
  have hid := h.single.accounted.ref_eq hmem
  have hhas := h.single.accounted.not_has (i := r.id) (hid ▸ hf) fun c q hq hqr =>
    hd c q .shared hq (Stage.user?_of_requester? (hqr.trans (congrArg some hid.symm)))
  have hdeparted := h.single.accounted.departed r
  have hstate := registeredState?_eq_none hdeparted hf
  refine ⟨?_, fun name => not_or.mp (hhas name), ?_, fun i hi => ?_, hstate, fun hlisted => ?_⟩
  · rw [Transaction.lockedEntities, (hdeparted hf).2]
    rfl
  · refine List.eq_nil_iff_forall_not_mem.mpr fun j hj => ?_
    obtain ⟨c, t, name, kind, d, goal, hc, ht, -⟩ := h.reason _ j (Std.ExtTreeSet.mem_toList.mp hj)
    have htr : t = r := by rw [h.single.accounted.ref_eq_of_requester hc rfl, ht, ← hid]
    exact hd c _ .shared hc (htr ▸ rfl)
  · obtain ⟨c, t, name, kind, d, goal, hc, ht, hreason⟩ :=
      h.reason i r.id (Std.ExtTreeSet.mem_toList.mp hi)
    exact ⟨c, t, name, kind, d, goal, hc, ht, (hreason.resolve_left (hhas name)).2⟩
  · obtain ⟨state, hlisted⟩ := mem_registered.mp hlisted
    exact absurd (hlisted.symm.trans hstate) (by simp)

/-- Two transactions share a lock, and the first one is about to upgrade its hold when its locks are
released, so that it waits for the upgrade of a lock that is not in its lock set.  It is removed, a
third transaction asks for the lock, and then the upgrade fails. -/
def unlistedUpgrade : List Deed := [
  .event (.lock ⟨0, 1⟩ ⟨["a"]⟩ .exclusive), .advance 0, .event (.unlockAll ⟨0, 1⟩), .advance 0,
  .event (.remove ⟨0, 1⟩), .advance 1,
  .event (.lock ⟨0, 3⟩ ⟨["a"]⟩ .shared), .advance 1, .advance 1,
  .event (.wake 0), .advance 0, .advance 0]

/-- The third transaction is noted to wait for the first one, which has ended, until it looks again. -/
theorem waited_for_until_next_look :
    let fresh := System.new .hierarchical [{}] {}
    let s := fresh.run [.begin 0, .begin 0, .begin 0, .lock ⟨0, 1⟩ ⟨["a"]⟩ .shared,
      .lock ⟨0, 2⟩ ⟨["a"]⟩ .shared]
    ∃ k ∈ (still s).runs? asksAlone unlistedUpgrade,
      ∃ k' ∈ k.runs? asksAlone [.event (.wake 1), .advance 1],
        Leads OneRequest (still fresh) k ∧ (k.system.transactionAt ⟨0, 1⟩).state.isFinal = true ∧
          k.Done ⟨0, 1⟩ ∧ Leads OneRequest k k' ∧ k'.system.graph.waitsFor 1 = [] ∧
          (k'.system.transactionAt ⟨0, 1⟩).lockedEntities = [] ∧
          k.system.graph.waitsFor 3 = [1, 2] ∧ k'.system.graph.waitsFor 3 = [] := by
  intro fresh s
  obtain ⟨k, hrun, k', hrun', hf, hdone, hbefore, hafter⟩ :
      ∃ k ∈ (still s).runs? asksAlone unlistedUpgrade,
        ∃ k' ∈ k.runs? asksAlone [.event (.wake 1), .advance 1],
          (k.system.transactionAt ⟨0, 1⟩).state.isFinal = true ∧ k.isDone ⟨0, 1⟩ = true ∧
            k.system.graph.waitsFor 3 = [1, 2] ∧ k'.system.graph.waitsFor 3 = [] := by
    decide +kernel
  have hk : Leads OneRequest (still fresh) k := Justified.leads_of_runs (by decide +kernel) hrun
  have ho := ((Justified.fresh .hierarchical {} {}).leads hk).orderly
  have hk' : Leads OneRequest k k' := Leads.runs (fun h => h.oneRequest) ho .refl hrun'
  obtain ⟨hlocks, -, hwaits, -⟩ :=
    leaves_nothing_behind .hierarchical {} {} hk hf (ho.done hdone) hk'
  exact ⟨k, hrun, k', hrun', hk, hf, ho.done hdone, hk', hwaits, hlocks, hbefore, hafter⟩

/-- A transaction may have been aborted and have no call any more, and another one is noted to wait for
it. -/
theorem waited_for_after_end :
    let fresh := System.new .hierarchical [{}] {}
    let s := fresh.run [.begin 0, .begin 0, .begin 0, .lock ⟨0, 1⟩ ⟨["a"]⟩ .shared,
      .lock ⟨0, 2⟩ ⟨["a"]⟩ .shared]
    ∃ k ∈ (still s).runs? asksAlone unlistedUpgrade, Leads OneRequest (still fresh) k ∧
      (k.system.transactionAt ⟨0, 1⟩).state = .aborted ∧ k.Done ⟨0, 1⟩ ∧
        1 ∈ k.system.graph.waitsFor 3 := by
  intro fresh s
  obtain ⟨k, hrun, hstate, hdone, hwaits⟩ :
      ∃ k ∈ (still s).runs? asksAlone unlistedUpgrade,
        (k.system.transactionAt ⟨0, 1⟩).state = .aborted ∧ k.isDone ⟨0, 1⟩ = true ∧
          1 ∈ k.system.graph.waitsFor 3 := by
    decide +kernel
  have hk : Leads OneRequest (still fresh) k := Justified.leads_of_runs (by decide +kernel) hrun
  have ho := ((Justified.fresh .hierarchical {} {}).leads hk).orderly
  exact ⟨k, hrun, hk, hstate, ho.done hdone, hwaits⟩

end Crowd

end Locking
