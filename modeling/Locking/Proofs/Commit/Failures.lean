import Locking.Proofs.Commit.Outcome

/-! Rollbacks that fail.  Every reply with which a store fails to roll back is counted once, and
nothing else is counted with them. -/

namespace Locking

/-- Whether a store reports that it has failed. -/
def Reply.isFailed : Reply → Bool
  | failed _ => true
  | _ => false

namespace Contact

/-- Whether call `c` waits for a store to roll back. -/
def awaitsRollback (c : CallId) (h : Contact) : Bool :=
  h.call = c ∧ h.reply? = none ∧ h.request.phase = .rollback

/-- Whether a store was asked to roll back and has failed to. -/
def isFailedRollback (h : Contact) : Bool :=
  h.request.phase = .rollback ∧ h.reply?.any Reply.isFailed

variable {c : CallId} {a : Reply}

/-- A reply is the failure of a rollback if the call waits for one and the store has failed. -/
theorem isFailedRollback_answer (h : Contact) : (h.answer c a).isFailedRollback.toNat =
    h.isFailedRollback.toNat + (h.awaitsRollback c && a.isFailed).toNat := by
  unfold answer isFailedRollback awaitsRollback
  by_cases hopen : h.call = c ∧ h.reply? = none
  · simp [hopen]
  · have hcalm : ¬ (h.call = c ∧ h.reply? = none ∧ h.request.phase = .rollback) :=
      fun hawaits => hopen ⟨hawaits.1, hawaits.2.1⟩
    rw [if_neg hopen, decide_eq_false hcalm]
    rfl

end Contact

namespace History

variable {hs : History} {c : CallId} {a : Reply}

/-- The number of rollbacks in which a store has failed. -/
def failedRollbacks (hs : History) : Nat := hs.countP Contact.isFailedRollback

theorem failedRollbacks_noted (hs : History) (response : Response) :
    (hs.noted response).failedRollbacks = hs.failedRollbacks := by
  cases response with
  | storeCall c request =>
    rw [failedRollbacks, noted, List.countP_append]
    simp [Contact.isFailedRollback, failedRollbacks]
  | _ => rfl

theorem failedRollbacks_map_answer (hs : History) : failedRollbacks (hs.map (·.answer c a)) =
    hs.failedRollbacks + hs.countP fun h => h.awaitsRollback c && a.isFailed := by
  induction hs with
  | nil => rfl
  | cons h hs ih =>
    have hone := h.isFailedRollback_answer (c := c) (a := a)
    have hcons : ∀ (P : Contact → Bool) k ks,
        List.countP P (k :: ks) = List.countP P ks + (P k).toNat := by
      intro P k ks
      rw [List.countP_cons]
      cases P k <;> rfl
    simp only [failedRollbacks, List.map_cons, hcons] at ih ⊢
    omega

end History

namespace System

variable {s s' : System} {p p' : Stage} {e : Event} {c : CallId} {r : TransactionRef}
  {hs : History} {phase : Phase} {store : Store} {rest : List Store}

/-- Whether an event is the reply of a store that has failed to roll back. -/
def failsRollback (s : System) : Event → Bool
  | .reply c a => a.isFailed && (s.taskAt c).any fun task => task.2.1 = .rollback
  | _ => false

/-- The counters once the failure of a rollback, if an event is one, has been counted. -/
def counted (s : System) (e : Event) : Statistics :=
  if s.failsRollback e then s.statistics.countStoreRollbackFailure else s.statistics

/-! ### The history -/

/-- A call that waits for a store to reply is open once in the history. -/
theorem Ledger.countP_awaitsRollback (h : Ledger s p hs)
    (hc : s.taskAt c = some (r, phase, store, rest)) :
    hs.countP (Contact.awaitsRollback c) = (decide (phase = .rollback)).toNat := by
  obtain ⟨-, done, before, -, hof, hprogress⟩ := (h.entry r).calling c phase store rest hc
  have hclosed : before.countP (Contact.awaitsRollback c) = 0 := by
    refine List.countP_eq_zero.mpr fun k hk hawaits => ?_
    exact hprogress.closed k hk (of_decide_eq_true hawaits).2.1
  have hmine : hs.countP (Contact.awaitsRollback c) =
      (hs.of r).countP (Contact.awaitsRollback c) := by
    rw [History.of, List.countP_filter]
    refine List.countP_congr fun k hk => ?_
    rw [Bool.and_eq_true, iff_self_and]
    intro hawaits
    obtain ⟨hcall, hopen, -⟩ := of_decide_eq_true hawaits
    obtain ⟨task, htask⟩ := h.opens k hk hopen
    rw [hcall, hc] at htask
    exact decide_eq_true (Prod.mk.inj (Option.some.inj htask)).1.symm
  rw [hmine, hof, List.countP_append, hclosed]
  by_cases hphase : phase = .rollback <;> simp [Contact.awaitsRollback, hphase]

theorem Ledger.failedRollbacks_answered (h : Ledger s p hs) (e : Event) :
    (hs.answered e).failedRollbacks = hs.failedRollbacks + (s.failsRollback e).toNat := by
  cases e with
  | reply c a =>
    rw [History.answered, History.failedRollbacks_map_answer, failsRollback]
    cases ha : a.isFailed with
    | false => simp
    | true =>
      simp only [Bool.and_true, Bool.true_and, Nat.add_left_cancel_iff]
      cases hc : s.taskAt c with
      | none =>
        refine List.countP_eq_zero.mpr fun k hk hawaits => ?_
        obtain ⟨hcall, hopen, -⟩ := of_decide_eq_true hawaits
        obtain ⟨task, htask⟩ := h.opens k hk hopen
        rw [hcall, hc] at htask
        exact absurd htask (by simp)
      | some task => exact h.countP_awaitsRollback hc
  | _ => rfl

/-! ### The counters -/

theorem Advance.storeRollbackFailures (ha : Advance s p s' p') :
    s'.statistics.storeRollbackFailures = s.statistics.storeRollbackFailures := by
  cases ha with
  | @abort c r e rest error | @abortEnded c r e rest error => cases error <;> rfl
  | removed => rw [statistics_alert]; rfl
  | _ => rfl

theorem Advances.storeRollbackFailures {result : System × Response} (ha : Advances s p result) :
    result.1.statistics.storeRollbackFailures = s.statistics.storeRollbackFailures := by
  induction ha with
  | concluded => rfl
  | step ha _ ih => exact ih.trans ha.storeRollbackFailures

/-- A start leaves the counters alone, unless a store replies to a rollback. -/
theorem Start.statistics (hst : Start s e s' p) (he : ∀ c a r access store rest cause,
      e = .reply c a → s.calls[c]? ≠ some ⟨r, access, .rollingBack store rest cause⟩) :
    s'.statistics = s.statistics := by
  cases hst with
  | rolledBack hk => exact absurd hk (he _ _ _ _ _ _ _ rfl)
  | interrupt | managerInterrupt => exact statistics_alert _ _
  | unlockAll => rw [releaseAll_eq]
  | forget => rw [forget_eq, releaseAll_eq]; rfl
  | _ => rfl

/-- Every event runs its course, and its start counts at most the failure of a rollback. -/
theorem Tidy.follows_counted (h : s.Tidy) (e : Event) :
    ∃ s' p, Start s e s' p ∧ Advances s' p (s.step e) ∧ s'.statistics = s.counted e := by
  by_cases hroll : ∃ c a r access store rest cause, e = .reply c a ∧
      s.calls[c]? = some ⟨r, access, .rollingBack store rest cause⟩
  · obtain ⟨c, a, r, access, store, rest, cause, rfl, hk⟩ := hroll
    have hcourse : s.step (.reply c a) =
        (s.setStatistics (s.counted (.reply c a))).rollBackStores c r access cause rest := by
      show s.reply c a = _
      simp only [reply, hk, counted, failsRollback, taskAt_of_call hk rfl]
      cases a <;> rfl
    rw [hcourse]
    exact ⟨_, _, .rolledBack hk,
      undoing_course (s.setStatistics (s.counted (.reply c a))) c r access cause rest, rfl⟩
  · simp only [not_exists, not_and] at hroll
    obtain ⟨s', p, hst, hend⟩ := follows_step h e
    refine ⟨s', p, hst, hend, (hst.statistics hroll).trans ?_⟩
    have hnot : s.failsRollback e = false := by
      cases e with
      | reply c a =>
        rw [failsRollback, Bool.and_eq_false_iff]
        refine .inr (Bool.eq_false_iff.mpr fun hany => ?_)
        obtain ⟨⟨r, phase, store, rest⟩, hc, hphase⟩ := (Option.any_eq_true _ _).mp hany
        obtain rfl : phase = .rollback := of_decide_eq_true hphase
        obtain ⟨⟨r', access, point⟩, hk, -, ht⟩ := taskAt_eq_some hc
        cases point with
        | rollingBack => exact absurd hk (hroll _ _ _ _ _ _ _ rfl)
        | _ => exact absurd ht (by simp [Point.task?])
      | _ => rfl
    rw [counted, hnot]
    rfl

/-- The counter is as high as there are failed rollbacks in the history. -/
theorem Ledger.storeRollbackFailures_run (h : Ledger s idle hs)
    (hcount : s.statistics.storeRollbackFailures = hs.failedRollbacks) (events : List Event) :
    (s.run events).statistics.storeRollbackFailures =
      (s.historyFrom hs events).failedRollbacks := by
  induction events generalizing s hs with
  | nil => exact hcount
  | cons e events ih =>
    obtain ⟨s', p, -, hend, hstart⟩ := h.inOrder.tidy.follows_counted e
    refine ih (h.step e).ledger ?_
    rw [hend.storeRollbackFailures, hstart, History.failedRollbacks_noted,
      h.failedRollbacks_answered, ← hcount, counted]
    cases s.failsRollback e <;> rfl

end System

end Locking
