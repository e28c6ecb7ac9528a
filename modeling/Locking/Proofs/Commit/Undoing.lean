import Locking.Proofs.Commit.Protocol

/-! A rollback on its way.  Whatever call has begun it and for whatever reason, the rollback calls
the stores that are left one after the other, nothing else that happens keeps it from doing so, and
with the last reply the transaction is aborted and the call returns. -/

namespace Locking

namespace History

variable {hs : History} {r : TransactionRef}

/-- What has been asked of the stores for a transaction. -/
def requestsOf (hs : History) (r : TransactionRef) : List StoreCall := (hs.of r).map (·.request)

theorem requestsOf_answered (hs : History) (e : Event) :
    (hs.answered e).requestsOf r = hs.requestsOf r := by
  cases e with
  | reply c a =>
    rw [requestsOf, answered, of_answered, List.map_map]
    refine List.map_congr_left fun h _ => ?_
    show (h.answer c a).request = h.request
    unfold Contact.answer
    split <;> rfl
  | _ => rfl

theorem requestsOf_noted_storeCall (hs : History) (c : CallId) (request : StoreCall) :
    (hs.noted (.storeCall c request)).requestsOf request.transaction =
      hs.requestsOf request.transaction ++ [request] := by
  have hnew : History.of [(⟨c, request, none⟩ : Contact)] request.transaction =
      [⟨c, request, none⟩] := of_singleton_same ⟨c, request, none⟩
  rw [requestsOf, noted, of_append, hnew, List.map_append]
  rfl

end History

namespace System

/-- What a rollback has come to when it goes no further at once: it has ended its transaction and
returned, or it has called the first of the stores that are left. -/
inductive Undoes (c : CallId) (r : TransactionRef) (access : Access) (cause : Cause) :
    System × Response → List Store → Prop
  | returned {s} (hs : (s.transactionAt r).state = .aborted) :
    Undoes c r access cause (s, .returned cause.outcome) []
  | storeCall {s store rest} (hk : s.calls[c]? = some ⟨r, access, .rollingBack store rest cause⟩) :
    Undoes c r access cause (s, .storeCall c ⟨store, r, .rollback⟩) (store :: rest)

/-- The calls in which the first `n` of some stores are asked to roll a transaction back. -/
def rollbacks (r : TransactionRef) (stores : List Store) (n : Nat) : List StoreCall :=
  (stores.take n).map (⟨·, r, .rollback⟩)

variable {s : System} {e : Event} {c : CallId} {r : TransactionRef} {access : Access}
  {cause : Cause} {stores : List Store} {hs : History} {response : Response}
  {asked : List StoreCall}

theorem undoes_rollBackStores (hr : r ∈ s.transactions) (stores : List Store) :
    Undoes c r access cause (s.rollBackStores c r access cause stores) stores := by
  cases stores with
  | cons store rest => exact .storeCall calls_suspend_self
  | nil =>
    have haborted : (((s.setState r .aborted).retire r).transactionAt r).state = .aborted :=
      state_retired hr .aborted
    cases cause with
    | removal =>
      show Undoes c r access .removal (_, .returned (Cause.outcome .removal)) []
      refine .returned ((congrArg Transaction.state (transactionAt_alert _ r r)).trans ?_)
      exact haborted
    | failure error =>
      show Undoes c r access (.failure error) (_, .returned (Cause.outcome (.failure error))) []
      exact .returned haborted
    | request =>
      show Undoes c r access .request (_, .returned (Cause.outcome .request)) []
      exact .returned haborted

theorem undoes_rollBack (hr : r ∈ s.transactions)
    (hs : (s.transactionAt r).state.canRollBack = true) :
    Undoes c r access cause (s.rollBack c r access cause) (s.transactionAt r).stores := by
  rw [rollBack, if_pos hs]
  exact undoes_rollBackStores (mem_transactions_modifyTransaction.mpr hr) _

/-- The store that a rollback has called is the one that was asked last. -/
theorem Undoes.requestsOf_noted {result : System × Response}
    (h : Undoes c r access cause result stores) (hs : History) :
    (hs.noted result.2).requestsOf r = hs.requestsOf r ++ rollbacks r stores 1 := by
  cases h with
  | returned => exact (List.append_nil _).symm
  | storeCall => exact hs.requestsOf_noted_storeCall c ⟨_, r, .rollback⟩

/-- From where it stands a rollback calls one more store with each reply, and with the reply of the
last one it returns. -/
theorem Undoes.run (h : Undoes c r access cause (s, response) stores) (hl : Ledger s idle hs)
    (hasked : hs.requestsOf r = asked ++ rollbacks r stores 1) (later : List Event) :
    (s.historyFrom hs later).requestsOf r =
        asked ++ rollbacks r stores (replies c later + 1) ∧
      response.outcome?.or (s.returned? c later) =
        (if stores.length ≤ replies c later then some cause.outcome else none) ∧
      (stores.length ≤ replies c later → ((s.run later).transactionAt r).state = .aborted) := by
  induction later generalizing s response hs asked stores with
  | nil =>
    refine ⟨hasked, ?_, fun hle => ?_⟩
    · cases h <;> rfl
    · cases h with
      | returned hs => exact hs
      | storeCall => exact absurd hle (by simp [replies])
  | cons e later ih =>
    have hnext : Ledger (s.step e).1 idle ((hs.answered e).noted (s.step e).2) :=
      (hl.step e).ledger
    cases h with
    | returned haborted =>
      obtain ⟨hend, hkept⟩ := (hl.run (e :: later)).ended r (haborted ▸ rfl)
      refine ⟨?_, by simp [Response.outcome?], fun _ => (congrArg Prod.fst hend).trans haborted⟩
      rw [History.requestsOf, hkept]
      exact hasked
    | @storeCall _ store rest hk =>
      cases he : e.repliesTo c with
      | true =>
        obtain ⟨a, rfl⟩ := Event.exists_of_repliesTo he
        have hmem : r ∈ s.transactions := hl.inOrder.known c _ hk
        obtain ⟨statistics, hreply⟩ := reply_rolledBack hk a
        have hundoes : Undoes c r access cause (s.step (.reply c a)) rest := by
          show Undoes c r access cause (s.reply c a) rest
          rw [hreply]
          exact undoes_rollBackStores (s := s.setStatistics statistics) hmem rest
        -- The store that was asked last is now one of those that have replied.
        have hasked' := hundoes.requestsOf_noted (hs.answered (.reply c a))
        rw [History.requestsOf_answered, hasked] at hasked'
        obtain ⟨hhistory, hreturned, hstate⟩ := ih hundoes hnext hasked'
        have hcount : replies c (.reply c a :: later) = replies c later + 1 := by
          simp [replies, Event.repliesTo, Event.reply?]
        simp only [hcount, List.length_cons, Nat.add_le_add_iff_right]
        refine ⟨?_, ?_, hstate⟩
        · rw [List.append_assoc] at hhistory
          exact hhistory
        · rw [returned?, he]
          exact hreturned
      | false =>
        have hk' := hl.inOrder.calls_step hk rfl he
        have hsame := hl.of_eq_of_open (taskAt_of_call hk rfl) he hnext (taskAt_of_call hk' rfl)
        obtain ⟨hhistory, hreturned, hstate⟩ :=
          ih (.storeCall hk') hnext (by rw [History.requestsOf, hsame]; exact hasked)
        have hcount : replies c (e :: later) = replies c later := by
          simp [replies, he]
        rw [hcount]
        refine ⟨hhistory, ?_, hstate⟩
        rw [returned?, he]
        exact hreturned

/-- A rollback that an event has begun for an active transaction, for which no store has been called
before, is all that its stores ever hear of it. -/
theorem Undoes.run_of_active (h : Undoes c r access cause (s.step e) stores) (hl : Ledger s idle hs)
    (hactive : (s.transactionAt r).state = .active) (later : List Event) :
    let calls := (s.step e).1.historyFrom ((hs.answered e).noted (s.step e).2) later
    calls.requestsOf r = rollbacks r stores (replies c later + 1) ∧
      (s.step e).2.outcome?.or ((s.step e).1.returned? c later) =
        (if stores.length ≤ replies c later then some cause.outcome else none) ∧
      (stores.length ≤ replies c later → (∀ k ∈ calls.of r, k.reply? ≠ none) ∧
        (((s.step e).1.run later).transactionAt r).state = .aborted) := by
  intro calls
  have hnext := (hl.step e).ledger
  have hnone : hs.requestsOf r = [] := by
    rw [History.requestsOf, (hl.entry r).active hactive]
    rfl
  have hasked := h.requestsOf_noted (hs.answered e)
  rw [History.requestsOf_answered, hnone] at hasked
  obtain ⟨hcalls, hreturned, hstate⟩ := h.run hnext hasked later
  refine ⟨hcalls, hreturned, fun hle => ⟨?_, hstate hle⟩⟩
  exact (((hnext.run later).ledger.entry r).aborted (hstate hle)).closed

end System

end Locking
