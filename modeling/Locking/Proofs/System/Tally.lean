import Mathlib.Algebra.Order.BigOperators.Group.Finset
import Locking.Proofs.System.Registry

/-! Counting transactions.  The transactions that were begun are divided into those that have
committed, those that were aborted and those that their managers still list. -/

namespace Locking

/-- Whether an event begins a transaction, given the number of managers. -/
def Event.begins (managers : Nat) : Event → Bool
  | .begin m => decide (m < managers)
  | _ => false

/-- Whoever begins to end has not ended and does not do so by this. -/
theorem State.Begins.eq_iff {a b x : State} (h : Begins a b) (hx : x.isFinal = true) :
    b = x ↔ a = x := by
  have hne : ∀ {y : State}, y.isFinal = false → y ≠ x := by
    rintro y hy rfl
    exact absurd (hx.symm.trans hy) (by simp)
  cases h with
  | stay => rfl
  | commit => exact iff_of_false (hne rfl) (hne rfl)
  | abort ha =>
    refine iff_of_false (hne rfl) (hne ?_)
    cases a with
    | committed | aborted => nomatch ha
    | _ => rfl

namespace System

variable {s s' : System} {p p' : Stage} {e : Event} {r q : TransactionRef} {x : State}

/-- The transactions that were begun. -/
def refs (s : System) : Finset TransactionRef := s.transactions.keys.toFinset

/-- The transactions that are in a state. -/
def inState (s : System) (x : State) : Finset TransactionRef :=
  s.refs.filter fun r => (s.transactionAt r).state = x

theorem mem_refs : r ∈ s.refs ↔ r ∈ s.transactions := by
  rw [refs, List.mem_toFinset, Std.ExtTreeMap.mem_keys]

theorem refs_congr (h : ∀ q, q ∈ s'.transactions ↔ q ∈ s.transactions) : s'.refs = s.refs := by
  ext q
  rw [mem_refs, mem_refs, h]

theorem refs_new (g : Granularity) (configs : List Config) (lockConfig : Config) :
    (System.new g configs lockConfig).refs = ∅ := by
  ext q
  rw [mem_refs]
  simp [System.new]

/-! ### The transactions in a state -/

/-- A transaction that was never begun is in no state but the one in which all begin. -/
theorem mem_inState (hx : x ≠ .active) : r ∈ s.inState x ↔ (s.transactionAt r).state = x := by
  rw [inState, Finset.mem_filter, mem_refs, and_iff_right_iff_imp]
  intro hr
  by_contra hn
  rw [transactionAt_of_not_mem hn] at hr
  exact hx hr.symm

theorem inState_congr (hx : x ≠ .active)
    (h : ∀ q, (s'.transactionAt q).state = x ↔ (s.transactionAt q).state = x) :
    s'.inState x = s.inState x := by
  ext q
  rw [mem_inState hx, mem_inState hx, h]

/-- A transaction that comes to a state is one more there. -/
theorem card_inState_of_moves (hx : x ≠ .active) (hm : Moves s s' r x)
    (hne : (s.transactionAt r).state ≠ x) : (s'.inState x).card = (s.inState x).card + 1 := by
  have hinsert : s'.inState x = insert r (s.inState x) := by
    ext q
    rw [Finset.mem_insert, mem_inState hx, mem_inState hx]
    by_cases hq : q = r
    · simp [hq, hm.self]
    · simp [hq, hm.other q hq]
  rw [hinsert, Finset.card_insert_of_notMem (by simpa only [mem_inState hx] using hne)]

/-- Transactions that go elsewhere leave a state as full as it was. -/
theorem inState_of_moves {y : State} (hx : x ≠ .active) (hm : Moves s s' r y) (hy : y ≠ x)
    (hne : (s.transactionAt r).state ≠ x) : s'.inState x = s.inState x := by
  refine inState_congr hx fun q => ?_
  by_cases hq : q = r
  · rw [hq, hm.self]
    exact iff_of_false hy hne
  · rw [hm.other q hq]

/-! ### The transactions that were begun -/

theorem Advances.begun {result : System × Response} (h : Advances s p result) :
    result.1.begun = s.begun ∧ result.1.refs = s.refs := by
  induction h with
  | concluded => exact ⟨rfl, rfl⟩
  | step ha _ ih =>
    exact ⟨ih.1.trans ha.begun, ih.2.trans (refs_congr fun _ => ha.mem_transactions)⟩

/-- One more transaction has been begun after an event that begins one. -/
theorem InOrder.card_refs_step (h : InOrder s idle) (e : Event) :
    (s.step e).1.begun.length = s.begun.length ∧
      (s.step e).1.refs.card = s.refs.card + (e.begins s.begun.length).toNat := by
  by_cases he : ∃ m, e = .begin m
  · obtain ⟨m, rfl⟩ := he
    simp only [step, begin, Event.begins]
    split
    · next hn => simp [Nat.not_lt.mpr (List.getElem?_eq_none_iff.mp hn)]
    · next n hn =>
      have hm : m < s.begun.length := (List.getElem?_eq_some_iff.mp hn).1
      have hnew : (⟨m, n + 1⟩ : TransactionRef) ∉ s.refs := by
        rw [mem_refs]
        exact h.not_mem_next hn
      refine ⟨by simp, ?_⟩
      rw [decide_eq_true hm, Bool.toNat_true, ← Finset.card_insert_of_notMem hnew]
      refine congrArg Finset.card ?_
      ext q
      simp only [mem_refs, Finset.mem_insert, Std.ExtTreeMap.mem_insert,
        Std.LawfulEqOrd.compare_eq_iff_eq, eq_comm (a := q)]
  · have hne : ∀ m, e ≠ .begin m := not_exists.mp he
    obtain ⟨s', p, hst, hend⟩ := follows_step h.tidy e
    obtain ⟨hbegun, hrefs⟩ := hend.begun
    have hnone : e.begins s.begun.length = false := by
      cases e with
      | begin m => exact absurd rfl (hne m)
      | _ => rfl
    rw [hbegun, hrefs, hst.begun hne, hnone]
    refine ⟨rfl, congrArg Finset.card (refs_congr fun q => ?_)⟩
    exact ⟨hst.mem_transactions_of_mem hne, hst.mem_transactions⟩

/-- The transactions that were begun are those that the events of the run have begun. -/
theorem InOrder.card_refs_run (h : InOrder s idle) (events : List Event) :
    (s.run events).begun.length = s.begun.length ∧
      (s.run events).refs.card = s.refs.card + events.countP (Event.begins s.begun.length) := by
  induction events generalizing s with
  | nil => exact ⟨rfl, rfl⟩
  | cons e events ih =>
    obtain ⟨hlen, hcard⟩ := h.card_refs_step e
    obtain ⟨hlen', hcard'⟩ := ih (invariant.step h trivial)
    rw [hlen] at hlen' hcard'
    refine ⟨hlen', hcard'.trans ?_⟩
    rw [hcard, List.countP_cons]
    cases e.begins s.begun.length with
    | false => rfl
    | true =>
      simp only [Bool.toNat_true, if_true]
      omega

/-! ### The lists of the managers -/

theorem nodup_registered (s : System) (m : Nat) : (s.registered m).Nodup := by
  have hkeys : s.transactions.toList.Pairwise fun a b => a.1 ≠ b.1 := by
    exact Std.ExtTreeMap.distinct_keys_toList.imp fun hne heq =>
      hne (Std.LawfulEqOrd.compare_eq_iff_eq.mpr heq)
  rw [registered, List.Nodup, List.pairwise_filterMap]
  refine hkeys.imp ?_
  rintro ⟨⟨m₁, i₁⟩, t₁⟩ ⟨⟨m₂, i₂⟩, t₂⟩ hne i hi j hj rfl
  simp only [Option.ite_none_right_eq_some, Option.some.injEq] at hi hj
  obtain ⟨⟨rfl, -⟩, rfl⟩ := hi
  obtain ⟨⟨rfl, -⟩, rfl⟩ := hj
  exact hne rfl

/-- The transactions that have not ended. -/
def unfinished (s : System) : Finset TransactionRef :=
  s.refs.filter fun r => (s.transactionAt r).state.isFinal = false

theorem card_unfinished_of_manager (hlisted : ∀ q, (s.transactionAt q).Listed)
    (hdeparted : ∀ q, (s.transactionAt q).Departed) (m : Nat) :
    (s.unfinished.filter fun r => r.manager = m).card = (s.registered m).length := by
  rw [← List.toFinset_card_of_nodup (nodup_registered s m)]
  refine Finset.card_bij (fun r _ => r.id) ?_ ?_ ?_
  · intro r hr
    simp only [unfinished, Finset.mem_filter, mem_refs] at hr
    obtain ⟨⟨hmem, hf⟩, rfl⟩ := hr
    rw [List.mem_toFinset, mem_registered]
    exact ⟨_, (registeredState?_iff_of_listed (hlisted r) (hdeparted r)).mpr ⟨hmem, rfl, hf⟩⟩
  · rintro ⟨m₁, i₁⟩ h₁ ⟨m₂, i₂⟩ h₂ rfl
    obtain rfl : m₁ = m := (Finset.mem_filter.mp h₁).2
    obtain rfl : m₂ = m₁ := (Finset.mem_filter.mp h₂).2
    rfl
  · intro i hi
    rw [List.mem_toFinset, mem_registered] at hi
    obtain ⟨state, hstate⟩ := hi
    obtain ⟨hmem, rfl, hf⟩ :=
      (registeredState?_iff_of_listed (hlisted _) (hdeparted _)).mp hstate
    exact ⟨⟨m, i⟩, by simpa [unfinished, mem_refs] using ⟨hmem, hf⟩, rfl⟩

/-- Whoever was begun has committed, was aborted, or is listed by one of the managers. -/
theorem card_refs (ho : InOrder s p) (hlisted : ∀ q, (s.transactionAt q).Listed)
    (hdeparted : ∀ q, (s.transactionAt q).Departed) :
    s.refs.card = (s.inState .committed).card + (s.inState .aborted).card +
      ∑ m ∈ Finset.range s.begun.length, (s.registered m).length := by
  have hended : (s.refs.filter fun r => ¬ (s.transactionAt r).state.isFinal = false) =
      s.inState .committed ∪ s.inState .aborted := by
    ext r
    rw [inState, inState, ← Finset.filter_or, Finset.mem_filter, Finset.mem_filter]
    refine and_congr_right fun _ => ?_
    cases (s.transactionAt r).state <;> simp [State.isFinal]
  have hdisjoint : Disjoint (s.inState .committed) (s.inState .aborted) := by
    rw [Finset.disjoint_left]
    intro r hc ha
    exact absurd ((Finset.mem_filter.mp hc).2.symm.trans (Finset.mem_filter.mp ha).2) (by simp)
  have hmanager : ∀ r ∈ s.unfinished, r.manager ∈ Finset.range s.begun.length := by
    intro r hr
    obtain ⟨n, hn, -⟩ := ho.numbered r (mem_refs.mp (Finset.mem_filter.mp hr).1)
    exact Finset.mem_range.mpr (List.getElem?_eq_some_iff.mp hn).1
  calc s.refs.card
      = s.unfinished.card + (s.inState .committed ∪ s.inState .aborted).card := by
        rw [← hended]
        exact (Finset.card_filter_add_card_filter_not _).symm
    _ = (s.inState .committed).card + (s.inState .aborted).card + s.unfinished.card := by
        rw [Finset.card_union_of_disjoint hdisjoint, Nat.add_comm]
    _ = _ := by
        rw [Finset.card_eq_sum_card_fiberwise hmanager]
        simp only [card_unfinished_of_manager hlisted hdeparted]

end System

end Locking
