import Mathlib.Logic.Relation
import Mathlib.Tactic.ByContra
import Locking.WaitForGraph

/-! The wait-for graph as a relation.  The search meets exactly the transactions that can be
reached along edges, and since a transaction is entered only if none of those it is to wait for
reaches it, the graph never holds a cycle. -/

namespace Locking.WaitForGraph

open Relation

variable {g g' : WaitForGraph} {i j a b : TransactionId} {blockers : List TransactionId}

/-- Transaction `i` waits for transaction `j`. -/
def Waits (g : WaitForGraph) (i j : TransactionId) : Prop := j ∈ g.blockersOf i

/-- No transaction waits for itself, directly or through others. -/
def Acyclic (g : WaitForGraph) : Prop := ∀ i, ¬ TransGen g.Waits i i

/-! ### Edges -/

theorem waits_stopWaiting : (g.stopWaiting i).Waits a b ↔ a ≠ i ∧ g.Waits a b := by
  unfold Waits
  rw [blockersOf_stopWaiting]
  by_cases h : a = i <;> simp [h]

theorem waits_remove : (g.remove i).Waits a b ↔ a ≠ i ∧ b ≠ i ∧ g.Waits a b := by
  unfold Waits
  rw [blockersOf_remove]
  by_cases h : a = i
  · simp [h]
  · rw [if_neg h, IdSet.mem_erase]
    simp [h]

theorem waits_insert {edges : Std.ExtTreeMap TransactionId IdSet} {others : IdSet} :
    (⟨edges.insert i others⟩ : WaitForGraph).Waits a b ↔
      if a = i then b ∈ others else (⟨edges⟩ : WaitForGraph).Waits a b := by
  simp only [Waits, blockersOf, Std.ExtTreeMap.getElem?_insert, Nat.compare_eq_eq, eq_comm (a := i)]
  split <;> rfl

theorem waits_erase {edges : Std.ExtTreeMap TransactionId IdSet} :
    (⟨edges.erase i⟩ : WaitForGraph).Waits a b ↔ a ≠ i ∧ (⟨edges⟩ : WaitForGraph).Waits a b :=
  waits_stopWaiting (g := ⟨edges⟩)

theorem Waits.mem {edges : Std.ExtTreeMap TransactionId IdSet}
    (h : (⟨edges⟩ : WaitForGraph).Waits a b) : a ∈ edges := by
  by_contra hn
  simp [Waits, blockersOf, Std.ExtTreeMap.getElem?_eq_none hn] at h

/-! ### Search -/

/-- A way along the edges either does without those of `i`, or it leaves `i` for the last time to
one of the transactions that `i` waits for. -/
theorem reaches_erase {edges : Std.ExtTreeMap TransactionId IdSet} {target : TransactionId}
    (h : ReflTransGen (⟨edges⟩ : WaitForGraph).Waits a target) :
    ReflTransGen (⟨edges.erase i⟩ : WaitForGraph).Waits a target ∨
      ∃ k, (⟨edges⟩ : WaitForGraph).Waits i k ∧
        ReflTransGen (⟨edges.erase i⟩ : WaitForGraph).Waits k target := by
  induction h using ReflTransGen.head_induction_on with
  | refl => exact .inl .refl
  | @head a c hac _ ih =>
    rcases ih with ih | ih
    · by_cases hai : a = i
      · exact .inr ⟨c, hai ▸ hac, ih⟩
      · exact .inl (.head (waits_erase.mpr ⟨hai, hac⟩) ih)
    · exact .inr ih

/-- With at least as many rounds as there are entries, the search meets exactly what can be
reached. -/
theorem search_eq_true_iff {target : TransactionId} {n : Nat}
    {edges : Std.ExtTreeMap TransactionId IdSet} {frontier : List TransactionId}
    (hn : edges.size ≤ n) : search target n edges frontier = true ↔
      ∃ i ∈ frontier, ReflTransGen (⟨edges⟩ : WaitForGraph).Waits i target := by
  induction n generalizing edges frontier with
  | zero =>
    have he : edges = ∅ := Std.ExtTreeMap.eq_empty_iff_size_eq_zero.mpr (by omega)
    subst he
    simp only [search, List.contains_iff_mem]
    constructor
    · exact fun h => ⟨target, h, .refl⟩
    · rintro ⟨i, hi, h⟩
      rcases ReflTransGen.cases_head h with rfl | ⟨k, hk, -⟩
      · exact hi
      · exact absurd hk.mem (by simp)
  | succ n ih =>
    simp only [search, Bool.or_eq_true, List.contains_iff_mem]
    cases hf : frontier.find? fun i => edges.contains i with
    | none =>
      simp only [Bool.false_eq_true, or_false]
      constructor
      · exact fun h => ⟨target, h, .refl⟩
      · rintro ⟨i, hi, h⟩
        rcases ReflTransGen.cases_head h with rfl | ⟨k, hk, -⟩
        · exact hi
        · exact absurd (Std.ExtTreeMap.contains_iff_mem.mpr hk.mem)
            (List.find?_eq_none.mp hf i hi)
    | some i =>
      have hi : i ∈ frontier := List.mem_of_find?_eq_some hf
      have hmem : i ∈ edges := Std.ExtTreeMap.contains_iff_mem.mp (List.find?_some hf)
      have hsize : (edges.erase i).size ≤ n := by
        rw [Std.ExtTreeMap.size_erase, if_pos (Std.ExtTreeMap.contains_iff_mem.mpr hmem)]
        omega
      have hnext : ∀ k, k ∈ (edges[i]?.getD ∅).toList ↔ (⟨edges⟩ : WaitForGraph).Waits i k :=
        fun k => Std.ExtTreeSet.mem_toList
      have hless := ReflTransGen.mono (r := (⟨edges.erase i⟩ : WaitForGraph).Waits)
        (p := (⟨edges⟩ : WaitForGraph).Waits) fun _ _ hw => (waits_erase.mp hw).2
      simp only [ih hsize, List.mem_append, hnext]
      constructor
      · rintro (h | ⟨k, hk | hk, h⟩)
        · exact ⟨target, h, .refl⟩
        · exact ⟨i, hi, .head hk (hless k target h)⟩
        · exact ⟨k, hk, hless k target h⟩
      · rintro ⟨k, hk, h⟩
        rcases reaches_erase (i := i) h with h | ⟨m, hm, h⟩
        · exact .inr ⟨k, .inr hk, h⟩
        · exact .inr ⟨m, .inl hm, h⟩

theorem reaches_eq_true_iff {sources : List TransactionId} {target : TransactionId} :
    g.reaches sources target = true ↔ ∃ i ∈ sources, ReflTransGen g.Waits i target :=
  search_eq_true_iff (Nat.le_refl _)

/-! ### Entering a transaction -/

/-- A transaction that is told to wait does so for exactly the others it was given. -/
theorem waits_of_wait_ok (h : g.wait i blockers = (g', .ok ())) :
    g'.Waits a b ↔ if a = i then b ≠ i ∧ b ∈ blockers else g.Waits a b := by
  have hothers : ∀ k, k ∈ (Std.ExtTreeSet.ofList (blockers.filter (· ≠ i)) : IdSet) ↔
      k ≠ i ∧ k ∈ blockers := by
    intro k
    rw [IdSet.mem_ofList, List.mem_filter, and_comm]
    simp
  simp only [wait] at h
  split at h
  · next he =>
    obtain ⟨rfl, -⟩ := Prod.mk.inj h
    rw [waits_stopWaiting]
    split
    · next hai =>
      have hb := mt (hothers b).mpr (IdSet.isEmpty_iff.mp he b)
      simp only [hai, ne_eq, not_true_eq_false, false_and, false_iff]
      exact hb
    · next hai => simp [hai]
  · split at h
    · simp at h
    · obtain ⟨rfl, -⟩ := Prod.mk.inj h
      rw [waits_insert]
      split
      · exact hothers b
      · next hai =>
        exact (waits_stopWaiting (g := g)).trans (by simp [hai])

/-- A transaction that is refused waits for nobody, and it is refused because one of those that it
was to wait for reaches it already. -/
theorem wait_eq_error {error : Error} (h : g.wait i blockers = (g', .error error)) :
    error = .deadlock ∧ g' = g.stopWaiting i ∧
      ∃ k ∈ blockers, k ≠ i ∧ ReflTransGen (g.stopWaiting i).Waits k i := by
  simp only [wait] at h
  split at h
  · simp at h
  · split at h
    · next hr =>
      obtain ⟨rfl, he⟩ := Prod.mk.inj h
      obtain ⟨k, hk, hreach⟩ := reaches_eq_true_iff.mp hr
      rw [Std.ExtTreeSet.mem_toList, IdSet.mem_ofList, List.mem_filter] at hk
      exact ⟨(Except.error.inj he).symm, rfl, k, hk.1, of_decide_eq_true hk.2, hreach⟩
    · simp at h

theorem not_reaches_of_wait_ok (h : g.wait i blockers = (g', .ok ())) (hb : b ∈ blockers)
    (hne : b ≠ i) : ¬ ReflTransGen (g.stopWaiting i).Waits b i := by
  have hmem : b ∈ (Std.ExtTreeSet.ofList (blockers.filter (· ≠ i)) : IdSet) := by
    rw [IdSet.mem_ofList, List.mem_filter]
    exact ⟨hb, by simpa using hne⟩
  intro hreach
  simp only [wait] at h
  split at h
  · next he => exact IdSet.isEmpty_iff.mp he b hmem
  · split at h
    · simp at h
    · next hr => exact hr (reaches_eq_true_iff.mpr ⟨b, Std.ExtTreeSet.mem_toList.mpr hmem, hreach⟩)

/-! ### Acyclic graphs -/

theorem Acyclic.default : Acyclic {} := by
  intro i h
  rcases TransGen.head'_iff.mp h with ⟨k, hk, -⟩
  exact absurd hk.mem (by simp)

theorem Acyclic.mono (h : g.Acyclic) (hsub : ∀ a b, g'.Waits a b → g.Waits a b) : g'.Acyclic :=
  fun i hi => h i (TransGen.mono hsub i i hi)

theorem Acyclic.stopWaiting (h : g.Acyclic) (i : TransactionId) : (g.stopWaiting i).Acyclic :=
  h.mono fun _ _ hw => (waits_stopWaiting.mp hw).2

theorem Acyclic.remove (h : g.Acyclic) (i : TransactionId) : (g.remove i).Acyclic :=
  h.mono fun _ _ hw => (waits_remove.mp hw).2.2

/-- A way in the graph either was there before `i` was entered, or it comes to `i` and goes on
from one of those that `i` waits for. -/
theorem path_of_wait_ok (h : g.wait i blockers = (g', .ok ())) (hab : TransGen g'.Waits a b) :
    TransGen g.Waits a b ∨
      ReflTransGen g'.Waits a i ∧ ∃ k ∈ blockers, k ≠ i ∧ ReflTransGen g'.Waits k b := by
  have hedge : ∀ {c d}, g'.Waits c d → c = i ∧ d ≠ i ∧ d ∈ blockers ∨ g.Waits c d := by
    intro c d hcd
    have hcd := (waits_of_wait_ok h).mp hcd
    split at hcd
    · next hc => exact .inl ⟨hc, hcd⟩
    · exact .inr hcd
  induction hab with
  | single hab =>
    rcases hedge hab with ⟨rfl, hne, hmem⟩ | hab
    · exact .inr ⟨.refl, _, hmem, hne, .refl⟩
    · exact .inl (.single hab)
  | @tail c d hac hcd ih =>
    rcases hedge hcd with ⟨rfl, hne, hmem⟩ | hcd'
    · exact .inr ⟨hac.to_reflTransGen, d, hmem, hne, .refl⟩
    · rcases ih with ih | ⟨hai, k, hmem, hne, hkc⟩
      · exact .inl (ih.tail hcd')
      · exact .inr ⟨hai, k, hmem, hne, hkc.tail hcd⟩

/-- A way to `i` need not follow the edges of `i`. -/
theorem reaches_stopWaiting (h : g.wait i blockers = (g', .ok ()))
    (hk : ReflTransGen g'.Waits a i) : ReflTransGen (g.stopWaiting i).Waits a i := by
  induction hk using ReflTransGen.head_induction_on with
  | refl => exact .refl
  | @head a c hac _ ih =>
    by_cases hai : a = i
    · rw [hai]
    · have hac := (waits_of_wait_ok h).mp hac
      rw [if_neg hai] at hac
      exact .head (waits_stopWaiting.mpr ⟨hai, hac⟩) ih

/-- Entering a transaction closes no cycle. -/
theorem Acyclic.wait (h : g.Acyclic) (i : TransactionId) (blockers : List TransactionId) :
    (g.wait i blockers).1.Acyclic := by
  rcases hw : g.wait i blockers with ⟨g', outcome⟩
  cases outcome with
  | error error =>
    obtain ⟨-, rfl, -⟩ := wait_eq_error hw
    exact h.stopWaiting i
  | ok _ =>
    intro a haa
    rcases path_of_wait_ok hw haa with haa | ⟨hai, k, hmem, hne, hka⟩
    · exact h a haa
    · exact not_reaches_of_wait_ok hw hmem hne (reaches_stopWaiting hw (hka.trans hai))

end Locking.WaitForGraph
