import Locking.Proofs.WaitForGraph.Sound

/-! When a request to wait is refused.  The search for a cycle is a depth-first walk from those that
are to be waited for: a stack may name a transaction many times, and whoever was visited once is
skipped from then on.  The walk comes to an end in every graph, cyclic or not, and meets the
requester just when one of the blockers reaches it along edges; that the edges of the requester
itself are dropped before the walk starts makes no difference to what it meets. -/

namespace Locking.WaitForGraph

open Relation

variable {g : WaitForGraph} {i j a b target : TransactionId} {blockers : List TransactionId}

/-! ### The walk -/

/-- The transactions with edges that the walk has not visited. -/
def unvisited (g : WaitForGraph) (visited : IdSet) : List TransactionId :=
  g.edges.keys.filter (· ∉ visited)

theorem unvisited_insert_of_mem (hi : i ∈ g.edges) {visited : IdSet} (hv : i ∉ visited) :
    (g.unvisited (visited.insert i)).length < (g.unvisited visited).length := by
  have hsub : (g.unvisited (visited.insert i)).Sublist (g.unvisited visited) := by
    refine List.monotone_filter_right _ fun k hk => ?_
    simp only [IdSet.mem_insert, decide_eq_true_eq, not_or] at hk ⊢
    exact hk.2
  refine Nat.lt_of_le_of_ne hsub.length_le fun he => ?_
  have hmem : i ∈ g.unvisited visited := by
    simp [unvisited, hi, hv]
  rw [← hsub.eq_of_length he] at hmem
  simp [unvisited] at hmem

theorem unvisited_insert_of_not_mem (hi : i ∉ g.edges) (visited : IdSet) :
    g.unvisited (visited.insert i) = g.unvisited visited := by
  refine List.filter_congr fun k hk => ?_
  have hne : k ≠ i := fun he => hi (he ▸ by simpa using hk)
  simp only [IdSet.mem_insert, hne, false_or]

theorem blockersOf_of_not_mem (hi : i ∉ g.edges) : g.blockersOf i = ∅ := by
  simp [blockersOf, Std.ExtTreeMap.getElem?_eq_none hi]

/-- Whether `target` is met on a depth-first walk that goes on with `stack`, its top first, when
`visited` were visited before. -/
def walk (g : WaitForGraph) (target : TransactionId) (visited : IdSet) : List TransactionId → Bool
  | [] => false
  | i :: stack =>
    if i = target then true
    else if i ∈ visited then walk g target visited stack
    else walk g target (visited.insert i)
      (((g.blockersOf i).toList.filter (· ∉ visited.insert i)).reverse ++ stack)
termination_by stack => ((g.unvisited visited).length, stack.length)
decreasing_by
  · exact .right _ (by simp)
  · -- whoever has edges is visited for the first time, and whoever has none adds nothing
    next hv =>
    by_cases hi : i ∈ g.edges
    · exact .left _ _ (unvisited_insert_of_mem hi hv)
    · rw [unvisited_insert_of_not_mem hi, blockersOf_of_not_mem hi]
      exact .right _ (by simp)

/-- An edge that the walk still follows: it starts at somebody not visited yet. -/
def Ahead (g : WaitForGraph) (visited : IdSet) (a b : TransactionId) : Prop :=
  a ∉ visited ∧ g.Waits a b

theorem Ahead.of_insert {visited : IdSet} (h : g.Ahead (visited.insert i) a b) :
    g.Ahead visited a b :=
  ⟨fun hv => h.1 (IdSet.mem_insert.mpr (.inr hv)), h.2⟩

theorem eq_of_ahead_of_mem {visited : IdSet} (hv : a ∈ visited)
    (h : ReflTransGen (g.Ahead visited) a b) : a = b := by
  rcases ReflTransGen.cases_head h with rfl | ⟨_, hstep, -⟩
  · rfl
  · exact absurd hv hstep.1

/-- A way ahead either does without the edges of `i`, or it leaves `i` for the last time to one of
the transactions that `i` waits for. -/
theorem ahead_insert {visited : IdSet} (h : ReflTransGen (g.Ahead visited) a target) :
    ReflTransGen (g.Ahead (visited.insert i)) a target ∨
      ∃ k, g.Waits i k ∧ ReflTransGen (g.Ahead (visited.insert i)) k target := by
  induction h using ReflTransGen.head_induction_on with
  | refl => exact .inl .refl
  | @head a c hac _ ih =>
    rcases ih with ih | ih
    · by_cases hai : a = i
      · exact .inr ⟨c, hai ▸ hac.2, ih⟩
      · have hv : a ∉ visited.insert i := by
          rw [IdSet.mem_insert]
          exact not_or.mpr ⟨hai, hac.1⟩
        exact .inl (.head ⟨hv, hac.2⟩ ih)
    · exact .inr ih

/-- Skipping whoever was visited loses nothing: as long as the target was not visited, the walk
meets it just when somebody on the stack reaches it along edges of those not visited. -/
theorem walk_eq_true_iff {visited : IdSet} {stack : List TransactionId} (ht : target ∉ visited) :
    g.walk target visited stack = true ↔
      ∃ k ∈ stack, ReflTransGen (g.Ahead visited) k target := by
  induction visited, stack using walk.induct g target with
  | case1 visited => simp [walk]
  | case2 visited stack =>
    simp only [walk, if_true, true_iff]
    exact ⟨target, List.mem_cons_self, .refl⟩
  | case3 visited i stack hne hv ih =>
    rw [walk, if_neg hne, if_pos hv, ih ht]
    constructor
    · rintro ⟨k, hk, hway⟩
      exact ⟨k, List.mem_cons_of_mem i hk, hway⟩
    · rintro ⟨k, hk, hway⟩
      rcases List.mem_cons.mp hk with rfl | hk
      · exact absurd (eq_of_ahead_of_mem hv hway) hne
      · exact ⟨k, hk, hway⟩
  | case4 visited i stack hne hv ih =>
    have ht' : target ∉ visited.insert i := by
      rw [IdSet.mem_insert]
      exact not_or.mpr ⟨Ne.symm hne, ht⟩
    rw [walk, if_neg hne, if_neg hv, ih ht']
    simp only [List.mem_append, List.mem_reverse, List.mem_filter, Std.ExtTreeSet.mem_toList,
      decide_eq_true_eq]
    have hless := ReflTransGen.mono (r := g.Ahead (visited.insert i)) (p := g.Ahead visited)
      fun _ _ => Ahead.of_insert
    constructor
    · rintro ⟨k, ⟨hk, -⟩ | hk, hway⟩
      · exact ⟨i, List.mem_cons_self, .head ⟨hv, hk⟩ (hless _ _ hway)⟩
      · exact ⟨k, List.mem_cons_of_mem i hk, hless _ _ hway⟩
    · -- one that was visited reaches nobody ahead but itself, so it need not be on the stack
      have hfresh : ∀ {k}, ReflTransGen (g.Ahead (visited.insert i)) k target →
          k ∉ visited.insert i :=
        fun hway hmem => ht' (eq_of_ahead_of_mem hmem hway ▸ hmem)
      rintro ⟨k, hk, hway⟩
      rcases ahead_insert (i := i) hway with hway | ⟨m, hm, hway⟩
      · rcases List.mem_cons.mp hk with rfl | hk
        · exact absurd (IdSet.mem_insert.mpr (.inl rfl)) (hfresh hway)
        · exact ⟨k, .inr hk, hway⟩
      · exact ⟨m, .inl ⟨hm, hfresh hway⟩, hway⟩

/-- The walk from `sources`, started with nobody visited, answers as the search does. -/
theorem walk_eq_reaches (g : WaitForGraph) (target : TransactionId)
    (sources : List TransactionId) : g.walk target ∅ sources.reverse = g.reaches sources target := by
  have hahead : g.Ahead ∅ = g.Waits := by
    funext a b
    simp [Ahead]
  rw [Bool.eq_iff_iff, walk_eq_true_iff (by simp), reaches_eq_true_iff, hahead]
  simp only [List.mem_reverse]

/-! ### Refusals -/

/-- Whether `i` is reached does not depend on whom `i` waits for. -/
theorem reaches_stopWaiting_iff :
    ReflTransGen (g.stopWaiting i).Waits a i ↔ ReflTransGen g.Waits a i := by
  constructor
  · exact ReflTransGen.mono (fun _ _ hw => (waits_stopWaiting.mp hw).2) a i
  · intro h
    induction h using ReflTransGen.head_induction_on with
    | refl => exact .refl
    | @head a c hac _ ih =>
      by_cases hai : a = i
      · rw [hai]
      · exact .head (waits_stopWaiting.mpr ⟨hai, hac⟩) ih

theorem reaches_stopWaiting_iff_of_ne (hne : b ≠ i) :
    ReflTransGen (g.stopWaiting i).Waits b i ↔ TransGen g.Waits b i := by
  rw [reaches_stopWaiting_iff, reflTransGen_iff_eq_or_transGen]
  exact or_iff_right hne.symm

/-- A request to wait is granted, or refused because of a deadlock. -/
theorem wait_eq_ok_or_deadlock (g : WaitForGraph) (i : TransactionId)
    (blockers : List TransactionId) :
    (g.wait i blockers).2 = .ok () ∨ (g.wait i blockers).2 = .error .deadlock := by
  rcases hw : g.wait i blockers with ⟨g', outcome⟩
  cases outcome with
  | ok _ => exact .inl rfl
  | error error =>
    obtain ⟨rfl, -, -⟩ := wait_eq_error hw
    exact .inr rfl

theorem wait_eq_deadlock_iff : (g.wait i blockers).2 = .error .deadlock ↔
    ∃ b ∈ blockers, b ≠ i ∧ TransGen g.Waits b i := by
  rcases hw : g.wait i blockers with ⟨g', outcome⟩
  cases outcome with
  | ok _ =>
    simp only [reduceCtorEq, false_iff]
    rintro ⟨b, hb, hne, hway⟩
    exact not_reaches_of_wait_ok hw hb hne ((reaches_stopWaiting_iff_of_ne hne).mpr hway)
  | error error =>
    obtain ⟨rfl, -, b, hb, hne, hway⟩ := wait_eq_error hw
    simp only [true_iff]
    exact ⟨b, hb, hne, (reaches_stopWaiting_iff_of_ne hne).mp hway⟩

/-- Refused, the requester waits for nobody, and granted, for the others that it named. -/
theorem mem_waitsFor_wait : b ∈ (g.wait i blockers).1.waitsFor i ↔
    (g.wait i blockers).2 = .ok () ∧ b ∈ blockers ∧ b ≠ i := by
  rw [waitsFor, Std.ExtTreeSet.mem_toList]
  rcases hw : g.wait i blockers with ⟨g', outcome⟩
  cases outcome with
  | ok _ =>
    have hwaits := waits_of_wait_ok (a := i) (b := b) hw
    rw [if_pos rfl] at hwaits
    simp only [true_and]
    exact hwaits.trans and_comm
  | error error =>
    obtain ⟨-, rfl, -⟩ := wait_eq_error hw
    simp [blockersOf_stopWaiting]

theorem pairwise_waitsFor (g : WaitForGraph) (i : TransactionId) :
    (g.waitsFor i).Pairwise (· < ·) :=
  Std.ExtTreeSet.ordered_toList.imp Nat.compare_eq_lt.mp

/-- However transactions came to wait, stop waiting and were removed, a request of `r` to wait for
`blockers` is answered, and refused just when one of them other than `r` reached `r` before along
one or more edges.  That is what a depth-first walk finds out which starts from the blockers in the
graph without the edges of `r`, and it finds it out in every graph.  Refused, or naming nobody but
itself, `r` waits for nobody; otherwise it waits for exactly the others that it named, in ascending
order and each once.  Whatever the answer, everybody else waits for whom they waited for before. -/
theorem refuses_exactly_cycles (changes : List Change) (r : TransactionId)
    (blockers : List TransactionId) :
    let g := after changes
    let others : IdSet := .ofList (blockers.filter (· ≠ r))
    let outcome := (g.wait r blockers).2
    let waitsFor := (g.wait r blockers).1.waitsFor
    (outcome = .ok () ∨ outcome = .error .deadlock) ∧
      (outcome = .error .deadlock ↔ ∃ b ∈ blockers, b ≠ r ∧ TransGen g.Waits b r) ∧
      (outcome = .error .deadlock ↔ (g.stopWaiting r).walk r ∅ others.toList.reverse = true) ∧
      (outcome = .error .deadlock ∨ (∀ b ∈ blockers, b = r) → waitsFor r = []) ∧
      (outcome = .ok () →
        (waitsFor r).Pairwise (· < ·) ∧ ∀ b, b ∈ waitsFor r ↔ b ∈ blockers ∧ b ≠ r) ∧
      ∀ i, i ≠ r → waitsFor i = g.waitsFor i := by
  intro g others outcome waitsFor
  have hmem : ∀ b, b ∈ waitsFor r ↔ outcome = .ok () ∧ b ∈ blockers ∧ b ≠ r :=
    fun b => mem_waitsFor_wait
  refine ⟨wait_eq_ok_or_deadlock g r blockers, wait_eq_deadlock_iff, ?walk, ?none, ?some, ?frame⟩
  case walk =>
    rw [walk_eq_reaches, reaches_eq_true_iff, wait_eq_deadlock_iff]
    refine exists_congr fun b => ?_
    rw [Std.ExtTreeSet.mem_toList, IdSet.mem_ofList, List.mem_filter, decide_eq_true_eq, and_assoc]
    exact and_congr_right fun _ => and_congr_right fun hne =>
      (reaches_stopWaiting_iff_of_ne hne).symm
  case none =>
    intro h
    refine List.eq_nil_iff_forall_not_mem.mpr fun b hb => ?_
    obtain ⟨hok, hb, hne⟩ := (hmem b).mp hb
    rcases h with h | h
    · rw [h] at hok
      exact nomatch hok
    · exact hne (h b hb)
  case some =>
    intro hok
    exact ⟨pairwise_waitsFor _ r, fun b => (hmem b).trans (and_iff_right hok)⟩
  case frame =>
    intro i hi
    exact congrArg Std.ExtTreeSet.toList (blockersOf_wait_ne hi blockers)

end Locking.WaitForGraph
