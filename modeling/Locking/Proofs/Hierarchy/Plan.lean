import Mathlib.Data.List.Induction
import Locking.System.Acquire

/-! The locks that a call takes, and their order.  They include what was asked for, and under the
hierarchical granularity every entity comes after all its containers, whatever the transaction has
locked before. -/

namespace Locking

theorem LockMode.strongest_covers (held wanted : LockMode) :
    (held.strongest wanted).covers wanted = true := by
  cases held <;> cases wanted <;> rfl

theorem LockMode.covers_strongest {held wanted : LockMode} (other : LockMode)
    (h : held.covers wanted = true) : (held.strongest other).covers wanted = true := by
  cases held <;> cases wanted <;> cases other <;> first | rfl | exact h

namespace EntityId

variable {had had' : EntityId → Prop} {e : EntityId} {es fs : List EntityId}

/-- Every entity of a list comes after all its containers, except for those that `had` tells of. -/
def Ordered : (EntityId → Prop) → List EntityId → Prop
  | _, [] => True
  | had, e :: es => (∀ c ∈ e.ancestors, had c) ∧ Ordered (fun c => had c ∨ c = e) es

theorem Ordered.mono (h : Ordered had es) (hsub : ∀ c, had c → had' c) : Ordered had' es := by
  induction es generalizing had had' with
  | nil => trivial
  | cons e es ih => exact ⟨fun c hc => hsub c (h.1 c hc), ih h.2 fun c => .imp_left (hsub c)⟩

theorem ordered_append : Ordered had (es ++ fs) ↔
    Ordered had es ∧ Ordered (fun c => had c ∨ c ∈ es) fs := by
  induction es generalizing had with
  | nil => simp [Ordered]
  | cons e es ih =>
    simp only [List.cons_append, Ordered, ih, List.mem_cons, and_assoc, or_assoc]

theorem ordered_flatMap {α : Type} {f : α → List EntityId} (xs : List α)
    (h : ∀ x ∈ xs, ∀ had, Ordered had (f x)) : Ordered had (xs.flatMap f) := by
  induction xs generalizing had with
  | nil => trivial
  | cons x xs ih =>
    rw [List.flatMap_cons, ordered_append]
    exact ⟨h x (by simp) had, ih fun y hy => h y (by simp [hy])⟩

theorem mem_ancestors_take {c : EntityId} {k : Nat}
    (h : c ∈ (⟨e.segments.take k⟩ : EntityId).ancestors) :
    ∃ j, 1 ≤ j ∧ j < k ∧ c = ⟨e.segments.take j⟩ := by
  obtain ⟨j, hj, rfl⟩ := List.mem_map.mp h
  rw [List.mem_range'_1, List.length_take] at hj
  refine ⟨j, by omega, by omega, ?_⟩
  rw [List.take_take, Nat.min_eq_left (by omega)]

theorem ordered_take (e : EntityId) (k m : Nat)
    (h : ∀ j, 1 ≤ j → j < k → had ⟨e.segments.take j⟩) :
    Ordered had ((List.range' k m).map fun n => ⟨e.segments.take n⟩) := by
  induction m generalizing k had with
  | zero => trivial
  | succ m ih =>
    rw [List.range'_succ, List.map_cons]
    constructor
    · intro c hc
      obtain ⟨j, hj, hjk, rfl⟩ := mem_ancestors_take hc
      exact h j hj hjk
    · refine ih (k + 1) fun j hj hjk => ?_
      by_cases hjk' : j = k
      · exact .inr (by rw [hjk'])
      · exact .inl (h j hj (by omega))

/-- The containers of an entity, outermost first, and then the entity. -/
theorem ordered_ancestors (e : EntityId) : Ordered had (e.ancestors ++ [e]) := by
  rw [ordered_append]
  refine ⟨ordered_take e 1 _ fun j hj hj' => ?_, fun c hc => .inr hc, trivial⟩
  omega

end EntityId

namespace Granularity

open EntityId

variable {had : EntityId → Prop}

theorem map_entity_needs (g : Granularity) (e : EntityId) (mode : LockMode) :
    (g.needs e mode).map Need.entity = g.containers e ++ [e] := by
  simp [needs, Function.comp_def]

theorem ordered_needs (e : EntityId) (mode : LockMode) :
    Ordered had ((hierarchical.needs e mode).map Need.entity) := by
  rw [map_entity_needs]
  exact ordered_ancestors e

theorem ordered_needsOfAll (requests : List Need) :
    Ordered had ((hierarchical.needsOfAll requests).map Need.entity) := by
  rw [needsOfAll, List.map_flatMap]
  exact ordered_flatMap _ fun entry _ had => ordered_needs entry.1 entry.2

/-! ### What was asked for -/

variable {requests : List Need} {n : Need}

theorem mem_needs_self (g : Granularity) (e : EntityId) (mode : LockMode) :
    ⟨e, mode⟩ ∈ g.needs e mode :=
  List.mem_append_right _ (List.mem_singleton_self _)

theorem mem_needs_container (g : Granularity) {e a : EntityId} (ha : a ∈ g.containers e)
    (mode : LockMode) : ⟨a, .shared⟩ ∈ g.needs e mode :=
  List.mem_append_left _ (List.mem_map_of_mem ha)

theorem getElem?_strongestModes_concat (requests : List Need) (m : Need) (e : EntityId) :
    (strongestModes (requests ++ [m]))[e]? = if m.entity = e
      then some (((strongestModes requests)[e]?.map (·.strongest m.mode)).getD m.mode)
      else (strongestModes requests)[e]? := by
  rw [strongestModes, List.foldl_append, List.foldl_cons, List.foldl_nil, ← strongestModes,
    Std.ExtTreeMap.getElem?_alter]
  simp only [Std.LawfulEqOrd.compare_eq_iff_eq]
  by_cases he : m.entity = e
  · subst he
    cases (strongestModes requests)[m.entity]? <;> simp
  · simp [he]

theorem exists_strongestMode (hn : n ∈ requests) :
    ∃ mode, (strongestModes requests)[n.entity]? = some mode ∧ mode.covers n.mode = true := by
  induction requests using List.reverseRecOn with
  | nil => exact absurd hn (by simp)
  | append_singleton ns m ih =>
    rw [getElem?_strongestModes_concat]
    rcases List.mem_append.mp hn with hn | hn
    · obtain ⟨mode, hmode, hcovers⟩ := ih hn
      rw [hmode]
      split
      · exact ⟨_, rfl, LockMode.covers_strongest m.mode hcovers⟩
      · exact ⟨mode, rfl, hcovers⟩
    · obtain rfl := List.mem_singleton.mp hn
      rw [if_pos rfl]
      refine ⟨_, rfl, ?_⟩
      cases (strongestModes ns)[n.entity]? with
      | none => cases n.mode <;> rfl
      | some held => exact LockMode.strongest_covers held n.mode

theorem exists_mem_needsOfAll (g : Granularity) (hn : n ∈ requests) :
    ∃ mode, ⟨n.entity, mode⟩ ∈ g.needsOfAll requests ∧ mode.covers n.mode = true := by
  obtain ⟨mode, hmode, hcovers⟩ := exists_strongestMode hn
  exact ⟨mode, List.mem_flatMap.mpr ⟨(n.entity, mode),
    Std.ExtTreeMap.mem_toList_iff_getElem?_eq_some.mpr hmode, g.mem_needs_self _ _⟩, hcovers⟩

theorem mem_needsOfAll_container (g : Granularity) (hn : n ∈ requests) {a : EntityId}
    (ha : a ∈ g.containers n.entity) : ⟨a, .shared⟩ ∈ g.needsOfAll requests := by
  obtain ⟨mode, hmode, -⟩ := exists_strongestMode hn
  exact List.mem_flatMap.mpr ⟨(n.entity, mode),
    Std.ExtTreeMap.mem_toList_iff_getElem?_eq_some.mpr hmode, g.mem_needs_container ha mode⟩

end Granularity

end Locking
