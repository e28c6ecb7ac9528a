import Mathlib.Tactic.ByContra
import Locking.System.Acquire

/-! The order in which a call that locks a set of entities takes the locks.  Every lock that it has
not asked for before comes after all those that it has, in one order of all entities, although each
entity is preceded by its containers: a container that lies between two entities in the order
contains the first of them, so it has been locked by then. -/

namespace Locking

theorem LockMode.covers_shared (mode : LockMode) : mode.covers .shared = true := by
  cases mode <;> rfl

namespace EntityId

variable {a b c : EntityId}

/-- One entity comes before another one in the order of all entities. -/
def Before (a b : EntityId) : Prop := compare a b = .lt

theorem Before.trans (h : a.Before b) (h' : b.Before c) : a.Before c :=
  Std.TransCmp.lt_trans h h'

theorem Before.irrefl (a : EntityId) : ¬ a.Before a := by
  simp [Before]

theorem before_or_eq_or_before (a b : EntityId) : a.Before b ∨ a = b ∨ b.Before a := by
  cases h : compare a b with
  | lt => exact .inl h
  | eq => exact .inr (.inl (Std.LawfulEqOrd.eq_of_compare h))
  | gt => exact .inr (.inr (Std.OrientedCmp.gt_iff_lt.mp h))

/-! ### Containers in the order -/

theorem compareLex_append (xs : List String) {ys : List String} (hys : ys ≠ []) :
    List.compareLex compare xs (xs ++ ys) = .lt := by
  induction xs with
  | nil =>
    cases ys with
    | nil => exact absurd rfl hys
    | cons y ys => rfl
  | cons x xs ih =>
    have hself : compare x x = .eq := Std.ReflCmp.compare_self
    rw [List.cons_append, List.compareLex_cons_cons, hself, ih]
    rfl

/-- A container comes before all that it contains. -/
theorem before_of_mem_ancestors (h : a ∈ b.ancestors) : a.Before b := by
  obtain ⟨hlt, ys, hys⟩ := isAncestorOf_iff.mp (mem_ancestors.mp h).1
  show List.compareLex compare a.segments b.segments = .lt
  rw [← hys]
  refine compareLex_append a.segments fun hnil => ?_
  rw [← hys, hnil] at hlt
  exact absurd hlt (by simp)

/-- Whatever lies between a path and one of its continuations continues the path. -/
theorem prefix_of_between {xs ys zs : List String}
    (h : (List.compareLex compare xs zs).isLE = true)
    (h' : (List.compareLex compare zs (xs ++ ys)).isLE = true) : xs <+: zs := by
  induction xs generalizing zs with
  | nil => exact List.nil_prefix
  | cons x xs ih =>
    cases zs with
    | nil => exact absurd h (by simp [List.compareLex_cons_nil])
    | cons z zs =>
      rw [List.compareLex_cons_cons] at h
      rw [List.cons_append, List.compareLex_cons_cons] at h'
      cases hxz : compare x z with
      | lt =>
        rw [Std.OrientedCmp.gt_iff_lt.mpr hxz] at h'
        exact absurd h' (by simp)
      | eq =>
        obtain rfl := Std.LawfulEqOrd.eq_of_compare hxz
        rw [hxz] at h h'
        exact (List.cons_prefix_cons).mpr ⟨rfl, ih h h'⟩
      | gt =>
        rw [hxz] at h
        exact absurd h (by simp)

/-- A container of an entity that does not come after another one, which comes before the entity,
is or contains that one, too. -/
theorem mem_ancestors_of_between {x : EntityId} (hc : c ∈ b.ancestors) (hcx : ¬ x.Before c)
    (hxb : x.Before b) : c = x ∨ c ∈ x.ancestors := by
  obtain ⟨hanc, hne⟩ := mem_ancestors.mp hc
  obtain ⟨-, ys, hys⟩ := isAncestorOf_iff.mp hanc
  rcases before_or_eq_or_before c x with hlt | heq | hgt
  · have hinit : c.segments <+: x.segments := by
      refine @prefix_of_between _ ys _ ?_ ?_
      · rw [show List.compareLex compare c.segments x.segments = .lt from hlt]
        rfl
      · rw [hys, show List.compareLex compare x.segments b.segments = .lt from hxb]
        rfl
    refine .inr (mem_ancestors.mpr ⟨isAncestorOf_iff.mpr ⟨?_, hinit⟩, hne⟩)
    refine Nat.lt_of_le_of_ne hinit.length_le fun hlen => ?_
    have heq : c = x := by
      cases c; cases x
      exact congrArg EntityId.mk (hinit.eq_of_length hlen)
    exact Before.irrefl x (heq ▸ hlt)
  · exact .inl heq
  · exact absurd hgt hcx

theorem pairwise_ancestors (e : EntityId) : e.ancestors.Pairwise Before := by
  rw [ancestors, List.pairwise_map]
  refine (List.pairwise_lt_range').imp_of_mem fun {j k} hj hk hjk => ?_
  rw [List.mem_range'_1] at hj hk
  refine before_of_mem_ancestors (mem_ancestors.mpr ⟨isAncestorOf_iff.mpr ⟨?_, ?_⟩, fun hnil => ?_⟩)
  · simp only [List.length_take]
    omega
  · exact List.take_prefix_take_left (by omega)
  · have := congrArg List.length hnil
    simp only [List.length_take, List.length_nil] at this
    omega

end EntityId

/-! ### Needs that ascend -/

namespace Need

variable {n : Need} {had had' : Need → Prop}

/-- The need asks for no more than one of those that were met before. -/
def Covered (n : Need) (had : Need → Prop) : Prop :=
  ∃ m, had m ∧ m.entity = n.entity ∧ m.mode.covers n.mode = true

/-- The need is for an entity that comes after those of all needs that were met before. -/
def Beyond (n : Need) (had : Need → Prop) : Prop := ∀ m, had m → m.entity.Before n.entity

/-- Each need of a list asks for no more than an earlier one, or it goes beyond all of them. -/
def Ascending : (Need → Prop) → List Need → Prop
  | _, [] => True
  | had, n :: rest => (n.Covered had ∨ n.Beyond had) ∧ Ascending (fun m => had m ∨ m = n) rest

theorem Covered.mono (h : n.Covered had) (hsub : ∀ m, had m → had' m) : n.Covered had' := by
  obtain ⟨m, hm, hmn⟩ := h
  exact ⟨m, hsub m hm, hmn⟩

theorem ascending_append {ns ms : List Need} : Ascending had (ns ++ ms) ↔
    Ascending had ns ∧ Ascending (fun m => had m ∨ m ∈ ns) ms := by
  induction ns generalizing had with
  | nil => simp [Ascending]
  | cons n ns ih =>
    simp only [List.cons_append, Ascending, ih, List.mem_cons, and_assoc, or_assoc]

theorem ascending_of_pairwise {ns : List Need}
    (hsorted : ns.Pairwise fun n m => n.entity.Before m.entity)
    (h : ∀ n ∈ ns, n.Covered had ∨ n.Beyond had) : Ascending had ns := by
  induction ns generalizing had with
  | nil => trivial
  | cons n ns ih =>
    obtain ⟨hn, hsorted⟩ := List.pairwise_cons.mp hsorted
    refine ⟨h n (by simp), ih hsorted fun m hm => ?_⟩
    rcases h m (by simp [hm]) with hcovered | hbeyond
    · exact .inl (hcovered.mono fun _ => .inl)
    · refine .inr fun k hk => ?_
      rcases hk with hk | rfl
      · exact hbeyond k hk
      · exact hn m hm

end Need

namespace Granularity

open EntityId Need

theorem pairwise_strongestModes (requests : List Need) :
    (strongestModes requests).toList.Pairwise fun a b => a.1.Before b.1 :=
  Std.ExtTreeMap.ordered_keys_toList

theorem pairwise_needs (e : EntityId) (mode : LockMode) :
    (hierarchical.needs e mode).Pairwise fun n m => n.entity.Before m.entity := by
  rw [needs, List.pairwise_append, List.pairwise_map]
  refine ⟨pairwise_ancestors e, List.pairwise_singleton _ _, fun n hn m hm => ?_⟩
  obtain ⟨c, hc, rfl⟩ := List.mem_map.mp hn
  obtain rfl := List.mem_singleton.mp hm
  exact before_of_mem_ancestors hc

theorem mem_needs {e : EntityId} {mode : LockMode} {n : Need}
    (h : n ∈ hierarchical.needs e mode) :
    n.entity = e ∨ n.entity ∈ e.ancestors ∧ n.mode = .shared := by
  rcases List.mem_append.mp h with h | h
  · obtain ⟨c, hc, rfl⟩ := List.mem_map.mp h
    exact .inr ⟨hc, rfl⟩
  · exact .inl (by rw [List.mem_singleton.mp h])

/-- The needs of entities in ascending order ascend, if those that were met before are the needs of
entities that come before all of them. -/
theorem ascending_flatMap_needs {had : Need → Prop} (past : EntityId → Prop)
    (entries : List (EntityId × LockMode)) (hsorted : entries.Pairwise fun a b => a.1.Before b.1)
    (hpast : ∀ x, past x → ∀ entry ∈ entries, x.Before entry.1)
    (hsound : ∀ m, had m → ∃ x, past x ∧ (m.entity = x ∨ m.entity ∈ x.ancestors))
    (hfull : ∀ x, past x → ∀ c, c = x ∨ c ∈ x.ancestors → ∃ m, had m ∧ m.entity = c) :
    Ascending had (entries.flatMap fun entry => hierarchical.needs entry.1 entry.2) := by
  induction entries generalizing had past with
  | nil => trivial
  | cons entry entries ih =>
    obtain ⟨e, mode⟩ := entry
    obtain ⟨hnext, hsorted⟩ := List.pairwise_cons.mp hsorted
    have hbefore : ∀ m, had m → m.entity.Before e := by
      intro m hm
      obtain ⟨x, hx, hmx⟩ := hsound m hm
      have hxe : x.Before e := hpast x hx (e, mode) (by simp)
      rcases hmx with hmx | hmx
      · exact hmx ▸ hxe
      · exact (before_of_mem_ancestors hmx).trans hxe
    rw [List.flatMap_cons, ascending_append]
    constructor
    · refine ascending_of_pairwise (pairwise_needs e mode) fun n hn => ?_
      rcases mem_needs hn with hne | ⟨hc, hshared⟩
      · exact .inr fun m hm => hne ▸ hbefore m hm
      · -- A container that has not been locked goes beyond all that has been.
        by_cases hmet : ∃ m, had m ∧ m.entity = n.entity
        · obtain ⟨m, hm, hmn⟩ := hmet
          exact .inl ⟨m, hm, hmn, hshared ▸ m.mode.covers_shared⟩
        · refine .inr fun m hm => ?_
          by_contra hnot
          obtain ⟨x, hx, hmx⟩ := hsound m hm
          refine hmet (hfull x hx n.entity ?_)
          refine mem_ancestors_of_between hc (fun hxn => hnot ?_) (hpast x hx (e, mode) (by simp))
          rcases hmx with hmx | hmx
          · exact hmx ▸ hxn
          · exact (before_of_mem_ancestors hmx).trans hxn
    · refine ih (fun x => past x ∨ x = e) hsorted ?_ ?_ ?_
      · rintro x (hx | rfl) entry hentry
        · exact hpast x hx entry (by simp [hentry])
        · exact hnext entry hentry
      · rintro m (hm | hm)
        · obtain ⟨x, hx, hmx⟩ := hsound m hm
          exact ⟨x, .inl hx, hmx⟩
        · exact ⟨e, .inr rfl, (mem_needs hm).imp id And.left⟩
      · rintro x (hx | rfl) c hc
        · obtain ⟨m, hm, hmc⟩ := hfull x hx c hc
          exact ⟨m, .inl hm, hmc⟩
        · rcases hc with rfl | hc
          · exact ⟨⟨c, mode⟩, .inr (List.mem_append_right _ (by simp)), rfl⟩
          · exact ⟨⟨c, .shared⟩, .inr (List.mem_append_left _ (List.mem_map_of_mem hc)), rfl⟩

/-- The locks that a set of entities needs ascend, with their containers or without them. -/
theorem ascending_needsOfAll {g : Granularity} (hg : g = hierarchical ∨ g = flat)
    (requests : List Need) : Ascending (fun _ => False) (g.needsOfAll requests) := by
  rcases hg with rfl | rfl
  · exact ascending_flatMap_needs (fun _ => False) _ (pairwise_strongestModes requests)
      (fun _ hx => hx.elim) (fun _ hm => hm.elim) fun _ hx => hx.elim
  · refine ascending_of_pairwise ?_ fun _ _ => .inr fun _ hm => hm.elim
    have hflat : flat.needsOfAll requests =
        (strongestModes requests).toList.map fun entry => ⟨entry.1, entry.2⟩ := by
      simp only [needsOfAll, needs, flat, List.map_nil, List.nil_append, ← List.map_eq_flatMap]
    rw [hflat, List.pairwise_map]
    exact pairwise_strongestModes requests

end Granularity

end Locking
