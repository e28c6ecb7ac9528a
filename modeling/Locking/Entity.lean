/-! Entities are lockable resources named by a path of segments, from the coarsest container down
to the resource itself.  This module holds their order, their textual form, and containment. -/

namespace Locking

/-- An entity is named by its path of segments, outermost first. -/
structure EntityId where
  segments : List String
deriving DecidableEq, Repr, Inhabited

namespace EntityId

/-! ### Order -/

/-- Entities are ordered segment by segment, and segments by their code points. -/
instance : Ord EntityId := ⟨compareOn segments⟩

instance : Std.TransOrd EntityId := inferInstanceAs (Std.TransCmp (compareOn segments))

instance : Std.LawfulEqOrd EntityId where
  eq_of_compare {a b} h := by
    have hs : a.segments = b.segments := Std.LawfulEqOrd.eq_of_compare h
    cases a; cases b; cases hs; rfl

/-! ### Text -/

/-- The pieces of a text between its dots; a text without dots is one piece. -/
def pieces : List Char → List (List Char)
  | [] => [[]]
  | c :: cs =>
    if c = '.' then [] :: pieces cs
    else match pieces cs with
      | [] => [[c]]
      | p :: ps => (c :: p) :: ps

def joined : List (List Char) → List Char
  | [] => []
  | [p] => p
  | p :: q :: ps => p ++ '.' :: joined (q :: ps)

/-- The entity that a text names: its non-empty pieces are the segments. -/
def ofText (text : String) : EntityId :=
  ⟨((pieces text.toList).filter fun p => !p.isEmpty).map String.ofList⟩

/-- The textual form of an entity joins its segments with dots. -/
def text (e : EntityId) : String :=
  String.ofList (joined (e.segments.map String.toList))

/-! ### Containment -/

def parent? (e : EntityId) : Option EntityId :=
  if e.segments.length ≤ 1 then none else some ⟨e.segments.dropLast⟩

/-- Every container that is named by at least one segment, outermost first. -/
def ancestors (e : EntityId) : List EntityId :=
  (List.range' 1 (e.segments.length - 1)).map fun n => ⟨e.segments.take n⟩

def isAncestorOf (a e : EntityId) : Bool :=
  decide (a.segments.length < e.segments.length) && a.segments.isPrefixOf e.segments

theorem parent?_eq_none_iff {e : EntityId} : e.parent? = none ↔ e.segments.length ≤ 1 := by
  simp [parent?]

theorem isAncestorOf_iff {a e : EntityId} :
    a.isAncestorOf e = true ↔
      a.segments.length < e.segments.length ∧ a.segments <+: e.segments := by
  simp [isAncestorOf]

theorem mem_ancestors {a e : EntityId} :
    a ∈ e.ancestors ↔ a.isAncestorOf e = true ∧ a.segments ≠ [] := by
  rw [isAncestorOf_iff]
  simp only [ancestors, List.mem_map, List.mem_range'_1]
  constructor
  · rintro ⟨n, hn, rfl⟩
    refine ⟨⟨by simp only [List.length_take]; omega, List.take_prefix _ _⟩, fun h => ?_⟩
    have := congrArg List.length h
    simp only [List.length_take, List.length_nil] at this
    omega
  · rintro ⟨⟨hl, hp⟩, hne⟩
    have := List.length_pos_iff.mpr hne
    refine ⟨a.segments.length, by omega, ?_⟩
    cases a
    simp only [EntityId.mk.injEq]
    exact (List.prefix_iff_eq_take.mp hp).symm

end EntityId

end Locking
