import Locking.Entity

/-! A granularity decides which containers are locked before an entity is locked. -/

namespace Locking

/-- For each entity the containers that are locked before it, in the order of locking. -/
structure Granularity where
  containers : EntityId → List EntityId

namespace Granularity

/-- Every named container of an entity is locked before it, outermost first. -/
def hierarchical : Granularity := ⟨EntityId.ancestors⟩

/-- Entities are locked independently of each other. -/
def flat : Granularity := ⟨fun _ => []⟩

/-- The containers are listed in a table, where the last row of an entity counts; an entity
without a row has no containers. -/
def ofTable (rows : List (EntityId × List EntityId)) : Granularity :=
  ⟨fun e => (rows.reverse.lookup e).getD []⟩

end Granularity

end Locking
