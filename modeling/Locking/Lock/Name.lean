import Locking.Entity

/-! The names under which locks are kept. -/

namespace Locking

/-- A lock belongs to an entity, or is free-standing and has a name of its own. -/
inductive LockName where
  | entity (e : EntityId)
  | free (name : String)
deriving DecidableEq, Repr, Inhabited

namespace LockName

/-- The locks of entities come first. -/
instance : Ord LockName where
  compare
    | entity a, entity b => compare a b
    | entity _, free _ => .lt
    | free _, entity _ => .gt
    | free a, free b => compare a b

instance : Std.TransOrd LockName where
  eq_swap {a b} := match a, b with
    | entity a, entity b => (Std.OrientedOrd.eq_swap : compare a b = (compare b a).swap)
    | entity _, free _ => rfl
    | free _, entity _ => rfl
    | free a, free b => (Std.OrientedOrd.eq_swap : compare a b = (compare b a).swap)
  isLE_trans {a b c} hab hbc := match a, b, c with
    | entity a, entity b, entity c =>
      show (compare a c).isLE from
        Std.TransOrd.isLE_trans (show (compare a b).isLE from hab)
          (show (compare b c).isLE from hbc)
    | entity _, _, free _ => rfl
    | free a, free b, free c =>
      show (compare a c).isLE from
        Std.TransOrd.isLE_trans (show (compare a b).isLE from hab)
          (show (compare b c).isLE from hbc)
    | entity _, free _, entity _ => Bool.noConfusion (show false = true from hbc)
    | free _, entity _, _ => Bool.noConfusion (show false = true from hab)
    | free _, free _, entity _ => Bool.noConfusion (show false = true from hbc)

instance : Std.LawfulEqOrd LockName where
  compare_self {a} := match a with
    | entity e => (Std.ReflOrd.compare_self : compare e e = .eq)
    | free name => (Std.ReflOrd.compare_self : compare name name = .eq)
  eq_of_compare {a b} h := match a, b with
    | entity a, entity b =>
      congrArg entity (Std.LawfulEqOrd.eq_of_compare (show compare a b = .eq from h))
    | free a, free b =>
      congrArg free (Std.LawfulEqOrd.eq_of_compare (show compare a b = .eq from h))
    | entity _, free _ => Ordering.noConfusion (show Ordering.lt = .eq from h)
    | free _, entity _ => Ordering.noConfusion (show Ordering.gt = .eq from h)

def entity? : LockName → Option EntityId
  | entity e => some e
  | free _ => none

end LockName

end Locking
