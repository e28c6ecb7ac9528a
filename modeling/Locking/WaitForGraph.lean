import Std.Data.ExtTreeMap
import Locking.TransactionId
import Locking.Error

/-! The wait-for graph records which transactions wait for which others.  A transaction that would
close a cycle is told so instead of being recorded, so the graph never holds a cycle. -/

namespace Locking

/-- For every waiting transaction the transactions that it waits for. -/
structure WaitForGraph where
  edges : Std.ExtTreeMap TransactionId IdSet := ∅
deriving DecidableEq

namespace WaitForGraph

/-! ### Views -/

def blockersOf (g : WaitForGraph) (i : TransactionId) : IdSet := g.edges[i]?.getD ∅

def waitsFor (g : WaitForGraph) (i : TransactionId) : List TransactionId :=
  (g.blockersOf i).toList

def size (g : WaitForGraph) : Nat := g.edges.size

def isEmpty (g : WaitForGraph) : Bool := g.edges.isEmpty

/-! ### Search -/

/-- Whether `target` is met on the way along `edges` from `frontier`.  Every round follows the
edges of one transaction that was met and drops them, so as many rounds as there are waiting
transactions meet everything that can be met. -/
def search (target : TransactionId) : Nat → Std.ExtTreeMap TransactionId IdSet →
    List TransactionId → Bool
  | 0, _, frontier => frontier.contains target
  | n + 1, edges, frontier =>
    frontier.contains target ||
      match frontier.find? fun i => edges.contains i with
      | none => false
      | some i => search target n (edges.erase i) ((edges[i]?.getD ∅).toList ++ frontier)

/-- Whether `target` is among `sources` or is waited for by one of them, directly or through
others. -/
def reaches (g : WaitForGraph) (sources : List TransactionId) (target : TransactionId) : Bool :=
  search target g.size g.edges sources

/-! ### Operations -/

/-- Drops what `i` waits for, because it no longer waits. -/
def stopWaiting (g : WaitForGraph) (i : TransactionId) : WaitForGraph := ⟨g.edges.erase i⟩

/-- Drops `i` on both sides: what it waits for, and that others wait for it. -/
def remove (g : WaitForGraph) (i : TransactionId) : WaitForGraph :=
  ⟨(g.edges.erase i).filterMap fun _ blockers =>
    if (blockers.erase i).isEmpty then none else some (blockers.erase i)⟩

/-- Lets `requester` wait for `blockers`, other than itself, in place of those it waited for
before.  If one of them waits for `requester`, directly or through others, that is a deadlock and
`requester` waits for nobody. -/
def wait (g : WaitForGraph) (requester : TransactionId) (blockers : List TransactionId) :
    WaitForGraph × Except Error Unit :=
  let others : IdSet := .ofList (blockers.filter (· ≠ requester))
  let rest := g.stopWaiting requester
  if others.isEmpty then (rest, .ok ())
  else if rest.reaches others.toList requester then (rest, .error .deadlock)
  else (⟨rest.edges.insert requester others⟩, .ok ())

theorem blockersOf_stopWaiting (g : WaitForGraph) (i j : TransactionId) :
    (g.stopWaiting i).blockersOf j = if j = i then ∅ else g.blockersOf j := by
  simp only [blockersOf, stopWaiting, Std.ExtTreeMap.getElem?_erase, Nat.compare_eq_eq]
  by_cases h : i = j
  · simp [h]
  · simp [h, Ne.symm h]

theorem blockersOf_remove (g : WaitForGraph) (i j : TransactionId) :
    (g.remove i).blockersOf j = if j = i then ∅ else (g.blockersOf j).erase i := by
  simp only [blockersOf, remove, Std.ExtTreeMap.getElem?_filterMap', Std.ExtTreeMap.getElem?_erase,
    Nat.compare_eq_eq]
  by_cases h : i = j
  · simp [h]
  · simp only [h, if_false, Ne.symm h]
    cases g.edges[j]? with
    | none => simp
    | some blockers =>
      rw [Option.bind_some, Option.getD_some]
      split
      · next he => exact (Std.ExtTreeSet.isEmpty_iff.mp he).symm
      · rfl

theorem blockersOf_wait_ne {g : WaitForGraph} {i j : TransactionId} (h : j ≠ i)
    (blockers : List TransactionId) : (g.wait i blockers).1.blockersOf j = g.blockersOf j := by
  simp only [wait]
  split
  · simp [blockersOf_stopWaiting, h]
  · split
    · simp [blockersOf_stopWaiting, h]
    · simp [blockersOf, stopWaiting, Std.ExtTreeMap.getElem?_insert, Std.ExtTreeMap.getElem?_erase,
        Ne.symm h]

end WaitForGraph

end Locking
