import Locking.Proofs.Hierarchy.Ascent
import Locking.Proofs.Hierarchy.Plan
import Locking.Proofs.System.Caller

/-! What a call that locks a set of entities makes of the list of requests.  It merges them, so that
only the strongest mode counts that is requested for each entity, and takes the locks of one entity
after the other, in ascending order.  Whoever asks for the entities in that order, one call after
the other, comes to the same. -/

namespace Locking

theorem LockMode.eq_of_covers {held mode : LockMode} (h : held.covers mode = true)
    (h' : mode.covers held = true) : held = mode := by
  cases held <;> cases mode
  · rfl
  · exact absurd h (by decide)
  · exact absurd h' (by decide)
  · rfl

theorem LockMode.strongest_eq_or (held mode : LockMode) :
    held.strongest mode = held ∨ held.strongest mode = mode := by
  cases held
  · exact .inr rfl
  · exact .inl rfl

/-- A list of requests asks for an entity in a mode, and in no mode that this one does not cover. -/
def Need.StrongestIn (n : Need) (requests : List Need) : Prop :=
  n ∈ requests ∧ ∀ m ∈ requests, m.entity = n.entity → n.mode.covers m.mode = true

namespace Granularity

variable {requests others : List Need} {n : Need} {e : EntityId} {mode : LockMode}

/-- One request for each entity, in the strongest mode that is requested for it. -/
def merged (requests : List Need) : List Need :=
  (strongestModes requests).toList.map fun entry => ⟨entry.1, entry.2⟩

/-- The strongest mode for an entity is one that was requested. -/
theorem mem_of_strongestMode (h : (strongestModes requests)[e]? = some mode) :
    ⟨e, mode⟩ ∈ requests := by
  induction requests using List.reverseRecOn generalizing mode with
  | nil => exact absurd h (by simp [strongestModes])
  | append_singleton ns m ih =>
    rw [getElem?_strongestModes_concat] at h
    split at h
    swap
    · exact List.mem_append_left _ (ih h)
    next hm =>
    subst hm
    have hlast : m ∈ ns ++ [m] := List.mem_append_right _ (List.mem_singleton_self m)
    cases hheld : (strongestModes ns)[m.entity]? with
    | none =>
      rw [hheld] at h
      cases h
      exact hlast
    | some held =>
      rw [hheld] at h
      obtain rfl : held.strongest m.mode = mode := Option.some.inj h
      rcases held.strongest_eq_or m.mode with heq | heq
      · rw [heq]
        exact List.mem_append_left _ (ih hheld)
      · rw [heq]
        exact hlast

theorem getElem?_strongestModes_iff :
    (strongestModes requests)[e]? = some mode ↔ Need.StrongestIn ⟨e, mode⟩ requests := by
  have hcovers : ∀ m ∈ requests, m.entity = e → ∃ held, (strongestModes requests)[e]? = some held ∧
      held.covers m.mode = true := by
    rintro m hm rfl
    exact exists_strongestMode hm
  constructor
  · intro h
    refine ⟨mem_of_strongestMode h, fun m hm he => ?_⟩
    obtain ⟨held, hheld, hc⟩ := hcovers m hm he
    obtain rfl : mode = held := Option.some.inj (h.symm.trans hheld)
    exact hc
  · rintro ⟨hmem, hall⟩
    obtain ⟨held, hheld, hc⟩ := hcovers _ hmem rfl
    rw [hheld, LockMode.eq_of_covers hc (hall _ (mem_of_strongestMode hheld) rfl)]

theorem mem_merged : n ∈ merged requests ↔ n.StrongestIn requests := by
  rw [← getElem?_strongestModes_iff, ← Std.ExtTreeMap.mem_toList_iff_getElem?_eq_some, merged,
    List.mem_map]
  constructor
  · rintro ⟨entry, hentry, rfl⟩
    exact hentry
  · exact fun h => ⟨_, h, rfl⟩

theorem pairwise_merged (requests : List Need) :
    (merged requests).Pairwise fun m n => m.entity.Before n.entity :=
  List.pairwise_map.mpr (pairwise_strongestModes requests)

/-- A set of entities takes the same locks as the entities one after the other. -/
theorem needsInTurn_merged (g : Granularity) (requests : List Need) :
    g.needsInTurn (merged requests) = g.needsOfAll requests :=
  List.flatMap_map ..

theorem strongestModes_congr (h : ∀ n : Need, n.StrongestIn requests ↔ n.StrongestIn others) :
    strongestModes requests = strongestModes others := by
  refine Std.ExtTreeMap.ext_getElem? fun e => Option.ext fun mode => ?_
  rw [getElem?_strongestModes_iff, getElem?_strongestModes_iff]
  exact h ⟨e, mode⟩

end Granularity

namespace Caller

open Locking.System Granularity

variable {k k' : Crowd} {c : CallId} {r : TransactionRef} {requests : List Need} {deeds : List Deed}

/-- All entities in one call are what all later calls of `lock` add up to with the first one. -/
theorem merge_merged (hk : k.system.calls[c]? = none) :
    merge c k.system.granularity (oneByOne k c r (merged requests)) = atOnce k c r requests := by
  rw [merge_oneByOne hk, needsInTurn_merged]
  rfl

/-- What a call of `lockAll` depends on.  Take two lists of requests that name the same entities
with the same strongest mode for each.  They need the same locks in the same order, and a call of
`lockAll` with the one list does what a call with the other one does, in every system.  Take then
any crowd without timeouts, a call number that is free and an active transaction.  Against the same
deeds of the others, as long as none of them changes the state of the transaction, a caller that
locks the entities by one call of `lockAll` comes to an answer if and only if one does that calls
`lock` once for each entity, in ascending order and with its strongest mode, up to the first
failure; the answer is the same and so is the crowd, with all its locks, its wait-for graph, its
transactions with their lock sets, its counters and its other calls; and before the answer the two
come to the same but for the call.  If the answer is success, all calls have been made. -/
theorem lockAll_merges (requests others : List Need)
    (hsame : ∀ n : Need, n.StrongestIn requests ↔ n.StrongestIn others) :
    (∀ g : Granularity, g.needsOfAll requests = g.needsOfAll others) ∧
    (∀ (s : System) (c : CallId) (r : TransactionRef),
      s.lockAll c r requests = s.lockAll c r others ∧
        s.step (.lockAll r requests) = s.step (.lockAll r others)) ∧
    ((merged requests).Pairwise (fun m n => m.entity.Before n.entity) ∧
      ∀ n, n ∈ merged requests ↔ n.StrongestIn requests) ∧
    ∀ (k : Crowd) (c : CallId) (r : TransactionRef), k.system.lockWaitTimeout = none →
      k.going c = none → k.system.calls[c]? = none → (k.system.transactionAt r).state = .active →
      atOnce k c r requests = atOnce k c r others ∧ ∀ deeds : List Deed,
        (∀ k' answer, Runs c r (atOnce k c r others) deeds ⟨k', [], some answer⟩ ↔
          ∃ left, Runs c r (oneByOne k c r (merged requests)) deeds ⟨k', left, some answer⟩ ∧
            ∀ v, answer = .ok v → left = []) ∧
        ∀ t, (∃ k', Runs c r (atOnce k c r others) deeds ⟨k', [], none⟩ ∧ k'.system.shared = t) ↔
          ∃ k' left, Runs c r (oneByOne k c r (merged requests)) deeds ⟨k', left, none⟩ ∧
            k'.system.shared = t := by
  have hmodes : strongestModes requests = strongestModes others := strongestModes_congr hsame
  have hneeds : ∀ g : Granularity, g.needsOfAll requests = g.needsOfAll others := fun g => by
    rw [needsOfAll, hmodes, needsOfAll]
  have hcall : ∀ (s : System) c r, s.lockAll c r requests = s.lockAll c r others := fun s c r => by
    rw [System.lockAll, hneeds, System.lockAll]
  refine ⟨hneeds, fun s c r => ⟨hcall s c r, ?_⟩, ⟨pairwise_merged requests, fun n => mem_merged⟩,
    fun k c r ht _ hk hs => ?_⟩
  · simp only [System.step, hcall]
  have hbegin : atOnce k c r requests = atOnce k c r others := by rw [atOnce, hneeds, atOnce]
  have hready := Ready.oneByOne (c := c) ht hk hs (merged requests)
  have hmerge : atOnce k c r others =
      merge c k.system.granularity (oneByOne k c r (merged requests)) :=
    hbegin.symm.trans (merge_merged hk).symm
  refine ⟨hbegin, fun deeds => ⟨fun k' answer => ⟨fun h => ?_, ?_⟩, fun t => ⟨?_, ?_⟩⟩⟩
  · obtain ⟨⟨k₂, left, answer'⟩, hrun, heq⟩ := hready.of_merge_runs hmerge h
    obtain rfl : some answer = answer' := congrArg Caller.answer heq
    have hend := hready.runs hrun
    rw [hend.merge_answered] at heq
    obtain rfl : k' = k₂ := congrArg Caller.crowd heq
    exact ⟨left, hrun, fun v hv => hend.succeeded v (congrArg some hv)⟩
  · rintro ⟨left, hrun, -⟩
    have h := hready.merge_runs hrun
    rwa [(hready.runs hrun).merge_answered, ← hmerge] at h
  · rintro ⟨k', h, rfl⟩
    obtain ⟨⟨k₂, left, answer'⟩, hrun, heq⟩ := hready.of_merge_runs hmerge h
    obtain rfl : none = answer' := congrArg Caller.answer heq
    have hshared := congrArg (fun x : Caller => x.crowd.system.shared) heq
    exact ⟨k₂, left, hrun, hshared.symm⟩
  · rintro ⟨k', left, hrun, rfl⟩
    have h := hready.merge_runs hrun
    rw [← hmerge] at h
    exact ⟨_, h, rfl⟩

/-- Two entities are asked for, one of them twice.  It is locked by another transaction, so the call
sleeps after it has got the first one, until the other transaction gives up its locks.  A caller
that asks for one entity after the other comes to the same. -/
theorem locked_in_turn :
    let requests : List Need :=
      [⟨⟨["b"]⟩, .exclusive⟩, ⟨⟨["a"]⟩, .shared⟩, ⟨⟨["b"]⟩, .shared⟩]
    let others : List Need := [⟨⟨["a"]⟩, .shared⟩, ⟨⟨["b"]⟩, .exclusive⟩]
    let r : TransactionRef := ⟨0, 1⟩
    let s := (System.new .flat [{}] {}).run
      [.begin 0, .begin 0, .lock ⟨0, 2⟩ ⟨["b"]⟩ .exclusive]
    let s₁ := (s.step (.lockAll r others)).1
    let s₂ := (s₁.step (.unlockAll ⟨0, 2⟩)).1
    let s₃ := (s₂.step (.wake 0)).1
    (∀ n : Need, n.StrongestIn requests ↔ n.StrongestIn others) ∧
      (s.step (.lockAll r others)).2 = .asleep 0 ∧
      (s₁.lockAt (.entity ⟨["a"]⟩)).modeOf 1 = some .shared ∧
      (s₃.lockAt (.entity ⟨["b"]⟩)).modeOf 1 = some .exclusive ∧
      Runs 0 r (oneByOne (.still s) 0 r (merged requests))
        [.event (.unlockAll ⟨0, 2⟩), .event (.wake 0)] ⟨.still s₃, [], some (.ok .unit)⟩ := by
  intro requests others r s s₁ s₂ s₃
  have hmerged : merged requests = merged others := by decide +kernel
  have hsame : ∀ n : Need, n.StrongestIn requests ↔ n.StrongestIn others := fun n => by
    rw [← mem_merged, ← mem_merged, hmerged]
  have hactive : (s.transactionAt r).state = .active := by decide +kernel
  have hfree : s.calls[0]? = none := by decide +kernel
  have htidy : ∀ events, ((System.new .flat [{}] {}).run events).Tidy := fun events =>
    (InOrder.invariant.run (.new .flat [{}] {}) (.trivial _ events)).tidy
  have ht : s.Tidy := htidy _
  have ht₂ : s₂.Tidy := htidy [.begin 0, .begin 0, .lock ⟨0, 2⟩ ⟨["b"]⟩ .exclusive,
    .lockAll r others, .unlockAll ⟨0, 2⟩]
  have hasleep : (s.step (.lockAll r others)).2 = .asleep 0 := by decide +kernel
  have hfirst := Runs.asks ht (c := 0) (by decide +kernel) (by decide +kernel) hactive others
  rw [hasleep] at hfirst
  have hadmits : s₁.admits ⟨0, 2⟩ .shared = true := by decide +kernel
  have hsecond : Runs 0 r ⟨.still s₁, [], none⟩ [.event (.unlockAll ⟨0, 2⟩)]
      ⟨.still s₂, [], none⟩ := .unlocks hadmits (by decide +kernel)
  have hk : s₂.calls[0]? =
      some ⟨r, .shared, .waiting (.entity ⟨["b"]⟩) .never (.plan ⟨["b"]⟩ [])⟩ := by decide +kernel
  have hw : (s₂.lockAt (.entity ⟨["b"]⟩)).waiter? 0 = some ⟨0, 1, .exclusive, 0, true⟩ := by
    decide +kernel
  have hreturned : (s₂.step (.wake 0)).2 = .returned (.ok .unit) := by decide +kernel
  have hthird := Runs.wakes (r := r) ht₂ hk hw
  rw [hreturned] at hthird
  obtain ⟨-, -, -, hrest⟩ := lockAll_merges requests others hsame
  obtain ⟨-, hruns⟩ := hrest (.still s) 0 r (by decide +kernel) rfl hfree hactive
  have hall := (hfirst.trans hsecond).trans hthird
  obtain ⟨left, hrun, hleft⟩ := ((hruns _).1 _ _).mp hall
  obtain rfl := hleft .unit rfl
  exact ⟨hsame, hasleep, by decide +kernel, by decide +kernel, hrun⟩

end Caller

end Locking
