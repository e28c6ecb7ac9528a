import Locking.Proofs.System.Deeds

/-! Schedules that can be computed.  A list of deeds says in which order the calls of a crowd start and
advance; what becomes of the crowd is computed for the events that ask for locks, give them back and
end transactions, and for what wakes requests and replies to calls of stores. -/

namespace Locking

namespace System

/-- What an event does before the first stage of its call, if it can happen and is one that asks for
locks, gives them back, commits or removes a transaction, wakes a request or lets a store agree. -/
def start? (s : System) : Event → Option (System × Stage)
  | .lock r e mode =>
    if s.admits r .shared ∧ (s.transactionAt r).state = .active then
      some (s, .taking s.nextCall r s.lockDeadline (s.granularity.needs e mode))
    else none
  | .lockAll r requests =>
    if s.admits r .shared ∧ (s.transactionAt r).state = .active then
      some (s, .taking s.nextCall r s.lockDeadline (s.granularity.needsOfAll requests))
    else none
  | .unlockAll r =>
    if s.admits r .shared then some (s.releaseAll r, .concluded (.returned (.ok .unit))) else none
  | .commit r =>
    if s.admits r .exclusive ∧ (s.transactionAt r).state = .active ∧
        (s.transactionAt r).isInterrupted = false then some (s, .deciding s.nextCall r)
    else none
  | .remove r =>
    if s.registeredState? r = some .active then
      some (s.modifyTransaction r fun t => { t with state := .aborting, isInterrupted := true },
        .undoing s.nextCall r .unowned .removal (s.transactionAt r).stores)
    else none
  | .wake c =>
    match s.calls[c]? with
    | some ⟨r, .shared, .waiting name d goal⟩ => ((s.lockAt name).waiter? c).map fun w =>
        ((s.dismiss c).modifyLock name (·.rouse w), .looking c r name w.request d goal true)
    | _ => none
  | .reply c answer =>
    match s.calls[c]? with
    | some ⟨r, _, .preparing store rest⟩ =>
      if answer.prepareError? store = none then some (s.dismiss c, .preparing c r rest) else none
    | some ⟨r, _, .committing store rest⟩ =>
      if answer.commitError? store = none then some (s.dismiss c, .committing c r rest) else none
    | some ⟨r, access, .rollingBack _ rest cause⟩ =>
      let statistics := match answer with
        | .failed _ => s.statistics.countStoreRollbackFailure
        | _ => s.statistics
      some ((s.dismiss c).setStatistics statistics, .undoing c r access cause rest)
    | _ => none
  | _ => none

theorem start_of_start? {s s' : System} {e : Event} {p : Stage} (h : s.start? e = some (s', p)) :
    Start s e s' p := by
  cases e with
  | lock | lockAll =>
    obtain ⟨⟨ha, hs⟩, h⟩ := Option.ite_none_right_eq_some.mp h
    cases h
    constructor <;> assumption
  | unlockAll =>
    obtain ⟨ha, h⟩ := Option.ite_none_right_eq_some.mp h
    cases h
    exact .unlockAll ha
  | commit =>
    obtain ⟨⟨ha, hs, hi⟩, h⟩ := Option.ite_none_right_eq_some.mp h
    cases h
    exact .commit ha hs hi
  | remove =>
    obtain ⟨hs, h⟩ := Option.ite_none_right_eq_some.mp h
    cases h
    exact .remove hs
  | wake c =>
    simp only [start?] at h
    split at h
    · next hk =>
      obtain ⟨w, hw, h⟩ := Option.map_eq_some_iff.mp h
      cases h
      exact .wake hk hw
    · exact absurd h (by simp)
  | reply c answer =>
    simp only [start?] at h
    split at h
    · next hk =>
      obtain ⟨ha, h⟩ := Option.ite_none_right_eq_some.mp h
      cases h
      exact .prepared hk ha
    · next hk =>
      obtain ⟨ha, h⟩ := Option.ite_none_right_eq_some.mp h
      cases h
      exact .committed hk ha
    · next hk =>
      cases h
      exact .rolledBack hk
    · exact absurd h (by simp)
  | _ => exact absurd h (by simp [start?])

end System

namespace Crowd

open Locking.System

/-- Whether no call that goes on stands in the way of an event. -/
def admits (k : Crowd) (e : Event) : Bool :=
  (List.range (k.system.nextCall + 1)).all fun c => (k.going c).all fun q =>
    e.use?.all fun u => q.user?.all fun v => v.1 ≠ u.1 || v.2.permits u.2

/-- What a deed makes of a crowd, if that is computed. -/
def after? (k : Crowd) : Deed → Option Crowd
  | .event e =>
    match k.system.start? e with
    | some (s, p) =>
      if k.admits e ∧ p.call?.all fun c => (k.going c).isNone then some (k.enter s p) else none
    | none => none
  | .advance c =>
    match k.going c with
    | some p =>
      if p.call?.isSome then some (k.follow c (k.system.next p).1 (k.system.next p).2) else none
    | none => none
  | .number => some ⟨{ k.system with nextCall := k.system.nextCall + 1 }, k.going⟩
  | .release .. => none

/-- What becomes of a crowd by a schedule each deed of which is allowed. -/
def runs? (allows : Crowd → Deed → Bool) (k : Crowd) : List Deed → Option Crowd
  | [] => some k
  | d :: deeds => if allows k d then (k.after? d).bind fun k => runs? allows k deeds else none

variable {k k' : Crowd} {p q : Stage} {e : Event} {d : Deed} {deeds : List Deed} {c : CallId}
  {rule : Crowd → Deed → Prop} {allows : Crowd → Deed → Bool}

namespace Orderly

theorem le_of_going (h : k.Orderly) (hc : k.going c = some p) : c ≤ k.system.nextCall :=
  ((h.inOrder c p hc).going c (h.call c p hc)).2

theorem le_of_stage? (h : k.Orderly) (hq : k.stage? c = some q) : c ≤ k.system.nextCall := by
  rcases Option.or_eq_some_iff.mp hq with hq | ⟨-, hq⟩
  · exact h.le_of_going hq
  · obtain ⟨j, hj, -⟩ := h.resting.resumesAt hq
    exact Nat.le_of_lt (h.resting.fresh c j hj)

/-- Only calls that have been numbered can stand in the way of an event. -/
theorem admits (h : k.Orderly) (ha : k.admits e = true) : k.Admits e := by
  intro r access hu c q access' hq hv
  have hall := List.all_eq_true.mp ha c (List.mem_range.mpr (Nat.lt_succ_of_le (h.le_of_going hq)))
  simpa [hq, hu, hv] using hall

theorem step_of_after? (h : k.Orderly) (hd : k.after? d = some k') : k.Step d k' := by
  cases d with
  | event e =>
    simp only [after?] at hd
    split at hd
    · next hs =>
      obtain ⟨⟨ha, hp⟩, hd⟩ := Option.ite_none_right_eq_some.mp hd
      cases hd
      refine .event (h.admits ha) (start_of_start? hs) fun c hc => ?_
      simpa [hc] using hp
    · exact absurd hd (by simp)
  | advance c =>
    simp only [after?] at hd
    split at hd
    · next hc =>
      obtain ⟨hp, hd⟩ := Option.ite_none_right_eq_some.mp hd
      cases hd
      obtain ⟨b, hb⟩ := Option.isSome_iff_exists.mp hp
      exact .advance hc (advance_next hb)
    · exact absurd hd (by simp)
  | release => exact absurd hd (by simp [after?])
  | number =>
    cases hd
    exact .number

end Orderly

/-- A call returns what the next thing that it does comes to. -/
theorem returns_of_next {outcome : Outcome} (hc : k.going c = some p) (hp : p.call?.isSome)
    (hn : (k.system.next p).2 = .concluded (.returned outcome)) : k.Returns c outcome :=
  ⟨p, _, hc, advance_iff_next.mpr ⟨hp, Prod.ext rfl hn⟩⟩

/-- What a schedule leads to is led to by deeds that a rule allows. -/
theorem Leads.runs {k₀ : Crowd} (hr : ∀ {k d}, k.Orderly → allows k d = true → rule k d)
    (h : k.Orderly) (hk : Leads rule k₀ k) (hd : k.runs? allows deeds = some k') :
    Leads rule k₀ k' := by
  induction deeds generalizing k with
  | nil =>
    cases hd
    exact hk
  | cons d deeds ih =>
    obtain ⟨ha, hd⟩ := Option.ite_none_right_eq_some.mp hd
    obtain ⟨k₁, hk₁, hd⟩ := Option.bind_eq_some_iff.mp hd
    have hs := h.step_of_after? hk₁
    exact ih (h.step hs) (hk.tail ⟨d, hr h ha, hs⟩) hd

end Crowd

end Locking
