import Mathlib.Data.List.Count
import Mathlib.Data.List.Nodup
import Locking.Lock.Lemmas
import Locking.Lock.Attempt
import Locking.Proofs.WaitForGraph.Cycles

/-! What holds of a lock whenever no critical section is being run on it: the mode agrees with the
owners, nobody both owns the lock and waits to upgrade it, the number of parked requests is that
of the waiters that have not been notified, and nobody is left asleep on a free lock. -/

namespace Locking

theorem IdSet.mem_toList {s : IdSet} {i : TransactionId} : i ∈ s.toList ↔ i ∈ s :=
  Std.ExtTreeSet.mem_toList

theorem IdSet.size_eq_one_iff {s : IdSet} {i : TransactionId} (hi : i ∈ s) :
    s.size = 1 ↔ ∀ j ∈ s, j = i := by
  have hnd : s.toList.Nodup := by
    have h := Std.ExtTreeSet.distinct_toList (t := s)
    exact h.imp fun h he => h (by simp [he])
  rw [← Std.ExtTreeSet.length_toList]
  constructor
  · intro h j hj
    obtain ⟨k, hk⟩ := List.length_eq_one_iff.mp h
    have hi' : i ∈ s.toList := IdSet.mem_toList.mpr hi
    have hj' : j ∈ s.toList := IdSet.mem_toList.mpr hj
    rw [hk, List.mem_singleton] at hi' hj'
    rw [hi', hj']
  · intro h
    have hall : ∀ j ∈ s.toList, j = i := fun j hj => h j (IdSet.mem_toList.mp hj)
    have hlen : s.toList.length ≤ 1 := by
      rw [List.eq_replicate_of_mem hall] at hnd
      simpa using List.nodup_replicate.mp hnd
    have := List.length_pos_of_mem (IdSet.mem_toList.mpr hi)
    omega

/-! ### What a look decides -/

namespace Attempt

variable {a : Attempt} {l : Lock} {g g' : WaitForGraph} {error : Error}

theorem judge_eq_granted_iff : a.judge l g = (g', .granted) ↔
    a.isInterrupted = false ∧ l.grantable a.transaction a.request = true ∧ g' = g := by
  unfold judge
  cases a.isInterrupted <;> cases l.grantable a.transaction a.request <;> cases a.isLate <;>
    simp only [if_true, if_false, Bool.false_eq_true, Prod.mk.injEq, reduceCtorEq, and_false,
      false_and, and_true, true_and, eq_comm (a := g')]
  split <;> simp

theorem judge_eq_sleeps_iff : a.judge l g = (g', .sleeps) ↔
    a.isInterrupted = false ∧ l.grantable a.transaction a.request = false ∧ a.isLate = false ∧
      g.wait a.transaction (l.blockers a.transaction a.request) = (g', .ok ()) := by
  unfold judge
  cases a.isInterrupted <;> cases l.grantable a.transaction a.request <;> cases a.isLate <;>
    simp only [if_true, if_false, Bool.false_eq_true, Bool.true_eq_false, Prod.mk.injEq,
      reduceCtorEq, and_false, false_and, true_and]
  split <;> simp_all

/-- A request fails because its transaction was interrupted, or because it would have to wait and
its deadline has passed or waiting would close a cycle. -/
theorem judge_eq_failed_iff : a.judge l g = (g', .failed error) ↔
    a.isInterrupted = true ∧ error = .interrupted ∧ g' = g ∨
    a.isInterrupted = false ∧ l.grantable a.transaction a.request = false ∧
      (a.isLate = true ∧ error = .timeout ∧ g' = g ∨
        a.isLate = false ∧
          g.wait a.transaction (l.blockers a.transaction a.request) = (g', .error error)) := by
  unfold judge
  cases a.isInterrupted <;> cases l.grantable a.transaction a.request <;> cases a.isLate <;>
    simp only [if_true, if_false, Bool.false_eq_true, Bool.true_eq_false, Prod.mk.injEq,
      reduceCtorEq, and_false, false_and, true_and, or_false, false_or, Verdict.failed.injEq,
      eq_comm (a := g'), eq_comm (a := error), and_comm]
  split <;> simp_all [and_comm]

/-- What a request leaves of the wait-for graph was there before, and it has no part in it after it
has been asleep. -/
theorem waits_leave {g : WaitForGraph} {i j : TransactionId}
    (h : (a.leave g).Waits i j) : g.Waits i j ∧ (a.hasWaited = true → a.transaction ≠ i) := by
  unfold leave at h
  split at h
  · obtain ⟨hi, h⟩ := WaitForGraph.waits_stopWaiting.mp h
    exact ⟨h, fun _ => Ne.symm hi⟩
  · next hw => exact ⟨h, fun htrue => absurd htrue hw⟩

/-- A look leaves it alone whom the other transactions wait for. -/
theorem waits_judge (a : Attempt) (l : Lock) {g : WaitForGraph} {i j : TransactionId}
    (hne : i ≠ a.transaction) : (a.judge l g).1.Waits i j ↔ g.Waits i j := by
  have hwait := WaitForGraph.blockersOf_wait_ne (g := g) hne (l.blockers a.transaction a.request)
  unfold judge WaitForGraph.Waits
  rcases hw : g.wait a.transaction (l.blockers a.transaction a.request) with ⟨g', outcome⟩
  rw [hw] at hwait
  split_ifs
  · rfl
  · rfl
  · rfl
  · cases outcome <;> exact iff_of_eq (congrArg (j ∈ ·) hwait)

/-- A look that fails leaves the graph alone, or else its transaction waits for nobody any more. -/
theorem graph_of_failed (hj : a.judge l g = (g', .failed error)) :
    g' = g ∨ g' = g.stopWaiting a.transaction := by
  rcases judge_eq_failed_iff.mp hj with ⟨-, -, hg⟩ | ⟨-, -, ⟨-, -, hg⟩ | ⟨-, hwait⟩⟩
  · exact .inl hg
  · exact .inl hg
  · exact .inr (WaitForGraph.wait_eq_error hwait).2.1

/-- So no edge of the graph is new. -/
theorem waits_of_failed {i j : TransactionId} (hj : a.judge l g = (g', .failed error))
    (hij : g'.Waits i j) : g.Waits i j := by
  obtain rfl | rfl := graph_of_failed hj
  · exact hij
  · exact (WaitForGraph.waits_stopWaiting.mp hij).2

end Attempt

namespace Lock

variable {l : Lock} {i j : TransactionId} {kind : Request}

/-! ### When a request can be granted -/

theorem grantable_shared_iff : l.grantable i .shared = true ↔
    ((∀ j, j ∉ l.owners) ∨ l.mode = some .shared) ∧ (∀ j, j ∉ l.upgraders) ∧ l.parked = 0 := by
  simp only [grantable, Bool.and_eq_true, Bool.or_eq_true, IdSet.isEmpty_iff, beq_iff_eq,
    and_assoc]

theorem grantable_exclusive_iff : l.grantable i .exclusive = true ↔
    (∀ j, j ∉ l.owners) ∧ ∀ j, j ∉ l.upgraders := by
  simp only [grantable, Bool.and_eq_true, IdSet.isEmpty_iff]

theorem grantable_upgrade_iff : l.grantable i .upgrade = true ↔ ∀ j ∈ l.owners, j = i := by
  simp only [grantable, Bool.or_eq_true, Bool.and_eq_true, beq_iff_eq, IdSet.isEmpty_iff,
    Std.ExtTreeSet.contains_iff_mem]
  constructor
  · rintro (h | ⟨h, hi⟩) j hj
    · exact absurd hj (h j)
    · exact (IdSet.size_eq_one_iff hi).mp h j hj
  · intro h
    by_cases hi : i ∈ l.owners
    · exact .inr ⟨(IdSet.size_eq_one_iff hi).mpr h, hi⟩
    · exact .inl fun j hj => hi (h j hj ▸ hj)

/-! ### Entering -/

/-- What a request does to the lock before it looks at it for the first time. -/
def enter (l : Lock) (i : TransactionId) (kind : Request) : Lock :=
  if kind = .upgrade then l.beginUpgrade i else l

@[simp] theorem waiters_enter : (l.enter i kind).waiters = l.waiters := by
  unfold enter; split <;> rfl

@[simp] theorem parked_enter : (l.enter i kind).parked = l.parked := by
  unfold enter; split <;> rfl

@[simp] theorem epoch_enter : (l.enter i kind).epoch = l.epoch := by
  unfold enter; split <;> rfl

theorem mem_owners_enter :
    j ∈ (l.enter i kind).owners ↔ j ∈ l.owners ∧ (kind = .upgrade → j ≠ i) := by
  unfold enter
  split
  · next h => simp [h, beginUpgrade, mem_disown, and_comm]
  · next h => simp [h]

theorem mem_upgraders_enter :
    j ∈ (l.enter i kind).upgraders ↔ j ∈ l.upgraders ∨ kind = .upgrade ∧ j = i := by
  unfold enter
  split
  · next h =>
    show j ∈ l.upgraders.insert i ↔ _
    rw [IdSet.mem_insert, or_comm]
    simp [h]
  · next h => simp [h]

/-! ### Owners and upgraders after a change -/

theorem mem_owners_grant : j ∈ (l.grant i kind).owners ↔ j = i ∨ kind = .shared ∧ j ∈ l.owners := by
  cases kind with
  | shared =>
    show j ∈ l.owners.insert i ↔ _
    rw [IdSet.mem_insert]
    simp
  | exclusive | upgrade =>
    show j ∈ (Std.ExtTreeSet.ofList [i] : IdSet) ↔ _
    rw [IdSet.mem_ofList]
    simp

theorem mem_upgraders_grant : j ∈ (l.grant i kind).upgraders ↔ j ≠ i ∧ j ∈ l.upgraders := by
  cases kind <;> exact IdSet.mem_erase

theorem mode_grant : (l.grant i kind).mode = some kind.mode := by cases kind <;> rfl

@[simp] theorem waiters_grant : (l.grant i kind).waiters = l.waiters := by cases kind <;> rfl

@[simp] theorem parked_grant : (l.grant i kind).parked = l.parked := by cases kind <;> rfl

@[simp] theorem epoch_grant : (l.grant i kind).epoch = l.epoch := by cases kind <;> rfl

theorem mem_owners_release : j ∈ (l.release i).owners ↔ j ≠ i ∧ j ∈ l.owners := mem_disown

theorem mem_upgraders_release : j ∈ (l.release i).upgraders ↔ j ≠ i ∧ j ∈ l.upgraders :=
  IdSet.mem_erase

@[simp] theorem owners_abandon : (l.abandon i).owners = l.owners := by
  unfold abandon; split <;> rfl

theorem mem_upgraders_abandon : j ∈ (l.abandon i).upgraders ↔ j ≠ i ∧ j ∈ l.upgraders := by
  unfold abandon
  split
  · exact IdSet.mem_erase
  · next h => exact ⟨fun hj => ⟨fun he => h (he ▸ hj), hj⟩, And.right⟩

/-! ### Sound locks -/

/-- What holds of a lock whenever no critical section is being run on it. -/
structure Sound (l : Lock) : Prop where
  mode_eq_none : l.mode = none ↔ ∀ i, i ∉ l.owners
  exclusive : l.mode = some .exclusive → ∀ i ∈ l.owners, ∀ j ∈ l.owners, i = j
  apart : ∀ i ∈ l.owners, i ∉ l.upgraders
  /-- A waiter has been notified exactly if a new epoch has begun since it fell asleep. -/
  epoch_le : ∀ w ∈ l.waiters, w.epoch ≤ l.epoch
  notified : ∀ w ∈ l.waiters, w.isNotified = false ↔ w.epoch = l.epoch
  distinct : (l.waiters.map (·.call)).Nodup
  parked : l.parked = l.waiters.countP (!·.isNotified)
  /-- Nobody is left asleep on a free lock. -/
  free : (∀ i, i ∉ l.owners) → (∀ i, i ∉ l.upgraders) → l.parked = 0

theorem Sound.default : Sound {} where
  mode_eq_none := by simp
  exclusive := by simp
  apart := by simp
  epoch_le := by simp
  notified := by simp
  distinct := by simp
  parked := rfl
  free _ _ := rfl

namespace Sound

theorem modeOf_ne_none (h : l.Sound) (hi : i ∈ l.owners) : l.modeOf i ≠ none := by
  rw [modeOf, if_pos hi]
  exact fun hn => h.mode_eq_none.mp hn i hi

theorem waiter_eq (h : l.Sound) {v w : Waiter} (hv : v ∈ l.waiters) (hw : w ∈ l.waiters)
    (hc : v.call = w.call) : v = w :=
  List.inj_on_of_nodup_map h.distinct hv hw hc

theorem waiter?_eq_some_iff (h : l.Sound) {c : CallId} {w : Waiter} :
    l.waiter? c = some w ↔ w ∈ l.waiters ∧ w.call = c := by
  constructor
  · intro hw
    exact ⟨List.mem_of_find?_eq_some hw, by simpa using List.find?_some hw⟩
  · rintro ⟨hw, rfl⟩
    cases hf : l.waiter? w.call with
    | none => exact absurd (List.find?_eq_none.mp hf w hw) (by simp)
    | some v =>
      have hv := List.mem_of_find?_eq_some hf
      rw [h.waiter_eq hv hw (by simpa using List.find?_some hf)]

theorem notify (h : l.Sound) : l.notify.Sound where
  mode_eq_none := h.mode_eq_none
  exclusive := h.exclusive
  apart := h.apart
  epoch_le w hw := by
    obtain ⟨v, hv, rfl⟩ := List.mem_map.mp hw
    have := h.epoch_le v hv
    simp only [Lock.notify]
    omega
  notified w hw := by
    obtain ⟨v, hv, rfl⟩ := List.mem_map.mp hw
    have := h.epoch_le v hv
    simp only [Lock.notify, Bool.true_eq_false, false_iff]
    omega
  distinct := by simpa [Lock.notify, List.map_map, Function.comp_def] using h.distinct
  parked := by simp [Lock.notify, List.countP_map, Function.comp_def]
  free _ _ := rfl

/-- Taking a waiter off the list takes one off the number of parked requests exactly if it has not
been notified. -/
theorem countP_rouse (h : l.Sound) {w : Waiter} (hw : w ∈ l.waiters) :
    (l.waiters.filter (·.call ≠ w.call)).countP (!·.isNotified) =
      if w.isNotified then l.waiters.countP (!·.isNotified)
      else l.waiters.countP (!·.isNotified) - 1 := by
  have hf : l.waiters.filter (·.call ≠ w.call) = l.waiters.erase w := by
    rw [h.distinct.of_map.erase_eq_filter]
    refine List.filter_congr fun v hv => ?_
    by_cases he : v = w
    · simp [he]
    · have hc : v.call ≠ w.call := fun hc => he (h.waiter_eq hv hw hc)
      simp [he, hc]
  rw [hf, List.countP_erase]
  cases w.isNotified <;> simp [hw]

theorem rouse (h : l.Sound) {w : Waiter} (hw : w ∈ l.waiters) : (l.rouse w).Sound where
  mode_eq_none := h.mode_eq_none
  exclusive := h.exclusive
  apart := h.apart
  epoch_le v hv := h.epoch_le v (List.mem_of_mem_filter hv)
  notified v hv := h.notified v (List.mem_of_mem_filter hv)
  distinct := h.distinct.sublist (List.filter_sublist.map _)
  parked := by
    have hn := h.notified w hw
    simp only [Lock.rouse]
    rw [h.countP_rouse hw, ← h.parked]
    by_cases he : w.epoch = l.epoch
    · simp [he, hn.mpr he]
    · simp [he, show w.isNotified = true by simpa using mt hn.mp he]
  free ho hu := by
    have hp := h.free ho hu
    simp only [Lock.rouse]
    split <;> omega

theorem enter (h : l.Sound) : (l.enter i kind).Sound := by
  by_cases hk : kind = .upgrade
  swap
  · rwa [Lock.enter, if_neg hk]
  refine ⟨?_, ?_, ?_, by simpa using h.epoch_le, by simpa using h.notified,
    by simpa using h.distinct, by simpa using h.parked, ?_⟩
  · simp only [Lock.enter, hk, if_true, beginUpgrade, disown]
    split
    · next he => simpa using IdSet.isEmpty_iff.mp he
    · next he =>
      rw [IdSet.isEmpty_iff, not_forall] at he
      obtain ⟨j, hj⟩ := he
      rw [not_not] at hj
      have ho : l.mode ≠ none := fun hn => h.mode_eq_none.mp hn j (IdSet.mem_erase.mp hj).2
      exact ⟨fun hn => absurd hn ho, fun hn => absurd hj (hn j)⟩
  · intro hm a ha b hb
    have hm' : l.mode = some .exclusive := by
      simp only [Lock.enter, hk, if_true, beginUpgrade, disown] at hm
      split at hm
      · exact absurd hm (by simp)
      · exact hm
    exact h.exclusive hm' a (mem_owners_enter.mp ha).1 b (mem_owners_enter.mp hb).1
  · intro a ha hu
    obtain ⟨ha, hne⟩ := mem_owners_enter.mp ha
    rcases mem_upgraders_enter.mp hu with hu | ⟨-, hu⟩
    · exact h.apart a ha hu
    · exact hne hk hu
  · intro _ hu
    exact absurd (mem_upgraders_enter.mpr (.inr ⟨hk, rfl⟩)) (hu i)

/-- A request that cannot be granted has an owner or a pending upgrade in its way. -/
theorem occupied_of_not_grantable (h : l.Sound) (hg : l.grantable i kind = false) :
    (∃ j, j ∈ l.owners) ∨ ∃ j, j ∈ l.upgraders := by
  by_contra hn
  simp only [not_or, not_exists] at hn
  obtain ⟨ho, hu⟩ := hn
  have hall : l.grantable i kind = true := by
    cases kind with
    | shared => exact grantable_shared_iff.mpr ⟨.inl ho, hu, h.free ho hu⟩
    | exclusive => exact grantable_exclusive_iff.mpr ⟨ho, hu⟩
    | upgrade => exact grantable_upgrade_iff.mpr fun j hj => absurd hj (ho j)
  rw [hall] at hg
  exact absurd hg (by simp)

theorem park (h : l.Sound) {c : CallId} (hc : ∀ w ∈ l.waiters, w.call ≠ c)
    (ho : (∃ j, j ∈ l.owners) ∨ ∃ j, j ∈ l.upgraders) : (l.park c i kind).Sound where
  mode_eq_none := h.mode_eq_none
  exclusive := h.exclusive
  apart := h.apart
  epoch_le w hw := by
    rcases List.mem_append.mp hw with hw | hw
    · exact h.epoch_le w hw
    · rw [List.mem_singleton.mp hw]; exact Nat.le_refl _
  notified w hw := by
    rcases List.mem_append.mp hw with hw | hw
    · exact h.notified w hw
    · rw [List.mem_singleton.mp hw]; simp [Lock.park]
  distinct := by
    simp only [Lock.park, List.map_append, List.nodup_append, List.map_cons, List.map_nil,
      List.mem_singleton]
    refine ⟨h.distinct, List.nodup_singleton _, ?_⟩
    rintro a ha b rfl rfl
    obtain ⟨w, hw, hwc⟩ := List.mem_map.mp ha
    exact hc w hw hwc
  parked := by simp [Lock.park, h.parked]
  free hno hnu := by
    rcases ho with ⟨j, hj⟩ | ⟨j, hj⟩
    · exact absurd hj (hno j)
    · exact absurd hj (hnu j)

theorem grant (h : l.Sound) (hg : l.grantable i kind = true) : (l.grant i kind).Sound where
  mode_eq_none := by
    rw [mode_grant]
    exact ⟨fun hn => absurd hn (by simp),
      fun hn => absurd (mem_owners_grant.mpr (.inl rfl)) (hn i)⟩
  exclusive hm a ha b hb := by
    have hk : kind ≠ .shared := by
      rintro rfl
      exact absurd hm (by simp [mode_grant, Request.mode])
    have hself : ∀ {j}, j ∈ (l.grant i kind).owners → j = i := fun hj =>
      (mem_owners_grant.mp hj).elim id fun hs => absurd hs.1 hk
    rw [hself ha, hself hb]
  apart j hj hu := by
    obtain ⟨hne, hu'⟩ := mem_upgraders_grant.mp hu
    rcases mem_owners_grant.mp hj with rfl | ⟨rfl, hj⟩
    · exact hne rfl
    · exact (grantable_shared_iff.mp hg).2.1 j hu'
  epoch_le := by simpa using h.epoch_le
  notified := by simpa using h.notified
  distinct := by simpa using h.distinct
  parked := by simpa using h.parked
  free hn _ := absurd (mem_owners_grant.mpr (.inl rfl)) (hn i)

/-- Taking a transaction off the upgraders may leave the lock free, so the waiters are told. -/
theorem eraseUpgrader (h : l.Sound) : ({ l with upgraders := l.upgraders.erase i }.notify).Sound :=
  have hs : { l with upgraders := l.upgraders.erase i, parked := 0, waiters := [] }.Sound :=
    ⟨h.mode_eq_none, h.exclusive, fun j hj hu => h.apart j hj (IdSet.mem_erase.mp hu).2,
      by simp, by simp, by simp, rfl, fun _ _ => rfl⟩
  ⟨hs.mode_eq_none, hs.exclusive, hs.apart, h.notify.epoch_le, h.notify.notified,
    h.notify.distinct, h.notify.parked, fun _ _ => rfl⟩

theorem abandon (h : l.Sound) : (l.abandon i).Sound := by
  unfold Lock.abandon
  split
  · exact h.eraseUpgrader
  · exact h

theorem release (h : l.Sound) : (l.release i).Sound := by
  -- Giving up the hold alone is what an upgrade begins with.
  have hb : (l.enter i .upgrade).Sound := h.enter
  have he : l.release i = ({ l.enter i .upgrade with
      upgraders := (l.enter i .upgrade).upgraders.erase i }).notify := by
    simp only [Lock.release, Lock.enter, if_true, beginUpgrade]
    congr 2
    refine Std.ExtTreeSet.ext_mem fun j => ?_
    simp only [IdSet.mem_erase, IdSet.mem_insert]
    tauto
  rw [he]
  exact hb.eraseUpgrader

theorem run (h : l.Sound) (a : Attempt) (g : WaitForGraph)
    (hc : ∀ w ∈ l.waiters, w.call ≠ a.call) : (a.run l g).1.Sound := by
  unfold Attempt.run
  split
  · next hj =>
    exact h.park hc (h.occupied_of_not_grantable (Attempt.judge_eq_sleeps_iff.mp hj).2.1)
  · next hj => exact h.grant (Attempt.judge_eq_granted_iff.mp hj).2.1
  · exact h.abandon

end Sound

end Lock

end Locking
