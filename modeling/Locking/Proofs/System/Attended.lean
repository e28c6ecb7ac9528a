import Locking.Proofs.System.Recorded

/-! A lock with requests asleep on it.  As long as such a request has not been notified, its
transaction waits in the graph for all that are in its way, up to one case: an upgrade may be
granted to a transaction that is no longer known to want it, but then another upgrade is pending,
and that one is notified or waits for the new owner. -/

namespace Locking.Lock

variable {l l' : Lock} {waits waits' : TransactionId → TransactionId → Prop}
  {bare bare' awake awake' : TransactionId → Prop} {i j : TransactionId} {kind : Request} {w : Bool}
  {c : CallId}

/-! ### What is known of a waiter -/

/-- Transaction `i` waits for all that are in the way of its request.  It may miss an exclusive
owner if it waits for another transaction that is about to upgrade its hold. -/
def Tracks (l : Lock) (waits : TransactionId → TransactionId → Prop) (i : TransactionId)
    (kind : Request) : Prop :=
  (∀ u ∈ l.owners, waits i u ∨
    kind ≠ .upgrade ∧ l.mode = some .exclusive ∧ ∃ v ∈ l.upgraders, v ≠ i) ∧
  (kind ≠ .upgrade → ∀ u ∈ l.upgraders, u ≠ i → waits i u)

/-- What holds of a lock and its waiters.  A transaction is `bare` if it has no lock at all, and
`awake` if it waits to upgrade this one and is about to look at it again. -/
structure Attended (l : Lock) (waits : TransactionId → TransactionId → Prop)
    (bare awake : TransactionId → Prop) : Prop where
  upgrader : ∀ i ∈ l.upgraders,
    awake i ∨ ∃ w ∈ l.waiters, w.transaction = i ∧ w.request = .upgrade
  unowned : ∀ w ∈ l.waiters, w.transaction ∉ l.owners
  /-- An upgrade is left asleep only as long as there is an owner in its way. -/
  occupied : ∀ w ∈ l.waiters, w.isNotified = false → w.request = .upgrade → ∃ i, i ∈ l.owners
  tracked : ∀ w ∈ l.waiters, w.isNotified = false →
    bare w.transaction ∨ l.Tracks waits w.transaction w.request

/-- What a lock knows of a request that is about to look at it. -/
structure Meets (l : Lock) (i : TransactionId) (kind : Request) (hasWaited : Bool) : Prop where
  holds : hasWaited = false → kind = .upgrade → i ∈ l.owners ∧ l.mode = some .shared
  lacks : hasWaited = true ∨ kind ≠ .upgrade → i ∉ l.owners

/-- A transaction is awake if it was asleep and looks at the lock again in order to upgrade. -/
def Awaits (i : TransactionId) (kind : Request) (hasWaited : Bool) (j : TransactionId) : Prop :=
  hasWaited = true ∧ kind = .upgrade ∧ j = i

theorem Sound.isNotified (h : l.Sound) (hp : l.parked = 0) {v : Waiter} (hv : v ∈ l.waiters) :
    v.isNotified = true := by
  rw [h.parked, List.countP_eq_zero] at hp
  simpa using hp v hv

/-- Once a lock has been notified, nobody sleeps on it without having been notified. -/
theorem isNotified_of_notify {v : Waiter} (hv : v ∈ l.notify.waiters) : v.isNotified = true := by
  obtain ⟨u, -, rfl⟩ := List.mem_map.mp hv
  rfl

theorem Tracks.mono (h : l.Tracks waits i kind)
    (hw : ∀ u, l.Has u → waits i u → waits' i u) : l.Tracks waits' i kind :=
  ⟨fun u hu => (h.1 u hu).imp_left (hw u (.inl hu)),
    fun hk u hu hne => hw u (.inr hu) (h.2 hk u hu hne)⟩

theorem tracks_of_blockers (hi : i ∉ l.owners) (hw : ∀ u ∈ l.blockers i kind, waits i u) :
    l.Tracks waits i kind := by
  refine ⟨fun u hu => .inl (hw u (mem_blockers.mpr ⟨?_, .inl hu⟩)),
    fun hk u hu hne => hw u (mem_blockers.mpr ⟨hne, .inr ⟨hk, hu⟩⟩)⟩
  rintro rfl
  exact hi hu

/-! ### Approaching -/

theorem approach_of_not_first (h : w = true ∨ kind ≠ .upgrade) : l.approach i kind w = l := by
  unfold approach
  rcases h with rfl | h
  · rfl
  · split
    · rfl
    · exact if_neg h

theorem mem_owners_approach (h : j ∈ (l.approach i kind w).owners) : j ∈ l.owners := by
  unfold approach at h
  split at h
  · exact h
  · exact (mem_owners_enter.mp h).1

theorem mem_upgraders_approach (h : j ∈ (l.approach i kind w).upgraders) (hj : j ≠ i) :
    j ∈ l.upgraders := by
  unfold approach at h
  split at h
  · exact h
  · exact (mem_upgraders_enter.mp h).resolve_right fun hk => hj hk.2

theorem mem_upgraders_approach_self (hw : w = false) (hk : kind = .upgrade) :
    i ∈ (l.approach i kind w).upgraders := by
  subst hw
  exact mem_upgraders_enter.mpr (.inr ⟨hk, rfl⟩)

theorem Meets.not_mem_approach (h : l.Meets i kind w) : i ∉ (l.approach i kind w).owners := by
  by_cases hf : w = true ∨ kind ≠ .upgrade
  · rw [approach_of_not_first hf]
    exact h.lacks hf
  · simp only [not_or, Bool.not_eq_true, ne_eq, not_not] at hf
    obtain ⟨rfl, rfl⟩ := hf
    exact fun hi => (mem_owners_enter.mp hi).2 rfl rfl

/-- While somebody is parked, nothing but an upgrade is granted. -/
theorem Sound.eq_upgrade (hs : l.Sound) (hp : l.parked ≠ 0)
    (hg : (l.approach i kind w).grantable i kind = true) : kind = .upgrade := by
  cases kind with
  | upgrade => rfl
  | shared =>
    rw [approach_of_not_first (.inr (by simp))] at hg
    exact absurd (grantable_shared_iff.mp hg).2.2 hp
  | exclusive =>
    rw [approach_of_not_first (.inr (by simp))] at hg
    obtain ⟨ho, hu⟩ := grantable_exclusive_iff.mp hg
    exact absurd (hs.free ho hu) hp

/-- The shared hold that an upgrade gives up was known to all that wait. -/
theorem Tracks.approach (h : l.Tracks waits j kind) {other : Request} (hm : l.Meets i other w) :
    (l.approach i other w).Tracks waits j kind := by
  by_cases hf : w = true ∨ other ≠ .upgrade
  · rwa [approach_of_not_first hf]
  simp only [not_or, Bool.not_eq_true, ne_eq, not_not] at hf
  obtain ⟨rfl, rfl⟩ := hf
  obtain ⟨hi, hshared⟩ := hm.holds rfl rfl
  have howner : ∀ u ∈ l.owners, waits j u := by
    intro u hu
    rcases h.1 u hu with hw | ⟨-, hx, -⟩
    · exact hw
    · rw [hshared] at hx
      exact absurd hx (by simp)
  refine ⟨fun u hu => .inl (howner u (mem_owners_approach hu)), fun hk u hu hne => ?_⟩
  by_cases hui : u = i
  · exact howner u (hui ▸ hi)
  · exact h.2 hk u (mem_upgraders_approach hu hui) hne

namespace Attended

/-! ### Changes that leave the lock, or tell its waiters -/

theorem mono (h : l.Attended waits bare awake)
    (hw : ∀ v ∈ l.waiters, ∀ u, l.Has u → waits v.transaction u →
      waits' v.transaction u ∨ bare' v.transaction)
    (hb : ∀ v ∈ l.waiters, bare v.transaction → bare' v.transaction)
    (ha : ∀ i ∈ l.upgraders, awake i → awake' i) : l.Attended waits' bare' awake' where
  upgrader i hi := (h.upgrader i hi).imp_left (ha i hi)
  unowned := h.unowned
  occupied := h.occupied
  tracked v hv hn := by
    by_cases hbare : bare' v.transaction
    · exact .inl hbare
    have hkeep : ∀ u, l.Has u → waits v.transaction u → waits' v.transaction u := fun u hu hwait =>
      (hw v hv u hu hwait).resolve_right hbare
    rcases h.tracked v hv hn with hv' | htracks
    · exact absurd (hb v hv hv') hbare
    · exact .inr (htracks.mono hkeep)

theorem told (h : l.Attended waits bare awake)
    (hk : l'.waiters.map Waiter.key = l.waiters.map Waiter.key)
    (hn : ∀ v ∈ l'.waiters, v.isNotified = true) (ho : ∀ i ∈ l'.owners, i ∈ l.owners)
    (hu : ∀ i ∈ l'.upgraders, i ∈ l.upgraders ∧ (awake i → awake' i)) :
    l'.Attended waits' bare' awake' where
  upgrader i hi := by
    obtain ⟨hi, ha⟩ := hu i hi
    rcases h.upgrader i hi with hawake | ⟨v, hv, rfl, hupgrade⟩
    · exact .inl (ha hawake)
    · have hmem : v.key ∈ l'.waiters.map Waiter.key := hk.symm ▸ List.mem_map_of_mem hv
      obtain ⟨v', hv', hkey⟩ := List.mem_map.mp hmem
      obtain ⟨-, ht, hr⟩ : v'.call = v.call ∧ v'.transaction = v.transaction ∧
          v'.request = v.request := by simpa [Waiter.key] using hkey
      exact .inr ⟨v', hv', ht, hr.trans hupgrade⟩
  unowned v hv := by
    have hmem : v.key ∈ l.waiters.map Waiter.key := hk ▸ List.mem_map_of_mem hv
    obtain ⟨v', hv', hkey⟩ := List.mem_map.mp hmem
    obtain ⟨-, ht, -⟩ : v'.call = v.call ∧ v'.transaction = v.transaction ∧
        v'.request = v.request := by simpa [Waiter.key] using hkey
    exact fun hi => h.unowned v' hv' (ht ▸ ho _ hi)
  occupied v hv hnot := absurd (hn v hv) (by simp [hnot])
  tracked v hv hnot := absurd (hn v hv) (by simp [hnot])

theorem notify (h : l.Attended waits bare awake) : l.notify.Attended waits' bare' awake :=
  h.told (Steady.notify l).waiters (fun _ => isNotified_of_notify) (fun _ hi => hi)
    fun _ hi => ⟨hi, id⟩

theorem release (h : l.Attended waits bare awake) (i : TransactionId) :
    (l.release i).Attended waits' bare' awake :=
  h.told (Steady.release l i).waiters (fun _ => isNotified_of_notify)
    (fun _ hj => (mem_owners_release.mp hj).2) fun _ hj => ⟨(mem_upgraders_release.mp hj).2, id⟩

/-! ### Looking -/

theorem rouse {v : Waiter} (h : l.Attended waits bare fun _ => False) (hs : l.Sound)
    (hv : v ∈ l.waiters) :
    (l.rouse v).Attended waits bare (Awaits v.transaction v.request true) where
  upgrader i hi := by
    rcases h.upgrader i hi with hno | ⟨u, hu, rfl, hupgrade⟩
    · exact hno.elim
    · by_cases hc : u.call = v.call
      · obtain rfl := hs.waiter_eq hu hv hc
        exact .inl ⟨rfl, hupgrade, rfl⟩
      · exact .inr ⟨u, List.mem_filter.mpr ⟨hu, by simpa using hc⟩, rfl, hupgrade⟩
  unowned u hu := h.unowned u (List.mem_of_mem_filter hu)
  occupied u hu := h.occupied u (List.mem_of_mem_filter hu)
  tracked u hu := h.tracked u (List.mem_of_mem_filter hu)

section Look

variable (h : l.Attended waits bare (Awaits i kind w)) (hm : l.Meets i kind w)
  (hne : ∀ v ∈ l.waiters, v.transaction ≠ i)

include h in
theorem waiter_of_upgrader (hj : j ∈ (l.approach i kind w).upgraders) (hji : j ≠ i) :
    ∃ v ∈ l.waiters, v.transaction = j ∧ v.request = .upgrade :=
  (h.upgrader j (mem_upgraders_approach hj hji)).resolve_left fun ha => hji ha.2.2

include h hm hne

/-- The request has fallen asleep, and waits for all that were in its way. -/
theorem sleep (hg : (l.approach i kind w).grantable i kind = false)
    (hw : ∀ a b, waits' a b ↔ if a = i then b ≠ i ∧ b ∈ (l.approach i kind w).blockers i kind
      else waits a b)
    (hb : ∀ j, j ≠ i → bare j → bare' j) :
    ((l.approach i kind w).park c i kind).Attended waits' bare' fun _ => False := by
  have hmem : ∀ v ∈ ((l.approach i kind w).park c i kind).waiters,
      v ∈ l.waiters ∨ v.transaction = i ∧ v.request = kind := by
    intro v hv
    rcases List.mem_append.mp hv with hv | hv
    · exact .inl (by simpa using hv)
    · rw [List.mem_singleton.mp hv]
      exact .inr ⟨rfl, rfl⟩
  have hlast : ∃ v ∈ ((l.approach i kind w).park c i kind).waiters,
      v.transaction = i ∧ v.request = kind :=
    ⟨_, List.mem_append_right _ (List.mem_singleton.mpr rfl), rfl, rfl⟩
  have hself : i ∉ (l.approach i kind w).owners := hm.not_mem_approach
  refine ⟨fun j hj => .inr ?_, fun v hv hi => ?_, fun v hv hn hk => ?_, fun v hv hn => ?_⟩
  · have hj : j ∈ (l.approach i kind w).upgraders := hj
    by_cases hji : j = i
    · subst hji
      by_cases hk : kind = .upgrade
      · obtain ⟨v, hv, ht, hr⟩ := hlast
        exact ⟨v, hv, ht, hr.trans hk⟩
      · -- Only an upgrade makes an upgrader of its transaction, and this is no upgrade.
        rw [approach_of_not_first (.inr hk)] at hj
        rcases h.upgrader j hj with hno | ⟨v, hv, ht, -⟩
        · exact absurd hno.2.1 hk
        · exact absurd ht (hne v hv)
    · obtain ⟨v, hv, ht, hr⟩ := h.waiter_of_upgrader hj hji
      exact ⟨v, List.mem_append_left _ (by simpa using hv), ht, hr⟩
  · have hi : v.transaction ∈ (l.approach i kind w).owners := hi
    rcases hmem v hv with hv | ⟨ht, -⟩
    · exact h.unowned v hv (mem_owners_approach hi)
    · exact hself (ht ▸ hi)
  · show ∃ u, u ∈ (l.approach i kind w).owners
    by_cases hupgrade : kind = .upgrade
    · subst hupgrade
      have hnot := mt grantable_upgrade_iff.mpr (Bool.eq_false_iff.mp hg)
      simp only [not_forall] at hnot
      obtain ⟨u, hu, -⟩ := hnot
      exact ⟨u, hu⟩
    · rw [approach_of_not_first (.inr hupgrade)]
      rcases hmem v hv with hv | ⟨-, hr⟩
      · exact h.occupied v hv hn hk
      · exact absurd (hr.symm.trans hk) hupgrade
  · show bare' v.transaction ∨ (l.approach i kind w).Tracks waits' v.transaction v.request
    rcases hmem v hv with hv | ⟨ht, hr⟩
    · have hvi := hne v hv
      rcases h.tracked v hv hn with hbare | htracks
      · exact .inl (hb _ hvi hbare)
      · exact .inr ((htracks.approach hm).mono fun u _ hu => (hw _ _).mpr (by rwa [if_neg hvi]))
    · rw [ht, hr]
      refine .inr (tracks_of_blockers hself fun u hu => (hw _ _).mpr ?_)
      rw [if_pos rfl]
      exact ⟨(mem_blockers.mp hu).1, hu⟩

/-- An upgrade that is granted was known to all that are left asleep: they wait for its transaction,
or for another one that is about to upgrade its hold as well. -/
theorem waits_or_other_upgrader (hs : l.Sound) (hp : l.parked ≠ 0) (hk : kind = .upgrade)
    (hg : (l.approach i kind w).grantable i kind = true)
    (hone : ∀ u ∈ l.waiters, ∀ v ∈ l.waiters, u.transaction = v.transaction → u = v)
    {v : Waiter} (hv : v ∈ l.waiters) (hn : v.isNotified = false)
    (htracks : l.Tracks waits v.transaction v.request) :
    waits v.transaction i ∨ v.request ≠ .upgrade ∧
      ∃ j ∈ (l.approach i kind w).upgraders, j ≠ i ∧ j ≠ v.transaction := by
  subst hk
  cases w with
  | false =>
    -- The shared hold that the upgrade has just given up was in the way of the waiter.
    obtain ⟨hmem, hshared⟩ := hm.holds rfl rfl
    rcases htracks.1 i hmem with hwait | ⟨-, hx, -⟩
    · exact .inl hwait
    · rw [hshared] at hx
      exact absurd hx (by simp)
  | true =>
    have hfree : ∀ j, j ∉ l.owners := fun j hj =>
      hm.not_mem_approach (grantable_upgrade_iff.mp hg j hj ▸ hj)
    have hk : v.request ≠ .upgrade := fun hk =>
      let ⟨j, hj⟩ := h.occupied v hv hn hk
      hfree j hj
    by_cases hi : i ∈ l.upgraders
    · exact .inl (htracks.2 hk i hi (hne v hv).symm)
    · -- The request is no upgrader any more, but then there is another one.
      have hother : ¬ ∀ j, j ∉ l.upgraders := fun hnone => hp (hs.free hfree hnone)
      simp only [not_forall, not_not] at hother
      obtain ⟨j, hj⟩ := hother
      have hji : j ≠ i := fun hji => hi (hji ▸ hj)
      refine .inr ⟨hk, j, hj, hji, fun hjv => ?_⟩
      obtain ⟨v', hv', ht, hr⟩ := h.waiter_of_upgrader (w := true) hj hji
      rw [hone v' hv' v hv (ht.trans hjv)] at hr
      exact hk hr

theorem grant (hs : l.Sound) (hg : (l.approach i kind w).grantable i kind = true)
    (hone : ∀ u ∈ l.waiters, ∀ v ∈ l.waiters, u.transaction = v.transaction → u = v)
    (hw : ∀ a b, a ≠ i → waits a b → waits' a b) (hb : ∀ j, j ≠ i → bare j → bare' j) :
    ((l.approach i kind w).grant i kind).Attended waits' bare' fun _ => False := by
  have hold : ∀ {j}, j ∈ ((l.approach i kind w).grant i kind).owners → j = i ∨ j ∈ l.owners :=
    fun hj => (mem_owners_grant.mp hj).imp_right fun hj => mem_owners_approach hj.2
  refine ⟨fun j hj => .inr ?_, fun v hv hi => ?_,
    fun v _ _ _ => ⟨i, mem_owners_grant.mpr (.inl rfl)⟩, fun v hmem hn => ?_⟩
  · obtain ⟨hji, hj⟩ := mem_upgraders_grant.mp hj
    obtain ⟨v, hv, hvj⟩ := h.waiter_of_upgrader hj hji
    exact ⟨v, by simpa using hv, hvj⟩
  · have hv : v ∈ l.waiters := by simpa using hv
    rcases hold hi with hvi | hvi
    · exact hne v hv hvi
    · exact h.unowned v hv hvi
  · have hv : v ∈ l.waiters := by simpa using hmem
    have hvi := hne v hv
    have hp : l.parked ≠ 0 := fun hp => absurd (hs.isNotified hp hv) (by simp [hn])
    have hupgrade := hs.eq_upgrade hp hg
    rcases h.tracked v hv hn with hbare | htracks
    · exact .inl (hb _ hvi hbare)
    obtain ⟨-, hupgrader⟩ := htracks.approach hm
    refine .inr ⟨fun u hu => ?_, fun hk u hu hne => hw _ _ hvi
      (hupgrader hk u (mem_upgraders_grant.mp hu).2 hne)⟩
    obtain rfl : u = i := (mem_owners_grant.mp hu).resolve_right fun hk =>
      absurd (hupgrade ▸ hk.1) (by simp)
    rcases h.waits_or_other_upgrader hm hne hs hp hupgrade hg hone hv hn htracks with
      hwait | ⟨hk, j, hj, hju, hjv⟩
    · exact .inl (hw _ _ hvi hwait)
    · subst hupgrade
      exact .inr ⟨hk, mode_grant, j, mem_upgraders_grant.mpr ⟨hju, hj⟩, hjv⟩

omit hm in
theorem fail (hw : ∀ a b, a ≠ i → waits a b → waits' a b) (hb : ∀ j, j ≠ i → bare j → bare' j) :
    ((l.approach i kind w).abandon i).Attended waits' bare' fun _ => False := by
  by_cases hi : i ∈ (l.approach i kind w).upgraders
  · refine h.told (((Steady.approach l i kind w).trans (.abandon _ i)).waiters) ?_ ?_ ?_
    · intro v hv
      rw [abandon, if_pos hi] at hv
      exact isNotified_of_notify hv
    · intro j hj
      rw [owners_abandon] at hj
      exact mem_owners_approach hj
    · intro j hj
      obtain ⟨hji, hj⟩ := mem_upgraders_abandon.mp hj
      exact ⟨mem_upgraders_approach hj hji, fun ha => hji ha.2.2⟩
  · have hf : w = true ∨ kind ≠ .upgrade := by
      by_contra hf
      simp only [not_or, Bool.not_eq_true, ne_eq, not_not] at hf
      exact hi (mem_upgraders_approach_self hf.1 hf.2)
    rw [abandon, if_neg hi]
    rw [approach_of_not_first hf] at hi ⊢
    refine h.mono (fun v hv u _ hwait => .inl (hw _ _ (hne v hv) hwait))
      (fun v hv => hb _ (hne v hv)) fun j hj ha => ?_
    exact hi (ha.2.2 ▸ hj)

end Look

end Attended

end Locking.Lock
