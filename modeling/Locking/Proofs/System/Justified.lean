import Locking.Proofs.System.Accounted
import Locking.Proofs.System.Life
import Locking.Proofs.System.Schedule

/-! Why transactions wait for each other while any number of calls go on side by side.  An edge of the
wait-for graph leads from a transaction whose request has looked at a lock in vain to one that has the
lock; or to one that has failed to upgrade the lock and waits for nobody itself, and then the request
has been told and is about to look again.  So a request that fails to avoid a deadlock would have closed
a cycle of transactions each of which waits for a lock that the next one has. -/

namespace Locking

open Relation

namespace Lock

variable {l : Lock} {b c : CallId} {i : TransactionId} {kind : Request}

/-- A call is not asleep on the lock without having been notified. -/
def Told (l : Lock) (c : CallId) : Prop := ∀ w ∈ l.waiters, w.call = c → w.isNotified = true

namespace Told

theorem of_waiters {l' : Lock} (h : l.Told c) (hl : ∀ w ∈ l'.waiters, w ∈ l.waiters) : l'.Told c :=
  fun w hw => h w (hl w hw)

theorem notify : l.notify.Told c := by
  intro w hw _
  obtain ⟨v, -, rfl⟩ := List.mem_map.mp hw
  rfl

theorem lenient : Lenient fun l l' => l.Told c → l'.Told c where
  refl _ := id
  trans h h' := h' ∘ h
  notify _ _ := notify
  release _ _ _ := notify

theorem park (h : l.Told c) (hb : b ≠ c) : (l.park b i kind).Told c := by
  intro w hw hc
  rcases List.mem_append.mp hw with hw | hw
  · exact h w hw hc
  · rw [List.mem_singleton.mp hw] at hc
    exact absurd hc hb

theorem abandon (h : l.Told c) : (l.abandon i).Told c := by
  unfold Lock.abandon
  split
  · exact notify
  · exact h

end Told

/-- Who loses a lock by a request that fails has given up an upgrade, and everyone is told. -/
theorem Has.abandon_self (h : l.Has i) : (l.abandon i).Has i ∨ ∀ c, (l.abandon i).Told c := by
  unfold Lock.abandon
  split
  · exact .inr fun _ => .notify
  · exact .inl h

end Lock

namespace System

variable {s s' : System} {p p' : Stage} {e : Event} {r : TransactionRef} {c : CallId}
  {name : LockName} {i j : TransactionId}

theorem Advance.told (ha : Advance s p s' p') (hc : p.call? ≠ some c)
    (h : (s.lockAt name).Told c) : (s'.lockAt name).Told c := by
  by_cases hp : p.lock? = none
  · exact Lock.Told.lenient.advance ha hp name h
  cases ha with
  | @sleep b r other kind d goal w g hj =>
    exact rel_modifyLock (s := s) (f := fun l => (l.approach r.id kind w).park b r.id kind)
      (R := fun l l' => l.Told c → l'.Told c) (fun _ => id)
      (fun _ h => Lock.Told.park (h.of_waiters fun _ hw => by rwa [Lock.waiters_approach] at hw)
        fun hb => hc (congrArg some hb)) name h
  | @grant b r other kind d goal w g hj =>
    exact rel_modifyLock (s := s) (f := fun l => (l.approach r.id kind w).grant r.id kind)
      (R := fun l l' => l.Told c → l'.Told c) (fun _ => id)
      (fun _ h => h.of_waiters fun _ hw => by
        rwa [Lock.waiters_grant, Lock.waiters_approach] at hw) name h
  | @fail b r other kind d goal w g error hj =>
    exact rel_modifyLock (s := s) (f := fun l => (l.approach r.id kind w).abandon r.id)
      (R := fun l l' => l.Told c → l'.Told c) (fun _ => id)
      (fun _ h => Lock.Told.abandon (h.of_waiters fun _ hw => by
        rwa [Lock.waiters_approach] at hw)) name h
  | _ => exact absurd rfl hp

theorem Start.told (he : e.usesLock = false) (hs : Start s e s' p) (h : (s.lockAt name).Told c) :
    (s'.lockAt name).Told c := by
  by_cases hp : p.lock? = none
  · exact Lock.Told.lenient.start hs hp name h
  cases hs with
  | acquire | upgrade => exact absurd he (by simp [Event.usesLock])
  | wake hk hw | expire hk _ hw =>
    exact rel_modifyLock (s := s) (f := (Lock.rouse · _))
      (R := fun l l' => l.Told c → l'.Told c) (fun _ => id)
      (fun _ h => h.of_waiters fun _ => List.mem_of_mem_filter) name h
  | _ => exact absurd rfl hp

/-- Somebody for whom another transaction waits keeps the lock, or has failed to upgrade it and
everyone has been told. -/
theorem Advance.has_or_told (hw : Waiting s p) (ha : Advance s p s' p')
    (hij : s'.graph.Waits i j) (hj : (s.lockAt name).Has j) :
    (s'.lockAt name).Has j ∨ p'.Fails j ∧ ∀ c, (s'.lockAt name).Told c := by
  have hretired : ∀ {r state}, ((s.setState r state).retire r).graph.Waits i j →
      (((s.setState r state).retire r).lockAt name).Has j := fun {r state} h =>
    has_releaseAll_of_has (s := s.setState r state) hj (waits_retire.mp h).2.1
  cases ha with
  | @sleep c r other kind d goal w g hjudge =>
    exact .inl (has_modifyLock_of_has hj fun h => Lock.has_park.mpr h.approach)
  | grant hjudge =>
    obtain ⟨-, hg, -⟩ := Attempt.judge_eq_granted_iff.mp hjudge
    exact .inl (has_modifyLock_of_has hj fun h => h.approach.grant hg)
  | @fail c r other kind d goal w g error hjudge =>
    by_cases hjr : j = r.id
    · subst hjr
      rcases lockAt_modifyLock_cases (hw.looked _ rfl) name
        fun l => (l.approach r.id kind w).abandon r.id with ⟨rfl, hat⟩ | ⟨-, hat⟩
      · have hhas : ((s.lockAt name).approach r.id kind w).Has r.id := hj.approach
        have hlost := hhas.abandon_self
        rw [← hat] at hlost
        exact hlost.imp_right fun htold => ⟨rfl, htold⟩
      · exact .inl (hat ▸ hj :)
    · exact .inl (has_modifyLock_of_has hj fun h => h.approach.abandon hjr)
  | @giveBack c r d e rest w hs =>
    have hne := (WaitForGraph.waits_remove.mp hij).2.1
    exact .inl (has_modifyLock_of_has (f := (Lock.release · r.id)) hj fun h =>
      Lock.has_release.mpr ⟨hne, h⟩)
  | undone | committed => exact .inl (hretired hij)
  | removed =>
    rw [graph_alert] at hij
    exact .inl (has_alert.mpr (hretired hij))
  | refuse | covered | ask => exact .inl ((lockAt_addLock s _ name).symm ▸ hj)
  | _ => exact .inl hj

/-- Whoever gives back its locks before a call goes on is no longer waited for on their account. -/
theorem Start.has (he : e.usesLock = false) (hs : Start s e s' p) (hij : s'.graph.Waits i j)
    (hj : (s.lockAt name).Has j) : (s'.lockAt name).Has j := by
  have hreleased : ∀ {r}, (s.releaseAll r).graph.Waits i j →
      ((s.releaseAll r).lockAt name).Has j := by
    intro r hij
    by_cases hl : name ∈ s.locks
    · rw [lockAt_releaseAll hl]
      split
      · next hlisted =>
        obtain ⟨a, ha, -⟩ := Transaction.mem_lockedNames.mp hlisted
        exact Lock.has_release.mpr ⟨((waits_releaseAll.mp hij).2 a ha).2, hj⟩
      · exact hj
    · rw [lockAt_of_not_mem hl] at hj
      exact absurd hj Lock.not_has_default
  cases hs with
  | acquire | upgrade | release => exact absurd he (by simp [Event.usesLock])
  | unlockAll => exact hreleased hij
  | forget => exact hreleased (WaitForGraph.waits_remove.mp hij).2.2
  | interrupt | managerInterrupt => exact has_alert.mpr hj
  | wake | expire => exact has_modifyLock_of_has hj id
  | _ => exact hj

end System

namespace Crowd

open Locking.System

/-- Locks are used through transactions only, the wait-for graph is left alone, and no transaction
asks for locks while a request of it is in progress. -/
def OneRequest (k : Crowd) : Deed → Prop
  | .event e => e.usesLock = false ∧ e.usesGraph = false ∧
      ∀ r, e.asker? = some r → ∀ c p, k.stage? c = some p → p.requester? ≠ some r
  | _ => True

/-- A request of transaction number `i` has looked at a lock in vain and has not come to its end, and
transaction number `j` owns the lock or waits to upgrade it. -/
def HeldUpBy (k : Crowd) (i j : TransactionId) : Prop :=
  ∃ c r name kind d goal, k.stage? c = some (.looking c r name kind d goal true) ∧ r.id = i ∧
    (k.system.lockAt name).Has j

/-- Transaction number `i` has failed to get a lock, or has begun to end, and asks for no lock. -/
def Fallen (k : Crowd) (i : TransactionId) : Prop :=
  ((k.system.transactionAt ⟨0, i⟩).state ≠ .active ∨ ∃ c p, k.going c = some p ∧ p.Fails i) ∧
    ∀ c p, k.stage? c = some p → p.requester? = some ⟨0, i⟩ → p.Fails i

/-- One manager whose transactions make one lock request at a time. -/
structure Single (k : Crowd) : Prop where
  accounted : k.Accounted
  one : ∀ b c p q r, k.stage? b = some p → k.stage? c = some q → p.requester? = some r →
    q.requester? = some r → b = c

/-- Each edge of the wait-for graph has a reason. -/
structure Justified (k : Crowd) : Prop where
  single : k.Single
  reason : ∀ i j, k.system.graph.Waits i j → ∃ c r name kind d goal,
    k.stage? c = some (.looking c r name kind d goal true) ∧ r.id = i ∧
      ((k.system.lockAt name).Has j ∨ k.Fallen j ∧ (k.system.lockAt name).Told c)

variable {k k' : Crowd} {s' : System} {p p' q : Stage} {e : Event} {d : Deed} {b c : CallId}
  {r : TransactionRef} {name : LockName} {i j : TransactionId} {goal : Goal}

theorem OneRequest.indirect (h : k.OneRequest d) : k.Indirect d := by
  cases d with
  | event => exact h.1
  | _ => trivial

/-- Whether a deed is one of transactions that make one lock request at a time. -/
def asksAlone (k : Crowd) : Deed → Bool
  | .event e => !e.usesLock && !e.usesGraph &&
      (List.range (k.system.nextCall + 1)).all fun c => (k.stage? c).all fun q =>
        e.asker?.all fun r => q.requester? ≠ some r
  | _ => true

theorem Orderly.oneRequest (h : k.Orderly) (hd : k.asksAlone d = true) : k.OneRequest d := by
  cases d with
  | event e =>
    simp only [asksAlone, Bool.and_eq_true, Bool.not_eq_eq_eq_not, Bool.not_true] at hd
    obtain ⟨⟨hl, hg⟩, hall⟩ := hd
    refine ⟨hl, hg, fun r hr c q hq => ?_⟩
    have hq' := List.all_eq_true.mp hall c (List.mem_range.mpr
      (Nat.lt_succ_of_le (h.le_of_stage? hq)))
    simpa [hq, hr] using hq'
  | _ => trivial

/-- A run of one request at a time is made of deeds that allow for one request at a time. -/
theorem OneRequest.still {s : System} (h : s.OneRequest e) : (still s).OneRequest (.event e) := by
  refine ⟨h.1, h.2.1, fun r hr c q hq hqr => ?_⟩
  rw [stage?_still, resumesAt] at hq
  split at hq
  · next t access name d goal hk =>
    obtain ⟨kind, -, rfl⟩ := Option.map_eq_some_iff.mp hq
    have hawake := h.2.2 r hr c _ hk (Option.some.inj hqr)
    exact absurd hawake (by simp [Point.isAsleep])
  all_goals
    cases hq
    try exact absurd hqr (by simp [Stage.requester?])

namespace Single

/-- Whoever waits has a request that has not failed. -/
theorem not_fallen (h : k.Single) (hq : k.stage? c = some q) (hr : q.requester? = some r)
    (hn : ¬ q.Fails r.id) : ¬ k.Fallen r.id := by
  intro hf
  refine hn (hf.2 c q hq ?_)
  rw [hr]
  exact congrArg some (h.accounted.ref_eq_of_requester hq hr)

/-! ### Transactions that have failed -/

theorem fallen_of_fails (h : k.Single) (hc : k.going c = some p) (hp : p.Fails i) :
    k.Fallen i := by
  refine ⟨.inr ⟨c, p, hc, hp⟩, fun b q hq hr => ?_⟩
  have hp' := stage?_of_going hc
  obtain ⟨goal, error, rfl⟩ := (h.accounted.fails_iff hp').mp hp
  obtain rfl := h.one b c q _ ⟨0, i⟩ hq hp' hr rfl
  obtain rfl := Option.some.inj (hq.symm.trans hp')
  exact hp

theorem fallen_advance (h : k.Single) (hc : k.going c = some p)
    (ha : Advance k.system p s' p') (hf : k.Fallen i) : (k.follow c s' p').Fallen i := by
  have hp := stage?_of_going hc
  have hended : (k.system.transactionAt ⟨0, i⟩).state ≠ .active →
      (s'.transactionAt ⟨0, i⟩).state ≠ .active := mt ha.active
  refine ⟨?_, fun b q hq hr => ?_⟩
  · rcases hf.1 with hne | ⟨b, q, hq, hfails⟩
    · exact .inl (hended hne)
    · by_cases hb : b = c
      · subst hb
        obtain rfl := Option.some.inj (hq.symm.trans hc)
        exact .inl (h.accounted.ne_active_of_fails hc hfails ha)
      · exact .inr ⟨b, q, going_follow.mpr (.inr ⟨hb, hq⟩), hfails⟩
  · rcases h.accounted.orderly.stage?_follow hc ha hq with ⟨-, hq⟩ | ⟨rfl, ⟨-, rfl⟩ | ⟨-, hsuspends⟩⟩
    · exact hf.2 b q hq hr
    · -- A request that has failed is no request any more once the call goes on.
      obtain ⟨goal, error, rfl⟩ := (h.accounted.fails_iff hp).mp (hf.2 b p hp (ha.requester? hr))
      cases ha <;> exact absurd hr (by simp [Stage.requester?])
    · have hfails := hf.2 b p hp (hsuspends.requester?.symm.trans hr)
      cases hsuspends <;> exact hfails.elim

theorem fallen_start (h : k.Single) (he : k.OneRequest (.event e)) (hs : Start k.system e s' p)
    (hp : ∀ c, p.call? = some c → k.going c = none) (hf : k.Fallen i) :
    (k.enter s' p).Fallen i := by
  have ho := h.accounted.orderly.resting
  refine ⟨?_, fun b q hq hr => ?_⟩
  · rcases hf.1 with hne | ⟨b, q, hq, hfails⟩
    · exact .inl ((State.Turns.begins (hs.begins ho ⟨0, i⟩)).ne_active hne)
    · refine .inr ⟨b, q, going_enter.mpr (.inr ⟨fun hb => ?_, hq⟩), hfails⟩
      exact absurd (hq.symm.trans (hp b hb)) (by simp)
  · rcases h.accounted.orderly.stage?_enter hs hq with ⟨-, rfl⟩ | ⟨-, hq⟩
    · rcases hs.requester? he.1 hr with ⟨hasks, -, hactive, -⟩ |
        ⟨c, _, _, _, _, _, rfl, hresumes⟩
      · rcases hf.1 with hne | ⟨b, q, hq, hfails⟩
        · exact absurd hactive hne
        · obtain ⟨goal, error, rfl⟩ := (h.accounted.fails_iff (stage?_of_going hq)).mp hfails
          exact absurd rfl (he.2.2 _ hasks b _ (stage?_of_going hq))
      · exact (hf.2 c _ (h.accounted.orderly.stage?_of_resumesAt hresumes) hr).elim
    · exact hf.2 b q hq hr

/-! ### One request at a time -/

theorem advance (h : k.Single) (hc : k.going c = some p) (ha : Advance k.system p s' p') :
    (k.follow c s' p').Single := by
  refine ⟨h.accounted.advance hc ha, fun b b' q q' r hq hq' hr hr' => ?_⟩
  obtain ⟨x, hx, hxr⟩ := h.accounted.orderly.requester_follow hc ha hq hr
  obtain ⟨y, hy, hyr⟩ := h.accounted.orderly.requester_follow hc ha hq' hr'
  exact h.one b b' x y r hx hy hxr hyr

theorem start (h : k.Single) (he : k.OneRequest (.event e)) (ha : k.Admits e)
    (hs : Start k.system e s' p) (hp : ∀ c, p.call? = some c → k.going c = none) :
    (k.enter s' p).Single := by
  have ho := h.accounted.orderly
  -- A request that goes on is a new one, and then the only one, or it was there before.
  have hfrom : ∀ {b q r}, (k.enter s' p).stage? b = some q → q.requester? = some r →
      (∃ q', k.stage? b = some q' ∧ q'.requester? = some r) ∨
        p.call? = some b ∧ ∀ c q', k.stage? c = some q' → q'.requester? ≠ some r := by
    intro b q r hq hr
    rcases ho.stage?_enter hs hq with ⟨hb, rfl⟩ | ⟨-, hq⟩
    · rcases hs.requester? he.1 hr with ⟨hasks, -⟩ | ⟨c, _, _, _, _, _, rfl, hresumes⟩
      · exact .inr ⟨hb, he.2.2 r hasks⟩
      · obtain rfl : c = b := Option.some.inj hb
        exact .inl ⟨_, ho.stage?_of_resumesAt hresumes, hr⟩
    · exact .inl ⟨q, hq, hr⟩
  refine ⟨h.accounted.start he.1 ha hs hp, fun b c q q' r hq hq' hr hr' => ?_⟩
  rcases hfrom hq hr with ⟨x, hx, hxr⟩ | ⟨hb, hnone⟩ <;>
    rcases hfrom hq' hr' with ⟨y, hy, hyr⟩ | ⟨hc, hnone'⟩
  · exact h.one b c x y r hx hy hxr hyr
  · exact absurd hxr (hnone' b x hx)
  · exact absurd hyr (hnone c y hy)
  · exact Option.some.inj (hb.symm.trans hc)

theorem release (h : k.Single) (hl : name ∈ k.system.locks) :
    Single ⟨k.system.release r.id name, k.going⟩ := by
  refine ⟨h.accounted.release hl, fun b c p q t hp hq => ?_⟩
  exact h.one b c p q t (stage?_release.symm.trans hp) (stage?_release.symm.trans hq)

end Single

namespace Justified

theorem orderly (h : k.Justified) : k.Orderly := h.single.accounted.orderly

/-! ### What deeds preserve -/

theorem advance (h : k.Justified) (hc : k.going c = some p) (ha : Advance k.system p s' p') :
    (k.follow c s' p').Justified := by
  have ho := h.orderly
  have hsingle := h.single.advance hc ha
  refine ⟨hsingle, fun i j hij => ?_⟩
  rcases ha.waits_or_blocked hij with
    ⟨hold, hrises⟩ | ⟨b, r, name, kind, d, goal, w, rfl, hp', hr, -, hblocks⟩
  · obtain ⟨b, r, name, kind, d, goal, hb, hr, hreason⟩ := h.reason i j hold
    have hbc : b ≠ c := by
      rintro rfl
      obtain rfl := Option.some.inj ((stage?_of_going hc).symm.trans hb)
      exact hrises ⟨rfl, hr⟩
    refine ⟨b, r, name, kind, d, goal, (ho.stage?_follow_ne hc ha hbc).trans hb, hr, ?_⟩
    rcases hreason with hhas | ⟨hfallen, htold⟩
    · refine (ha.has_or_told (ho.waitingAt hc) hij hhas).imp_right fun ⟨hfails, htold⟩ => ?_
      have hgoing : (k.follow c s' p').going c = some p' :=
        going_follow.mpr (.inl ⟨rfl, hfails.call?_ne_none, rfl⟩)
      exact ⟨hsingle.fallen_of_fails hgoing hfails, htold b⟩
    · refine .inr ⟨h.single.fallen_advance hc ha hfallen, ha.told ?_ htold⟩
      rw [ho.call c p hc]
      exact fun heq => hbc (Option.some.inj heq).symm
  · obtain rfl : b = c := Option.some.inj (ho.call c _ hc)
    refine ⟨b, r, name, kind, d, goal, ho.looking_follow hc ha hp', hr, .inl ?_⟩
    have hhas := (Lock.has_of_mem_blockers hblocks).2
    exact (ha.has_or_told (ho.waitingAt hc) hij hhas).resolve_right fun hlost =>
      hlost.1.call?_ne_none hp'

theorem start (h : k.Justified) (he : k.OneRequest (.event e)) (ha : k.Admits e)
    (hs : Start k.system e s' p) (hp : ∀ c, p.call? = some c → k.going c = none) :
    (k.enter s' p).Justified := by
  refine ⟨h.single.start he ha hs hp, fun i j hij => ?_⟩
  obtain ⟨b, r, name, kind, d, goal, hb, hr, hreason⟩ := h.reason i j (hs.waits he.2.1 hij)
  obtain ⟨d', hb'⟩ := h.orderly.looking_enter hs hp hb
  refine ⟨b, r, name, kind, d', goal, hb', hr, hreason.imp (hs.has he.1 hij) ?_⟩
  exact fun ⟨hfallen, htold⟩ => ⟨h.single.fallen_start he hs hp hfallen, hs.told he.1 htold⟩

theorem release (h : k.Justified) (hl : name ∈ k.system.locks) :
    Justified ⟨k.system.release r.id name, k.going⟩ := by
  have hstage : ∀ {b}, Crowd.stage? ⟨k.system.release r.id name, k.going⟩ b = k.stage? b :=
    stage?_release
  refine ⟨h.single.release hl, fun i j hij => ?_⟩
  obtain ⟨-, hj, hold⟩ := WaitForGraph.waits_remove.mp hij
  obtain ⟨b, t, other, kind, d, goal, hb, hr, hreason⟩ := h.reason i j hold
  refine ⟨b, t, other, kind, d, goal, hstage.trans hb, hr, hreason.imp (fun hhas => ?_) ?_⟩
  · exact has_modifyLock_of_has (f := (Lock.release · r.id)) hhas fun h =>
      Lock.has_release.mpr ⟨hj, h⟩
  · rintro ⟨⟨hends, hasks⟩, htold⟩
    refine ⟨⟨hends, fun c p hp => hasks c p (hstage.symm.trans hp)⟩, ?_⟩
    exact Lock.Told.lenient.modifyLock (f := (Lock.release · r.id))
      (fun _ => Lock.Told.lenient.release _ _) other htold

theorem step (h : k.Justified) (hd : k.OneRequest d) (hs : k.Step d k') : k'.Justified := by
  cases hs with
  | event ha hs hp => exact h.start hd ha hs hp
  | advance hc ha => exact h.advance hc ha
  | release _ hl => exact h.release hl
  | number => exact ⟨⟨h.single.accounted.step (d := .number) trivial .number, h.single.one⟩, h.reason⟩

theorem leads (h : k.Justified) (hk : Leads OneRequest k k') : k'.Justified :=
  hk.preserve h fun h hd hs => h.step hd hs

theorem fresh (g : Granularity) (config lockConfig : Config) :
    (Crowd.still (System.new g [config] lockConfig)).Justified := by
  refine ⟨⟨.fresh g config lockConfig, ?_⟩, fun i j hij => absurd hij.mem (by simp)⟩
  simp [stage?_new]

/-- A schedule that comes after a run, with one request at a time in both of them. -/
theorem leads_of_runs {g : Granularity} {config lockConfig : Config} {events : List Event}
    {deeds : List Deed} (ho : System.Obeys System.OneRequest (System.new g [config] lockConfig) events)
    (hk : (still ((System.new g [config] lockConfig).run events)).runs? asksAlone deeds = some k) :
    Leads OneRequest (still (System.new g [config] lockConfig)) k := by
  have hs : Leads OneRequest (still (System.new g [config] lockConfig))
      (still ((System.new g [config] lockConfig).run events)) :=
    .run (fun _ _ => trivial) OneRequest.still (.new _ _ _) ho .refl
  exact hs.runs (fun h => h.oneRequest) ((fresh g config lockConfig).leads hs).orderly hk

/-! ### No false deadlock -/

/-- While a transaction looks at a lock, a way in the wait-for graph that leads to it without coming
from it is a chain of transactions that hold each other up. -/
theorem heldUp (h : k.Justified) (hq : k.stage? c = some q) (hr : q.requester? = some r)
    (hn : ¬ q.Fails r.id) {u : TransactionId} (hu : u ≠ r.id)
    (hpath : ReflTransGen (k.system.graph.stopWaiting r.id).Waits u r.id) :
    TransGen k.HeldUpBy u r.id := by
  have hedge : ∀ {i j}, (k.system.graph.stopWaiting r.id).Waits i j → ¬ k.Fallen j →
      k.HeldUpBy i j := by
    intro i j hij hj
    obtain ⟨b, t, name, kind, d, goal, hb, ht, hreason⟩ :=
      h.reason i j (WaitForGraph.waits_stopWaiting.mp hij).2
    exact ⟨b, t, name, kind, d, goal, hb, ht, hreason.resolve_right fun hf => hj hf.1⟩
  have hwaits : ∀ {i j}, (k.system.graph.stopWaiting r.id).Waits i j → ¬ k.Fallen i := by
    intro i j hij
    obtain ⟨b, t, name, kind, d, goal, hb, rfl, -⟩ :=
      h.reason i j (WaitForGraph.waits_stopWaiting.mp hij).2
    exact h.single.not_fallen hb rfl id
  induction hpath using ReflTransGen.head_induction_on with
  | refl => exact absurd rfl hu
  | @head i j hij hpath ih =>
    by_cases hj : j = r.id
    · subst hj
      exact .single (hedge hij (h.single.not_fallen hq hr hn))
    · obtain ⟨m, hjm, -⟩ := (ReflTransGen.cases_head hpath).resolve_left hj
      exact .head (hedge hij (hwaits hjm)) (ih hj)

theorem cycle_of_deadlock (h : k.Justified) (hc : k.going c = some p)
    (ha : Advance k.system p s' (.failed b r goal .deadlock)) : ∃ name kind d w u,
      p = .looking b r name kind d goal w ∧ u ≠ r.id ∧ (k.system.lockAt name).Has u ∧
        TransGen k.HeldUpBy u r.id := by
  cases ha with
  | @fail c r name kind d goal w g _ hj =>
    rcases Attempt.judge_eq_failed_iff.mp hj with ⟨-, he, -⟩ | ⟨-, -, ⟨-, he, -⟩ | ⟨-, hwait⟩⟩
    · exact absurd he (by simp)
    · exact absurd he (by simp)
    obtain ⟨-, -, u, hu, hne, hpath⟩ := WaitForGraph.wait_eq_error hwait
    exact ⟨name, kind, d, w, u, rfl, hne, (Lock.has_of_mem_blockers hu).2,
      h.heldUp (stage?_of_going hc) rfl id hne hpath⟩

end Justified

/-- No false deadlock: whatever the calls do that go on side by side for the transactions of one
manager, if locks are used through transactions only and no transaction makes two lock requests at a
time, then a request that fails to avoid a deadlock fails on looking at a lock that another transaction
owns or waits to upgrade.  From that one a chain of transactions leads back to the transaction of the
request, each of which has looked at a lock in vain, has not been answered yet, and is held up there by
the next one, which owns the lock or waits to upgrade it. -/
theorem no_false_deadlock (g : Granularity) (config lockConfig : Config)
    (hk : Leads OneRequest (still (System.new g [config] lockConfig)) k) (hc : k.going c = some p)
    (ha : Advance k.system p s' (.failed b r goal .deadlock)) : ∃ name kind d w u,
      p = .looking b r name kind d goal w ∧ u ≠ r.id ∧ (k.system.lockAt name).Has u ∧
        TransGen k.HeldUpBy u r.id :=
  ((Justified.fresh g config lockConfig).leads hk).cycle_of_deadlock hc ha

/-- A transaction is granted the first of two locks, and then another one that has the second of them
asks for the first and falls asleep.  The first one fails on looking at its second lock. -/
theorem deadlock_within_batch :
    let fresh := System.new .flat [{}] {}
    let s := fresh.run [.begin 0, .begin 0, .lock ⟨0, 2⟩ ⟨["b"]⟩ .exclusive]
    let schedule : List Deed := [
      .event (.lockAll ⟨0, 1⟩ [⟨⟨["a"]⟩, .exclusive⟩, ⟨⟨["b"]⟩, .exclusive⟩]),
      .advance 0, .advance 0, .advance 0, .number,
      .event (.lock ⟨0, 2⟩ ⟨["a"]⟩ .exclusive), .advance 1, .advance 1, .advance 0]
    ∃ k ∈ (still s).runs? asksAlone schedule, Leads OneRequest (still fresh) k ∧ ∃ p s' goal,
      k.going 0 = some p ∧ Advance k.system p s' (.failed 0 ⟨0, 1⟩ goal .deadlock) ∧
        ∃ name u, u ≠ 1 ∧ (k.system.lockAt name).Has u ∧ TransGen k.HeldUpBy u 1 := by
  intro fresh s schedule
  let goal : Goal := .plan ⟨["b"]⟩ []
  let p : Stage := .looking 0 ⟨0, 1⟩ (.entity ⟨["b"]⟩) .exclusive .never goal false
  obtain ⟨k, hrun, hp, hfails⟩ : ∃ k ∈ (still s).runs? asksAlone schedule,
      k.going 0 = some p ∧ (k.system.next p).2 = .failed 0 ⟨0, 1⟩ goal .deadlock := by
    decide +kernel
  have hk : Leads OneRequest (still fresh) k := Justified.leads_of_runs (by decide +kernel) hrun
  have ha : Advance k.system p (k.system.next p).1 (.failed 0 ⟨0, 1⟩ goal .deadlock) :=
    hfails ▸ advance_next rfl
  obtain ⟨name, _, _, _, u, -, hne, hhas, hchain⟩ := no_false_deadlock .flat {} {} hk hp ha
  exact ⟨k, hrun, hk, p, _, goal, hp, ha, name, u, hne, hhas, hchain⟩

end Crowd

end Locking
