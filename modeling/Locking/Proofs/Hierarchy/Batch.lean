import Locking.Proofs.Hierarchy.Climb

/-! Calls that lock a set of entities never deadlock.  Whatever calls go on at the same time, the
wait-for graph leads from a request to transactions that have its lock, and a transaction that waits
has only locks that come before the one it waits for.  So whoever is met along the graph has a lock
that comes after where the way began, and the way never leads back. -/

namespace Locking

open Relation

theorem Transaction.refusal?_ne_deadlock (t : Transaction) : t.refusal? ≠ some .deadlock := by
  obtain ⟨state, _, _, isInterrupted, _, _, _⟩ := t
  cases state <;> cases isInterrupted <;> simp [refusal?]

namespace System

variable {s : System} {r : TransactionRef} {name : LockName} {kind : Request} {had : Need → Prop}
  {n : Need} {rest : List Need} {e x : EntityId} {i j : TransactionId}

/-- A transaction number has the lock of an entity or of one that comes after it. -/
def HasFrom (s : System) (e : EntityId) (i : TransactionId) : Prop :=
  ∃ x : EntityId, (s.lockAt (.entity x)).modeOf i ≠ none ∧ (x = e ∨ e.Before x)

/-- All that a climbing transaction has comes before what its request asks for. -/
theorem Ahead.before (h : Ahead s r name kind had n rest)
    (hx : (s.lockAt (.entity x)).modeOf r.id ≠ none) : x.Before n.entity := by
  obtain ⟨m, hm, hname⟩ := h.ascent.owned _ hx
  exact LockName.entity.inj hname ▸ h.beyond m hm

theorem Ahead.not_hasFrom (h : Ahead s r name kind had n rest) : ¬ HasFrom s n.entity r.id := by
  rintro ⟨x, hx, rfl | hbefore⟩
  · exact EntityId.Before.irrefl _ (h.before hx)
  · exact EntityId.Before.irrefl _ (hbefore.trans (h.before hx))

/-- Who waits has come less far than the one that it waits for. -/
theorem Ahead.hasFrom (h : Ahead s r name kind had n rest) (hr : HasFrom s e r.id)
    (hj : (s.lockAt name).modeOf j ≠ none) : HasFrom s e j := by
  rw [h.entity] at hj
  obtain ⟨x, hx, rfl | hbefore⟩ := hr
  · exact ⟨n.entity, hj, .inr (h.before hx)⟩
  · exact ⟨n.entity, hj, .inr (hbefore.trans (h.before hx))⟩

/-! ### Edges of the graph -/

/-- An edge of the graph was there before an advance of a call; the call has no part in it, and the
transaction that is waited for keeps its locks. -/
structure Stays (s s' : System) (p : Stage) (i j : TransactionId) : Prop where
  before : s.graph.Waits i j
  aside : ∀ c r name kind d goal, p = .looking c r name kind d goal true → r.id ≠ i
  kept : ∀ name, (s.lockAt name).modeOf j ≠ none → (s'.lockAt name).modeOf j ≠ none

/-- An edge of the graph arises from a request that looks at a lock and falls asleep. -/
def Arises (s s' : System) (p p' : Stage) (i j : TransactionId) : Prop :=
  ∃ c r name kind d goal w, p = .looking c r name kind d goal w ∧ p'.call? = none ∧ r.id = i ∧
    j ∈ (s.lockAt name).blockers i kind ∧
      ∀ other, (s'.lockAt other).modeOf j = (s.lockAt other).modeOf j

section Edges

variable {s' : System} {p p' : Stage} {c : CallId} {d : Deadline} {goal : Goal} {w : Bool}
  {g : WaitForGraph} {state : State}

theorem Stays.still (hij : s.graph.Waits i j) (hp : p.lock? = none)
    (hkept : ∀ name, (s.lockAt name).modeOf j ≠ none → (s'.lockAt name).modeOf j ≠ none) :
    Stays s s' p i j := by
  refine ⟨hij, ?_, hkept⟩
  rintro c r name kind d goal rfl
  exact absurd hp (by simp [Stage.lock?])

theorem Stays.retired (hij : ((s.setState r state).retire r).graph.Waits i j)
    (hp : p.lock? = none) : Stays s ((s.setState r state).retire r) p i j := by
  obtain ⟨-, hj, hij⟩ := waits_retire.mp hij
  refine .still hij hp fun name hn => ?_
  rw [lockAt_retire, modeOf_releaseAll (s := s.setState r state) hj]
  exact hn

theorem Stays.released {t : TransactionId} (hij : (s.release t name).graph.Waits i j)
    (hp : p.lock? = none) : Stays s (s.release t name) p i j := by
  obtain ⟨-, hj, hij⟩ := WaitForGraph.waits_remove.mp hij
  refine .still hij hp fun other hn => ?_
  have hsame : ((s.modifyLock name (·.release t)).lockAt other).modeOf j =
      (s.lockAt other).modeOf j :=
    modeOf_modifyLock (Lock.modeOf_release.trans (if_neg hj))
  exact hsame.symm ▸ hn

/-- A request that is not asleep any more has left the graph. -/
theorem Stays.left {f : Lock → Lock} (hij : s.graph.Waits i j) (haside : w = true → r.id ≠ i)
    (hf : (s.lockAt name).modeOf j ≠ none → (f (s.lockAt name)).modeOf j ≠ none) :
    Stays s (((s.modifyLock name f).setGraph g).setWaitingOn r none)
      (.looking c r name kind d goal w) i j := by
  refine ⟨hij, fun _ _ _ _ _ _ hlook => ?_, fun other hn => ?_⟩
  · cases hlook
    exact haside rfl
  · exact rel_modifyLock (s := s) (R := fun l l' => l.modeOf j ≠ none → l'.modeOf j ≠ none)
      (fun _ => id) (fun _ => hf) other hn

theorem Ahead.waits_sleep (h : Ahead s r name kind had n rest)
    (hj : (s.attempt c r kind d w).judge ((s.lockAt name).approach r.id kind w) s.graph =
      (g, .sleeps)) (hp' : p'.call? = none) (hij : g.Waits i j) :
    let s' := ((s.modifyLock name fun l => (l.approach r.id kind w).park c r.id kind).setGraph
      g).suspend c ⟨r, .shared, .waiting name d goal⟩
    Arises s s' (.looking c r name kind d goal w) p' i j ∨
      Stays s s' (.looking c r name kind d goal w) i j := by
  intro s'
  have hsame : ∀ other, (s'.lockAt other).modeOf j = (s.lockAt other).modeOf j := fun other =>
    modeOf_modifyLock (by rw [Lock.approach_of_ne h.fresh, Lock.modeOf_park])
  rw [Lock.approach_of_ne h.fresh] at hj
  obtain ⟨-, -, -, hwait⟩ := Attempt.judge_eq_sleeps_iff.mp hj
  have hnew := (WaitForGraph.waits_of_wait_ok hwait).mp hij
  split at hnew
  · next hi =>
    subst hi
    exact .inl ⟨c, r, name, kind, d, goal, w, rfl, hp', rfl, hnew.2, hsame⟩
  · next hi =>
    refine .inr ⟨hnew, fun _ _ _ _ _ _ hlook => ?_, fun other hn => (hsame other).symm ▸ hn⟩
    cases hlook
    exact Ne.symm hi

/-- An edge of the graph arises because a request falls asleep, or it was there before. -/
theorem Advance.waits (h : Climbs s p) (ha : Advance s p s' p') (hij : s'.graph.Waits i j) :
    Arises s s' p p' i j ∨ Stays s s' p i j := by
  cases ha with
  | sleep hj =>
    obtain ⟨had, n, rest, -, hahead⟩ := h
    exact hahead.waits_sleep hj rfl hij
  | @grant c r name kind d goal w g hj =>
    obtain ⟨had, n, rest, -, hahead⟩ := h
    rw [Lock.approach_of_ne hahead.fresh] at hj
    obtain ⟨-, hg, rfl⟩ := Attempt.judge_eq_granted_iff.mp hj
    have hgrantable : (s.lockAt name).grantable r.id kind = true := hg
    obtain ⟨hold, hi⟩ := Attempt.waits_leave hij
    refine .inr (.left hold hi fun hn => ?_)
    rw [Lock.approach_of_ne hahead.fresh]
    by_cases hjr : j = r.id
    · rw [hjr, Lock.modeOf_grant_self]
      simp
    · rwa [Lock.modeOf_grant_ne hjr hgrantable]
  | @fail c r name kind d goal w g error hj =>
    obtain ⟨had, n, rest, -, hahead⟩ := h
    rw [Lock.approach_of_ne hahead.fresh] at hj
    obtain ⟨hg, hi⟩ := Attempt.waits_leave hij
    have hold : s.graph.Waits i j := Attempt.waits_of_failed hj hg
    refine .inr (.left hold hi fun hn => ?_)
    rwa [Lock.approach_of_ne hahead.fresh, Lock.modeOf_abandon]
  | giveBack => exact .inr (.released hij rfl)
  | undone | committed =>
    obtain ⟨hold, -, hkept⟩ := Stays.retired (p := idle) hij rfl
    exact .inr (.still hold rfl hkept)
  | removed =>
    rw [graph_alert] at hij
    obtain ⟨hold, -, hkept⟩ := Stays.retired (p := idle) hij rfl
    refine .inr (.still hold rfl fun name hn => ?_)
    rw [modeOf_alert]
    exact hkept name hn
  | refuse | covered | ask =>
    exact .inr (.still hij rfl fun name hn => (lockAt_addLock s _ name).symm ▸ hn)
  | _ => exact .inr (.still hij rfl fun _ => id)

end Edges

/-! ### Calls that end a transaction -/

section Endings

variable {c : CallId} {access : Access} {cause : Cause} {stores : List Store}

theorem rollBackStores_deadlock
    (h : (s.rollBackStores c r access cause stores).2 = .returned (.failed .deadlock)) :
    cause = .failure .deadlock := by
  cases stores with
  | cons => simp [rollBackStores] at h
  | nil => cases cause <;> simp_all [rollBackStores, conclusion, conclude]

theorem rollBack_deadlock (h : (s.rollBack c r access cause).2 = .returned (.failed .deadlock)) :
    cause = .failure .deadlock := by
  unfold rollBack at h
  split at h
  · exact rollBackStores_deadlock h
  · cases cause <;> simp_all [conclusion, conclude]

theorem commitStores_ne_deadlock :
    (s.commitStores c r stores).2 ≠ .returned (.failed .deadlock) := by
  cases stores <;> simp [commitStores, conclude]

theorem prepareStores_ne_deadlock :
    (s.prepareStores c r stores).2 ≠ .returned (.failed .deadlock) := by
  cases stores with
  | cons => simp [prepareStores]
  | nil => exact commitStores_ne_deadlock

theorem commit_ne_deadlock : (s.commit c r).2 ≠ .returned (.failed .deadlock) := by
  simp only [commit]
  split
  · exact fun h => absurd (rollBack_deadlock h) (by simp)
  · split
    · simp
    · split
      · exact prepareStores_ne_deadlock
      · exact commitStores_ne_deadlock

theorem remove_ne_deadlock : (s.remove c r).2 ≠ .returned (.failed .deadlock) := by
  unfold remove
  split
  · simp
  · exact fun h => absurd (rollBackStores_deadlock h) (by simp)
  · simp

theorem register_ne_deadlock {store : Store} :
    (s.register r store).2 ≠ .returned (.failed .deadlock) := by
  simp only [register]
  split
  · simp
  · split <;> simp

/-- A store's reply fails a call with a deadlock only if the call rolls back because of one. -/
theorem reply_deadlock {answer : Reply}
    (h : (s.reply c answer).2 = .returned (.failed .deadlock)) :
    ∃ r access stores, s.resumesAt c = some (.undoing c r access (.failure .deadlock) stores) := by
  unfold reply at h
  split at h
  · split at h
    · exact absurd h prepareStores_ne_deadlock
    all_goals exact absurd (rollBack_deadlock h) (by simp)
  · split at h
    · exact absurd (rollBack_deadlock h) (by simp)
    · exact absurd h commitStores_ne_deadlock
  · next r access store rest cause hk =>
    exact ⟨r, access, rest, by rw [resumesAt, hk, rollBackStores_deadlock h]⟩
  · exact absurd h (by simp)

theorem withAccess_ne_deadlock {act : System → System × Response}
    (h : (act s).2 ≠ .returned (.failed .deadlock)) :
    (s.withAccess r access act).2 ≠ .returned (.failed .deadlock) := by
  unfold withAccess
  split
  · exact h
  · simp

end Endings

end System

namespace Crowd

open Locking.System

/-- What holds of a crowd in which the transactions that have asked for locks did so once, each for
a set of entities. -/
structure Batched (asked : List TransactionRef) (k : Crowd) : Prop where
  orderly : k.Orderly
  single : ∃ n, k.system.begun = [n]
  ordered : k.system.granularity = .hierarchical ∨ k.system.granularity = .flat
  noUpgrade : NoUpgrade k.system
  climbs : ∀ c p, k.stage? c = some p → Climbs k.system p
  known : ∀ c p r, k.stage? c = some p → p.requester? = some r → r ∈ asked
  once : ∀ b c p q r, k.stage? b = some p → k.stage? c = some q → p.requester? = some r →
    q.requester? = some r → b = c
  bare : ∀ i, (⟨0, i⟩ : TransactionRef) ∉ asked → ∀ name,
    (k.system.lockAt name).modeOf i = none
  /-- An edge of the graph leads from a request that has been asleep to an owner of its lock. -/
  edge : ∀ t u, k.system.graph.Waits t u → ∃ c r name kind d goal,
    k.stage? c = some (.looking c r name kind d goal true) ∧ r.id = t ∧
      (k.system.lockAt name).modeOf u ≠ none

variable {asked : List TransactionRef} {k : Crowd} {s' : System} {p p' q : Stage} {e : Event}
  {b c : CallId} {r : TransactionRef} {access : Access} {name : LockName}

namespace Batched

theorem eq_of_id (h : Batched asked k) {t : TransactionRef} (ht : t = ⟨0, t.id⟩)
    (hr : r ∈ k.system.transactions) (hid : t.id = r.id) : t = r := by
  rw [ht, h.orderly.resting.ref_eq h.single hr, hid]

theorem eq_of_requester (h : Batched asked k) {t : TransactionRef} (hq : k.stage? b = some q)
    (ht : q.requester? = some t) : t = ⟨0, t.id⟩ :=
  h.orderly.resting.ref_eq h.single (h.orderly.mem_of_stage? hq (Stage.user?_of_requester? ht))

/-- A call that climbs shares its transaction, so that nobody else can have it for himself. -/
theorem not_admits (h : Batched asked k) (ha : k.Admits e) (hq : k.stage? b = some q)
    (hr : q.requester? = some r) (huse : e.use? = some (r, .exclusive)) :
    k.system.admits r .exclusive = false := by
  have huser := Stage.user?_of_requester? hr
  rcases Option.or_eq_some_iff.mp hq with hq | ⟨-, hq⟩
  · exact absurd (ha r .exclusive huse b q .shared hq huser) (by simp [Access.permits])
  · obtain ⟨j, hj, -, hju⟩ := h.orderly.resting.resumesAt hq
    obtain ⟨rfl, haccess⟩ := Prod.mk.inj (Option.some.inj (hju.symm.trans huser))
    cases hadmits : k.system.admits j.transaction .exclusive with
    | false => rfl
    | true =>
      have hpermits := (admits_iff.mp hadmits).2.2 b j hj rfl
      rw [haccess] at hpermits
      exact absurd hpermits (by simp [Access.permits])

/-- A request of a climbing call fails for other reasons than a deadlock. -/
theorem not_deadlock {kind : Request} {d : Deadline} {goal : Goal} {w : Bool} {g : WaitForGraph}
    {error : Error} (h : Batched asked k) (hc : k.going c = some (.looking c r name kind d goal w))
    (hj : (k.system.attempt c r kind d w).judge ((k.system.lockAt name).approach r.id kind w)
      k.system.graph = (g, .failed error)) : error ≠ .deadlock := by
  obtain ⟨had, n, rest, -, hahead⟩ := h.climbs c _ (stage?_of_going hc)
  rw [Lock.approach_of_ne hahead.fresh] at hj
  rcases Attempt.judge_eq_failed_iff.mp hj with ⟨-, rfl, -⟩ | ⟨-, -, ⟨-, rfl, -⟩ | ⟨-, hwait⟩⟩
  · simp
  · simp
  obtain ⟨-, -, u, hu, -, hpath⟩ := WaitForGraph.wait_eq_error hwait
  have hstart : HasFrom k.system n.entity u := by
    obtain ⟨-, hu | ⟨-, hu⟩⟩ := Lock.mem_blockers.mp hu
    · refine ⟨n.entity, ?_, .inl rfl⟩
      rw [← hahead.entity]
      exact (h.orderly.waiting.sound name).modeOf_ne_none hu
    · exact absurd hu (h.noUpgrade name u)
  have halong : ∀ i, ReflTransGen (k.system.graph.stopWaiting r.id).Waits u i →
      HasFrom k.system n.entity i := by
    intro i hi
    induction hi with
    | refl => exact hstart
    | @tail i j _ hij ih =>
      obtain ⟨c', r', name', kind', d', goal', hc', rfl, hj⟩ :=
        h.edge i j (WaitForGraph.waits_stopWaiting.mp hij).2
      obtain ⟨had', n', rest', -, hahead'⟩ := h.climbs c' _ hc'
      exact hahead'.hasFrom ih hj
  exact absurd (halong r.id hpath) hahead.not_hasFrom

theorem advance (h : Batched asked k) (hc : k.going c = some p) (ha : Advance k.system p s' p') :
    Batched asked (k.follow c s' p') := by
  have hp : k.stage? c = some p := stage?_of_going hc
  have ho := h.orderly.inOrder c p hc
  have hclimbs := h.climbs c p hp
  have hid : ∀ {t : TransactionRef}, t = ⟨0, t.id⟩ → ∀ r access, p.user? = some (r, access) →
      t.id = r.id → t = r := fun ht r access hu => h.eq_of_id ht (ho.user r access hu)
  exact {
    orderly := h.orderly.advance hc ha
    single := ha.begun.symm ▸ h.single
    ordered := by
      have hsettings := congrArg Prod.fst ha.settings
      exact (show s'.granularity = k.system.granularity from hsettings).symm ▸ h.ordered
    noUpgrade := h.noUpgrade.advance hclimbs ha
    climbs := by
      intro b q hq
      rcases h.orderly.stage?_follow hc ha hq with ⟨hb, hq⟩ | ⟨rfl, ⟨-, rfl⟩ | ⟨hp', hsuspends⟩⟩
      · refine (h.climbs b q hq).spared (fun r hr => ?_) fun r => ha.inactive
        refine ha.spares hclimbs (hid (h.eq_of_requester hq hr)) (fun hpr => ?_) fun c' hcommit => ?_
        · exact absurd (h.once b c q p r hq hp hr hpr) hb
        · subst hcommit
          have hpermits := h.orderly.apart_stage? hq hp hb (Stage.user?_of_requester? hr) rfl
          exact absurd hpermits (by simp [Access.permits])
      · refine hclimbs.advance ho (h.orderly.waitingAt hc) ha fun c' r goal hfailed => ?_
        subst hfailed
        cases ha with
        | @fail c' _ _ _ _ _ _ _ _ hj =>
          obtain rfl : c' = b := Option.some.inj (h.orderly.call b _ hc)
          exact h.not_deadlock hc hj rfl
      · refine (hclimbs.suspended hsuspends).spared (fun r hr => ?_) fun r => ha.inactive
        exact ha.spares hclimbs
          (hid (h.eq_of_requester hp (hsuspends.requester?.symm.trans hr))) (fun _ => hp')
          fun _ hcommit => by subst hcommit; cases hsuspends
    known := by
      intro b q r hq hr
      obtain ⟨q', hq', hr'⟩ := h.orderly.requester_follow hc ha hq hr
      exact h.known b q' r hq' hr'
    once := by
      intro a b q q' r hq hq' hr hr'
      obtain ⟨x, hx, hxr⟩ := h.orderly.requester_follow hc ha hq hr
      obtain ⟨y, hy, hyr⟩ := h.orderly.requester_follow hc ha hq' hr'
      exact h.once a b x y r hx hy hxr hyr
    bare := by
      intro i hi name
      by_cases hcommit : ∃ c r, p = .deciding c r
      · obtain ⟨c, r, rfl⟩ := hcommit
        cases ha <;> exact h.bare i hi name
      have hspares : Spares k.system s' ⟨0, i⟩ :=
        ha.spares hclimbs (hid rfl) (fun hpr => absurd (h.known c p _ hp hpr) hi) fun c hp =>
          hcommit ⟨c, _, hp⟩
      rcases hspares.locks name with hsame | ⟨hnone, -⟩
      · exact hsame.trans (h.bare i hi name)
      · exact hnone
    edge := by
      intro i j hij
      obtain ⟨c', r, name, kind, d, goal, w, rfl, hp', rfl, hj, hsame⟩ | ⟨hij, haside, hkept⟩ :=
        ha.waits hclimbs hij
      · obtain rfl : c' = c := Option.some.inj (h.orderly.call c _ hc)
        refine ⟨c', r, name, kind, d, goal, h.orderly.looking_follow hc ha hp', rfl, ?_⟩
        obtain ⟨-, howner | ⟨-, hupgrader⟩⟩ := Lock.mem_blockers.mp hj
        · exact (hsame name).symm ▸ (h.orderly.waiting.sound name).modeOf_ne_none howner
        · exact absurd hupgrader (h.noUpgrade name j)
      · obtain ⟨b, r, name, kind, d, goal, hq, rfl, hj⟩ := h.edge i j hij
        have hb : b ≠ c := by
          rintro rfl
          exact haside _ r name kind d goal (Option.some.inj (hp.symm.trans hq)) rfl
        refine ⟨b, r, name, kind, d, goal, ?_, rfl, hkept name hj⟩
        rw [h.orderly.stage?_follow_ne hc ha hb]
        exact hq }

theorem start (h : Batched asked k) (he : e.isBatched = true)
    (hnew : ∀ r, e.asker? = some r → r ∉ asked) (ha : k.Admits e) (hs : Start k.system e s' p)
    (hp : ∀ c, p.call? = some c → k.going c = none) :
    Batched (asked ++ e.asker?.toList) (k.enter s' p) := by
  have ho := h.orderly.resting
  have hresumes : ∀ c q, k.system.resumesAt c = some q → Climbs k.system q := fun c q hq =>
    h.climbs c q (h.orderly.stage?_of_resumesAt hq)
  have hrequester : ∀ {b q r}, (k.enter s' p).stage? b = some q → q.requester? = some r →
      p.call? = some b ∧ e.asker? = some r ∨
        ∃ q', k.stage? b = some q' ∧ q'.requester? = some r := by
    intro b q r hq hr
    rcases h.orderly.stage?_enter hs hq with ⟨hb, rfl⟩ | ⟨-, hq⟩
    · rcases hs.requester? (Event.usesLock_of_isBatched he) hr with
        ⟨hask, -⟩ | ⟨c, name, kind, d, d', goal, rfl, hq'⟩
      · exact .inl ⟨hb, hask⟩
      · obtain rfl : c = b := Option.some.inj hb
        exact .inr ⟨_, h.orderly.stage?_of_resumesAt hq', hr⟩
    · exact .inr ⟨q, hq, hr⟩
  have hmode := hs.modeOf_of_batched he
  exact {
    orderly := h.orderly.start ha hs
    single := hs.single h.single
    ordered := by
      have hsettings := congrArg Prod.fst hs.settings
      exact (show s'.granularity = k.system.granularity from hsettings).symm ▸ h.ordered
    noUpgrade := h.noUpgrade.start he hs
    climbs := by
      intro b q hq
      rcases h.orderly.stage?_enter hs hq with ⟨-, rfl⟩ | ⟨-, hq⟩
      · refine .start ho h.ordered he hs hresumes fun r hask hr name => h.bare r.id ?_ name
        rw [← ho.ref_eq h.single hr]
        exact hnew r hask
      · exact (h.climbs b q hq).spared
          (fun r hr => hs.spares ho he hresumes (h.not_admits ha hq hr)) fun r => hs.inactive ho
    known := by
      intro b q r hq hr
      rcases hrequester hq hr with ⟨-, hask⟩ | ⟨q', hq', hr'⟩
      · exact List.mem_append_right _ (by simp [hask])
      · exact List.mem_append_left _ (h.known b q' r hq' hr')
    once := by
      intro b c q q' r hq hq' hr hr'
      rcases hrequester hq hr with ⟨hb, hask⟩ | ⟨x, hx, hxr⟩ <;>
        rcases hrequester hq' hr' with ⟨hc, hask'⟩ | ⟨y, hy, hyr⟩
      · exact Option.some.inj (hb.symm.trans hc)
      · exact absurd (h.known c y r hy hyr) (hnew r hask)
      · exact absurd (h.known b x r hx hxr) (hnew r hask')
      · exact h.once b c x y r hx hy hxr hyr
    bare := by
      intro i hi name
      rw [show ((k.enter s' p).system.lockAt name).modeOf i = _ from hmode name i]
      exact h.bare i (fun hmem => hi (List.mem_append_left _ hmem)) name
    edge := by
      intro i j hij
      rw [show (k.enter s' p).system.graph = _ from hs.graph_of_batched he] at hij
      obtain ⟨b, r, name, kind, d, goal, hq, rfl, hj⟩ := h.edge i j hij
      obtain ⟨d', hq'⟩ := h.orderly.looking_enter hs hp hq
      exact ⟨b, r, name, kind, d', goal, hq', rfl, (hmode name j).symm ▸ hj⟩ }

theorem release (h : Batched asked k) (hne : (k.system.transactionAt r).state ≠ .active)
    (hl : name ∈ k.system.locks) : Batched asked ⟨k.system.release r.id name, k.going⟩ := by
  have hs : Start k.system (.release r.id name) (k.system.release r.id name)
    (.concluded (.returned (.ok .unit))) := .release hl
  have hr : r ∈ k.system.transactions := by
    by_contra hr
    exact hne (by rw [transactionAt_of_not_mem hr]; rfl)
  have hstage : ∀ {b q}, Crowd.stage? ⟨k.system.release r.id name, k.going⟩ b = some q →
      k.stage? b = some q := by
    intro b q hq
    rw [← enter_concluded] at hq
    exact ((h.orderly.stage?_enter hs hq).resolve_left (by simp [Stage.call?])).2
  have hreleased : ∀ other, (k.system.release r.id name).lockAt other = k.system.lockAt other ∨
      (k.system.release r.id name).lockAt other = (k.system.lockAt other).release r.id :=
    rel_modifyLock (s := k.system) (f := (Lock.release · r.id))
      (R := fun l l' => l' = l ∨ l' = l.release r.id) (fun _ => .inl rfl) (fun _ => .inr rfl)
  exact {
    orderly := h.orderly.release hl
    single := h.single
    ordered := h.ordered
    noUpgrade := fun other => NoUpgrade.lenient.start hs rfl other (h.noUpgrade other)
    climbs := fun b q hq => (h.climbs b q (hstage hq)).spared
      (fun t ht => .of_released (.refl _) hreleased hne
        (h.eq_of_id (h.eq_of_requester (hstage hq) ht) hr)) fun _ => id
    known := fun b q t hq => h.known b q t (hstage hq)
    once := fun b c q q' t hq hq' => h.once b c q q' t (hstage hq) (hstage hq')
    bare := by
      intro i hi other
      rcases hreleased other with hsame | hreleased
      · rw [hsame]
        exact h.bare i hi other
      · rw [hreleased, Lock.modeOf_release, h.bare i hi other, ite_self]
    edge := by
      intro i j hij
      obtain ⟨hij, -, hkept⟩ := Stays.released (p := idle) hij rfl
      obtain ⟨b, t, other, kind, d, goal, hq, rfl, hn⟩ := h.edge i j hij
      obtain ⟨d', hq'⟩ := h.orderly.looking_enter hs (by simp [Stage.call?]) hq
      rw [enter_concluded] at hq'
      exact ⟨b, t, other, kind, d', goal, hq', rfl, hkept other hn⟩ }

theorem number (h : Batched asked k) :
    Batched asked ⟨{ k.system with nextCall := k.system.nextCall + 1 }, k.going⟩ where
  orderly := h.orderly.number
  single := h.single
  ordered := h.ordered
  noUpgrade := h.noUpgrade
  climbs c p hp := (h.climbs c p hp).spared
    (fun _ _ => .of_modeOf (.refl _) fun _ => rfl) fun _ => id
  known := h.known
  once := h.once
  bare := h.bare
  edge := h.edge

theorem fresh {g : Granularity} (hg : g = .hierarchical ∨ g = .flat) (config lockConfig : Config) :
    Batched [] (still (System.new g [config] lockConfig)) := by
  have hstage : ∀ c, (still (System.new g [config] lockConfig)).stage? c = none := fun _ => stage?_new
  have hlock : ∀ name, (still (System.new g [config] lockConfig)).system.lockAt name = default :=
    fun name => lockAt_of_not_mem (by simp [still, System.new])
  refine ⟨.still (.new _ _ _) (.new _ _ _), ⟨0, rfl⟩, hg, fun name i => ?_, ?_, ?_, ?_,
    fun i _ name => ?_, fun i j hij => ?_⟩
  · rw [hlock]
    simp [default]
  · simp [hstage]
  · simp [hstage]
  · simp [hstage]
  · rw [hlock]
    simp [Lock.modeOf, default]
  · exact absurd hij (by simp [still, System.new, WaitForGraph.Waits, WaitForGraph.blockersOf])

/-- No call that goes on returns with a deadlock. -/
theorem not_returns (h : Batched asked k) (c : CallId) : ¬ k.Returns c (.failed .deadlock) := by
  rintro ⟨p, s, hc, ha⟩
  have hclimbs := h.climbs c p (stage?_of_going hc)
  generalize hresponse : Response.returned (.failed .deadlock) = response at ha
  cases ha with
  | failedSingle =>
    obtain ⟨⟨e, rest, hgoal⟩, -⟩ := hclimbs
    exact absurd hgoal (by simp)
  | abortEnded => exact hclimbs.2 (by simpa using hresponse.symm)
  | @undone _ _ _ cause =>
    refine hclimbs.1 ?_
    cases cause <;> simp_all [Cause.outcome]
  | _ => exact absurd hresponse (by simp)

/-- Nor does a call that nobody comes between. -/
theorem advances {s : System} {result : System × Response} (h : Batched asked (alone s p))
    (ha : Advances s p result) (hp : ∀ response, p ≠ .concluded response) :
    result.2 ≠ .returned (.failed .deadlock) := by
  induction ha with
  | concluded => exact absurd rfl (hp _)
  | @step s p s' p' result ha hrest ih =>
    obtain ⟨c, hc⟩ := ha.exists_call
    have hnext := h.advance (if_pos hc) ha
    rw [follow_alone hc ha.call?_eq] at hnext
    cases hrest with
    | @concluded _ response =>
      rintro rfl
      exact h.not_returns c ⟨p, s', if_pos hc, ha⟩
    | step ha' hrest' => exact ih hnext fun response hr => by subst hr; cases ha'

/-- No event is answered with a deadlock. -/
theorem step {s : System} (h : Batched asked (still s)) (he : e.isBatched = true)
    (hnew : ∀ r, e.asker? = some r → r ∉ asked) :
    (s.step e).2 ≠ .returned (.failed .deadlock) := by
  have ht : s.Tidy := InOrder.tidy h.orderly.resting
  have hgo : ∀ {s' p}, Start s e s' p → (∀ response, p ≠ .concluded response) →
      Advances s' p (s.step e) → (s.step e).2 ≠ .returned (.failed .deadlock) := by
    intro s' p hs hp ha
    refine (h.start he hnew (fun _ _ _ _ _ _ hc => ?_) hs fun _ _ => rfl).advances ha hp
    exact absurd hc (by simp [still])
  cases e with
  | lock | acquire | upgrade | release | unlockAll | forget | wait | stopWaiting | removeWaits =>
    exact absurd he (by simp [Event.isBatched])
  | begin m => simp only [System.step, System.begin]; split <;> simp
  | lockAll r requests =>
    by_cases ha : s.admits r .shared = true
    swap
    · simp [System.step, withAccess, ha]
    cases hr : (s.transactionAt r).refusal? with
    | some error =>
      have hne : error ≠ .deadlock := fun herror =>
        (s.transactionAt r).refusal?_ne_deadlock (herror ▸ hr)
      simpa [System.step, withAccess, ha, lockAll, hr] using hne
    | none =>
      refine hgo (.lockAll ha ?_) (by simp) ?_
      · cases hs : (s.transactionAt r).state <;> simp_all [Transaction.refusal?]
      · have htake :=
          taking_course s.nextCall r s.lockDeadline (s.granularity.needsOfAll requests) s
        rw [ht.dismiss_nextCall] at htake
        simpa only [System.step, withAccess, ha, lockAll, hr, if_true] using htake
  | register => exact withAccess_ne_deadlock register_ne_deadlock
  | commit => exact withAccess_ne_deadlock commit_ne_deadlock
  | rollback | drop =>
    exact withAccess_ne_deadlock fun h => absurd (rollBack_deadlock h) (by simp)
  | interrupt | managerInterrupt => simp only [System.step]; split <;> simp
  | pace => simp [System.step]
  | remove => exact remove_ne_deadlock
  | wake c =>
    obtain hrefused | ⟨r, name, d, goal, w, hk, hw⟩ := wake_cases ht c
    · simp [System.step, hrefused]
    · exact hgo (.wake hk hw) (by simp) (waking_course ht hk hw)
  | expire c =>
    obtain hrefused | ⟨r, name, d, goal, hk, hd⟩ := expire_cases ht c
    · simp [System.step, hrefused]
    cases hw : (s.lockAt name).waiter? c with
    | none => simp [System.step, expire_idle hk hd hw]
    | some w => exact hgo (.expire hk hd hw) (by simp) (expiring_course ht hk hd hw)
  | reply c answer =>
    intro hr
    obtain ⟨r, access, stores, hresumes⟩ := reply_deadlock hr
    exact (h.climbs c _ (h.orderly.stage?_of_resumesAt hresumes)).1 rfl

end Batched

theorem Reached.batched {g : Granularity} (hg : g = .hierarchical ∨ g = .flat)
    {config lockConfig : Config} {events : List Event}
    (hk : Reached (System.new g [config] lockConfig) events k)
    (hbatched : ∀ e ∈ events, e.isBatched = true)
    (honce : (events.filterMap Event.asker?).Nodup) :
    Batched (events.filterMap Event.asker?) k := by
  induction hk with
  | fresh => exact .fresh hg config lockConfig
  | @start events k e s p hk ha hs hp ih =>
    rw [List.filterMap_append] at honce ⊢
    have hlast : [e].filterMap Event.asker? = e.asker?.toList := by
      cases h : e.asker? <;> simp [h]
    rw [hlast] at honce ⊢
    obtain ⟨hbefore, -, hapart⟩ := List.nodup_append.mp honce
    have h := ih (fun e he => hbatched e (List.mem_append_left _ he)) hbefore
    refine h.start (hbatched e (by simp)) (fun r hask hr => ?_) ha hs hp
    exact hapart r hr r (by simp [hask]) rfl
  | advance _ hc ha ih => exact (ih hbatched honce).advance hc ha
  | release _ hne hl ih => exact (ih hbatched honce).release hne hl
  | number _ ih => exact (ih hbatched honce).number

/-- No event of a run is answered with a deadlock, if every transaction asks for locks at most once,
for a set of entities, and keeps them until it ends. -/
theorem step_never_deadlocks {g : Granularity} (hg : g = .hierarchical ∨ g = .flat)
    (config lockConfig : Config) {events : List Event} {e : Event}
    (hbatched : ∀ other ∈ events ++ [e], other.isBatched = true)
    (honce : ((events ++ [e]).filterMap Event.asker?).Nodup) :
    (((System.new g [config] lockConfig).run events).step e).2 ≠ .returned (.failed .deadlock) := by
  rw [List.filterMap_append] at honce
  obtain ⟨hbefore, -, hapart⟩ := List.nodup_append.mp honce
  have hrun : Reached (System.new g [config] lockConfig) events _ :=
    Reached.fresh.run (.new _ _ _) _
  have h := hrun.batched hg (fun e he => hbatched e (List.mem_append_left _ he)) hbefore
  refine h.step (hbatched e (by simp)) fun r hask hr => ?_
  exact hapart r hr r (by simp [hask]) rfl

/-- Calls that lock sets of entities never deadlock: whatever calls go on at the same time, none of
them returns with a deadlock, if every transaction of the one manager asks for locks at most once,
for a set of entities and without or with their containers, and keeps its locks until it ends. -/
theorem lockAll_never_deadlocks {g : Granularity} (hg : g = .hierarchical ∨ g = .flat)
    (config lockConfig : Config) {events : List Event}
    (hbatched : ∀ e ∈ events, e.isBatched = true)
    (honce : (events.filterMap Event.asker?).Nodup)
    (hk : Reached (System.new g [config] lockConfig) events k) :
    (∀ c, ¬ k.Returns c (.failed .deadlock)) ∧
      ∀ r, (k.system.transactionAt r).refusal? ≠ some .deadlock := by
  have h : Batched (events.filterMap Event.asker?) k := hk.batched hg hbatched honce
  exact ⟨h.not_returns, fun r => (k.system.transactionAt r).refusal?_ne_deadlock⟩

/-- One request is about to look again at a lock that another transaction has, while another call is
taking its locks. -/
theorem lockAll_side_by_side :
    let before : List Event := [.begin 0, .begin 0, .begin 0,
      .lockAll ⟨0, 1⟩ [⟨⟨["a"]⟩, .exclusive⟩],
      .lockAll ⟨0, 2⟩ [⟨⟨["b"]⟩, .exclusive⟩, ⟨⟨["a"]⟩, .exclusive⟩]]
    let later : List Event := [.wake 0, .lockAll ⟨0, 3⟩ [⟨⟨["b"]⟩, .exclusive⟩]]
    ∃ k, Reached (System.new .flat [{}] {}) (before ++ later) k ∧
      (k.going 0).bind Stage.lock? = some (.entity ⟨["a"]⟩) ∧
      (k.going 1).bind Stage.requester? = some ⟨0, 3⟩ ∧ ∀ c, ¬ k.Returns c (.failed .deadlock) := by
  intro before later
  let s := (System.new .flat [{}] {}).run before
  let w : Waiter := ⟨0, 2, .exclusive, 0, false⟩
  have hrun : Reached (System.new .flat [{}] {}) before (still s) :=
    Reached.fresh.run (.new _ _ _) _
  have hcall : s.calls[0]? = some ⟨⟨0, 2⟩, .shared, .waiting (.entity ⟨["a"]⟩) .never
      (.plan ⟨["a"]⟩ [⟨⟨["b"]⟩, .exclusive⟩])⟩ := by decide +kernel
  have hwaiter : (s.lockAt (.entity ⟨["a"]⟩)).waiter? 0 = some w := by decide +kernel
  have hnext : s.nextCall = 1 := by decide +kernel
  have hadmits : ((s.dismiss 0).modifyLock (.entity ⟨["a"]⟩) (·.rouse w)).admits ⟨0, 3⟩ .shared =
    true := by decide +kernel
  have hactive : (((s.dismiss 0).modifyLock (.entity ⟨["a"]⟩) (·.rouse w)).transactionAt
    ⟨0, 3⟩).state = .active := by decide +kernel
  clear_value s
  have hwake := hrun.start (e := .wake 0) (fun r access huse => absurd huse (by simp [Event.use?]))
    (.wake hcall hwaiter) fun _ _ => rfl
  have hlock := hwake.start (e := .lockAll ⟨0, 3⟩ [⟨⟨["b"]⟩, .exclusive⟩])
    (fun r access huse c p access' hc hu => by
      obtain ⟨-, rfl⟩ | ⟨-, hc⟩ := going_enter.mp hc
      · cases huse
        exact absurd hu (by simp [Stage.user?])
      · exact absurd hc (by simp [still]))
    (.lockAll hadmits hactive) (fun c hc => by
      obtain rfl : s.nextCall = c := Option.some.inj hc
      simp [enter, still, Stage.call?, hnext])
  refine ⟨_, by simpa [later] using hlock, ?_, ?_,
    (lockAll_never_deadlocks (.inr rfl) {} {} (by decide) (by decide) hlock).1⟩
  · have h0 : some s.nextCall ≠ some 0 := by simp [hnext]
    show (if some s.nextCall = some 0 then _ else _ : Option Stage).bind Stage.lock? = _
    rw [if_neg h0]
    rfl
  · have h1 : some s.nextCall = some 1 := by rw [hnext]
    show (if some s.nextCall = some 1 then _ else _ : Option Stage).bind Stage.requester? = _
    rw [if_pos h1]
    rfl

end Crowd

end Locking
