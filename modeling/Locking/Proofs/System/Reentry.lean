import Locking.Proofs.System.Possession
import Locking.Proofs.System.Deadlock
import Locking.Proofs.Lock.Sole

/-! Requests of one transaction that meet at a lock.  Whether a transaction holds enough of a lock
already is decided when it asks for the lock, and not again when its request wakes up.  So if it is
granted a lock on which another request of it is asleep, that one may wait for ever for the
transaction itself.  It does not happen as long as no transaction asks for a lock on which another
request of it is asleep. -/

namespace Locking

/-- A change of a lock with which no request falls asleep, none wakes up and nobody becomes an
owner. -/
structure Lock.Shrinks (l l' : Lock) : Prop where
  steady : l.Steady l'
  owners : ∀ i ∈ l'.owners, i ∈ l.owners

namespace Lock.Shrinks

variable {l l' l'' : Lock} {i : TransactionId} {kind : Request} {w : Bool}

theorem refl (l : Lock) : l.Shrinks l := ⟨.refl l, fun _ => id⟩

theorem trans (h : l.Shrinks l') (h' : l'.Shrinks l'') : l.Shrinks l'' :=
  ⟨h.steady.trans h'.steady, fun i hi => h.owners i (h'.owners i hi)⟩

theorem lenient : Lenient Lock.Shrinks :=
  ⟨refl, trans, fun l => ⟨.notify l, fun _ => id⟩,
    fun l i => ⟨.release l i, fun _ hj => (mem_owners_release.mp hj).2⟩⟩

theorem approach (l : Lock) (i : TransactionId) (kind : Request) (w : Bool) :
    l.Shrinks (l.approach i kind w) :=
  ⟨.approach l i kind w, fun _ => mem_owners_approach⟩

theorem abandon (l : Lock) (i : TransactionId) : l.Shrinks (l.abandon i) :=
  ⟨.abandon l i, fun _ hj => owners_abandon (l := l) ▸ hj⟩

end Lock.Shrinks

/-- A transaction has no hold of a lock when it is about to wait for what it has asked for. -/
theorem Lock.Sound.not_mem_approach {l : Lock} {i : TransactionId} {mode : LockMode}
    {kind : Request} (h : l.Sound) (hk : Request.of? (l.modeOf i) mode = some kind) :
    i ∉ (l.approach i kind false).owners := by
  intro hi
  obtain ⟨hown, hne⟩ := mem_owners_enter.mp hi
  exact h.modeOf_ne_none hown (Request.held_eq_none hk fun hup => hne hup rfl)

/-- The locks that a list of needs names, for a transaction. -/
def Need.locksFor (r : TransactionRef) (needs : List Need) : List (TransactionRef × LockName) :=
  needs.map fun n => (r, .entity n.entity)

/-- The locks that a call that goes on asks for, or may come to ask for. -/
def Stage.wants : Stage → List (TransactionRef × LockName)
  | taking _ r _ needs => Need.locksFor r needs
  | looking _ r name _ _ goal _ => (r, name) :: Need.locksFor r goal.rest
  | granted _ r _ goal _ => Need.locksFor r goal.rest
  | _ => []

namespace System

/-- The locks that an event lets a call ask for, at once or when it has got the ones before. -/
def wants (s : System) : Event → List (TransactionRef × LockName)
  | .lock r e mode => Need.locksFor r (s.granularity.needs e mode)
  | .lockAll r requests => Need.locksFor r (s.granularity.needsOfAll requests)
  | .acquire r name _ _ | .upgrade r name _ => [(r, name)]
  | .wake c | .expire c =>
    match s.calls[c]? with
    | some ⟨r, _, .waiting _ _ goal⟩ => Need.locksFor r goal.rest
    | _ => []
  | _ => []

/-- No transaction asks for a lock on which another request of it is asleep. -/
def Apart (s : System) (e : Event) : Prop :=
  ∀ (c : CallId) (k : Call), s.calls[c]? = some k → e.resumes c = false →
    ∀ sleep ∈ k.point.sleep?, (k.transaction, sleep.1) ∉ s.wants e

instance (s : System) (e : Event) : Decidable (s.Apart e) :=
  decidable_of_iff (∀ entry ∈ s.calls.toList, e.resumes entry.1 = false →
    ∀ sleep ∈ entry.2.point.sleep?, (entry.2.transaction, sleep.1) ∉ s.wants e) <| by
    simp only [Apart, Prod.forall, Std.ExtTreeMap.mem_toList_iff_getElem?_eq_some]

/-- What holds of the waiters as long as no two requests of a transaction meet at a lock. -/
structure Unmet (s : System) (p : Stage) : Prop where
  single : ∃ n, s.begun = [n]
  alone : ∀ name, ∀ v ∈ (s.lockAt name).waiters, ∀ w ∈ (s.lockAt name).waiters,
    v.transaction = w.transaction → v.call = w.call
  absent : ∀ name, ∀ w ∈ (s.lockAt name).waiters, w.transaction ∉ (s.lockAt name).owners
  aside : ∀ r name, (r, name) ∈ p.wants → ∀ w ∈ (s.lockAt name).waiters, w.transaction ≠ r.id
  ready : ∀ c r name kind d goal w, p = .looking c r name kind d goal w →
    r.id ∉ ((s.lockAt name).approach r.id kind w).owners

variable {s s' : System} {p p' : Stage} {e : Event} {r : TransactionRef} {c : CallId}
  {name other : LockName} {kind : Request} {d : Deadline} {goal : Goal} {w : Bool}

namespace Unmet

theorem frame (h : Unmet s p) (hl : ∀ name, (s.lockAt name).Shrinks (s'.lockAt name))
    (hb : s'.begun = s.begun) (hp : ∀ x ∈ p'.wants, x ∈ p.wants)
    (hready : ∀ c r name kind d goal w, p' = .looking c r name kind d goal w →
      r.id ∉ ((s'.lockAt name).approach r.id kind w).owners) : Unmet s' p' := by
  have hkept : ∀ {name}, ∀ w ∈ (s'.lockAt name).waiters, ∃ v ∈ (s.lockAt name).waiters,
      v.call = w.call ∧ v.transaction = w.transaction := by
    intro name w hw
    obtain ⟨v, hv, hkey⟩ := (hl name).steady.mem_waiters hw
    obtain ⟨hcall, htransaction, -⟩ : v.call = w.call ∧ v.transaction = w.transaction ∧
        v.request = w.request := by simpa [Waiter.key] using hkey
    exact ⟨v, hv, hcall, htransaction⟩
  refine ⟨hb ▸ h.single, fun name v hv w hw hvw => ?_, fun name w hw ho => ?_,
    fun r name hx w hw => ?_, hready⟩
  · obtain ⟨v', hv', hcall, ht⟩ := hkept v hv
    obtain ⟨w', hw', hcall', ht'⟩ := hkept w hw
    rw [← hcall, ← hcall']
    exact h.alone name v' hv' w' hw' (by rw [ht, ht', hvw])
  · obtain ⟨v, hv, -, ht⟩ := hkept w hw
    exact h.absent name v hv (ht ▸ (hl name).owners _ ho)
  · obtain ⟨v, hv, -, ht⟩ := hkept w hw
    exact ht ▸ h.aside r name (hp _ hx) v hv

/-- The request falls asleep on a lock of which its transaction has no hold. -/
theorem sleep {g : WaitForGraph} (h : Unmet s (.looking c r name kind d goal w))
    (hl : name ∈ s.locks) :
    Unmet (((s.modifyLock name fun l => (l.approach r.id kind w).park c r.id kind).setGraph
      g).suspend c ⟨r, .shared, .waiting name d goal⟩) (.concluded (.asleep c)) := by
  have haside := h.aside r name (List.mem_cons_self ..)
  have hready := h.ready c r name kind d goal w rfl
  have hself : (s.modifyLock name fun l => (l.approach r.id kind w).park c r.id kind).lockAt name =
      ((s.lockAt name).approach r.id kind w).park c r.id kind := lockAt_modifyLock_self hl
  have hother : ∀ {other}, other ≠ name →
      (s.modifyLock name fun l => (l.approach r.id kind w).park c r.id kind).lockAt other =
        s.lockAt other := lockAt_modifyLock_ne
  have hcase : ∀ {v : Waiter},
      v ∈ (((s.lockAt name).approach r.id kind w).park c r.id kind).waiters →
        v ∈ (s.lockAt name).waiters ∨ v.call = c ∧ v.transaction = r.id := by
    intro v hv
    rcases List.mem_append.mp hv with hv | hv
    · exact .inl (by simpa using hv)
    · rw [List.mem_singleton.mp hv]
      exact .inr ⟨rfl, rfl⟩
  refine ⟨h.single, fun other u hu v hv huv => ?_, fun other v hv ho => ?_, by simp [Stage.wants],
    by simp⟩
  · by_cases hn : other = name
    · subst hn
      rcases hcase (hself ▸ hu) with hu | ⟨hu, hui⟩ <;>
        rcases hcase (hself ▸ hv) with hv | ⟨hv, hvi⟩
      · exact h.alone other u hu v hv huv
      · exact absurd (huv.trans hvi) (haside u hu)
      · exact absurd (huv.symm.trans hui) (haside v hv)
      · exact hu.trans hv.symm
    · exact h.alone other u (hother hn ▸ hu) v (hother hn ▸ hv) huv
  · by_cases hn : other = name
    · subst hn
      have hbefore : v.transaction ∈
          (((s.lockAt other).approach r.id kind w).park c r.id kind).owners := hself ▸ ho
      rcases hcase (hself ▸ hv) with hv | ⟨-, hvi⟩
      · exact h.absent other v hv (Lock.mem_owners_approach hbefore)
      · exact hready (hvi ▸ hbefore)
    · exact h.absent other v (hother hn ▸ hv) (hother hn ▸ ho)

/-- The lock is granted to a transaction that has no other request asleep on it. -/
theorem grant {g : WaitForGraph} (h : Unmet s (.looking c r name kind d goal w))
    (hl : name ∈ s.locks) :
    Unmet (((s.modifyLock name fun l => (l.approach r.id kind w).grant r.id kind).setGraph
      g).setWaitingOn r none) (.granted c r d goal w) := by
  have hself : (s.modifyLock name fun l => (l.approach r.id kind w).grant r.id kind).lockAt name =
      ((s.lockAt name).approach r.id kind w).grant r.id kind := lockAt_modifyLock_self hl
  have hother : ∀ {other}, other ≠ name →
      (s.modifyLock name fun l => (l.approach r.id kind w).grant r.id kind).lockAt other =
        s.lockAt other := lockAt_modifyLock_ne
  have hwaiters : ∀ other, ((s.modifyLock name fun l =>
      (l.approach r.id kind w).grant r.id kind).lockAt other).waiters =
        (s.lockAt other).waiters := by
    intro other
    by_cases hn : other = name
    · subst hn
      rw [hself, Lock.waiters_grant, Lock.waiters_approach]
    · rw [hother hn]
  refine ⟨h.single, fun other u hu v hv => ?_, fun other v hv ho => ?_, fun q other hx v hv => ?_,
    by simp⟩
  · exact h.alone other u (hwaiters other ▸ hu) v (hwaiters other ▸ hv)
  · have hold : v ∈ (s.lockAt other).waiters := hwaiters other ▸ hv
    by_cases hn : other = name
    · subst hn
      have hgranted : v.transaction ∈
          (((s.lockAt other).approach r.id kind w).grant r.id kind).owners := hself ▸ ho
      rcases Lock.mem_owners_grant.mp hgranted with hid | ⟨-, hbefore⟩
      · exact h.aside r other (List.mem_cons_self ..) v hold hid
      · exact h.absent other v hold (Lock.mem_owners_approach hbefore)
    · exact h.absent other v hold (hother hn ▸ ho)
  · exact h.aside q other (List.mem_cons_of_mem _ hx) v (hwaiters other ▸ hv)

theorem advance (h : Unmet s p) (hw : Waiting s p) (ha : Advance s p s' p') : Unmet s' p' := by
  by_cases hlook : p.lock? = none
  swap
  · cases ha with
    | sleep => exact h.sleep (hw.looked _ rfl)
    | grant => exact h.grant (hw.looked _ rfl)
    | fail =>
      exact h.frame (Lock.Shrinks.lenient.modifyLock fun _ =>
        (Lock.Shrinks.approach _ _ _ _).trans (.abandon _ _)) rfl (by simp [Stage.wants]) (by simp)
    | _ => exact absurd rfl hlook
  refine h.frame (Lock.Shrinks.lenient.advance ha hlook) ha.begun ?_ ?_
  · cases ha with
    | covered => exact fun x hx => List.mem_cons_of_mem _ hx
    | ask | keep => exact fun x hx => hx
    | sleep | grant => exact absurd hlook (by simp [Stage.lock?])
    | _ => simp [Stage.wants]
  · cases ha with
    | ask hi hk =>
      rintro c r name kind d goal w hp
      cases hp
      show _ ∉ (((s.addLock _).lockAt _).approach _ _ _).owners
      rw [lockAt_addLock]
      exact (hw.sound _).not_mem_approach hk
    | _ => simp

/-- The locks that a new call asks for are none on which another call of its transaction sleeps. -/
theorem aside_of_apart (h : Unmet s idle) (hw : Waiting s idle) (ho : InOrder s idle)
    (he : s.Apart e) (hr : r ∈ s.transactions) (hx : (r, name) ∈ s.wants e) {v : Waiter}
    (hv : v ∈ (s.lockAt name).waiters) (hres : e.resumes v.call = false) :
    v.transaction ≠ r.id := by
  intro hid
  obtain ⟨d, goal, hk⟩ := hw.call_of_waiter ho h.single hv
  rw [hid, ← ho.ref_eq h.single hr] at hk
  exact he v.call _ hk hres (name, d, goal) rfl hx

/-- A request that wakes up finds no other one of its transaction, and no hold. -/
theorem rouse {v : Waiter} {d' : Deadline} (h : Unmet s idle) (hw : Waiting s idle)
    (ho : InOrder s idle) (hk : s.calls[c]? = some ⟨r, .shared, .waiting name d goal⟩)
    (hv : (s.lockAt name).waiter? c = some v) (he : s.Apart e)
    (hres : ∀ b, b ≠ c → e.resumes b = false) (hx : Need.locksFor r goal.rest = s.wants e) :
    Unmet ((s.dismiss c).modifyLock name (·.rouse v))
      (.looking c r name v.request d' goal true) := by
  obtain ⟨hmem, rfl, hid⟩ := hw.of_waiter? hk hv
  have hleft : ∀ {other u}, u ∈ (((s.dismiss v.call).modifyLock name (·.rouse v)).lockAt
      other).waiters → u ∈ (s.lockAt other).waiters ∧ u.call ≠ v.call :=
    fun hu => (hw.mem_waiters_rouse hk hv).mp hu
  have howners : ∀ other, (((s.dismiss v.call).modifyLock name (·.rouse v)).lockAt other).owners =
      (s.lockAt other).owners := by
    intro other
    exact rel_modifyLock (R := fun l l' => l'.owners = l.owners) (fun _ => rfl) (fun _ => rfl) other
  refine ⟨h.single, fun other t ht u hu => ?_, fun other u hu => ?_, fun q other hwant u hu => ?_,
    ?_⟩
  · exact h.alone other t (hleft ht).1 u (hleft hu).1
  · rw [howners]
    exact h.absent other u (hleft hu).1
  · obtain ⟨hu, hne⟩ := hleft hu
    rcases List.mem_cons.mp hwant with heq | hwant
    · cases heq
      exact fun hui => hne (h.alone name u hu v hmem (hui.trans hid))
    · obtain rfl : q = r := by
        obtain ⟨n, -, heq⟩ := List.mem_map.mp hwant
        exact (congrArg Prod.fst heq).symm
      exact h.aside_of_apart hw ho he (ho.known _ _ hk) (hx ▸ hwant) hu (hres _ hne)
  · rintro c r name kind d goal w hp
    cases hp
    show _ ∉ (Lock.approach _ _ _ true).owners
    rw [Lock.approach, if_pos rfl, howners, hid]
    exact h.absent name v hmem

theorem start (h : Unmet s idle) (hw : Waiting s idle) (ho : InOrder s idle) (he : s.Apart e)
    (hs : Start s e s' p) : Unmet s' p := by
  have hnew : ∀ {r access}, s.admits r access = true → (∀ b, e.resumes b = false) →
      (∀ q name, (q, name) ∈ p.wants → q = r ∧ (q, name) ∈ s.wants e) →
      ∀ q name, (q, name) ∈ p.wants → ∀ v ∈ (s.lockAt name).waiters, v.transaction ≠ q.id := by
    intro r access ha hres hp q name hx v hv
    obtain ⟨rfl, hx⟩ := hp q name hx
    exact h.aside_of_apart hw ho he (admits_iff.mp ha).1 hx hv (hres _)
  have hfst : ∀ {r : TransactionRef} {needs : List Need} {q name},
      (q, name) ∈ Need.locksFor r needs → q = r := by
    intro r needs q name hx
    obtain ⟨n, -, heq⟩ := List.mem_map.mp hx
    exact (congrArg Prod.fst heq).symm
  cases hs with
  | lock ha | lockAll ha =>
    exact ⟨h.single, h.alone, h.absent, hnew ha (fun _ => rfl) fun q name hx => ⟨hfst hx, hx⟩,
      by simp⟩
  | acquire ha hl hi hk =>
    refine ⟨h.single, h.alone, h.absent, hnew ha (fun _ => rfl) fun q name hx => ?_, ?_⟩
    · cases List.mem_singleton.mp hx
      exact ⟨rfl, List.mem_singleton.mpr rfl⟩
    · rintro c r name kind d goal w hp
      cases hp
      exact (hw.sound _).not_mem_approach hk
  | upgrade ha =>
    refine ⟨h.single, h.alone, h.absent, hnew ha (fun _ => rfl) fun q name hx => ?_, ?_⟩
    · cases List.mem_singleton.mp hx
      exact ⟨rfl, List.mem_singleton.mpr rfl⟩
    · rintro c r name kind d goal w hp
      cases hp
      exact fun hi => (Lock.mem_owners_enter.mp hi).2 rfl rfl
  | @wake c r name d goal v hk hv =>
    refine h.rouse hw ho hk hv he (fun b hb => ?_) (by simp [wants, hk])
    simpa [Event.resumes] using Ne.symm hb
  | @expire c r name d goal v hk _ hv =>
    refine h.rouse hw ho hk hv he (fun b hb => ?_) (by simp [wants, hk])
    simpa [Event.resumes] using Ne.symm hb
  | begin hn =>
    exact ⟨Start.single (.begin hn) h.single, h.alone, h.absent, by simp [Stage.wants], by simp⟩
  | release hl =>
    exact h.frame (Lock.Shrinks.lenient.start (.release hl) rfl) rfl (by simp [Stage.wants])
      (by simp)
  | interrupt | managerInterrupt =>
    exact h.frame (Lock.Shrinks.lenient.alert (s.modifyTransaction _ _) _) (begun_alert _ _)
      (by simp [Stage.wants]) (by simp)
  | unlockAll ha =>
    exact h.frame (Lock.Shrinks.lenient.releaseAll s _) (by rw [releaseAll_eq])
      (by simp [Stage.wants]) (by simp)
  | forget ha =>
    exact h.frame (Lock.Shrinks.lenient.releaseAll s _) (by rw [forget_eq, releaseAll_eq]; rfl)
      (by simp [Stage.wants]) (by simp)
  | _ => exact h.frame (fun _ => .refl _) rfl (by simp [Stage.wants]) (by simp)

theorem new (g : Granularity) (config lockConfig : Config) :
    Unmet (System.new g [config] lockConfig) idle :=
  ⟨⟨0, rfl⟩, fun _ _ hv => absurd hv not_mem_waiters_new,
    fun _ _ hv => absurd hv not_mem_waiters_new, by simp [Stage.wants], by simp⟩

theorem invariant : Invariant Apart fun s p => (InOrder s p ∧ Waiting s p) ∧ Unmet s p where
  inOrder h := h.1.1
  rest h := ⟨Waiting.invariant.rest h.1, h.2.single, h.2.alone, h.2.absent, by simp [Stage.wants],
    by simp⟩
  start he h hs := ⟨Waiting.invariant.start trivial h.1 hs, h.2.start h.1.2 h.1.1 he hs⟩
  advance h ha := ⟨Waiting.invariant.advance h.1 ha, h.2.advance h.1.2 ha⟩

end Unmet

/-- A transaction never waits for itself, as long as it asks for no lock on which another request of
it is asleep.  In a run of one manager that keeps to this, with any number of requests of a
transaction in progress at once, a request that is asleep belongs to a transaction that has no hold
of the lock, and so none that gives what is asked for. -/
theorem never_waits_for_itself (g : Granularity) (config lockConfig : Config) (events : List Event)
    (ho : Obeys Apart (System.new g [config] lockConfig) events) :
    let s := (System.new g [config] lockConfig).run events
    ∀ c i name kind, s.Sleeps c i name kind →
      (s.lockAt name).modeOf i = none ∧ ¬ (s.lockAt name).Covers i kind.mode := by
  rintro s c _ name kind ⟨r, access, d, goal, v, hk, rfl, hv, -⟩
  obtain ⟨⟨-, hw⟩, h⟩ := Unmet.invariant.run
    ⟨⟨.new g [config] lockConfig, .new g [config] lockConfig⟩, .new g config lockConfig⟩ ho
  obtain ⟨hmem, -, hid⟩ := hw.of_waiter? hk hv
  have hnone : (s.lockAt name).modeOf r.id = none := if_neg (hid ▸ h.absent name v hmem)
  refine ⟨hnone, ?_⟩
  rintro ⟨held, hheld, -⟩
  exact absurd (hnone.symm.trans hheld) (by simp)

/-- A transaction waits for two locks at once, which another one owns. -/
theorem asleep_on_two_locks :
    let a : LockName := .entity ⟨["a"]⟩
    let b : LockName := .entity ⟨["b"]⟩
    let events : List Event := [.begin 0, .begin 0, .lock ⟨0, 1⟩ ⟨["a"]⟩ .shared,
      .lock ⟨0, 2⟩ ⟨["a"]⟩ .shared, .lock ⟨0, 2⟩ ⟨["b"]⟩ .exclusive,
      .lock ⟨0, 1⟩ ⟨["a"]⟩ .exclusive, .lock ⟨0, 1⟩ ⟨["b"]⟩ .shared]
    let fresh := System.new .hierarchical [{}] {}
    let s := fresh.run events
    Obeys Apart fresh events ∧ s.Sleeps 0 1 a .upgrade ∧ s.Sleeps 1 1 b .shared ∧
      ¬ (s.lockAt a).Covers 1 .exclusive ∧ ¬ (s.lockAt b).Covers 1 .shared := by
  intro a b events fresh s
  have ho : Obeys Apart fresh events := by decide +kernel
  have ha : s.Sleeps 0 1 a .upgrade :=
    ⟨⟨0, 1⟩, .shared, .never, .plan ⟨["a"]⟩ [], ⟨0, 1, .upgrade, 0, false⟩, by decide +kernel, rfl,
      by decide +kernel, rfl⟩
  have hb : s.Sleeps 1 1 b .shared :=
    ⟨⟨0, 1⟩, .shared, .never, .plan ⟨["b"]⟩ [], ⟨1, 1, .shared, 0, false⟩, by decide +kernel, rfl,
      by decide +kernel, rfl⟩
  have h := never_waits_for_itself .hierarchical {} {} events ho
  exact ⟨ho, ha, hb, (h 0 1 a .upgrade ha).2, (h 1 1 b .shared hb).2⟩

/-- Two requests of a transaction for the same lock in the same mode.  The first one is an upgrade and
is granted when the other reader is gone; the second one is asleep then, on a lock that its own
transaction holds exclusively.  It will not be notified, and the wait-for graph knows nothing of
it. -/
theorem asleep_behind_itself :
    let x : LockName := .entity ⟨["x"]⟩
    let events : List Event := [.begin 0, .begin 0, .lock ⟨0, 1⟩ ⟨["x"]⟩ .shared,
      .lock ⟨0, 2⟩ ⟨["x"]⟩ .shared, .lock ⟨0, 1⟩ ⟨["x"]⟩ .exclusive,
      .lock ⟨0, 1⟩ ⟨["x"]⟩ .exclusive, .rollback ⟨0, 2⟩, .wake 0, .wake 1]
    let s := (System.new .hierarchical [{}] {}).run events
    (∀ entry ∈ s.calls.toList, entry.2.point.isAsleep = true) ∧ s.Settled ∧
      s.Sleeps 1 1 x .exclusive ∧ (s.lockAt x).Covers 1 Request.exclusive.mode ∧
      s.graph.waitsFor 1 = [] := by
  intro x events s
  have hsleeps : s.Sleeps 1 1 x .exclusive :=
    ⟨⟨0, 1⟩, .shared, .never, .plan ⟨["x"]⟩ [], ⟨1, 1, .exclusive, 1, false⟩, by decide +kernel,
      rfl, by decide +kernel, rfl⟩
  exact ⟨by decide +kernel, by decide +kernel, hsleeps, ⟨.exclusive, by decide +kernel, rfl⟩,
    by decide +kernel⟩

end System

end Locking
