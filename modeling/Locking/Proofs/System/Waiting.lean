import Locking.Proofs.System.Locks
import Locking.Proofs.System.Order

/-! The requests that are asleep.  Every lock is sound, its waiters are the calls in progress that
are asleep on it, and a call that is asleep has its waiter there. -/

namespace Locking

/-- The lock on which a call at this point is asleep, until when, and what for. -/
def Point.sleep? : Point → Option (LockName × Deadline × Goal)
  | waiting name d goal => some (name, d, goal)
  | _ => none

/-- What of a waiter never changes. -/
def Waiter.key (w : Waiter) : CallId × TransactionId × Request :=
  (w.call, w.transaction, w.request)

namespace Lock

variable {l l' l'' : Lock} {i : TransactionId} {kind : Request} {w : Bool}

@[simp] theorem waiters_approach : (l.approach i kind w).waiters = l.waiters := by
  unfold Lock.approach
  split
  · rfl
  · exact waiters_enter

/-- A change of a lock with which no request falls asleep and none wakes up. -/
structure Steady (l l' : Lock) : Prop where
  sound : l.Sound → l'.Sound
  waiters : l'.waiters.map Waiter.key = l.waiters.map Waiter.key

namespace Steady

theorem refl (l : Lock) : l.Steady l := ⟨id, rfl⟩

theorem trans (h : l.Steady l') (h' : l'.Steady l'') : l.Steady l'' :=
  ⟨fun hs => h'.sound (h.sound hs), h'.waiters.trans h.waiters⟩

theorem notify (l : Lock) : l.Steady l.notify :=
  ⟨Sound.notify, by simp [Lock.notify, List.map_map, Function.comp_def, Waiter.key]⟩

theorem release (l : Lock) (i : TransactionId) : l.Steady (l.release i) :=
  ⟨Sound.release, by
    simp [Lock.release, Lock.notify, disown, List.map_map, Function.comp_def, Waiter.key]⟩

theorem lenient : Lenient Lock.Steady := ⟨refl, trans, notify, release⟩

theorem abandon (l : Lock) (i : TransactionId) : l.Steady (l.abandon i) := by
  refine ⟨Sound.abandon, ?_⟩
  unfold Lock.abandon
  split
  · simp [Lock.notify, List.map_map, Function.comp_def, Waiter.key]
  · rfl

theorem approach (l : Lock) (i : TransactionId) (kind : Request) (w : Bool) :
    l.Steady (l.approach i kind w) := by
  refine ⟨fun hs => ?_, by rw [waiters_approach]⟩
  unfold Lock.approach
  split
  · exact hs
  · exact hs.enter

theorem grant (hg : l.grantable i kind = true) : l.Steady (l.grant i kind) :=
  ⟨fun hs => hs.grant hg, by rw [waiters_grant]⟩

theorem mem_waiters (h : l.Steady l') {w : Waiter} (hw : w ∈ l'.waiters) :
    ∃ v ∈ l.waiters, v.key = w.key := by
  have hmem : w.key ∈ l.waiters.map Waiter.key := h.waiters ▸ List.mem_map_of_mem hw
  exact List.mem_map.mp hmem

theorem mem_waiters' (h : l.Steady l') {w : Waiter} (hw : w ∈ l.waiters) :
    ∃ v ∈ l'.waiters, v.key = w.key := by
  have hmem : w.key ∈ l'.waiters.map Waiter.key := h.waiters.symm ▸ List.mem_map_of_mem hw
  exact List.mem_map.mp hmem

end Steady

end Lock

namespace System

/-- Where a call in progress is asleep, and for whom. -/
def sleeperAt (s : System) (c : CallId) : Option (TransactionRef × LockName × Deadline × Goal) :=
  s.calls[c]?.bind fun k => k.point.sleep?.map fun sleep => (k.transaction, sleep)

/-- A change of the system with which no request falls asleep and none wakes up. -/
def Steady (s s' : System) : Prop := ∀ name, (s.lockAt name).Steady (s'.lockAt name)

/-- How the locks and the requests that are asleep on them belong together. -/
structure Waiting (s : System) (p : Stage) : Prop where
  sound : ∀ name, (s.lockAt name).Sound
  caller : ∀ name, ∀ w ∈ (s.lockAt name).waiters, ∃ r d goal,
    s.sleeperAt w.call = some (r, name, d, goal) ∧ r.id = w.transaction
  waiter : ∀ c r name d goal, s.sleeperAt c = some (r, name, d, goal) →
    ∃ w ∈ (s.lockAt name).waiters, w.call = c
  looked : ∀ name, p.lock? = some name → name ∈ s.locks

variable {s s' s'' : System} {p p' : Stage} {e : Event} {r : TransactionRef} {c b : CallId}
  {name other : LockName} {f : Lock → Lock}

/-! ### Requests asleep -/

theorem sleeperAt_congr (h : s'.calls = s.calls) (c : CallId) : s'.sleeperAt c = s.sleeperAt c := by
  rw [sleeperAt, h, sleeperAt]

theorem sleeperAt_suspend {k : Call} (b : CallId) : (s.suspend c k).sleeperAt b =
    if b = c then k.point.sleep?.map fun sleep => (k.transaction, sleep) else s.sleeperAt b := by
  rw [sleeperAt, calls_suspend]
  split <;> rfl

theorem sleeperAt_dismiss (b : CallId) :
    (s.dismiss c).sleeperAt b = if b = c then none else s.sleeperAt b := by
  rw [sleeperAt, calls_dismiss]
  split <;> rfl

theorem sleeperAt_of_call {k : Call} (hk : s.calls[c]? = some k) :
    s.sleeperAt c = k.point.sleep?.map fun sleep => (k.transaction, sleep) := by
  rw [sleeperAt, hk, Option.bind_some]

theorem sleeperAt_of_none (hk : s.calls[c]? = none) : s.sleeperAt c = none := by
  rw [sleeperAt, hk, Option.bind_none]

theorem InOrder.call_of_sleeperAt {d : Deadline} {goal : Goal} (h : InOrder s p)
    (hc : s.sleeperAt c = some (r, name, d, goal)) :
    s.calls[c]? = some ⟨r, .shared, .waiting name d goal⟩ := by
  obtain ⟨k, hk, hsleep⟩ := Option.bind_eq_some_iff.mp hc
  obtain ⟨q, access, point⟩ := k
  cases point with
  | waiting other d' goal' =>
    obtain rfl : access = .shared := h.suited c _ hk
    cases hsleep
    exact hk
  | _ => exact absurd hsleep (by simp [Point.sleep?])

/-- To keep the call that goes on is to put nothing to sleep, unless it is asleep itself. -/
theorem InOrder.sleeperAt_suspend {access : Access} {point : Point} (h : InOrder s p)
    (hc : p.call? = some c) (hp : point.sleep? = none) (b : CallId) :
    (s.suspend c ⟨r, access, point⟩).sleeperAt b = s.sleeperAt b := by
  rw [System.sleeperAt_suspend]
  split
  · next hb => rw [hb, sleeperAt_of_none (h.going c hc).1, hp]; rfl
  · rfl

namespace Waiting

theorem frame (h : Waiting s p) (hl : s.Steady s') (hs : ∀ c, s'.sleeperAt c = s.sleeperAt c)
    (hp : ∀ name, p'.lock? = some name → name ∈ s'.locks) : Waiting s' p' where
  sound name := (hl name).sound (h.sound name)
  caller name w hw := by
    obtain ⟨v, hv, hkey⟩ := (hl name).mem_waiters hw
    obtain ⟨r, d, goal, hsleep, hid⟩ := h.caller name v hv
    obtain ⟨hcall, htransaction, -⟩ : v.call = w.call ∧ v.transaction = w.transaction ∧
        v.request = w.request := by simpa [Waiter.key] using hkey
    exact ⟨r, d, goal, by rw [hs, ← hcall, hsleep], hid.trans htransaction⟩
  waiter c r name d goal hc := by
    rw [hs] at hc
    obtain ⟨v, hv, rfl⟩ := h.waiter c r name d goal hc
    obtain ⟨w, hw, hkey⟩ := (hl name).mem_waiters' hv
    exact ⟨w, hw, congrArg Prod.fst hkey⟩
  looked := hp

end Waiting

/-! ### Advances and starts -/

/-- Only falling asleep changes which requests are asleep. -/
theorem Advance.steady (ha : Advance s p s' p') (hp : ∀ c, p' ≠ .concluded (.asleep c)) :
    s.Steady s' := by
  by_cases hlook : p.lock? = none
  · exact Lock.Steady.lenient.advance ha hlook
  cases ha with
  | sleep => exact absurd rfl (hp _)
  | grant hj =>
    exact Lock.Steady.lenient.modifyLock fun _ =>
      (Lock.Steady.approach _ _ _ _).trans (.grant (Attempt.judge_eq_granted_iff.mp hj).2.1)
  | fail =>
    exact Lock.Steady.lenient.modifyLock fun _ =>
      (Lock.Steady.approach _ _ _ _).trans (.abandon _ _)
  | _ => exact absurd rfl hlook

theorem Waiting.call_ne (h : Waiting s p) (ho : InOrder s p) (hc : p.call? = some c) :
    ∀ w ∈ (s.lockAt name).waiters, w.call ≠ c := by
  rintro w hw rfl
  obtain ⟨r, d, goal, hsleep, -⟩ := h.caller name w hw
  rw [sleeperAt_of_none (ho.going w.call hc).1] at hsleep
  exact absurd hsleep (by simp)

/-- The waiter of a call that is asleep has a request of its transaction. -/
theorem Waiting.of_waiter? {access : Access} {d : Deadline} {goal : Goal} {w : Waiter}
    (h : Waiting s p) (hk : s.calls[c]? = some ⟨r, access, .waiting name d goal⟩)
    (hw : (s.lockAt name).waiter? c = some w) :
    w ∈ (s.lockAt name).waiters ∧ w.call = c ∧ r.id = w.transaction := by
  obtain ⟨hmem, rfl⟩ := (h.sound name).waiter?_eq_some_iff.mp hw
  obtain ⟨q, d', goal', hsleep, hid⟩ := h.caller name w hmem
  rw [sleeperAt_of_call hk] at hsleep
  cases hsleep
  exact ⟨hmem, rfl, hid⟩

theorem Waiting.sleep {kind : Request} {d : Deadline} {goal : Goal} {w : Bool} {g : WaitForGraph}
    (h : Waiting s (.looking c r name kind d goal w))
    (ho : InOrder s (.looking c r name kind d goal w))
    (hg : ((s.lockAt name).approach r.id kind w).grantable r.id kind = false) :
    Waiting (((s.modifyLock name fun l => (l.approach r.id kind w).park c r.id kind).setGraph
      g).suspend c ⟨r, .shared, .waiting name d goal⟩) (.concluded (.asleep c)) := by
  have hl : name ∈ s.locks := h.looked name rfl
  have hself : (s.modifyLock name fun l => (l.approach r.id kind w).park c r.id kind).lockAt name =
      ((s.lockAt name).approach r.id kind w).park c r.id kind := lockAt_modifyLock_self hl
  have hother : ∀ {other}, other ≠ name →
      (s.modifyLock name fun l => (l.approach r.id kind w).park c r.id kind).lockAt other =
        s.lockAt other := lockAt_modifyLock_ne
  have hne : ∀ other, ∀ v ∈ (s.lockAt other).waiters, v.call ≠ c := fun other =>
    h.call_ne ho rfl
  have hsound := (Lock.Steady.approach (s.lockAt name) r.id kind w).sound (h.sound name)
  have hnew : (s.suspend c ⟨r, .shared, .waiting name d goal⟩).sleeperAt c =
      some (r, name, d, goal) := by
    rw [sleeperAt_suspend, if_pos rfl]
    rfl
  have hold : ∀ {b}, b ≠ c → (s.suspend c ⟨r, .shared, .waiting name d goal⟩).sleeperAt b =
      s.sleeperAt b := by
    intro b hb
    rw [sleeperAt_suspend, if_neg hb]
  refine ⟨fun other => ?_, fun other v hv => ?_, fun b q other d' goal' hb => ?_,
    by simp [Stage.lock?]⟩
  · show ((s.modifyLock name fun l => (l.approach r.id kind w).park c r.id kind).lockAt other).Sound
    by_cases hn : other = name
    · subst hn
      rw [hself]
      exact hsound.park (by simpa using hne other) (hsound.occupied_of_not_grantable hg)
    · rw [hother hn]
      exact h.sound other
  · have hv : v ∈ ((s.modifyLock name fun l =>
        (l.approach r.id kind w).park c r.id kind).lockAt other).waiters := hv
    have hcaller : v ∈ (s.lockAt other).waiters → ∃ q d' goal',
        (s.suspend c ⟨r, .shared, .waiting name d goal⟩).sleeperAt v.call =
          some (q, other, d', goal') ∧ q.id = v.transaction := by
      intro hv
      rw [hold (hne other v hv)]
      exact h.caller other v hv
    by_cases hn : other = name
    · subst hn
      rw [hself] at hv
      rcases List.mem_append.mp hv with hv | hv
      · exact hcaller (by simpa using hv)
      · rw [List.mem_singleton.mp hv]
        exact ⟨r, d, goal, hnew, rfl⟩
    · rw [hother hn] at hv
      exact hcaller hv
  · show ∃ v ∈ ((s.modifyLock name fun l =>
      (l.approach r.id kind w).park c r.id kind).lockAt other).waiters, v.call = b
    have hb : (s.suspend c ⟨r, .shared, .waiting name d goal⟩).sleeperAt b =
        some (q, other, d', goal') := hb
    by_cases hbc : b = c
    · subst hbc
      rw [hnew] at hb
      cases hb
      rw [hself]
      exact ⟨_, List.mem_append_right _ (List.mem_singleton.mpr rfl), rfl⟩
    · rw [hold hbc] at hb
      obtain ⟨v, hv, hvb⟩ := h.waiter b q other d' goal' hb
      by_cases hn : other = name
      · subst hn
        rw [hself]
        exact ⟨v, List.mem_append_left _ (by simpa using hv), hvb⟩
      · rw [hother hn]
        exact ⟨v, hv, hvb⟩

theorem Waiting.advance (h : Waiting s p) (ho : InOrder s p) (ha : Advance s p s' p') :
    Waiting s' p' := by
  by_cases hp : ∃ c, p' = .concluded (.asleep c)
  · obtain ⟨c, rfl⟩ := hp
    cases ha with
    | sleep hj => exact h.sleep ho (Attempt.judge_eq_sleeps_iff.mp hj).2.1
  have hsteady : s.Steady s' := ha.steady fun c hc => hp ⟨c, hc⟩
  refine h.frame hsteady ?_ ?_
  · cases ha with
    | sleep => exact absurd ⟨_, rfl⟩ hp
    | undo | prepare | commit => exact ho.sleeperAt_suspend rfl rfl
    | undone | committed => exact sleeperAt_congr (calls_retire _ _).1
    | removed => exact sleeperAt_congr ((calls_alert _ _).1.trans (calls_retire _ _).1)
    | _ => exact fun _ => rfl
  · cases ha with
    | ask =>
      rintro name hn
      cases hn
      exact mem_locks_addLock.mpr (.inl rfl)
    | _ => simp [Stage.lock?]

/-- A waiter is left on its lock unless it is the one that wakes up. -/
theorem Waiting.mem_waiters_rouse {d : Deadline} {goal : Goal} {w v : Waiter} (h : Waiting s idle)
    (hk : s.calls[c]? = some ⟨r, .shared, .waiting name d goal⟩)
    (hw : (s.lockAt name).waiter? c = some w) :
    v ∈ ((s.modifyLock name (·.rouse w)).lockAt other).waiters ↔
      v ∈ (s.lockAt other).waiters ∧ v.call ≠ c := by
  obtain ⟨hmem, rfl⟩ := (h.sound name).waiter?_eq_some_iff.mp hw
  by_cases hn : other = name
  · subst hn
    rw [lockAt_modifyLock_self (mem_locks_of_waiter hmem)]
    simp [Lock.rouse]
  · rw [lockAt_modifyLock_ne hn]
    refine ⟨fun hv => ⟨hv, fun hvw => hn ?_⟩, And.left⟩
    obtain ⟨q, d₁, goal₁, hsleep, -⟩ := h.caller other v hv
    rw [hvw, sleeperAt_of_call hk] at hsleep
    cases hsleep
    rfl

theorem Waiting.rouse {kind : Request} {d d' : Deadline} {goal : Goal} {w : Waiter}
    (h : Waiting s idle) (hk : s.calls[c]? = some ⟨r, .shared, .waiting name d goal⟩)
    (hw : (s.lockAt name).waiter? c = some w) :
    Waiting ((s.dismiss c).modifyLock name (·.rouse w))
      (.looking c r name kind d' goal true) := by
  have hleft : ∀ other v, v ∈ ((s.modifyLock name (·.rouse w)).lockAt other).waiters ↔
      v ∈ (s.lockAt other).waiters ∧ v.call ≠ c := fun other v => h.mem_waiters_rouse hk hw
  obtain ⟨hmem, rfl⟩ := (h.sound name).waiter?_eq_some_iff.mp hw
  have hl : name ∈ s.locks := mem_locks_of_waiter hmem
  refine ⟨fun other => ?_, fun other v hv => ?_, fun b q other d₁ goal₁ hb => ?_,
    fun other hn => ?_⟩
  · show ((s.modifyLock name (·.rouse w)).lockAt other).Sound
    by_cases hn : other = name
    · subst hn
      rw [lockAt_modifyLock_self hl]
      exact (h.sound other).rouse hmem
    · rw [lockAt_modifyLock_ne hn]
      exact h.sound other
  · obtain ⟨hv, hne⟩ := (hleft other v).mp hv
    obtain ⟨q, d₁, goal₁, hsleep, hid⟩ := h.caller other v hv
    exact ⟨q, d₁, goal₁, (sleeperAt_dismiss v.call).trans ((if_neg hne).trans hsleep), hid⟩
  · have hb := (sleeperAt_dismiss b).symm.trans hb
    split at hb
    · exact absurd hb (by simp)
    · next hne =>
      obtain ⟨v, hv, rfl⟩ := h.waiter b q other d₁ goal₁ hb
      exact ⟨v, (hleft other v).mpr ⟨hv, hne⟩, rfl⟩
  · cases hn
    exact mem_locks_modifyLock.mpr hl

theorem Waiting.start (h : Waiting s idle) (ho : InOrder s idle) (hs : Start s e s' p) :
    Waiting s' p := by
  have hdismiss : ∀ {c : CallId} {k : Call}, s.calls[c]? = some k → k.point.sleep? = none →
      ∀ b, (s.dismiss c).sleeperAt b = s.sleeperAt b := by
    intro c k hk hp b
    rw [sleeperAt_dismiss]
    split
    · next hb => rw [hb, sleeperAt_of_call hk, hp]; rfl
    · rfl
  have hnew : s.calls[s.nextCall]? = none := by
    cases hk : s.calls[s.nextCall]? with
    | none => rfl
    | some k => exact absurd (ho.fresh _ k hk) (Nat.lt_irrefl _)
  cases hs with
  | wake hk hw => exact h.rouse hk hw
  | expire hk _ hw => exact h.rouse hk hw
  | @expireIdle c r name d goal hk hw =>
    obtain ⟨w, hmem, hc⟩ := h.waiter c r name d goal (sleeperAt_of_call hk)
    rw [(h.sound name).waiter?_eq_some_iff.mpr ⟨hmem, hc⟩] at hw
    exact absurd hw (by simp)
  | prepared hk | notPrepared hk | notPreparedEnded hk | committed hk | notCommitted hk
  | notCommittedEnded hk | rolledBack hk =>
    exact h.frame (fun _ => .refl _) (hdismiss hk rfl) (by simp [Stage.lock?])
  | acquire _ hl | upgrade _ hl =>
    refine h.frame (fun _ => .refl _) (fun _ => rfl) ?_
    rintro name hn
    cases hn
    exact hl
  | release =>
    exact h.frame (Lock.Steady.lenient.modifyLock (f := (Lock.release · _)) fun _ => .release _ _)
      (fun _ => rfl) (by simp [Stage.lock?])
  | interrupt | managerInterrupt =>
    exact h.frame (Lock.Steady.lenient.alert (s.modifyTransaction _ _) _)
      (sleeperAt_congr (calls_alert _ _).1) (by simp [Stage.lock?])
  | unlockAll | forget =>
    exact h.frame (Lock.Steady.lenient.releaseAll s _) (sleeperAt_congr (calls_releaseAll s _).1)
      (by simp [Stage.lock?])
  | _ => exact h.frame (fun _ => .refl _) (fun _ => rfl) (by simp [Stage.lock?])

theorem Waiting.new (g : Granularity) (configs : List Config) (lockConfig : Config) :
    Waiting (System.new g configs lockConfig) idle := by
  refine ⟨fun name => ?_, fun _ w hw => absurd hw not_mem_waiters_new, ?_, ?_⟩
  · rw [lockAt_new]
    exact Lock.Sound.default
  · intro c r name d goal hc
    exact absurd hc (by simp [sleeperAt, System.new])
  · simp [Stage.lock?]

theorem Waiting.rest {response : Response} (h : Waiting s (.concluded response)) : Waiting s idle :=
  ⟨h.sound, h.caller, h.waiter, by simp [Stage.lock?]⟩

theorem Waiting.invariant : Invariant (fun _ _ => True) fun s p => InOrder s p ∧ Waiting s p where
  inOrder h := h.1
  rest h := ⟨h.1.rest, h.2.rest⟩
  start _ h hs := ⟨h.1.start hs, h.2.start h.1 hs⟩
  advance h ha := ⟨h.1.advance ha, h.2.advance h.1 ha⟩

end System

end Locking
