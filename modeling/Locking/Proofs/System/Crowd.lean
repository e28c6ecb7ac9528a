import Locking.Proofs.System.Recorded

/-! Calls that go on side by side.  An event of a run lets a call go on until it has returned,
fallen asleep or called a store.  In a crowd any number of calls go on at the same time, and an
advance of one of them may be followed by an advance of any other one. -/

namespace Locking

/-- The use that an event makes of a transaction.  Events that name a transaction by its number make
none. -/
def Event.use? : Event → Option (TransactionRef × Access)
  | lock r .. | lockAll r .. | acquire r .. | upgrade r .. | register r .. | unlockAll r
  | forget r => some (r, .shared)
  | commit r | rollback r | drop r => some (r, .exclusive)
  | _ => none

/-- A call that stands at the first stage may be suspended there, to go on at the second one. -/
inductive Stage.Suspends : Stage → Stage → Prop
  | asleep {c r name kind d goal w} :
    Suspends (looking c r name kind d goal w) (looking c r name kind d goal true)
  | undoing {c r access cause store rest} :
    Suspends (undoing c r access cause (store :: rest)) (undoing c r access cause rest)
  | preparing {c r store rest} : Suspends (preparing c r (store :: rest)) (preparing c r rest)
  | committing {c r store rest} : Suspends (committing c r (store :: rest)) (committing c r rest)

namespace Lock

variable {l l' : Lock} {b c : CallId} {i : TransactionId} {kind : Request} {w : Waiter}

/-- The request with which a call is asleep on a lock. -/
def request? (l : Lock) (c : CallId) : Option Request := (l.waiter? c).map Waiter.request

theorem request?_eq_find? (l : Lock) (c : CallId) : l.request? c =
    ((l.waiters.map Waiter.key).find? fun key => key.1 == c).map fun key => key.2.2 := by
  rw [List.find?_map, Option.map_map]
  rfl

theorem Steady.request? (h : l.Steady l') (c : CallId) : l'.request? c = l.request? c := by
  rw [request?_eq_find?, request?_eq_find?, h.waiters]

theorem request?_park_ne (hb : b ≠ c) : (l.park c i kind).request? b = l.request? b := by
  have hcb : (c == b) = false := by simpa using Ne.symm hb
  simp [Lock.request?, waiter?, park, List.find?_append, hcb]

theorem request?_park_self (hc : ∀ w ∈ l.waiters, w.call ≠ c) :
    (l.park c i kind).request? c = some kind := by
  have hnone : l.waiters.find? (fun w => w.call == c) = none := by simpa using hc
  simp [Lock.request?, waiter?, park, List.find?_append, hnone]

theorem request?_rouse (hb : b ≠ w.call) : (l.rouse w).request? b = l.request? b := by
  have hkeep : ∀ v : Waiter, (v.call == b) = true → (decide (v.call ≠ w.call)) = true := by
    intro v hv
    simpa [beq_iff_eq.mp hv] using hb
  simp only [Lock.request?, waiter?, rouse, List.find?_filter]
  congr 2
  funext v
  cases hv : v.call == b with
  | false => simp
  | true => simpa using hkeep v hv

end Lock

namespace System

variable {s s' : System} {p p' q : Stage} {e : Event} {r t : TransactionRef} {b c : CallId}
  {name : LockName} {access access' : Access}

/-! ### Where calls go on -/

/-- The stage at which a call in progress goes on, once it wakes up or its store has replied. -/
def resumesAt (s : System) (c : CallId) : Option Stage :=
  match s.calls[c]? with
  | some ⟨r, _, .waiting name d goal⟩ =>
    ((s.lockAt name).request? c).map fun kind => .looking c r name kind d goal true
  | some ⟨r, _, .preparing _ rest⟩ => some (.preparing c r rest)
  | some ⟨r, _, .committing _ rest⟩ => some (.committing c r rest)
  | some ⟨r, access, .rollingBack _ rest cause⟩ => some (.undoing c r access cause rest)
  | none => none

theorem resumesAt_of_none (h : s.calls[c]? = none) : s.resumesAt c = none := by
  rw [resumesAt, h]

theorem resumesAt_congr (hk : s'.calls[c]? = s.calls[c]?)
    (hl : ∀ name, (s'.lockAt name).request? c = (s.lockAt name).request? c) :
    s'.resumesAt c = s.resumesAt c := by
  simp only [resumesAt, hk, hl]

/-- A call in progress goes on for its own transaction, with the use that it makes of it. -/
theorem InOrder.resumesAt (h : InOrder s p) (hq : s.resumesAt c = some q) :
    ∃ k, s.calls[c]? = some k ∧ q.call? = some c ∧
      q.user? = some (k.transaction, k.access) := by
  simp only [System.resumesAt] at hq
  split at hq
  · next r access name d goal hk =>
    obtain ⟨kind, -, rfl⟩ := Option.map_eq_some_iff.mp hq
    obtain rfl : access = .shared := h.suited c _ hk
    exact ⟨_, hk, rfl, rfl⟩
  · next r access store rest hk =>
    obtain rfl : access = .exclusive := h.suited c _ hk
    cases hq
    exact ⟨_, hk, rfl, rfl⟩
  · next r access store rest hk =>
    obtain rfl : access = .exclusive := h.suited c _ hk
    cases hq
    exact ⟨_, hk, rfl, rfl⟩
  · next hk =>
    cases hq
    exact ⟨_, hk, rfl, rfl⟩
  · exact absurd hq (by simp)

/-- An advance leaves alone where the other calls go on. -/
theorem Advance.resumesAt_ne (ho : InOrder s p) (hw : Waiting s p) (ha : Advance s p s' p')
    (hc : p.call? = some c) (hb : b ≠ c) : s'.resumesAt b = s.resumesAt b := by
  refine resumesAt_congr ?_ fun name => ?_
  · cases ha.keeps with
    | nothing hcalls => rw [hcalls]
    | @call d _ _ _ hd _ _ hcalls =>
      obtain rfl : d = c := Option.some.inj (hd.symm.trans hc)
      simp only [hcalls, Std.ExtTreeMap.getElem?_insert, Nat.compare_eq_eq, if_neg (Ne.symm hb)]
  · by_cases hp : ∃ d, p' = .concluded (.asleep d)
    · obtain ⟨d, rfl⟩ := hp
      cases ha with
      | sleep =>
        obtain rfl : d = c := Option.some.inj hc
        refine rel_modifyLock (R := fun l l' => l'.request? b = l.request? b) (fun _ => rfl)
          (fun _ => ?_) name
        rw [Lock.request?_park_ne hb]
        exact (Lock.Steady.approach _ _ _ _).request? b
    · exact (ha.steady (fun d hd => hp ⟨d, hd⟩) name).request? b

/-- A request that has fallen asleep goes on there. -/
theorem Advance.resumesAt_asleep {kind : Request} {d : Deadline} {goal : Goal} {w : Bool}
    (ho : InOrder s (.looking c r name kind d goal w))
    (hw : Waiting s (.looking c r name kind d goal w))
    (ha : Advance s (.looking c r name kind d goal w) s' p') (hp' : p'.call? = none) :
    s'.resumesAt c = some (.looking c r name kind d goal true) := by
  cases ha with
  | sleep =>
    have hself : ((s.modifyLock name fun l => (l.approach r.id kind w).park c r.id kind).lockAt
        name).request? c = some kind := by
      rw [lockAt_modifyLock_self (hw.looked name rfl)]
      exact Lock.request?_park_self (by simpa using hw.call_ne ho rfl)
    rw [resumesAt, calls_suspend, if_pos rfl]
    exact congrArg (Option.map _) hself
  | grant | fail => exact absurd hp' (by simp [Stage.call?])

/-- A call goes on where it was suspended. -/
theorem Advance.suspends (ho : InOrder s p) (hw : Waiting s p) (ha : Advance s p s' p')
    (hc : p.call? = some c) (hp' : p'.call? = none) (hq : s'.resumesAt c = some q) :
    p.Suspends q := by
  have hnone : s.calls[c]? = none := (ho.going c hc).1
  have hgone : s'.calls = s.calls → p.Suspends q := by
    intro hcalls
    rw [resumesAt_of_none (by rw [hcalls, hnone])] at hq
    exact absurd hq (by simp)
  cases ha with
  | sleep hj =>
    obtain rfl := Option.some.inj hc
    rw [Advance.resumesAt_asleep ho hw (.sleep hj) rfl] at hq
    cases hq
    exact .asleep
  | undo | prepare | commit =>
    obtain rfl := Option.some.inj hc
    rw [resumesAt, calls_suspend, if_pos rfl] at hq
    cases hq
    constructor
  | undone | committed => exact hgone (calls_retire (s.setState _ _) _).1
  | removed => exact hgone ((calls_alert _ _).1.trans (calls_retire (s.setState _ _) _).1)
  | refuse | covered | ask | grant | fail | keep | giveBack | abort | prepared =>
    exact absurd hp' (by simp [Stage.call?])
  | _ => exact hgone rfl

theorem resumesAt_of_waiter? {d : Deadline} {goal : Goal} {w : Waiter}
    (hk : s.calls[c]? = some ⟨r, access, .waiting name d goal⟩)
    (hw : (s.lockAt name).waiter? c = some w) :
    s.resumesAt c = some (.looking c r name w.request d goal true) := by
  simp only [resumesAt, hk, Lock.request?, hw, Option.map_some]

/-- A start lets a request that is asleep go on where it was suspended, at most later than its
deadline. -/
theorem Start.looking_of_resumesAt {kind : Request} {d : Deadline} {goal : Goal} {w : Bool}
    (ho : InOrder s idle) (hs : Start s e s' p) (hc : p.call? = some b)
    (hq : s.resumesAt b = some (.looking c r name kind d goal w)) :
    ∃ d', p = .looking c r name kind d' goal w := by
  have hnew : ∀ {d}, s.nextCall = d → s.resumesAt d = none := by
    rintro d rfl
    refine resumesAt_of_none ?_
    cases hk : s.calls[s.nextCall]? with
    | none => rfl
    | some k => exact absurd (ho.fresh _ k hk) (Nat.lt_irrefl _)
  have hfresh : s.nextCall = b → ∃ d', p = .looking c r name kind d' goal w := fun hb => by
    rw [hnew hb] at hq
    exact absurd hq (by simp)
  cases hs with
  | lock | lockAll | acquire | upgrade | commit | commitInterrupted | rollback | drop | remove =>
    exact hfresh (Option.some.inj hc)
  | wake hk hw | expire hk _ hw =>
    obtain rfl := Option.some.inj hc
    rw [resumesAt_of_waiter? hk hw] at hq
    cases hq
    exact ⟨_, rfl⟩
  | prepared hk | notPrepared hk | committed hk | notCommitted hk | rolledBack hk =>
    obtain rfl := Option.some.inj hc
    rw [resumesAt, hk] at hq
    exact absurd hq (by simp)
  | _ => exact absurd hc (by simp [Stage.call?])

/-- A start leaves alone where the calls go on that it does not let go on itself, except that a
store may have replied to one that comes to its end, because its transaction has ended or is being
rolled back. -/
theorem Start.resumesAt_ne (hw : Waiting s idle) (hs : Start s e s' p)
    (hb : p.call? ≠ some b) : s'.resumesAt b = s.resumesAt b ∨
      s'.resumesAt b = none ∧ ∀ q, s.resumesAt b = some q → q.lock? = none ∧
        ∀ r access, q.user? = some (r, access) → (s.transactionAt r).state.canRollBack = false := by
  have hsame : s'.calls = s.calls → s.Steady s' → s'.resumesAt b = s.resumesAt b :=
    fun hcalls hsteady => resumesAt_congr (by rw [hcalls]) fun name => (hsteady name).request? b
  have hrefl : s.Steady s := fun _ => .refl _
  have hdismiss : ∀ {c : CallId} {t : System}, b ≠ c → t.calls = (s.dismiss c).calls →
      (∀ name, (t.lockAt name).request? b = (s.lockAt name).request? b) →
        t.resumesAt b = s.resumesAt b := by
    intro c t hbc hcalls hl
    refine resumesAt_congr ?_ hl
    rw [hcalls, calls_dismiss, if_neg hbc]
  have hrouse : ∀ {c : CallId} {w : Waiter} {name : LockName}, b ≠ c →
      (s.lockAt name).waiter? c = some w →
        ((s.dismiss c).modifyLock name (·.rouse w)).resumesAt b = s.resumesAt b := by
    intro c w name hbc hv
    obtain ⟨-, rfl⟩ := ((hw.sound name).waiter?_eq_some_iff).mp hv
    refine hdismiss hbc rfl fun other => ?_
    exact rel_modifyLock (s := s) (f := fun l => l.rouse w)
      (R := fun l l' => l'.request? b = l.request? b) (fun _ => rfl)
      (fun _ => Lock.request?_rouse hbc) other
  have hne : ∀ {c : CallId}, p.call? = some c → b ≠ c := by
    rintro c hc rfl
    exact hb hc
  cases hs with
  | wake hk hv | expire hk _ hv => exact .inl (hrouse (hne rfl) hv)
  | @expireIdle c r name d goal hk hv =>
    obtain ⟨w, hmem, hcall⟩ := hw.waiter c r name d goal (sleeperAt_of_call hk)
    rw [(hw.sound name).waiter?_eq_some_iff.mpr ⟨hmem, hcall⟩] at hv
    exact absurd hv (by simp)
  | prepared hk | notPrepared hk | committed hk | notCommitted hk | rolledBack hk =>
    exact .inl (hdismiss (hne rfl) rfl fun _ => rfl)
  | @notPreparedEnded c _ _ _ _ _ _ hk _ hended | @notCommittedEnded c _ _ _ _ _ _ hk _ hended =>
    by_cases hbc : b = c
    · subst hbc
      refine .inr ⟨resumesAt_of_none (by rw [calls_dismiss, if_pos rfl]), fun q hq => ?_⟩
      rw [resumesAt, hk] at hq
      cases hq
      refine ⟨rfl, fun r access hu => ?_⟩
      cases hu
      exact hended
    · exact .inl (hdismiss hbc rfl fun _ => rfl)
  | release => exact .inl (hsame rfl (Lock.Steady.lenient.modifyLock (f := (Lock.release · _))
      fun _ => .release _ _))
  | interrupt | managerInterrupt =>
    exact .inl (hsame (calls_alert _ _).1 (Lock.Steady.lenient.alert (s.modifyTransaction _ _) _))
  | unlockAll | forget =>
    exact .inl (hsame (calls_releaseAll s _).1 (Lock.Steady.lenient.releaseAll s _))
  | _ => exact .inl (hsame rfl hrefl)

theorem Advance.exists_call (ha : Advance s p s' p') : ∃ c, p.call? = some c := by
  cases ha <;> exact ⟨_, rfl⟩

theorem Advance.call?_eq (ha : Advance s p s' p') :
    p'.call? = p.call? ∨ p'.call? = none := by
  cases ha.keeps with
  | nothing _ _ hp => exact hp.imp And.left And.left
  | call _ _ _ _ _ hp => exact .inr hp.1

theorem Advance.user?_eq (ha : Advance s p s' p') :
    p'.user? = p.user? ∨ p'.user? = none := by
  cases ha.keeps with
  | nothing _ _ hp => exact hp.imp And.right And.right
  | call _ _ _ _ _ hp => exact .inr hp.2

/-! ### Calls that go on beside another one -/

theorem Waiting.toIdle (h : Waiting s p) : Waiting s idle where
  sound := h.sound
  caller := h.caller
  waiter := h.waiter
  looked := by simp [Stage.lock?]

theorem InOrder.toIdle (h : InOrder s p) : InOrder s idle where
  fresh := h.fresh
  suited := h.suited
  known := h.known
  apart := h.apart
  numbered := h.numbered
  going := by simp [Stage.call?]
  user := by simp [Stage.user?]
  aside := by simp [Stage.user?]

/-- An advance of another call leaves a call that goes on in order. -/
theorem InOrder.beside_advance (h : InOrder s q) (ho : InOrder s p) (ha : Advance s p s' p')
    (hc : p.call? = some c) (hb : q.call? = some b) (hbc : b ≠ c)
    (hapart : ∀ r access access', p.user? = some (r, access) → q.user? = some (r, access') →
      access.permits access' = true) : InOrder s' q := by
  have ho' : InOrder s' idle := (ho.advance ha).toIdle
  refine ⟨ho'.fresh, ho'.suited, ho'.known, ho'.apart, ho'.numbered, ?_, ?_, ?_⟩
  · rintro d hd
    obtain rfl : b = d := Option.some.inj (hb.symm.trans hd)
    obtain ⟨hnone, hle⟩ := h.going b hb
    cases ha.keeps with
    | nothing hcalls hnext => rw [hcalls, hnext]; exact ⟨hnone, hle⟩
    | @call d _ _ _ hd _ _ hcalls hnext =>
      obtain rfl : d = c := Option.some.inj (hd.symm.trans hc)
      rw [hcalls, hnext]
      refine ⟨?_, Nat.le_trans hle (Nat.le_max_left _ _)⟩
      simpa only [Std.ExtTreeMap.getElem?_insert, Nat.compare_eq_eq, if_neg (Ne.symm hbc)]
        using hnone
  · exact fun r access hu => ha.mem_transactions.mpr (h.user r access hu)
  · intro r access hu d k hk hr
    cases ha.keeps with
    | nothing hcalls => exact h.aside r access hu d k (hcalls ▸ hk) hr
    | @call e t a point he ht _ hcalls =>
      simp only [hcalls, Std.ExtTreeMap.getElem?_insert, Nat.compare_eq_eq] at hk
      split at hk
      · obtain rfl := Option.some.inj hk
        obtain rfl : t = r := hr
        exact hapart t a access ht hu
      · exact h.aside r access hu d k hk hr

/-- A start leaves a call that goes on in order. -/
theorem InOrder.beside_start (h : InOrder s q) (ho : InOrder s idle) (hs : Start s e s' p)
    (hb : q.call? = some b) : InOrder s' q := by
  have ho' : InOrder s' idle := (ho.start hs).toIdle
  obtain ⟨hnone, hle⟩ := h.going b hb
  refine ⟨ho'.fresh, ho'.suited, ho'.known, ho'.apart, ho'.numbered, ?_, ?_, ?_⟩
  · rintro d hd
    obtain rfl : b = d := Option.some.inj (hb.symm.trans hd)
    cases ho.raises hs with
    | nothing hcalls hnext | new hcalls hnext => rw [hcalls, hnext]; exact ⟨hnone, hle⟩
    | call hk hcalls hnext =>
      rw [hcalls, hnext]
      refine ⟨?_, hle⟩
      rw [Std.ExtTreeMap.getElem?_erase]
      split
      · rfl
      · exact hnone
    | @late c _ _ _ _ hk hs' =>
      have hbc : b ≠ c := by
        rintro rfl
        rw [hnone] at hk
        exact absurd hk (by simp)
      rw [hs', calls_suspend, if_neg hbc]
      exact ⟨hnone, Nat.le_trans hle (Nat.le_max_left _ _)⟩
  · exact fun r access hu => hs.mem_transactions (h.user r access hu)
  · intro r access hu d k hk hr
    cases ho.raises hs with
    | nothing hcalls | new hcalls => exact h.aside r access hu d k (hcalls ▸ hk) hr
    | call _ hcalls =>
      rw [hcalls, Std.ExtTreeMap.getElem?_erase] at hk
      split at hk
      · exact absurd hk (by simp)
      · exact h.aside r access hu d k hk hr
    | @late c t name deadline goal hc hs' =>
      -- The call whose deadline passes uses its transaction as before.
      rw [hs', calls_suspend] at hk
      split at hk
      · obtain rfl := Option.some.inj hk
        exact (h.aside r access hu c _ hc hr :)
      · exact h.aside r access hu d k hk hr

/-- Who uses a transaction after a start: the event did, or nobody owns the use, or a call in
progress goes on. -/
theorem Start.use (ho : InOrder s idle) (hs : Start s e s' p) (hu : p.user? = some (r, access)) :
    e.use? = some (r, access) ∨ access = .unowned ∨
      ∃ (c : CallId) (k : Call), s.calls[c]? = some k ∧ k.transaction = r ∧ k.access = access := by
  cases hs with
  | lock | lockAll | acquire | upgrade | commit | commitInterrupted | rollback | drop =>
    cases hu
    exact .inl rfl
  | remove =>
    cases hu
    exact .inr (.inl rfl)
  | wake hk | expire hk | notPrepared hk | notCommitted hk | rolledBack hk =>
    cases hu
    exact .inr (.inr ⟨_, _, hk, rfl, rfl⟩)
  | prepared hk | committed hk =>
    cases hu
    exact .inr (.inr ⟨_, _, hk, rfl, ho.suited _ _ hk⟩)
  | _ => exact absurd hu (by simp [Stage.user?])

/-! ### Locks that were asked for -/

theorem mem_locks_retire : name ∈ (s.retire r).locks ↔ name ∈ s.locks := by
  rw [retire_eq]
  exact mem_locks_releaseAll

theorem Advance.mem_locks (ha : Advance s p s' p') (hl : name ∈ s.locks) : name ∈ s'.locks := by
  cases ha with
  | refuse | covered | ask => exact mem_locks_addLock.mpr (.inr hl)
  | sleep | grant | fail | giveBack => exact mem_locks_modifyLock.mpr hl
  | undone | committed => exact mem_locks_retire.mpr hl
  | removed => exact mem_locks_alert.mpr (mem_locks_retire.mpr hl)
  | _ => exact hl

theorem Start.mem_locks (hs : Start s e s' p) (hl : name ∈ s.locks) : name ∈ s'.locks := by
  cases hs with
  | release | wake | expire => exact mem_locks_modifyLock.mpr hl
  | interrupt | managerInterrupt => exact mem_locks_alert.mpr hl
  | unlockAll => exact mem_locks_releaseAll.mpr hl
  | forget => exact mem_locks_releaseAll.mpr hl
  | _ => exact hl

end System

/-- A system in which any number of calls go on at the same time. -/
structure Crowd where
  system : System
  /-- Where the calls stand that go on; all others are among the calls in progress. -/
  going : CallId → Option Stage

namespace Crowd

open Locking.System

/-- A system in which no call goes on. -/
def still (s : System) : Crowd := ⟨s, fun _ => none⟩

/-- Where a call stands that goes on, or goes on once it wakes up or its store has replied. -/
def stage? (k : Crowd) (c : CallId) : Option Stage := (k.going c).or (k.system.resumesAt c)

/-- No call that goes on stands in the way of the use that an event makes of its transaction. -/
def Admits (k : Crowd) (e : Event) : Prop :=
  ∀ r access, e.use? = some (r, access) → ∀ c p access', k.going c = some p →
    p.user? = some (r, access') → access'.permits access = true

/-- An event has changed the system and lets the call of a stage go on, if it has one. -/
def enter (k : Crowd) (s : System) (p : Stage) : Crowd where
  system := s
  going b := if p.call? = some b then some p else k.going b

/-- A call that goes on has changed the system and stands at another stage now. -/
def follow (k : Crowd) (c : CallId) (s : System) (p : Stage) : Crowd where
  system := s
  going b := if b = c then p.call?.map fun _ => p else k.going b

/-- What a fresh system can become when it meets a list of events while other calls go on.  An event
starts as in a run, but nobody waits for its call to come to a rest. -/
inductive Reached (fresh : System) : List Event → Crowd → Prop
  | fresh : Reached fresh [] (still fresh)
  | start {events k e s p} (h : Reached fresh events k) (ha : k.Admits e)
      (hs : Start k.system e s p) (hp : ∀ c, p.call? = some c → k.going c = none) :
    Reached fresh (events ++ [e]) (k.enter s p)
  | advance {events k c p s p'} (h : Reached fresh events k) (hc : k.going c = some p)
      (ha : Advance k.system p s p') : Reached fresh events (k.follow c s p')
  /-- A transaction that is on its way out gives back one of its locks ahead of the step that ends
  it and gives back all that are left. -/
  | release {events k r name} (h : Reached fresh events k)
      (hne : (k.system.transactionAt r).state ≠ .active) (hl : name ∈ k.system.locks) :
    Reached fresh events ⟨k.system.release r.id name, k.going⟩
  /-- A number that the next call might have had is left out, so that more calls can go on. -/
  | number {events k} (h : Reached fresh events k) :
    Reached fresh events ⟨{ k.system with nextCall := k.system.nextCall + 1 }, k.going⟩

/-- A call that goes on may return now, with an outcome. -/
def Returns (k : Crowd) (c : CallId) (outcome : Outcome) : Prop :=
  ∃ p s, k.going c = some p ∧ Advance k.system p s (.concluded (.returned outcome))

variable {k : Crowd} {fresh s s' : System} {events : List Event} {e : Event} {p p' q : Stage}
  {b c : CallId} {r : TransactionRef} {access access' : Access} {name : LockName}

/-! ### Runs -/

/-- A system in which no more than the call of one stage goes on. -/
def alone (s : System) (p : Stage) : Crowd :=
  ⟨s, fun b => if p.call? = some b then some p else none⟩

theorem follow_alone (hc : p.call? = some c) (hp : p'.call? = p.call? ∨ p'.call? = none) :
    (alone s p).follow c s' p' = alone s' p' := by
  simp only [follow, alone, mk.injEq, true_and]
  funext b
  rcases hp with hp | hp <;> by_cases hb : b = c <;>
    simp [hp, hc, hb, eq_comm (a := c)]

theorem Reached.advances {result : System × Response} (ha : Advances s p result)
    (h : Reached fresh events (alone s p)) : Reached fresh events (still result.1) := by
  induction ha with
  | concluded => exact h
  | step ha _ ih =>
    obtain ⟨c, hc⟩ := ha.exists_call
    refine ih ?_
    rw [← follow_alone hc ha.call?_eq]
    exact h.advance (if_pos hc) ha

/-- Every run is a crowd in which no two calls go on at the same time. -/
theorem Reached.run (h : Reached fresh events (still s)) (ho : System.InOrder s idle)
    (later : List Event) : Reached fresh (events ++ later) (still (s.run later)) := by
  induction later generalizing s events with
  | nil => rwa [List.append_nil]
  | cons e later ih =>
    obtain ⟨s', p, hs, ha⟩ := follows_step ho.tidy e
    have hnext : Reached fresh (events ++ [e]) (still (s.step e).1) :=
      .advances ha (h.start (fun _ _ _ _ _ _ hc => absurd hc (by simp [still])) hs fun _ _ => rfl)
    have hrun := ih hnext (InOrder.invariant.step ho trivial)
    rwa [List.append_assoc] at hrun

/-! ### Calls in order -/

/-- All calls of a crowd are numbered, and no two of them use a transaction in ways that exclude
each other. -/
structure Orderly (k : Crowd) : Prop where
  resting : System.InOrder k.system idle
  waiting : Waiting k.system idle
  call : ∀ c p, k.going c = some p → p.call? = some c
  inOrder : ∀ c p, k.going c = some p → System.InOrder k.system p
  apart : ∀ b c p q r access access', k.going b = some p → k.going c = some q → b ≠ c →
    p.user? = some (r, access) → q.user? = some (r, access') → access.permits access' = true
  looked : ∀ c p name, k.going c = some p → p.lock? = some name → name ∈ k.system.locks

theorem going_enter : (k.enter s p).going b = some q ↔
    p.call? = some b ∧ q = p ∨ p.call? ≠ some b ∧ k.going b = some q := by
  show (if p.call? = some b then some p else k.going b) = some q ↔ _
  split
  · next h => simp [h, eq_comm]
  · next h => simp [h]

theorem going_follow : (k.follow c s p).going b = some q ↔
    b = c ∧ p.call? ≠ none ∧ q = p ∨ b ≠ c ∧ k.going b = some q := by
  show (if b = c then p.call?.map fun _ => p else k.going b) = some q ↔ _
  split
  · next h =>
    cases hp : p.call? with
    | none => simp [h]
    | some d => simp [h, eq_comm]
  · next h => simp [h]

theorem enter_concluded {response : Response} :
    k.enter s (.concluded response) = ⟨s, k.going⟩ := by
  simp [enter, Stage.call?]

namespace Orderly

theorem waitingAt (h : k.Orderly) (hc : k.going c = some p) : Waiting k.system p :=
  ⟨h.waiting.sound, h.waiting.caller, h.waiting.waiter, fun name => h.looked c p name hc⟩

theorem advance (h : k.Orderly) (hc : k.going c = some p) (ha : Advance k.system p s' p') :
    (k.follow c s' p').Orderly where
  resting := ((h.inOrder c p hc).advance ha).toIdle
  waiting := ((h.waitingAt hc).advance (h.inOrder c p hc) ha).toIdle
  call b q hq := by
    obtain ⟨rfl, hp', rfl⟩ | ⟨-, hq⟩ := going_follow.mp hq
    · exact (ha.call?_eq.resolve_right hp').trans (h.call _ _ hc)
    · exact h.call b q hq
  inOrder b q hq := by
    obtain ⟨-, -, rfl⟩ | ⟨hb, hq⟩ := going_follow.mp hq
    · exact (h.inOrder c p hc).advance ha
    · exact (h.inOrder b q hq).beside_advance (h.inOrder c p hc) ha (h.call c p hc)
        (h.call b q hq) hb fun r access access' => h.apart c b p q r access access' hc hq hb.symm
  apart a b q q' r access access' hq hq' hab hu hu' := by
    have hold : ∀ {access}, p'.user? = some (r, access) → p.user? = some (r, access) := fun hu =>
      (ha.user?_eq.resolve_right (by simp [hu])).symm.trans hu
    rcases going_follow.mp hq with ⟨hac, -, rfl⟩ | ⟨-, hq⟩ <;>
      rcases going_follow.mp hq' with ⟨hbc, -, hp⟩ | ⟨-, hq'⟩
    · exact absurd (hac.trans hbc.symm) hab
    · exact h.apart c b p q' r access access' hc hq' (hac ▸ hab) (hold hu) hu'
    · exact h.apart a c q p r access access' hq hc (hbc ▸ hab) hu (hold (hp ▸ hu'))
    · exact h.apart a b q q' r access access' hq hq' hab hu hu'
  looked b q name hq hn := by
    obtain ⟨-, -, rfl⟩ | ⟨-, hq⟩ := going_follow.mp hq
    · exact ((h.waitingAt hc).advance (h.inOrder c p hc) ha).looked name hn
    · exact ha.mem_locks (h.looked b q name hq hn)

theorem start (h : k.Orderly) (hadmits : k.Admits e) (hs : Start k.system e s' p) :
    (k.enter s' p).Orderly where
  resting := (h.resting.start hs).toIdle
  waiting := (h.waiting.start h.resting hs).toIdle
  call b q hq := by
    obtain ⟨hb, rfl⟩ | ⟨-, hq⟩ := going_enter.mp hq
    · exact hb
    · exact h.call b q hq
  inOrder b q hq := by
    obtain ⟨-, rfl⟩ | ⟨-, hq⟩ := going_enter.mp hq
    · exact h.resting.start hs
    · exact (h.inOrder b q hq).beside_start h.resting hs (h.call b q hq)
  apart a b q q' r access access' hq hq' hab hu hu' := by
    have hbeside : ∀ {c q access access'}, k.going c = some q → q.user? = some (r, access) →
        p.user? = some (r, access') → access.permits access' = true := by
      intro c q access access' hc hq hp
      rcases hs.use h.resting hp with huse | rfl | ⟨d, j, hd, hj, rfl⟩
      · exact hadmits r access' huse c q access hc hq
      · cases access <;> rfl
      · rw [Access.permits_comm]
        exact (h.inOrder c q hc).aside r access hq d j hd hj
    rcases going_enter.mp hq with ⟨hcall, rfl⟩ | ⟨-, hq⟩ <;>
      rcases going_enter.mp hq' with ⟨hcall', hp⟩ | ⟨-, hq'⟩
    · exact absurd (Option.some.inj (hcall.symm.trans hcall')) hab
    · rw [Access.permits_comm]
      exact hbeside hq' hu' hu
    · exact hbeside hq hu (hp ▸ hu')
    · exact h.apart a b q q' r access access' hq hq' hab hu hu'
  looked b q name hq hn := by
    obtain ⟨-, rfl⟩ | ⟨-, hq⟩ := going_enter.mp hq
    · exact (h.waiting.start h.resting hs).looked name hn
    · exact hs.mem_locks (h.looked b q name hq hn)

theorem release {i : TransactionId} (h : k.Orderly) (hl : name ∈ k.system.locks) :
    (⟨k.system.release i name, k.going⟩ : Crowd).Orderly := by
  rw [← enter_concluded]
  exact h.start (e := .release i name) (fun _ _ huse => absurd huse (by simp [Event.use?]))
    (.release hl)

theorem number (h : k.Orderly) :
    (⟨{ k.system with nextCall := k.system.nextCall + 1 }, k.going⟩ : Crowd).Orderly := by
  have hnext : ∀ {p}, System.InOrder k.system p →
      System.InOrder { k.system with nextCall := k.system.nextCall + 1 } p := fun h =>
    ⟨fun c j hj => Nat.lt_succ_of_lt (h.fresh c j hj), h.suited, h.known, h.apart, h.numbered,
      fun c hc => ⟨(h.going c hc).1, Nat.le_succ_of_le (h.going c hc).2⟩, h.user, h.aside⟩
  exact ⟨hnext h.resting, ⟨h.waiting.sound, h.waiting.caller, h.waiting.waiter, h.waiting.looked⟩,
    h.call, fun c p hc => hnext (h.inOrder c p hc), h.apart, h.looked⟩

theorem still (ho : System.InOrder s idle) (hw : Waiting s idle) : (still s).Orderly where
  resting := ho
  waiting := hw
  call := by simp [Crowd.still]
  inOrder := by simp [Crowd.still]
  apart := by simp [Crowd.still]
  looked := by simp [Crowd.still]

/-! ### Where the calls stand -/

/-- No two calls use a transaction in ways that exclude each other, wherever they stand. -/
theorem apart_stage? (h : k.Orderly) (hp : k.stage? b = some p) (hq : k.stage? c = some q)
    (hbc : b ≠ c) (hu : p.user? = some (r, access)) (hu' : q.user? = some (r, access')) :
    access.permits access' = true := by
  rcases Option.or_eq_some_iff.mp hp with hp | ⟨-, hp⟩ <;>
    rcases Option.or_eq_some_iff.mp hq with hq | ⟨-, hq⟩
  · exact h.apart b c p q r access access' hp hq hbc hu hu'
  · obtain ⟨j, hj, -, hju⟩ := h.resting.resumesAt hq
    obtain ⟨rfl, rfl⟩ := Prod.mk.inj (Option.some.inj (hju.symm.trans hu'))
    rw [Access.permits_comm]
    exact (h.inOrder b p hp).aside _ _ hu c j hj rfl
  · obtain ⟨j, hj, -, hju⟩ := h.resting.resumesAt hp
    obtain ⟨rfl, rfl⟩ := Prod.mk.inj (Option.some.inj (hju.symm.trans hu))
    exact (h.inOrder c q hq).aside _ _ hu' b j hj rfl
  · obtain ⟨i, hi, -, hiu⟩ := h.resting.resumesAt hp
    obtain ⟨j, hj, -, hju⟩ := h.resting.resumesAt hq
    obtain ⟨rfl, rfl⟩ := Prod.mk.inj (Option.some.inj (hiu.symm.trans hu))
    obtain ⟨hr, rfl⟩ := Prod.mk.inj (Option.some.inj (hju.symm.trans hu'))
    exact h.resting.apart b c i j hi hj hbc hr.symm

theorem stage?_follow_ne (h : k.Orderly) (hc : k.going c = some p)
    (ha : Advance k.system p s' p') (hb : b ≠ c) :
    (k.follow c s' p').stage? b = k.stage? b := by
  have hgoing : (k.follow c s' p').going b = k.going b := if_neg hb
  have hrest : s'.resumesAt b = k.system.resumesAt b :=
    ha.resumesAt_ne (h.inOrder c p hc) (h.waitingAt hc) (h.call c p hc) hb
  rw [stage?, hgoing, stage?]
  exact congrArg _ hrest

/-- A call that advances stands where it has advanced to, or has been suspended. -/
theorem stage?_follow_self (h : k.Orderly) (hc : k.going c = some p)
    (ha : Advance k.system p s' p') (hq : (k.follow c s' p').stage? c = some q) :
    p'.call? = some c ∧ q = p' ∨ p'.call? = none ∧ p.Suspends q := by
  have hcall := h.call c p hc
  have ho := h.inOrder c p hc
  rcases Option.or_eq_some_iff.mp hq with hq | ⟨hnone, hq⟩
  · obtain ⟨-, hp', rfl⟩ | ⟨hne, -⟩ := going_follow.mp hq
    · exact .inl ⟨(ha.call?_eq.resolve_right hp').trans hcall, rfl⟩
    · exact absurd rfl hne
  · have hp' : p'.call? = none := by
      by_contra hp'
      rw [going_follow.mpr (.inl ⟨rfl, hp', rfl⟩)] at hnone
      exact absurd hnone (by simp)
    exact .inr ⟨hp', ha.suspends ho (h.waitingAt hc) hcall hp' hq⟩

/-- An advance leaves alone where the other calls stand. -/
theorem stage?_follow (h : k.Orderly) (hc : k.going c = some p)
    (ha : Advance k.system p s' p') (hq : (k.follow c s' p').stage? b = some q) :
    b ≠ c ∧ k.stage? b = some q ∨
      b = c ∧ (p'.call? = some c ∧ q = p' ∨ p'.call? = none ∧ p.Suspends q) := by
  by_cases hb : b = c
  · subst hb
    exact .inr ⟨rfl, h.stage?_follow_self hc ha hq⟩
  · rw [h.stage?_follow_ne hc ha hb] at hq
    exact .inl ⟨hb, hq⟩

theorem stage?_enter (h : k.Orderly) (hs : Start k.system e s' p)
    (hq : (k.enter s' p).stage? b = some q) :
    p.call? = some b ∧ q = p ∨ p.call? ≠ some b ∧ k.stage? b = some q := by
  rcases Option.or_eq_some_iff.mp hq with hq | ⟨hnone, hq⟩
  · exact (going_enter.mp hq).imp_right fun ⟨hb, hq⟩ => ⟨hb, Option.or_eq_some_iff.mpr (.inl hq)⟩
  · have hb : p.call? ≠ some b := by
      intro hb
      rw [going_enter.mpr (.inl ⟨hb, rfl⟩)] at hnone
      exact absurd hnone (by simp)
    have hgoing : k.going b = none := (if_neg hb).symm.trans hnone
    have hrest : k.system.resumesAt b = some q := by
      rcases hs.resumesAt_ne h.waiting hb with hrest | ⟨hrest, -⟩
      · exact hrest.symm.trans hq
      · exact absurd (hrest.symm.trans hq) (by simp)
    exact .inr ⟨hb, Option.or_eq_some_iff.mpr (.inr ⟨hgoing, hrest⟩)⟩

/-- A request that has looked at a lock goes on there, or is still asleep. -/
theorem looking_enter {kind : Request} {d : Deadline} {goal : Goal} {w : Bool}
    (h : k.Orderly) (hs : Start k.system e s' p) (hnew : ∀ b, p.call? = some b → k.going b = none)
    (hq : k.stage? b = some (.looking c r name kind d goal w)) :
    ∃ d', (k.enter s' p).stage? b = some (.looking c r name kind d' goal w) := by
  by_cases hb : p.call? = some b
  · have hrest : k.system.resumesAt b = some (.looking c r name kind d goal w) := by
      rw [stage?, hnew b hb] at hq
      exact hq
    obtain ⟨d', rfl⟩ := hs.looking_of_resumesAt h.resting hb hrest
    exact ⟨d', Option.or_eq_some_iff.mpr (.inl (going_enter.mpr (.inl ⟨hb, rfl⟩)))⟩
  · refine ⟨d, ?_⟩
    have hgoing : (k.enter s' p).going b = k.going b := if_neg hb
    rw [stage?, hgoing]
    rcases Option.or_eq_some_iff.mp hq with hq | ⟨hnone, hq⟩
    · rw [hq]
      rfl
    · rw [hnone]
      rcases hs.resumesAt_ne h.waiting hb with hrest | ⟨-, hlock⟩
      · exact hrest.trans hq
      · exact absurd (hlock _ hq).1 (by simp [Stage.lock?])

end Orderly

end Crowd

end Locking
