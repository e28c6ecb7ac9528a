import Locking.Proofs.System.Burden

/-! Calls that have more locks to take later.  What a call does now does not depend on the locks
that it takes afterwards, and what the others do does not depend on the call at all, but for its
transaction and the use that it makes of it.  So a system in which a call is extended by more locks
meets the same advances and starts, with the same effect, as long as the call has not come to the
locks that it has more. -/

namespace Locking

/-! ### More locks -/

def Goal.extend (more : List Need) : Goal → Goal
  | single => single
  | plan e rest => plan e (rest ++ more)

def Point.extend (more : List Need) : Point → Point
  | waiting name d goal => waiting name d (goal.extend more)
  | p => p

/-- Whether a call at this point commits its transaction. -/
def Point.commits : Point → Bool
  | preparing .. | committing .. => true
  | _ => false

/-- The transaction of a call in progress, and the use it makes of it. -/
def Call.use (k : Call) : TransactionRef × Access := (k.transaction, k.access)

/-- A call that takes more locks after those that it takes anyway. -/
def Call.extend (more : List Need) (k : Call) : Call := { k with point := k.point.extend more }

namespace Call

variable (k : Call) (more : List Need)

theorem isAsleep_extend : (k.extend more).point.isAsleep = k.point.isAsleep := by
  obtain ⟨r, access, point⟩ := k
  cases point <;> rfl

theorem commits_extend : (k.extend more).point.commits = k.point.commits := by
  obtain ⟨r, access, point⟩ := k
  cases point <;> rfl

@[simp] theorem extend_nil : k.extend [] = k := by
  obtain ⟨r, access, point⟩ := k
  cases point with
  | waiting name d goal => cases goal <;> simp [extend, Point.extend, Goal.extend]
  | _ => rfl

end Call

namespace Stage

def extend (more : List Need) : Stage → Stage
  | taking c r d needs => taking c r d (needs ++ more)
  | looking c r name kind d goal w => looking c r name kind d (goal.extend more) w
  | granted c r d goal w => granted c r d (goal.extend more) w
  | failed c r goal error => failed c r (goal.extend more) error
  | p => p

/-- The stage at which a call stands that has more locks to take if it is call `c`. -/
def extendAt (c : CallId) (more : List Need) (p : Stage) : Stage :=
  if p.call? = some c then p.extend more else p

variable {c : CallId} {more : List Need} {p : Stage}

@[simp] theorem call?_extend : (p.extend more).call? = p.call? := by
  cases p <;> rfl

@[simp] theorem user?_extend : (p.extend more).user? = p.user? := by
  cases p <;> rfl

@[simp] theorem call?_extendAt : (p.extendAt c more).call? = p.call? := by
  unfold extendAt
  split <;> simp

theorem extendAt_of_eq (h : p.call? = some c) : p.extendAt c more = p.extend more := if_pos h

theorem extendAt_of_ne (h : p.call? ≠ some c) : p.extendAt c more = p := if_neg h

@[simp] theorem extend_nil : p.extend [] = p := by
  cases p with
  | looking _ _ _ _ _ goal | granted _ _ _ goal | failed _ _ goal =>
    cases goal <;> simp [extend, Goal.extend]
  | taking => simp [extend]
  | _ => rfl

end Stage

namespace System

variable {s s' t : System} {p p' q : Stage} {e : Event} {r : TransactionRef} {b c : CallId}
  {k : Call} {o o' : Option Call} {more : List Need}

/-! ### A call put in place of another one -/

/-- Puts a call, or none, in the place of call `c`. -/
def put (s : System) (c : CallId) (o : Option Call) : System :=
  { s with calls := s.calls.alter c fun _ => o }

theorem calls_put : (s.put c o).calls[b]? = if b = c then o else s.calls[b]? := by
  simp only [put, Std.ExtTreeMap.getElem?_alter, Nat.compare_eq_eq, eq_comm (a := b)]

/-- All of a system but the calls in progress: the locks, the wait-for graph, the transactions with
their lock sets, and the statistics. -/
def shared (s : System) : System := { s with calls := ∅ }

theorem ext_calls (hcalls : ∀ b : CallId, s.calls[b]? = t.calls[b]?) (ht : s.shared = t.shared) :
    s = t := by
  have hmap : s.calls = t.calls := Std.ExtTreeMap.ext_getElem? fun b => hcalls b
  cases s
  cases t
  simp_all [shared]

theorem put_put : (s.put c o).put c o' = s.put c o' := by
  refine ext_calls (fun d => ?_) rfl
  simp only [calls_put]
  split <;> rfl

theorem put_calls (h : s.calls[c]? = o) : s.put c o = s := by
  refine ext_calls (fun d => ?_) rfl
  rw [calls_put]
  split
  · next hd => rw [hd, h]
  · rfl

theorem put_suspend (hb : b ≠ c) : (s.suspend b k).put c o = (s.put c o).suspend b k := by
  refine ext_calls (fun d => ?_) rfl
  simp only [calls_suspend, calls_put]
  split
  · next hd => rw [if_neg (hd ▸ hb.symm)]
  · rfl

theorem put_suspend_self {k' : Call} : (s.suspend c k).put c (some k') = s.suspend c k' := by
  refine ext_calls (fun d => ?_) rfl
  simp only [calls_suspend, calls_put]
  split <;> rfl

theorem put_dismiss (hb : b ≠ c) : (s.dismiss b).put c o = (s.put c o).dismiss b := by
  refine ext_calls (fun d => ?_) rfl
  simp only [calls_dismiss, calls_put]
  split
  · next hd => rw [if_neg (hd ▸ hb.symm)]
  · rfl

theorem dismiss_put : (s.put c o).dismiss c = s.dismiss c := by
  refine ext_calls (fun d => ?_) rfl
  simp only [calls_dismiss, calls_put]
  split <;> rfl

theorem put_retire : (s.retire r).put c o = (s.put c o).retire r := by
  simp only [retire_eq, forget_eq, releaseAll_eq]
  rfl

/-- The end of a transaction, whichever it is, is the same with another call in the place. -/
theorem put_ended {state : State} {statistics : Statistics} :
    (((s.setState r state).retire r).setStatistics statistics).put c o =
      (((s.put c o).setState r state).retire r).setStatistics statistics :=
  congrArg (setStatistics · _) put_retire

theorem put_alert : (s.alert r).put c o = (s.put c o).alert r := by
  simp only [alert, show (s.put c o).transactionAt r = s.transactionAt r from rfl]
  split <;> rfl

theorem put_releaseAll : (s.releaseAll r).put c o = (s.put c o).releaseAll r := by
  simp only [releaseAll_eq]
  rfl

/-- A call that makes the same use of its transaction stands in the way of the same uses. -/
theorem admits_put {access : Access} (ho : o.map Call.use = s.calls[c]?.map Call.use) :
    (s.put c o).admits r access = s.admits r access := by
  have huse : ∀ d : CallId, (s.put c o).calls[d]?.map Call.use = s.calls[d]?.map Call.use := by
    intro d
    rw [calls_put]
    split
    · next hd => rw [hd, ho]
    · rfl
  rw [Bool.eq_iff_iff, admits_iff, admits_iff]
  refine and_congr_right fun _ => and_congr_right fun _ => forall_congr' fun d => ?_
  have hd := huse d
  cases hk : (s.put c o).calls[d]? with
  | none =>
    rw [hk, Option.map_none, eq_comm, Option.map_eq_none_iff] at hd
    simp [hd]
  | some k =>
    rw [hk, Option.map_some, eq_comm, Option.map_eq_some_iff] at hd
    obtain ⟨k', hk', hu⟩ := hd
    obtain ⟨hr, ha⟩ : k'.transaction = k.transaction ∧ k'.access = k.access := Prod.mk.inj hu
    simp [hk', hr, ha]

/-! ### The others -/

/-- An advance of another call does not depend on call `c`. -/
theorem Advance.put (ha : Advance s p s' p') (hc : p.call? ≠ some c) (o : Option Call) :
    Advance (s.put c o) p (s'.put c o) p' := by
  have hne : ∀ {b}, p.call? = some b → b ≠ c := by
    rintro b hb rfl
    exact hc hb
  cases ha with
  | done => exact .done
  | refuse hi => exact .refuse hi
  | covered hi hk => exact .covered hi hk
  | ask hi hk => exact .ask hi hk
  | sleep hj =>
    rw [put_suspend (hne rfl)]
    exact .sleep hj
  | grant hj => exact .grant hj
  | fail hj => exact .fail hj
  | grantedSingle => exact .grantedSingle
  | keep hs => exact .keep hs
  | giveBack hs => exact .giveBack hs
  | failedSingle => exact .failedSingle
  | abort hs => exact .abort hs
  | abortEnded hs => exact .abortEnded hs
  | undo =>
    rw [put_suspend (hne rfl)]
    exact .undo
  | undone hcause =>
    rw [put_ended]
    exact .undone hcause
  | removed =>
    rw [put_alert, put_ended]
    exact .removed
  | beginPhased ht => exact .beginPhased ht
  | beginAtOnce ht => exact .beginAtOnce ht
  | prepare =>
    rw [put_suspend (hne rfl)]
    exact .prepare
  | prepared => exact .prepared
  | commit =>
    rw [put_suspend (hne rfl)]
    exact .commit
  | committed =>
    rw [put_ended]
    exact .committed

theorem Advance.calls_aside (ha : Advance s p s' p') (hc : p.call? ≠ some c) :
    s'.calls[c]? = s.calls[c]? := by
  obtain ⟨b, hb⟩ := ha.exists_call
  exact ha.calls_ne hb fun h => hc (h ▸ hb)

/-- Nor does an event that does not let call `c` go on depend on more than the use it makes of its
transaction. -/
theorem Start.put (hs : Start s e s' p) (he : e.resumes c = false) (hc : p.call? ≠ some c)
    (ho : o.map Call.use = s.calls[c]?.map Call.use) :
    Start (s.put c o) e (s'.put c o) p ∧ s'.calls[c]? = s.calls[c]? := by
  have hadmits : ∀ {r access}, s.admits r access = true → (s.put c o).admits r access = true :=
    fun ha => (admits_put ho).trans ha
  have hkept : ∀ {b k}, b ≠ c → s.calls[b]? = some k → (s.put c o).calls[b]? = some k := by
    intro b k hb hk
    rw [calls_put, if_neg hb, hk]
  have hdismissed : ∀ {b}, b ≠ c → (s.dismiss b).calls[c]? = s.calls[c]? := by
    intro b hb
    rw [calls_dismiss, if_neg hb.symm]
  cases hs with
  | quiet hr hq =>
    refine ⟨.quiet hr fun b answer heq k hk => ?_, rfl⟩
    have hb : b ≠ c := by
      rintro rfl
      simp [heq, Event.resumes] at he
    rw [calls_put, if_neg hb] at hk
    exact hq b answer heq k hk
  | begin hn => exact ⟨.begin hn, rfl⟩
  | lock ha hs => exact ⟨.lock (hadmits ha) hs, rfl⟩
  | lockAll ha hs => exact ⟨.lockAll (hadmits ha) hs, rfl⟩
  | acquire ha hl hi hk => exact ⟨.acquire (hadmits ha) hl hi hk, rfl⟩
  | upgrade ha hl hi hk => exact ⟨.upgrade (hadmits ha) hl hi hk, rfl⟩
  | release hl => exact ⟨.release hl, rfl⟩
  | register ha hs hn => exact ⟨.register (hadmits ha) hs hn, rfl⟩
  | commit ha hs hi => exact ⟨.commit (hadmits ha) hs hi, rfl⟩
  | commitInterrupted ha hi hs => exact ⟨.commitInterrupted (hadmits ha) hi hs, rfl⟩
  | rollback ha hs => exact ⟨.rollback (hadmits ha) hs, rfl⟩
  | drop ha hs => exact ⟨.drop (hadmits ha) hs, rfl⟩
  | dropEnded ha hs => exact ⟨.dropEnded (hadmits ha) hs, rfl⟩
  | interrupt hr =>
    refine ⟨?_, by rw [System.interrupt, (calls_alert _ _).1]; rfl⟩
    rw [System.interrupt, put_alert]
    exact .interrupt hr
  | managerInterrupt hr =>
    refine ⟨?_, by rw [System.interrupt, (calls_alert _ _).1]; rfl⟩
    rw [System.interrupt, put_alert]
    exact .managerInterrupt hr
  | remove hs => exact ⟨.remove hs, rfl⟩
  | unlockAll ha =>
    rw [put_releaseAll, (calls_releaseAll s _).1]
    exact ⟨.unlockAll (hadmits ha), rfl⟩
  | forget ha =>
    have hforget : ∀ r, (s.forget r).put c o = (s.put c o).forget r := fun r => by
      simp only [forget_eq, releaseAll_eq]
      rfl
    rw [hforget]
    exact ⟨.forget (hadmits ha), by rw [forget_eq]; exact congrArg (·[c]?) (calls_releaseAll s _).1⟩
  | wait => exact ⟨.wait, rfl⟩
  | stopWaiting => exact ⟨.stopWaiting, rfl⟩
  | removeWaits => exact ⟨.removeWaits, rfl⟩
  | pace => exact ⟨.pace, rfl⟩
  | @wake b r name d goal w hk hw =>
    have hb : b ≠ c := by simpa [Event.resumes] using he
    refine ⟨?_, hdismissed hb⟩
    show Start _ _ (((s.dismiss b).put c o).modifyLock name _) _
    rw [put_dismiss hb]
    exact .wake (hkept hb hk) hw
  | @expire b r name d goal w hk hd hw =>
    have hb : b ≠ c := by simpa [Event.resumes] using he
    refine ⟨?_, hdismissed hb⟩
    show Start _ _ (((s.dismiss b).put c o).modifyLock name _) _
    rw [put_dismiss hb]
    exact .expire (hkept hb hk) hd hw
  | @expireIdle b r name d goal hk hw =>
    have hb : b ≠ c := by simpa [Event.resumes] using he
    rw [put_suspend hb, calls_suspend, if_neg hb.symm]
    exact ⟨.expireIdle (hkept hb hk) hw, rfl⟩
  | @prepared b r access store rest answer hk ha =>
    have hb : b ≠ c := by simpa [Event.resumes] using he
    rw [put_dismiss hb]
    exact ⟨.prepared (hkept hb hk) ha, hdismissed hb⟩
  | @notPrepared b r access store rest answer error hk ha hs =>
    have hb : b ≠ c := by simpa [Event.resumes] using he
    refine ⟨?_, hdismissed hb⟩
    show Start _ _ (((s.dismiss b).put c o).setState r .aborting) _
    rw [put_dismiss hb]
    exact .notPrepared (hkept hb hk) ha hs
  | @notPreparedEnded b r access store rest answer error hk ha hs =>
    have hb : b ≠ c := by simpa [Event.resumes] using he
    rw [put_dismiss hb]
    exact ⟨.notPreparedEnded (hkept hb hk) ha hs, hdismissed hb⟩
  | @committed b r access store rest answer hk ha =>
    have hb : b ≠ c := by simpa [Event.resumes] using he
    rw [put_dismiss hb]
    exact ⟨.committed (hkept hb hk) ha, hdismissed hb⟩
  | @notCommitted b r access store rest answer error hk ha hs =>
    have hb : b ≠ c := by simpa [Event.resumes] using he
    refine ⟨?_, hdismissed hb⟩
    show Start _ _ (((s.dismiss b).put c o).setState r .aborting) _
    rw [put_dismiss hb]
    exact .notCommitted (hkept hb hk) ha hs
  | @notCommittedEnded b r access store rest answer error hk ha hs =>
    have hb : b ≠ c := by simpa [Event.resumes] using he
    rw [put_dismiss hb]
    exact ⟨.notCommittedEnded (hkept hb hk) ha hs, hdismissed hb⟩
  | @rolledBack b r access store rest cause answer statistics hk =>
    have hb : b ≠ c := by simpa [Event.resumes] using he
    refine ⟨?_, hdismissed hb⟩
    show Start _ _ (((s.dismiss b).put c o).setStatistics statistics) _
    rw [put_dismiss hb]
    exact .rolledBack (hkept hb hk)

/-! ### The call itself -/

/-- The system in which call `c`, if it is in progress, has more locks to take. -/
def extend (s : System) (c : CallId) (more : List Need) : System :=
  s.put c (s.calls[c]?.map (·.extend more))

theorem extend_of_none (h : s.calls[c]? = none) : s.extend c more = s :=
  put_calls (by rw [h]; rfl)

theorem extend_of_dismissed (h : t.calls = (s.dismiss c).calls) : t.extend c more = t :=
  extend_of_none (by rw [h, calls_dismiss, if_pos rfl])

theorem extend_nil : s.extend c [] = s :=
  put_calls (by cases s.calls[c]? <;> simp)

theorem put_extend : (s.extend c more).put c o = s.put c o := put_put

theorem extend_put : (s.put c o).extend c more = s.put c (o.map (·.extend more)) := by
  rw [extend, calls_put, if_pos rfl, put_put]

theorem extend_suspend : (s.suspend c k).extend c more = s.suspend c (k.extend more) := by
  rw [extend, calls_suspend, if_pos rfl]
  exact put_suspend_self

theorem dismiss_extend : (s.extend c more).dismiss c = s.dismiss c := dismiss_put

theorem calls_extend : (s.extend c more).calls[c]? = s.calls[c]?.map (·.extend more) := by
  rw [extend, calls_put, if_pos rfl]

theorem isAsleep_extend : (s.extend c more).calls[c]?.map (·.point.isAsleep) =
    s.calls[c]?.map (·.point.isAsleep) := by
  rw [calls_extend, Option.map_map]
  exact congrArg (Option.map · _) (funext fun k => k.isAsleep_extend more)

/-- As long as there is a lock left to take, a call does the same if it has more locks to take. -/
theorem Advance.extend (ha : Advance s p s' p') (hc : p.call? = some c) (hk : s.calls[c]? = none)
    (hleft : ∀ r d, p = .taking c r d [] → more = []) :
    Advance s (p.extend more) (s'.extend c more) (p'.extend more) := by
  -- Unless it is suspended, the call is not in progress afterwards.
  have hstep : s'.calls = s.calls → Advance s (p.extend more) s' (p'.extend more) →
      Advance s (p.extend more) (s'.extend c more) (p'.extend more) := by
    intro hcalls h
    rwa [extend_of_none ((congrArg (·[c]?) hcalls).trans hk)]
  cases ha with
  | done =>
    obtain rfl := hleft _ _ (by cases hc; rfl)
    rw [extend_nil, Stage.extend_nil]
    exact .done
  | refuse hi => exact hstep rfl (.refuse hi)
  | covered hi hk => exact hstep rfl (.covered hi hk)
  | ask hi hk => exact hstep rfl (.ask hi hk)
  | sleep hj =>
    cases hc
    rw [extend_suspend]
    exact .sleep hj
  | grant hj => exact hstep rfl (.grant hj)
  | fail hj => exact hstep rfl (.fail hj)
  | grantedSingle => exact hstep rfl .grantedSingle
  | keep hs => exact hstep rfl (.keep hs)
  | giveBack hs => exact hstep rfl (.giveBack hs)
  | failedSingle => exact hstep rfl .failedSingle
  | abort hs => exact hstep rfl (.abort hs)
  | abortEnded hs => exact hstep rfl (.abortEnded hs)
  | undo =>
    cases hc
    rw [extend_suspend]
    exact .undo
  | undone hcause => exact hstep (calls_retire _ _).1 (.undone hcause)
  | removed => exact hstep ((calls_alert _ _).1.trans (calls_retire _ _).1) .removed
  | beginPhased ht => exact hstep rfl (.beginPhased ht)
  | beginAtOnce ht => exact hstep rfl (.beginAtOnce ht)
  | prepare =>
    cases hc
    rw [extend_suspend]
    exact .prepare
  | prepared => exact hstep rfl .prepared
  | commit =>
    cases hc
    rw [extend_suspend]
    exact .commit
  | committed => exact hstep (calls_retire _ _).1 .committed

theorem Advance.extend_ne (ha : Advance s p s' p') (hc : p.call? ≠ some c) :
    Advance (s.extend c more) p (s'.extend c more) p' := by
  rw [System.extend, System.extend, ha.calls_aside hc]
  exact ha.put hc _

theorem Advance.of_extend_ne (ha : Advance (s.extend c more) p t q) (hc : p.call? ≠ some c) :
    ∃ s', Advance s p s' q ∧ t = s'.extend c more := by
  have h := ha.put hc s.calls[c]?
  rw [put_extend, put_calls rfl] at h
  refine ⟨_, h, ?_⟩
  rw [extend_put, ← calls_extend, ← ha.calls_aside hc, put_calls rfl]

/-- Where a call stands and the system determine its next advance. -/
theorem Advance.unique (h : Advance s p s' p') (h' : Advance s p t q) : t = s' ∧ q = p' := by
  cases h <;> cases h' <;> simp_all

/-- As long as there is a lock left to take, a call with more locks to take does what it does
anyway. -/
theorem Advance.of_extend (ha : Advance s (p.extend more) t q) (hc : p.call? = some c)
    (hk : s.calls[c]? = none) (hleft : ∀ r d, p = .taking c r d [] → more = []) :
    ∃ s' p', Advance s p s' p' ∧ t = s'.extend c more ∧ q = p'.extend more := by
  obtain ⟨s', p', h⟩ := exists_advance s hc
  obtain ⟨ht, hq⟩ := (h.extend hc hk hleft).unique ha
  exact ⟨s', p', h, ht, hq⟩

/-- What an event does that lets a call go on which is asleep or rolls its transaction back. -/
inductive Resumption (s : System) (c : CallId) : Event → System → Stage → Prop
  /-- It does nothing, and would do nothing if the call had any other plans. -/
  | quiet {e response} (h : ∀ t : System, t.calls[c]?.map (·.point.isAsleep) =
      s.calls[c]?.map (·.point.isAsleep) → Start t e t (.concluded response)) :
    Resumption s c e s (.concluded response)
  | wake {r name d goal w} (hk : s.calls[c]? = some ⟨r, .shared, .waiting name d goal⟩)
      (hw : (s.lockAt name).waiter? c = some w) :
    Resumption s c (.wake c) ((s.dismiss c).modifyLock name (·.rouse w))
      (.looking c r name w.request d goal true)
  | rolledBack {r access store rest cause answer statistics}
      (hk : s.calls[c]? = some ⟨r, access, .rollingBack store rest cause⟩) :
    Resumption s c (.reply c answer) ((s.dismiss c).setStatistics statistics)
      (.undoing c r access cause rest)

theorem Start.resumption (hs : Start s e s' p) (he : e.resumes c = true) (hexpire : e ≠ .expire c)
    (hcommit : ∀ k, s.calls[c]? = some k → k.point.commits = false) :
    s.Resumption c e s' p := by
  cases hs with
  | quiet hr hq =>
    refine .quiet fun t ht => .quiet hr fun b answer heq k hk => ?_
    obtain rfl : b = c := by simpa [heq, Event.resumes] using he
    rw [hk, Option.map_some, eq_comm, Option.map_eq_some_iff] at ht
    obtain ⟨k', hk', hasleep⟩ := ht
    rw [← hasleep]
    exact hq b answer heq k' hk'
  | @wake b _ _ _ _ _ hk hw =>
    obtain rfl : b = c := by simpa [Event.resumes] using he
    exact .wake hk hw
  | @rolledBack b _ _ _ _ _ _ _ hk =>
    obtain rfl : b = c := by simpa [Event.resumes] using he
    exact .rolledBack hk
  | @expire b | @expireIdle b =>
    obtain rfl : b = c := by simpa [Event.resumes] using he
    exact absurd rfl hexpire
  | @prepared b _ _ _ _ _ hk | @notPrepared b _ _ _ _ _ _ hk
  | @notPreparedEnded b _ _ _ _ _ _ hk | @committed b _ _ _ _ _ hk
  | @notCommitted b _ _ _ _ _ _ hk | @notCommittedEnded b _ _ _ _ _ _ hk =>
    obtain rfl : b = c := by simpa [Event.resumes] using he
    exact absurd (hcommit _ hk) (by simp [Point.commits])
  | _ => exact absurd he (by simp [Event.resumes])

section Start

variable (hnew : p.call? = some c → e.resumes c = true) (hexpire : e ≠ .expire c)
  (hcommit : ∀ k, s.calls[c]? = some k → k.point.commits = false)

include hnew hexpire hcommit

/-- A start is the same if a call has more locks to take, unless it is the start of that call. -/
theorem Start.extend (hs : Start s e s' p) :
    Start (s.extend c more) e (s'.extend c more) (p.extendAt c more) := by
  cases he : e.resumes c with
  | false =>
    have hc : p.call? ≠ some c := fun hc => by simp [hnew hc] at he
    have ho : (s.calls[c]?.map (·.extend more)).map Call.use = s.calls[c]?.map Call.use := by
      rw [Option.map_map]
      rfl
    obtain ⟨h, hsame⟩ := hs.put he hc ho
    rw [Stage.extendAt_of_ne hc, System.extend, System.extend, hsame]
    exact h
  | true =>
    cases hs.resumption he hexpire hcommit with
    | quiet h => exact h _ isAsleep_extend
    | @wake r name d goal w hk hw =>
      rw [extend_of_dismissed (t := modifyLock _ _ _) rfl, Stage.extendAt_of_eq rfl,
        ← dismiss_extend]
      exact .wake (calls_extend.trans (congrArg (Option.map _) hk)) hw
    | rolledBack hk =>
      rw [extend_of_dismissed (t := setStatistics _ _) rfl, Stage.extendAt_of_eq rfl,
        ← dismiss_extend]
      exact .rolledBack (calls_extend.trans (congrArg (Option.map _) hk))

theorem Start.of_extend (hs : Start (s.extend c more) e t p) :
    ∃ s' p', Start s e s' p' ∧ t = s'.extend c more ∧ p = p'.extendAt c more := by
  cases he : e.resumes c with
  | false =>
    have hc : p.call? ≠ some c := fun hc => by simp [hnew hc] at he
    have ho : s.calls[c]?.map Call.use = (s.extend c more).calls[c]?.map Call.use := by
      rw [calls_extend, Option.map_map]
      rfl
    obtain ⟨h, hsame⟩ := hs.put he hc ho
    rw [put_extend, put_calls rfl] at h
    refine ⟨_, p, h, ?_, (Stage.extendAt_of_ne hc).symm⟩
    rw [extend_put, ← calls_extend, ← hsame, put_calls rfl]
  | true =>
    have hold : ∀ {k}, (s.extend c more).calls[c]? = some k →
        ∃ k', s.calls[c]? = some k' ∧ k'.extend more = k := fun hk =>
      Option.map_eq_some_iff.mp (calls_extend.symm.trans hk)
    have hcommit' : ∀ k, (s.extend c more).calls[c]? = some k → k.point.commits = false := by
      intro k hk
      obtain ⟨k', hk', rfl⟩ := hold hk
      rw [Call.commits_extend, hcommit k' hk']
    cases hs.resumption he hexpire hcommit' with
    | quiet h => exact ⟨s, _, h s isAsleep_extend.symm, rfl, rfl⟩
    | @wake r name d goal w hk hw =>
      obtain ⟨⟨q, access, point⟩, hk', heq⟩ := hold hk
      cases point with
      | waiting name' d' goal' =>
        cases heq
        refine ⟨_, _, .wake hk' hw, ?_, by rw [Stage.extendAt_of_eq rfl]; rfl⟩
        rw [dismiss_extend, extend_of_dismissed (t := modifyLock _ _ _) rfl]
      | _ => exact absurd heq (by simp [Call.extend, Point.extend])
    | @rolledBack r access store rest cause answer statistics hk =>
      obtain ⟨⟨q, access, point⟩, hk', heq⟩ := hold hk
      cases point with
      | rollingBack store' rest' cause' =>
        cases heq
        refine ⟨(s.dismiss c).setStatistics statistics, _, .rolledBack hk', ?_,
          by rw [Stage.extendAt_of_eq rfl]; rfl⟩
        rw [dismiss_extend, extend_of_dismissed (t := setStatistics _ _) rfl]
      | _ => exact absurd heq (by simp [Call.extend, Point.extend])

end Start

end System

end Locking
