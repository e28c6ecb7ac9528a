import Locking.Proofs.Lock.Traffic
import Locking.Proofs.System.Waiting

/-! Whatever a system does, each of its locks has come about by the critical sections of one lock,
in which a request never goes on before it has looked at the lock.  What any traffic leaves true of
a lock is true of every lock of a system. -/

namespace Locking

namespace Lock

variable {l l' : Lock} {c : CallId} {i : TransactionId} {kind : Request} {mode : LockMode}
  {isInterrupted isLate : Bool} {g g' : WaitForGraph} {w : Waiter}

/-- A sequence of critical sections takes one lock to the other and leaves no request on its way. -/
def Leads (l l' : Lock) : Prop := ∃ moves, Traffic.run ⟨l, []⟩ moves = ⟨l', []⟩

/-- Whatever a look of the request decides, traffic leads from the fresh lock to what it leaves. -/
def Faced (l : Lock) (c : CallId) (i : TransactionId) (kind : Request) (hasWaited : Bool) : Prop :=
  ∀ isInterrupted isLate g, Leads {}
    ((⟨c, i, kind, isInterrupted, isLate, hasWaited⟩ : Attempt).run (l.approach i kind hasWaited)
      g).1

theorem Leads.step {m : Move} (h : Traffic.step ⟨l, []⟩ m = ⟨l', []⟩) : l.Leads l' := ⟨[m], h⟩

theorem Leads.lenient : Lenient Leads where
  refl _ := ⟨[], rfl⟩
  trans := by
    rintro l l' l'' ⟨moves, h⟩ ⟨moves', h'⟩
    refine ⟨moves ++ moves', ?_⟩
    rw [Traffic.run, List.foldl_append]
    exact (congrArg (Traffic.run · moves') h).trans h'
  notify _ := .step (m := .notify) rfl
  release _ i := .step (m := .release i) rfl

theorem step_enter (hc : ∀ w ∈ l.waiters, w.call ≠ c) :
    (Traffic.send ⟨l, []⟩ ⟨c, i, kind⟩).step (.enter c isInterrupted isLate g) =
      ⟨((⟨c, i, kind, isInterrupted, isLate, false⟩ : Attempt).run (l.enter i kind) g).1, []⟩ := by
  have hfree : Traffic.isBusy ⟨l, []⟩ c = false := Traffic.isBusy_eq_false_iff.mpr ⟨by simp, hc⟩
  have hsend : Traffic.send ⟨l, []⟩ ⟨c, i, kind⟩ = ⟨l, [⟨c, i, kind⟩]⟩ := by
    rw [Traffic.send, hfree]
    rfl
  rw [hsend]
  simp [Traffic.step]

/-- A request that has been decided looks at the lock for the first time. -/
theorem Leads.faced_first (h : Leads {} l) (hc : ∀ w ∈ l.waiters, w.call ≠ c)
    (hk : Request.of? (l.modeOf i) mode = some kind) : l.Faced c i kind false := by
  intro isInterrupted isLate g
  refine lenient.trans h ⟨[.acquire c i mode, .enter c isInterrupted isLate g], ?_⟩
  have hfirst : Traffic.step ⟨l, []⟩ (.acquire c i mode) = Traffic.send ⟨l, []⟩ ⟨c, i, kind⟩ := by
    simp only [Traffic.step, hk]
  show (Traffic.step ⟨l, []⟩ (.acquire c i mode)).step (.enter c isInterrupted isLate g) = _
  rw [hfirst]
  exact step_enter hc

theorem Leads.faced_upgrade (h : Leads {} l) (hc : ∀ w ∈ l.waiters, w.call ≠ c)
    (hk : l.modeOf i ≠ some .exclusive) : l.Faced c i .upgrade false := by
  intro isInterrupted isLate g
  refine lenient.trans h ⟨[.upgrade c i, .enter c isInterrupted isLate g], ?_⟩
  have hfirst : Traffic.step ⟨l, []⟩ (.upgrade c i) = Traffic.send ⟨l, []⟩ ⟨c, i, .upgrade⟩ :=
    if_neg hk
  show (Traffic.step ⟨l, []⟩ (.upgrade c i)).step (.enter c isInterrupted isLate g) = _
  rw [hfirst]
  exact step_enter hc

theorem Leads.faced_again (h : Leads {} l) (hw : l.waiter? c = some w) :
    (l.rouse w).Faced c w.transaction w.request true := by
  intro isInterrupted isLate g
  refine lenient.trans h (.step (m := .wake c isInterrupted isLate g) ?_)
  simp only [Traffic.step, hw]
  rfl

end Lock

namespace System

/-- Traffic has led to every lock, and leads on from one that a request is about to look at. -/
structure Driven (s : System) (p : Stage) : Prop where
  resting : ∀ name, p.lock? ≠ some name → Lock.Leads {} (s.lockAt name)
  looking : ∀ c r name kind d goal w, p = .looking c r name kind d goal w →
    (s.lockAt name).Faced c r.id kind w

variable {s s' : System} {p p' : Stage} {e : Event} {r : TransactionRef} {c : CallId}
  {name : LockName} {kind : Request} {d : Deadline} {goal : Goal} {w : Bool}

namespace Driven

theorem of_resting (h : ∀ name, Lock.Leads {} (s.lockAt name)) (hp : p.lock? = none) :
    Driven s p where
  resting name _ := h name
  looking c r name kind d goal w hlook := by
    subst hlook
    exact absurd hp (by simp [Stage.lock?])

theorem of_faced (h : ∀ other, other ≠ name → Lock.Leads {} (s.lockAt other))
    (hface : (s.lockAt name).Faced c r.id kind w) :
    Driven s (.looking c r name kind d goal w) where
  resting other hne := h other fun ho => hne (by rw [ho]; rfl)
  looking _ _ _ _ _ _ _ hlook := by
    cases hlook
    exact hface

theorem looked {f : Lock → Lock} {g : WaitForGraph}
    (h : Driven s (.looking c r name kind d goal w)) (hl : name ∈ s.locks)
    (hf : (((s.attempt c r kind d w).run ((s.lockAt name).approach r.id kind w) g).1) =
      f (s.lockAt name)) (other : LockName) :
    Lock.Leads {} ((s.modifyLock name f).lockAt other) := by
  by_cases hn : other = name
  · subst hn
    rw [lockAt_modifyLock_self hl, ← hf]
    exact h.looking c r other kind d goal w rfl _ _ g
  · rw [lockAt_modifyLock_ne hn]
    exact h.resting other fun ho => hn (Option.some.inj ho).symm

theorem advance (h : Driven s p) (ho : InOrder s p) (hw : Waiting s p) (ha : Advance s p s' p') :
    Driven s' p' := by
  by_cases hlook : p.lock? = none
  · have hresting : ∀ name, Lock.Leads {} (s'.lockAt name) := fun name =>
      Lock.Leads.lenient.trans (h.resting name (by simp [hlook]))
        (Lock.Leads.lenient.advance ha hlook name)
    cases ha with
    | @ask c r d n rest kind hi hk =>
      have hcall : ∀ v ∈ ((s.addLock (.entity n.entity)).lockAt (.entity n.entity)).waiters,
          v.call ≠ c := by
        rw [lockAt_addLock]
        exact hw.call_ne ho rfl
      have hkind : Request.of? (((s.addLock (.entity n.entity)).lockAt (.entity n.entity)).modeOf
          r.id) n.mode = some kind := by
        rw [lockAt_addLock]
        exact hk
      exact of_faced (fun other _ => hresting other)
        ((hresting (.entity n.entity)).faced_first hcall hkind)
    | sleep | grant | fail => exact absurd hlook (by simp [Stage.lock?])
    | _ => exact of_resting hresting rfl
  · cases ha with
    | @sleep c r name kind d goal w g hj =>
      refine of_resting (h.looked (hw.looked name rfl) (g := s.graph) ?_) rfl
      simp only [Attempt.run, hj]
      rfl
    | @grant c r name kind d goal w g hj =>
      refine of_resting (h.looked (hw.looked name rfl) (g := s.graph) ?_) rfl
      simp only [Attempt.run, hj]
      rfl
    | @fail c r name kind d goal w g error hj =>
      refine of_resting (h.looked (hw.looked name rfl) (g := s.graph) ?_) rfl
      simp only [Attempt.run, hj]
      rfl
    | _ => exact absurd rfl hlook

theorem rouse {d' : Deadline} {v : Waiter} (h : ∀ name, Lock.Leads {} (s.lockAt name))
    (hw : Waiting s idle) (hk : s.calls[c]? = some ⟨r, .shared, .waiting name d goal⟩)
    (hv : (s.lockAt name).waiter? c = some v) :
    Driven ((s.dismiss c).modifyLock name (·.rouse v))
      (.looking c r name v.request d' goal true) := by
  obtain ⟨hmem, rfl, hid⟩ := hw.of_waiter? hk hv
  refine of_faced (fun other hn => ?_) ?_
  · show Lock.Leads {} ((s.modifyLock name (Lock.rouse · v)).lockAt other)
    rw [lockAt_modifyLock_ne hn]
    exact h other
  · show ((s.modifyLock name (Lock.rouse · v)).lockAt name).Faced v.call r.id v.request true
    rw [lockAt_modifyLock_self (mem_locks_of_waiter hmem), hid]
    exact (h name).faced_again hv

theorem start (h : Driven s idle) (ho : InOrder s idle) (hw : Waiting s idle)
    (hs : Start s e s' p) : Driven s' p := by
  have hold : ∀ name, Lock.Leads {} (s.lockAt name) := fun name =>
    h.resting name (by simp [Stage.lock?])
  by_cases hlook : p.lock? = none
  · exact of_resting (fun name => Lock.Leads.lenient.trans (hold name)
      (Lock.Leads.lenient.start hs hlook name)) hlook
  have ho' := ho.start hs
  have hw' := hw.start ho hs
  cases hs with
  | acquire _ _ _ hk =>
    exact of_faced (fun other _ => hold other) ((hold _).faced_first (hw'.call_ne ho' rfl) hk)
  | upgrade _ _ _ hk =>
    exact of_faced (fun other _ => hold other) ((hold _).faced_upgrade (hw'.call_ne ho' rfl) hk)
  | wake hk hv | expire hk _ hv => exact rouse hold hw hk hv
  | _ => exact absurd rfl hlook

end Driven

/-- In every run of any number of managers, every lock has come about by traffic. -/
theorem exists_traffic (g : Granularity) (configs : List Config) (lockConfig : Config)
    (events : List Event) (name : LockName) : ∃ moves, Traffic.run {} moves =
      ⟨((System.new g configs lockConfig).run events).lockAt name, []⟩ := by
  have h : Invariant (fun _ _ => True) fun s p => InOrder s p ∧ Waiting s p ∧ Driven s p :=
    { inOrder := And.left
      rest := fun ⟨ho, hw, hd⟩ => ⟨ho.rest, hw.rest, .of_resting
        (fun name => hd.resting name (by simp [Stage.lock?])) rfl⟩
      start := fun _ ⟨ho, hw, hd⟩ hs => ⟨ho.start hs, hw.start ho hs, hd.start ho hw hs⟩
      advance := fun ⟨ho, hw, hd⟩ ha => ⟨ho.advance ha, hw.advance ho ha, hd.advance ho hw ha⟩ }
  have hnew : Driven (System.new g configs lockConfig) idle := by
    refine .of_resting (fun name => ?_) rfl
    rw [lockAt_new]
    exact Lock.Leads.lenient.refl _
  obtain ⟨-, -, hd⟩ := h.run ⟨.new _ _ _, .new _ _ _, hnew⟩ (Obeys.trivial _ events)
  exact hd.resting name (by simp [Stage.lock?])

end System

end Locking
