import Locking.Proofs.System.Holdings
import Locking.Proofs.System.Ongoing

/-! Exclusion across managers.  A request that has been answered with success has got its transaction
a lock that nobody takes from it as long as it is active. -/

namespace Locking

/-- A lock that is covered in the exclusive mode is owned exclusively. -/
theorem Request.eq_exclusive_of_none {held : Option LockMode}
    (h : Request.of? held .exclusive = none) : held = some .exclusive := by
  obtain ⟨mode, rfl, hmode⟩ := Request.of?_eq_none_iff.mp h
  cases mode with
  | exclusive => rfl
  | shared => exact absurd hmode (by decide)

/-- An exclusive lock is never asked for by a shared request. -/
theorem Request.ne_shared {held : Option LockMode} {kind : Request}
    (h : Request.of? held .exclusive = some kind) : kind ≠ .shared := by
  rintro rfl
  match held, h with
  | none, h | some .shared, h | some .exclusive, h => exact absurd h (by simp [Request.of?])

/-- A goal is reached with what a transaction asks for, if the lock that is being asked for is as it
should be. -/
def Goal.Serves (n : Need) (met : Prop) : Goal → Prop
  | single => False
  | plan e rest => n ∈ rest ∨ e = n.entity ∧ met

namespace System

variable {s s' t : System} {p p' q : Stage} {e : Event} {r : TransactionRef} {n m : Need}
  {c : CallId} {events : List Event}

/-- In the course of a run a transaction has asked for a lock with success. -/
def Got (s : System) (events : List Event) (r : TransactionRef) (n : Need) : Prop :=
  ∃ before e later, events = before ++ e :: later ∧ e.Requests r n ∧
    (s.run before).answerTo? e later = some (.ok .unit)

/-! ### What success is worth -/

/-- As long as a transaction is active, an entity is in its lock set, and its lock is owned
exclusively if it was asked for so. -/
def Assured (s : System) (r : TransactionRef) (n : Need) : Prop :=
  (s.transactionAt r).state = .active → n.entity ∈ (s.transactionAt r).lockSet ∧
    (n.mode = .exclusive → (s.lockAt (.entity n.entity)).modeOf r.id = some .exclusive)

namespace Assured

theorem mono (h : s.Assured r m) (he : m.entity = n.entity) (hm : m.mode.covers n.mode = true) :
    s.Assured r n := by
  intro hr
  obtain ⟨hmem, hx⟩ := h hr
  rw [he] at hmem hx
  refine ⟨hmem, fun hn => hx ?_⟩
  rw [hn] at hm
  cases hmode : m.mode with
  | exclusive => rfl
  | shared =>
    rw [hmode] at hm
    exact absurd hm (by decide)

theorem advance (h : s.Assured r n) (hs : Secure s p) (ha : Advance s p s' p') :
    s'.Assured r n := by
  intro hr
  obtain ⟨_, hl⟩ := hs.ledger
  obtain ⟨hmem, hx⟩ := h (active_of_turns (ha.turns hl r) hr)
  refine ⟨?_, fun hmode => hs.exclusive ha (mem_of_mem_lockSet hmem) hr (hx hmode)⟩
  obtain heq | ⟨_, _, _, _, _, -, heq⟩ := ha.lockSet hl hr <;> rw [heq]
  · exact hmem
  · exact Std.ExtTreeSet.mem_insert.mpr (.inr hmem)

theorem start (h : s.Assured r n) (ho : InOrder s idle) (he : e.handlesLocks = false)
    (hst : Start s e s' p) : s'.Assured r n := by
  intro hr
  rw [hst.lockSet ho he, hst.modeOf_eq he]
  exact h (active_of_turns (.begins (hst.begins ho r)) hr)

theorem invariant (r : TransactionRef) (n : Need) :
    Invariant Unmistakable fun s p => Secure s p ∧ s.Assured r n where
  inOrder h := Secure.invariant.inOrder h.1
  rest h := ⟨Secure.invariant.rest h.1, h.2⟩
  start he h hst := ⟨Secure.invariant.start he h.1 hst,
    h.2.start (Secure.invariant.inOrder h.1) he.1 hst⟩
  advance h ha := ⟨Secure.invariant.advance h.1 ha, h.2.advance h.1 ha⟩

end Assured

/-! ### On the way to success -/

/-- A call that stands at a stage returns with success only if its transaction has got what it
asked for. -/
def Earns (s : System) (r : TransactionRef) (n : Need) : Stage → Prop
  | .concluded response => response = .returned (.ok .unit) → s.Assured r n
  | .taking _ q _ needs => q = r ∧ (s.Assured r n ∨ n ∈ needs)
  | .looking _ q _ kind _ goal _ =>
    q = r ∧ (s.Assured r n ∨ goal.Serves n (n.mode = .exclusive → kind ≠ .shared))
  | .granted _ q _ goal _ => q = r ∧ (s.Assured r n ∨ goal.Serves n (n.mode = .exclusive →
      (s.lockAt (.entity n.entity)).modeOf r.id = some .exclusive))
  | .failed .. => True
  | .undoing _ _ _ cause _ => ∃ error, cause = .failure error
  | .deciding .. | .preparing .. | .committing .. => False

namespace Earns

theorem advance (h : s.Earns r n p) (hs : Secure s p) (ha : Advance s p s' p') :
    s'.Earns r n p' := by
  have hassured : s.Assured r n → s'.Assured r n := fun h => h.advance hs ha
  have hlooked := hs.waiting.looked
  have hfits := hs.holdings.stage
  cases ha with
  | done =>
    obtain ⟨-, h | h⟩ := h
    · exact fun _ => h
    · exact absurd h (by simp)
  | refuse | fail | giveBack => trivial
  | @covered c r d m rest hi hk =>
    obtain ⟨rfl, h | h⟩ := h
    · exact ⟨rfl, .inl (hassured h)⟩
    obtain rfl | h := List.mem_cons.mp h
    · refine ⟨rfl, .inr (.inr ⟨rfl, fun hx => ?_⟩)⟩
      rw [lockAt_addLock]
      exact Request.eq_exclusive_of_none (hx ▸ hk)
    · exact ⟨rfl, .inr (.inl h)⟩
  | @ask c r d m rest kind hi hk =>
    obtain ⟨rfl, h | h⟩ := h
    · exact ⟨rfl, .inl (hassured h)⟩
    obtain rfl | h := List.mem_cons.mp h
    · exact ⟨rfl, .inr (.inr ⟨rfl, fun hx => Request.ne_shared (hx ▸ hk)⟩)⟩
    · exact ⟨rfl, .inr (.inl h)⟩
  | @grant c r name kind d goal w g hj =>
    obtain ⟨⟨e, rest, rfl, rfl⟩, -⟩ := hfits
    obtain ⟨rfl, h | h | ⟨rfl, hkind⟩⟩ := h
    · exact ⟨rfl, .inl (hassured h)⟩
    · exact ⟨rfl, .inr (.inl h)⟩
    · refine ⟨rfl, .inr (.inr ⟨rfl, fun hx => ?_⟩)⟩
      show ((s.modifyLock _ _).lockAt _).modeOf _ = _
      rw [lockAt_modifyLock_self (hlooked _ rfl), Lock.modeOf_grant_self]
      cases kind with
      | shared => exact absurd rfl (hkind hx)
      | exclusive | upgrade => rfl
  | @keep c r d a rest w hactive =>
    obtain ⟨rfl, h | h | ⟨rfl, hmode⟩⟩ := h
    · exact ⟨rfl, .inl (hassured h)⟩
    · exact ⟨rfl, .inr h⟩
    · refine ⟨rfl, .inl fun _ => ⟨?_, hmode⟩⟩
      have hr := hs.ledger.choose_spec.inOrder.user r _ rfl
      have hkept := (transactionAt_modifyTransaction s r r
        (fun t => { t with lockSet := t.lockSet.insert n.entity }) hr).trans (if_pos rfl)
      exact (congrArg (n.entity ∈ ·.lockSet) hkept).mpr Std.ExtTreeSet.mem_insert_self
  | abort => exact ⟨_, rfl⟩
  | @undone c r access cause hc =>
    obtain ⟨error, rfl⟩ := h
    simp [Earns, Cause.outcome]
  | removed =>
    obtain ⟨error, h⟩ := h
    exact absurd h (by simp)
  | beginPhased | beginAtOnce | prepare | prepared | commit | committed => exact h.elim
  | _ => simp [Earns]

theorem suspended (h : s.Earns r n p) (hq : p.Suspends q) (ha : s.Assured r n → s'.Assured r n) :
    s'.Earns r n q := by
  cases hq with
  | asleep => exact ⟨h.1, h.2.imp_left ha⟩
  | _ => exact h

/-- Of a call in progress nothing is said that depends on the system, but for what its transaction
is assured of. -/
theorem mono (h : s.Earns r n q) (hq : t.resumesAt c = some q)
    (ha : s.Assured r n → s'.Assured r n) : s'.Earns r n q := by
  rw [resumesAt] at hq
  split at hq
  · obtain ⟨kind, -, rfl⟩ := Option.map_eq_some_iff.mp hq
    exact ⟨h.1, h.2.imp_left ha⟩
  · cases hq; exact h
  · cases hq; exact h
  · cases hq; exact h
  · exact absurd hq (by simp)

theorem endures (r : TransactionRef) (n : Need) :
    Endures Unmistakable Secure fun s p => s.Earns r n p where
  invariant := Secure.invariant
  waiting h := h.waiting
  unprepared h := h
  uncommitted h := h
  advance hs h ha := h.advance hs ha
  suspend hs h ha _ hq := h.suspended hq fun hassured => hassured.advance hs ha
  aside hs ha _ hq h := h.mono hq fun hassured => hassured.advance hs ha
  wait he hs hst _ hq h :=
    h.mono hq fun hassured => hassured.start (Secure.invariant.inOrder hs) he.1 hst
  wake _ _ _ h := by
    -- To rouse a waiter changes no owner.
    refine ⟨h.1, h.2.imp_left fun hassured hactive => ⟨(hassured hactive).1, fun hx => ?_⟩⟩
    exact (modeOf_modifyLock rfl).trans ((hassured hactive).2 hx)
  reply h := h

end Earns

/-- A transaction that has got a lock has it as long as it is active. -/
theorem Got.assured (hs : Secure s idle) (ho : Obeys Unmistakable s events)
    (h : s.Got events r n) : (s.run events).Assured r n := by
  obtain ⟨before, e, later, rfl, hn, hok⟩ := h
  obtain ⟨now, rest, rfl, hret⟩ := exists_returnsAt hok
  obtain ⟨hbefore, he, hlater⟩ := obeys_append.mp ho
  obtain ⟨hnow, hrest⟩ := obeys_append.mp hlater
  have hs' := Secure.invariant.run hs hbefore
  have hrun : s.run (before ++ e :: (now ++ rest)) =
      (((s.run before).step e).1.run now).run rest := by
    rw [← run_append]
    exact run_append ..
  rw [hrun]
  obtain hstep | ⟨error, -, hstep⟩ | ⟨-, hst, ha⟩ :=
    (Secure.invariant.inOrder hs').tidy.asked hn.asker?
  · have hnone := hret.1
    rw [answerTo?, hstep] at hnone
    exact absurd hnone (by simp [Response.outcome?, Response.call?])
  · obtain ⟨-, hfailed⟩ := hret.at_once (congrArg Prod.snd hstep)
    exact absurd hfailed (by simp)
  · obtain ⟨mode, hm, hcovers⟩ := hn.exists_need (s.run before).granularity
    have hgot := (Earns.endures r ⟨n.entity, mode⟩).returned hs' he hst ⟨rfl, .inr hm⟩ ha hnow
      hret rfl
    have hend := Secure.invariant.run (Secure.invariant.step hs' he) hnow
    exact (((Assured.invariant r _).run ⟨hend, hgot⟩ hrest).2).mono rfl hcovers

/-! ### Exclusion -/

/-- Exclusion across managers.  Take a run of any number of managers in which locks are asked for by
`lock` and `lockAll` and released at the end of a transaction only, and in which no transaction is
begun with the number of another one that is in use.  If a transaction that is active has got an
entity exclusively, and another one that is active has got it in any mode, then a call of the other
one is in progress. -/
theorem exclusive_across_managers (g : Granularity) (configs : List Config) (lockConfig : Config)
    (events : List Event)
    (ho : Obeys Unmistakable (System.new g configs lockConfig) events)
    (r q : TransactionRef) (hne : r ≠ q) (e : EntityId) (mode : LockMode) :
    let fresh := System.new g configs lockConfig
    let s := fresh.run events
    (s.transactionAt r).state = .active → fresh.Got events r ⟨e, .exclusive⟩ →
      (s.transactionAt q).state = .active → fresh.Got events q ⟨e, mode⟩ →
        ∃ (c : CallId) (k : Call), s.calls[c]? = some k ∧ k.transaction = q := by
  intro fresh s hr hgot hq hgot'
  have hnew : Secure fresh idle := .new g configs lockConfig
  have hs : Secure s idle := Secure.invariant.run hnew ho
  obtain ⟨hr', howned⟩ := Got.assured hnew ho hgot hr
  obtain ⟨hq', -⟩ := Got.assured hnew ho hgot' hq
  have hx : (s.lockAt (.entity e)).modeOf r.id = some .exclusive := howned rfl
  obtain hheld | ⟨c, access, d, goal, hk⟩ | ⟨c, kind, d, goal, w, hp⟩ | ⟨c, goal, error, hp⟩ :=
    hs.holdings.owned q hq e hq'
  · -- Who owns a lock exclusively is its only owner, and bears its number alone.
    have hid : r.id = q.id := (hs.waiting.sound _).eq_of_exclusive hx hheld
    have hsame := hs.distinct r q (inUse_of_active (mem_of_mem_lockSet hr') hr)
      (inUse_of_active (mem_of_mem_lockSet hq') hq) hid
    exact absurd hsame hne
  · exact ⟨c, _, hk, rfl⟩
  · exact absurd hp (by simp)
  · exact absurd hp (by simp)

/-- Two managers give the number 1, the second one after the first one's transaction has ended.  A
reader of the one gives up its hold to upgrade it, and so the reader of the other one gets the lock
exclusively. -/
theorem exclusive_beside_upgrade :
    let events : List Event := [.begin 0, .begin 0, .rollback ⟨0, 1⟩, .begin 1,
      .lock ⟨0, 2⟩ ⟨["a"]⟩ .shared, .lock ⟨1, 1⟩ ⟨["a"]⟩ .shared,
      .lock ⟨1, 1⟩ ⟨["a"]⟩ .exclusive, .lock ⟨0, 2⟩ ⟨["a"]⟩ .exclusive]
    let fresh := System.new .hierarchical [{}, {}] {}
    let s := fresh.run events
    Obeys Unmistakable fresh events ∧
      (s.transactionAt ⟨0, 2⟩).state = .active ∧ fresh.Got events ⟨0, 2⟩ ⟨⟨["a"]⟩, .exclusive⟩ ∧
      (s.transactionAt ⟨1, 1⟩).state = .active ∧ fresh.Got events ⟨1, 1⟩ ⟨⟨["a"]⟩, .shared⟩ ∧
      ∃ (c : CallId) (k : Call), s.calls[c]? = some k ∧ k.transaction = ⟨1, 1⟩ := by
  intro events fresh s
  have ho : Obeys Unmistakable fresh events := by decide +kernel
  have hr : (s.transactionAt ⟨0, 2⟩).state = .active := by decide +kernel
  have hq : (s.transactionAt ⟨1, 1⟩).state = .active := by decide +kernel
  have hgot : fresh.Got events ⟨0, 2⟩ ⟨⟨["a"]⟩, .exclusive⟩ :=
    ⟨events.take 7, _, [], rfl, ⟨rfl, rfl⟩, by decide +kernel⟩
  have hgot' : fresh.Got events ⟨1, 1⟩ ⟨⟨["a"]⟩, .shared⟩ :=
    ⟨events.take 5, _, events.drop 6, rfl, ⟨rfl, rfl⟩, by decide +kernel⟩
  exact ⟨ho, hr, hgot, hq, hgot', exclusive_across_managers .hierarchical [{}, {}] {} events ho
    ⟨0, 2⟩ ⟨1, 1⟩ (by decide) ⟨["a"]⟩ .shared hr hgot hq hgot'⟩

/-- Without that, two managers whose first transactions ask for the same lock both get it
exclusively: the second request is taken for one of the transaction that owns the lock. -/
theorem shared_number_shares_lock :
    let events : List Event := [.begin 0, .begin 1, .lock ⟨0, 1⟩ ⟨["a"]⟩ .exclusive,
      .lock ⟨1, 1⟩ ⟨["a"]⟩ .exclusive]
    let fresh := System.new .hierarchical [{}, {}] {}
    let s := fresh.run events
    (∀ e ∈ events, e.handlesLocks = false) ∧
      (s.transactionAt ⟨0, 1⟩).state = .active ∧ fresh.Got events ⟨0, 1⟩ ⟨⟨["a"]⟩, .exclusive⟩ ∧
      (s.transactionAt ⟨1, 1⟩).state = .active ∧ fresh.Got events ⟨1, 1⟩ ⟨⟨["a"]⟩, .exclusive⟩ ∧
      ¬ ∃ (c : CallId) (k : Call), s.calls[c]? = some k ∧ k.transaction = ⟨1, 1⟩ := by
  intro events fresh s
  refine ⟨by decide, by decide +kernel, ?_, by decide +kernel, ?_, ?_⟩
  · exact ⟨events.take 2, _, events.drop 3, rfl, ⟨rfl, rfl⟩, by decide +kernel⟩
  · exact ⟨events.take 3, _, [], rfl, ⟨rfl, rfl⟩, by decide +kernel⟩
  · rintro ⟨c, k, hk, -⟩
    have hnone : s.calls.toList = [] := by decide +kernel
    have hmem := Std.ExtTreeMap.mem_toList_iff_getElem?_eq_some.mpr hk
    rw [hnone] at hmem
    exact absurd hmem (by simp)

end System

end Locking
