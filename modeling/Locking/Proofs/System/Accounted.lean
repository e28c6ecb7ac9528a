import Locking.Proofs.System.Deeds
import Locking.Proofs.System.Ended

/-! What transactions have while any number of calls go on side by side.  The lock of an owner is in
its lock set, or it has just been granted and the call that asked for it is about to enter it there or
to give it back.  Who waits to upgrade a lock has it in its lock set as well, unless the locks of the
transaction were released while its request went on; but then the request is there. -/

namespace Locking

/-- The request of a call that stands here is part of a plan. -/
def Stage.InPlan : Stage → Prop
  | looking _ _ name _ _ goal _ => ∃ e rest, name = .entity e ∧ goal = .plan e rest
  | granted _ _ _ goal _ | failed _ _ goal _ => ∃ e rest, goal = .plan e rest
  | _ => True

theorem Stage.Suspends.inPlan {p q : Stage} (h : p.Suspends q) (hp : p.InPlan) : q.InPlan := by
  cases h <;> exact hp

/-- A lock request of transaction number `i` has just been granted, and the lock is not in the lock set
yet; or it has just failed, and the transaction does not abort yet. -/
def Stage.HalfDone : Stage → TransactionId → Prop
  | granted _ r .., i | failed _ r .., i => r.id = i
  | _, _ => False

theorem Stage.Fails.halfDone {p : Stage} {i : TransactionId} (h : p.Fails i) : p.HalfDone i := by
  cases p with
  | failed => exact h
  | _ => exact h.elim

theorem Stage.halfDone_of_granted? {p : Stage} {i : TransactionId} {e : EntityId}
    (h : p.granted? = some (⟨0, i⟩, e)) : p.HalfDone i := by
  cases p with
  | granted c r d goal w =>
    cases goal with
    | single => exact absurd h (by simp [Stage.granted?])
    | plan =>
      cases h
      rfl
  | _ => exact absurd h (by simp [Stage.granted?])

/-- A call of transaction number `i` that stands here was put to sleep by an upgrade of a lock. -/
def Stage.Upgrades : Stage → LockName → TransactionId → Prop
  | looking _ r other kind _ _ w, name, i => r.id = i ∧ other = name ∧ kind = .upgrade ∧ w = true
  | _, _, _ => False

/-- Nobody becomes an owner of a lock, and nobody begins to wait for its upgrade. -/
structure Lock.Loosens (l l' : Lock) : Prop where
  owners : ∀ i ∈ l'.owners, i ∈ l.owners
  upgraders : ∀ i ∈ l'.upgraders, i ∈ l.upgraders

namespace Lock.Loosens

theorem refl (l : Lock) : l.Loosens l := ⟨fun _ => id, fun _ => id⟩

theorem release (l : Lock) (i : TransactionId) : l.Loosens (l.release i) :=
  ⟨fun _ h => (mem_owners_release.mp h).2, fun _ h => (mem_upgraders_release.mp h).2⟩

theorem lenient : Lenient Loosens where
  refl := refl
  trans h h' := ⟨fun i hi => h.owners i (h'.owners i hi),
    fun i hi => h.upgraders i (h'.upgraders i hi)⟩
  notify _ := ⟨fun _ => id, fun _ => id⟩
  release := release

end Lock.Loosens

namespace System

variable {s s' : System} {p p' q : Stage} {e : Event} {r t : TransactionRef} {c : CallId}
  {name : LockName} {i : TransactionId}

/-! ### Owners and upgraders -/

/-- Who owns a lock after an advance owned it before, or has just been granted it. -/
theorem Advance.mem_owners (ha : Advance s p s' p') (hi : i ∈ (s'.lockAt name).owners) :
    i ∈ (s.lockAt name).owners ∨ ∃ c r kind d goal w,
      p = .looking c r name kind d goal w ∧ p' = .granted c r d goal w ∧ r.id = i := by
  by_cases hp : p.lock? = none
  · exact .inl ((Lock.Loosens.lenient.advance ha hp name).owners i hi)
  cases ha with
  | @sleep c r other kind d goal w g hj =>
    left
    exact rel_modifyLock (s := s) (f := fun l => (l.approach r.id kind w).park c r.id kind)
      (R := fun l l' => i ∈ l'.owners → i ∈ l.owners) (fun _ => id)
      (fun _ => Lock.mem_owners_approach) name hi
  | @fail c r other kind d goal w g error hj =>
    left
    refine rel_modifyLock (s := s) (f := fun l => (l.approach r.id kind w).abandon r.id)
      (R := fun l l' => i ∈ l'.owners → i ∈ l.owners) (fun _ => id) (fun _ hi => ?_) name hi
    rw [Lock.owners_abandon] at hi
    exact Lock.mem_owners_approach hi
  | @grant c r other kind d goal w g hj =>
    by_cases hn : name = other
    · subst hn
      by_cases hir : r.id = i
      · exact .inr ⟨c, r, kind, d, goal, w, rfl, rfl, hir⟩
      · left
        refine rel_modifyLock (s := s) (f := fun l => (l.approach r.id kind w).grant r.id kind)
          (R := fun l l' => i ∈ l'.owners → i ∈ l.owners) (fun _ => id) (fun _ hi => ?_) name hi
        exact Lock.mem_owners_approach
          ((Lock.mem_owners_grant.mp hi).resolve_left (Ne.symm hir)).2
    · left
      have hsame := lockAt_modifyLock_ne (s := s) (f := fun l =>
        (l.approach r.id kind w).grant r.id kind) hn
      exact hsame ▸ hi
  | _ => exact absurd rfl hp

/-- A lock is changed or it stays what it was. -/
theorem lockAt_modifyLock_cases {other : LockName} (hl : other ∈ s.locks) (name : LockName)
    (f : Lock → Lock) :
    name = other ∧ (s.modifyLock other f).lockAt name = f (s.lockAt name) ∨
      name ≠ other ∧ (s.modifyLock other f).lockAt name = s.lockAt name := by
  by_cases hn : name = other
  · subst hn
    exact .inl ⟨rfl, lockAt_modifyLock_self hl⟩
  · exact .inr ⟨hn, lockAt_modifyLock_ne hn⟩

/-- A request that comes to its end leaves nobody waiting to upgrade the lock for its transaction. -/
theorem mem_upgraders_answered {kind : Request} {w : Bool} {other : LockName} {f : Lock → Lock}
    (hl : other ∈ s.locks)
    (hf : ∀ l, i ∈ (f l).upgraders → i ≠ r.id ∧ i ∈ (l.approach r.id kind w).upgraders)
    (hi : i ∈ ((s.modifyLock other f).lockAt name).upgraders) :
    i ∈ (s.lockAt name).upgraders ∧ (other = name → r.id ≠ i) := by
  rcases lockAt_modifyLock_cases hl name f with ⟨rfl, hat⟩ | ⟨hn, hat⟩ <;> rw [hat] at hi
  · obtain ⟨hne, hi⟩ := hf _ hi
    exact ⟨Lock.mem_upgraders_approach hi hne, fun _ => hne.symm⟩
  · exact ⟨hi, fun h => absurd h.symm hn⟩

/-- Who waits to upgrade a lock after an advance did so before, and its request has not just come to
its end; or it has fallen asleep with the upgrade. -/
theorem Advance.mem_upgraders (hw : Waiting s p) (ha : Advance s p s' p')
    (hi : i ∈ (s'.lockAt name).upgraders) :
    (i ∈ (s.lockAt name).upgraders ∧ ∀ c r kind d goal w, p = .looking c r name kind d goal w →
      r.id = i → p'.call? = none) ∨
      ∃ c r d goal w, p = .looking c r name .upgrade d goal w ∧ p'.call? = none ∧ r.id = i := by
  by_cases hp : p.lock? = none
  · refine .inl ⟨(Lock.Loosens.lenient.advance ha hp name).upgraders i hi, ?_⟩
    rintro c r kind d goal w rfl
    exact absurd hp (by simp [Stage.lock?])
  cases ha with
  | @sleep c r other kind d goal w g hj =>
    have hi : i ∈ ((s.modifyLock other fun l =>
      (l.approach r.id kind w).park c r.id kind).lockAt name).upgraders := hi
    rcases lockAt_modifyLock_cases (hw.looked _ rfl) name
      fun l => (l.approach r.id kind w).park c r.id kind with
      ⟨rfl, hat⟩ | ⟨-, hat⟩ <;> rw [hat] at hi
    · have hi : i ∈ ((s.lockAt name).approach r.id kind w).upgraders := hi
      by_cases hu : i ∈ (s.lockAt name).upgraders
      · exact .inl ⟨hu, fun _ _ _ _ _ _ _ _ => rfl⟩
      -- Only the transaction that upgrades can have begun to wait.
      have hir : r.id = i := by
        by_contra hne
        exact hu (Lock.mem_upgraders_approach hi (Ne.symm hne))
      by_cases hf : w = true ∨ kind ≠ .upgrade
      · rw [Lock.approach_of_not_first hf] at hi
        exact absurd hi hu
      · rw [not_not.mp (not_or.mp hf).2]
        exact .inr ⟨c, r, d, goal, w, rfl, rfl, hir⟩
    · exact .inl ⟨hi, fun _ _ _ _ _ _ _ _ => rfl⟩
  | @grant c r other kind d goal w g hj =>
    obtain ⟨hold, hne⟩ := mem_upgraders_answered (f := fun l =>
      (l.approach r.id kind w).grant r.id kind) (hw.looked _ rfl)
      (fun _ => Lock.mem_upgraders_grant.mp) hi
    refine .inl ⟨hold, fun _ _ _ _ _ _ hp hr => ?_⟩
    cases hp
    exact absurd hr (hne rfl)
  | @fail c r other kind d goal w g error hj =>
    obtain ⟨hold, hne⟩ := mem_upgraders_answered (f := fun l =>
      (l.approach r.id kind w).abandon r.id) (hw.looked _ rfl)
      (fun _ => Lock.mem_upgraders_abandon.mp) hi
    refine .inl ⟨hold, fun _ _ _ _ _ _ hp hr => ?_⟩
    cases hp
    exact absurd hr (hne rfl)
  | _ => exact absurd rfl hp

theorem Start.loosens (he : e.usesLock = false) (hs : Start s e s' p) (name : LockName) :
    (s.lockAt name).Loosens (s'.lockAt name) := by
  by_cases hp : p.lock? = none
  · exact Lock.Loosens.lenient.start hs hp name
  cases hs with
  | acquire | upgrade => exact absurd he (by simp [Event.usesLock])
  | wake hk hw | expire hk _ hw =>
    exact rel_modifyLock (s := s) (f := (Lock.rouse · _)) Lock.Loosens.refl
      (fun _ => ⟨fun _ => id, fun _ => id⟩) name
  | _ => exact absurd rfl hp

/-! ### Lock sets -/

/-- A lock in a lock set stays there, or the transaction has it no more. -/
def Lists (s s' : System) (t : TransactionRef) (name : LockName) : Prop :=
  name ∈ (s.transactionAt t).lockedNames →
    name ∈ (s'.transactionAt t).lockedNames ∨ ¬ (s'.lockAt name).Has t.id

theorem Lists.of_lockSet (h : (s'.transactionAt t).lockSet = (s.transactionAt t).lockSet) :
    Lists s s' t name := fun hmem => .inl (lockedNames_congr h ▸ hmem)

theorem lists_releaseAll : Lists s (s.releaseAll r) t name := by
  intro hmem
  by_cases ht : t = r
  · subst ht
    exact .inr fun h => (has_releaseAll h).2 hmem rfl
  · left
    have hsame : (s.releaseAll r).transactionAt t = s.transactionAt t := by
      rw [releaseAll_eq]
      exact transactionAt_modifyTransaction_ne ht
    rwa [hsame]

theorem lists_retire (state : State) : Lists s ((s.setState r state).retire r) t name := by
  intro hmem
  have hset : ((s.setState r state).transactionAt t).lockSet = (s.transactionAt t).lockSet :=
    lockSet_modifyTransaction fun _ => rfl
  have hretired : (((s.setState r state).retire r).transactionAt t).lockSet =
      (((s.setState r state).releaseAll r).transactionAt t).lockSet := by
    rw [retire_eq, forget_eq]
    exact lockSet_modifyTransaction fun _ => rfl
  rw [lockedNames_congr hretired]
  exact lists_releaseAll (lockedNames_congr hset ▸ hmem)

theorem Advance.lists (ha : Advance s p s' p') : Lists s s' t name := by
  cases ha with
  | @keep c r d e rest w hs =>
    intro hmem
    obtain ⟨a, ha, rfl⟩ := Transaction.mem_lockedNames.mp hmem
    refine .inl (Transaction.mem_lockedNames.mpr ⟨a, ?_, rfl⟩)
    exact rel_modifyTransaction (s := s) (R := fun t t' => a ∈ t.lockSet → a ∈ t'.lockSet)
      (fun _ => id) (fun _ ha => Std.ExtTreeSet.mem_insert.mpr (.inr ha)) ha
  | undone | committed => exact lists_retire _
  | @removed c r access =>
    intro hmem
    rw [transactionAt_alert, has_alert]
    exact lists_retire .aborted hmem
  | ask | grant | fail | abort | beginPhased | beginAtOnce =>
    exact .of_lockSet (lockSet_modifyTransaction fun _ => rfl)
  | _ => exact .of_lockSet rfl

theorem Start.lists (ho : InOrder s idle) (hs : Start s e s' p) : Lists s s' t name := by
  cases hs with
  | begin hn => exact .of_lockSet (by rw [transactionAt_begin ho hn])
  | unlockAll | forget => exact lists_releaseAll
  | interrupt | managerInterrupt =>
    refine .of_lockSet ?_
    rw [System.interrupt, transactionAt_alert]
    exact lockSet_modifyTransaction fun _ => rfl
  | @drop r =>
    have hdropped : ((s.modifyTransaction r fun t => { t with isOwned := false }).transactionAt
        t).lockSet = (s.transactionAt t).lockSet := lockSet_modifyTransaction fun _ => rfl
    refine .of_lockSet (Eq.trans ?_ hdropped)
    exact lockSet_modifyTransaction fun _ => rfl
  | acquire | upgrade | register | commitInterrupted | rollback | dropEnded | remove | notPrepared
  | notCommitted => exact .of_lockSet (lockSet_modifyTransaction fun _ => rfl)
  | _ => exact .of_lockSet rfl

/-! ### Plans -/

theorem Advance.inPlan (ha : Advance s p s' p') (h : p.InPlan) : p'.InPlan := by
  cases ha with
  | refuse | covered | giveBack => exact ⟨_, _, rfl⟩
  | ask => exact ⟨_, _, rfl, rfl⟩
  | grant | fail =>
    obtain ⟨e, rest, -, hgoal⟩ := h
    exact ⟨e, rest, hgoal⟩
  | _ => trivial

/-- Nothing is granted to a call before it goes on, and nothing fails. -/
theorem not_halfDone_of_resumesAt (h : s.resumesAt c = some q) : ¬ q.HalfDone i := by
  simp only [resumesAt] at h
  split at h
  · obtain ⟨kind, -, rfl⟩ := Option.map_eq_some_iff.mp h
    exact id
  · cases h; exact id
  · cases h; exact id
  · cases h; exact id
  · exact absurd h (by simp)

end System

namespace Crowd

open Locking.System

/-- Locks are used through transactions only. -/
def Indirect (_ : Crowd) : Deed → Prop
  | .event e => e.usesLock = false
  | _ => True

/-- What is known of the transactions of one manager and of their locks. -/
structure Accounted (k : Crowd) : Prop where
  orderly : k.Orderly
  single : ∃ n, k.system.begun = [n]
  plans : ∀ c p, k.stage? c = some p → p.InPlan
  owner : ∀ name i, i ∈ (k.system.lockAt name).owners →
    name ∈ (k.system.transactionAt ⟨0, i⟩).lockedNames ∨
      ∃ c p e, k.stage? c = some p ∧ p.granted? = some (⟨0, i⟩, e) ∧ name = .entity e
  upgrader : ∀ name i, i ∈ (k.system.lockAt name).upgraders →
    name ∈ (k.system.transactionAt ⟨0, i⟩).lockedNames ∨
      ∃ c p, k.stage? c = some p ∧ p.Upgrades name i
  departed : ∀ r, (k.system.transactionAt r).Departed

variable {k k' : Crowd} {s' : System} {p p' q : Stage} {e : Event} {d : Deed} {c : CallId}
  {r : TransactionRef} {access : Access} {name : LockName} {i : TransactionId}

namespace Accounted

theorem ref_eq (h : k.Accounted) (hr : r ∈ k.system.transactions) : r = ⟨0, r.id⟩ :=
  h.orderly.resting.ref_eq h.single hr

theorem ref_eq_of_user (h : k.Accounted) (hq : k.stage? c = some q)
    (hu : q.user? = some (r, access)) : r = ⟨0, r.id⟩ :=
  h.ref_eq (h.orderly.mem_of_stage? hq hu)

theorem ref_eq_of_requester (h : k.Accounted) (hq : k.stage? c = some q)
    (hr : q.requester? = some r) : r = ⟨0, r.id⟩ :=
  h.ref_eq_of_user hq (Stage.user?_of_requester? hr)

theorem fails_iff (h : k.Accounted) (hq : k.stage? c = some q) :
    q.Fails i ↔ ∃ goal error, q = .failed c ⟨0, i⟩ goal error := by
  have hcall := h.orderly.call?_of_stage? hq
  constructor
  · intro hf
    cases q with
    | failed c' r goal error =>
      obtain rfl : c' = c := Option.some.inj hcall
      obtain rfl : r = ⟨0, i⟩ := (h.ref_eq_of_requester hq rfl).trans
        (congrArg _ hf)
      exact ⟨goal, error, rfl⟩
    | _ => exact hf.elim
  · rintro ⟨goal, error, rfl⟩
    rfl

/-- A transaction whose request has failed is not active any more once the call goes on. -/
theorem ne_active_of_fails (h : k.Accounted) (hc : k.going c = some p) (hp : p.Fails i)
    (ha : Advance k.system p s' p') : (s'.transactionAt ⟨0, i⟩).state ≠ .active := by
  obtain ⟨goal, error, rfl⟩ := (h.fails_iff (stage?_of_going hc)).mp hp
  have hmem := (h.orderly.inOrder c _ hc).user ⟨0, i⟩ .shared rfl
  intro hactive
  cases ha with
  | failedSingle =>
    obtain ⟨_, _, hgoal⟩ := h.plans c _ (stage?_of_going hc)
    exact absurd hgoal (by simp)
  | abort => exact absurd ((moves_setState hmem .aborting).self.symm.trans hactive) (by simp)
  | abortEnded hs =>
    have hsame : (k.system.transactionAt ⟨0, i⟩).state = .active := hactive
    rw [hsame] at hs
    exact absurd hs (by simp [State.canRollBack])

/-- Unless a request of its transaction is in progress, a lock that the transaction has is in its lock
set. -/
theorem listed_of_has (h : k.Accounted)
    (hno : ∀ c q, k.stage? c = some q → q.requester? ≠ some ⟨0, i⟩)
    (hi : (k.system.lockAt name).Has i) :
    name ∈ (k.system.transactionAt ⟨0, i⟩).lockedNames := by
  rcases hi with hi | hi
  · refine (h.owner name i hi).resolve_right ?_
    rintro ⟨c, q, a, hq, hg, -⟩
    cases q with
    | granted c r d goal w =>
      cases goal with
      | single => exact absurd hg (by simp [Stage.granted?])
      | plan e rest =>
        cases hg
        exact hno _ _ hq rfl
    | _ => exact absurd hg (by simp [Stage.granted?])
  · refine (h.upgrader name i hi).resolve_right ?_
    rintro ⟨c, q, hq, hup⟩
    cases q with
    | looking c r other kind d goal w =>
      obtain ⟨rfl, -⟩ := hup
      exact hno _ _ hq (congrArg some (h.ref_eq_of_requester hq rfl))
    | _ => exact hup.elim

/-- The lock that has been granted to a call enters the lock set or is given back. -/
theorem owner_kept {a : EntityId} (ho : InOrder k.system p) (ha : Advance k.system p s' p')
    (hg : p.granted? = some (⟨0, i⟩, a)) (hi : i ∈ (s'.lockAt (.entity a)).owners) :
    .entity a ∈ (s'.transactionAt ⟨0, i⟩).lockedNames := by
  cases ha with
  | @keep c r d e rest w hs =>
    cases hg
    refine Transaction.mem_lockedNames.mpr ⟨a, ?_, rfl⟩
    show a ∈ ((k.system.modifyTransaction ⟨0, i⟩ fun t =>
      { t with lockSet := t.lockSet.insert a }).transactionAt ⟨0, i⟩).lockSet
    rw [transactionAt_modifyTransaction _ _ _ _ (ho.user _ .shared rfl), if_pos rfl]
    exact Std.ExtTreeSet.mem_insert_self
  | @giveBack c r d e rest w hs =>
    cases hg
    exact absurd rfl ((has_release (.inl hi)).2 rfl)
  | _ => exact absurd hg (by simp [Stage.granted?])

theorem advance (h : k.Accounted) (hc : k.going c = some p) (ha : Advance k.system p s' p') :
    (k.follow c s' p').Accounted := by
  have hp : k.stage? c = some p := stage?_of_going hc
  have ho := h.orderly.inOrder c p hc
  have hcall : p.call? = some c := h.orderly.call c p hc
  have hsame : ∀ {b q}, b ≠ c → k.stage? b = some q → (k.follow c s' p').stage? b = some q :=
    fun hb hq => (h.orderly.stage?_follow_ne hc ha hb).trans hq
  refine ⟨h.orderly.advance hc ha, ha.begun ▸ h.single, ?_, ?_, ?_, fun r =>
    ha.departed ho (h.departed r)⟩
  · intro b q hq
    rcases h.orderly.stage?_follow hc ha hq with ⟨-, hq⟩ | ⟨-, ⟨-, rfl⟩ | ⟨-, hsuspends⟩⟩
    · exact h.plans b q hq
    · exact ha.inPlan (h.plans c p hp)
    · exact hsuspends.inPlan (h.plans c p hp)
  · intro name i hi
    rcases ha.mem_owners hi with hold | ⟨b, r, kind, d, goal, w, rfl, rfl, rfl⟩
    · rcases h.owner name i hold with hlisted | ⟨b, q, a, hq, hg, rfl⟩
      · exact .inl ((ha.lists hlisted).resolve_right fun hn => hn (.inl hi))
      · by_cases hb : b = c
        · subst hb
          obtain rfl : p = q := Option.some.inj (hp.symm.trans hq)
          exact .inl (owner_kept ho ha hg hi)
        · exact .inr ⟨b, q, a, hsame hb hq, hg, rfl⟩
    · obtain rfl : b = c := Option.some.inj hcall
      obtain ⟨a, rest, rfl, rfl⟩ := h.plans _ _ hp
      refine .inr ⟨b, _, a, stage?_follow_of_call? (by simp [Stage.call?]), ?_, rfl⟩
      exact congrArg some (Prod.ext (h.ref_eq_of_user hp rfl) rfl)
  · intro name i hi
    rcases ha.mem_upgraders (h.orderly.waitingAt hc) hi with
      ⟨hold, hstays⟩ | ⟨b, r, d, goal, w, rfl, hp', hr⟩
    · rcases h.upgrader name i hold with hlisted | ⟨b, q, hq, hup⟩
      · exact .inl ((ha.lists hlisted).resolve_right fun hn => hn (.inr hi))
      · by_cases hb : b = c
        · subst hb
          obtain rfl : p = q := Option.some.inj (hp.symm.trans hq)
          cases p with
          | looking b' r other kind d goal w =>
            obtain rfl : b' = b := Option.some.inj hcall
            obtain ⟨hr, rfl, rfl, rfl⟩ := hup
            refine .inr ⟨b', _, h.orderly.looking_follow hc ha
              (hstays _ _ _ _ _ _ rfl hr), hr, rfl, rfl, rfl⟩
          | _ => exact hup.elim
        · exact .inr ⟨b, q, hsame hb hq, hup⟩
    · obtain rfl : b = c := Option.some.inj hcall
      exact .inr ⟨b, _, h.orderly.looking_follow hc ha hp', hr, rfl, rfl, rfl⟩

theorem start (h : k.Accounted) (he : e.usesLock = false) (ha : k.Admits e)
    (hs : Start k.system e s' p) (hp : ∀ c, p.call? = some c → k.going c = none) :
    (k.enter s' p).Accounted := by
  have ho := h.orderly.resting
  refine ⟨h.orderly.start ha hs, hs.single h.single, ?_, ?_, ?_, fun r =>
    hs.departed ho (h.departed r)⟩
  · intro b q hq
    rcases h.orderly.stage?_enter hs hq with ⟨hb, rfl⟩ | ⟨-, hq⟩
    · cases hr : q.requester? with
      | none => cases q <;> trivial
      | some r =>
        rcases hs.requester? he hr with ⟨-, -, -, needs, rfl⟩ | ⟨c, _, _, _, _, _, rfl, hresumes⟩
        · trivial
        · have hplans := h.plans c _ (h.orderly.stage?_of_resumesAt hresumes)
          exact hplans
    · exact h.plans b q hq
  · intro name i hi
    rcases h.owner name i ((hs.loosens he name).owners i hi) with hlisted | ⟨b, q, a, hq, hg, rfl⟩
    · exact .inl ((hs.lists ho hlisted).resolve_right fun hn => hn (.inl hi))
    · refine .inr ⟨b, q, a, ?_, hg, rfl⟩
      rcases Option.or_eq_some_iff.mp hq with hgoing | ⟨-, hresumes⟩
      · refine stage?_of_going (going_enter.mpr (.inr ⟨fun hb => ?_, hgoing⟩))
        exact absurd (hgoing.symm.trans (hp b hb)) (by simp)
      · exact absurd (Stage.halfDone_of_granted? hg) (not_halfDone_of_resumesAt hresumes)
  · intro name i hi
    rcases h.upgrader name i ((hs.loosens he name).upgraders i hi) with hlisted | ⟨b, q, hq, hup⟩
    · exact .inl ((hs.lists ho hlisted).resolve_right fun hn => hn (.inr hi))
    · cases q with
      | looking b' r other kind d goal w =>
        obtain rfl : b' = b := Option.some.inj (h.orderly.call?_of_stage? hq)
        obtain ⟨d', hq'⟩ := h.orderly.looking_enter hs hp hq
        exact .inr ⟨_, _, hq', hup⟩
      | _ => exact hup.elim

theorem release (h : k.Accounted) (hl : name ∈ k.system.locks) :
    Accounted ⟨k.system.release r.id name, k.going⟩ := by
  have hloosens : ∀ other, (k.system.lockAt other).Loosens
      ((k.system.release r.id name).lockAt other) :=
    rel_modifyLock (s := k.system) (f := (Lock.release · r.id)) Lock.Loosens.refl
      fun _ => .release _ _
  have hstage : ∀ {b}, Crowd.stage? ⟨k.system.release r.id name, k.going⟩ b = k.stage? b :=
    stage?_release
  refine ⟨h.orderly.release hl, h.single, fun c p hp => h.plans c p (hstage ▸ hp), ?_, ?_,
    h.departed⟩
  · intro other i hi
    refine (h.owner other i ((hloosens other).owners i hi)).imp_right ?_
    rintro ⟨c, p, a, hp, hg, rfl⟩
    exact ⟨c, p, a, hstage.trans hp, hg, rfl⟩
  · intro other i hi
    refine (h.upgrader other i ((hloosens other).upgraders i hi)).imp_right ?_
    rintro ⟨c, p, hp, hup⟩
    exact ⟨c, p, hstage.trans hp, hup⟩

theorem step (h : k.Accounted) (hd : k.Indirect d) (hs : k.Step d k') : k'.Accounted := by
  cases hs with
  | event ha hs hp => exact h.start hd ha hs hp
  | advance hc ha => exact h.advance hc ha
  | release _ hl => exact h.release hl
  | number => exact ⟨h.orderly.number, h.single, h.plans, h.owner, h.upgrader, h.departed⟩

theorem fresh (g : Granularity) (config lockConfig : Config) :
    (Crowd.still (System.new g [config] lockConfig)).Accounted := by
  refine ⟨.still (.new _ _ _) (.new _ _ _), ⟨0, rfl⟩, ?_, ?_, ?_, ?_⟩
  · simp [stage?_new]
  · intro name i hi
    exact absurd (.inl hi) (lockAt_new ▸ Lock.not_has_default)
  · intro name i hi
    exact absurd (.inr hi) (lockAt_new ▸ Lock.not_has_default)
  · intro r hf
    have hf : ((System.new g [config] lockConfig).transactionAt r).state.isFinal = true := hf
    rw [transactionAt_new] at hf
    exact absurd hf (by simp [default, State.isFinal])

/-- A transaction that has ended has no lock, unless a request of it is still in progress. -/
theorem not_has (h : k.Accounted) (hf : (k.system.transactionAt ⟨0, i⟩).state.isFinal = true)
    (hno : ∀ c q, k.stage? c = some q → q.requester? ≠ some ⟨0, i⟩) (name : LockName) :
    ¬ (k.system.lockAt name).Has i := by
  intro hi
  have hlisted := h.listed_of_has hno hi
  rw [Transaction.mem_lockedNames, (h.departed _ hf).2] at hlisted
  exact absurd hlisted (by simp)

end Accounted

end Crowd

end Locking
