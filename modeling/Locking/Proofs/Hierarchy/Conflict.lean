import Mathlib.Logic.Relation
import Locking.Proofs.Hierarchy.Isolation
import Locking.Proofs.System.Possession

/-! Containment, and what an exclusive lock on a container keeps out.  The containers that are
locked before an entity are those from which it descends by parents, and those that are its
ancestors and have a name.  While one of them is locked exclusively no request of another
transaction for the entity succeeds.  The root, which has no name, is an ancestor of every other
entity and a container of none. -/

namespace Locking

namespace EntityId

variable {a e p : EntityId}

/-! ### Parents -/

/-- The containers of an entity are those of its parent, and the parent. -/
theorem ancestors_of_parent? (h : e.parent? = some p) : e.ancestors = p.ancestors ++ [p] := by
  rw [parent?] at h
  split at h
  · exact absurd h (by simp)
  next hlen =>
  obtain rfl := Option.some.inj h
  obtain ⟨k, hk⟩ : ∃ k, e.segments.length = k + 2 := ⟨e.segments.length - 2, by omega⟩
  have hparent : (⟨e.segments.dropLast⟩ : EntityId).ancestors =
      (List.range' 1 k).map fun n => ⟨e.segments.take n⟩ := by
    rw [ancestors, List.length_dropLast, hk]
    refine List.map_congr_left fun n hn => ?_
    rw [List.mem_range'_1] at hn
    rw [List.dropLast_eq_take, List.take_take, Nat.min_eq_left (by omega)]
  rw [hparent, ancestors, hk, Nat.add_sub_cancel (k + 1) 1, List.range'_1_concat, List.map_append,
    List.map_singleton, List.dropLast_eq_take, hk, Nat.add_comm 1 k]
  rfl

theorem ancestors_of_parent?_eq_none (h : e.parent? = none) : e.ancestors = [] := by
  have hlen : e.segments.length - 1 = 0 := Nat.sub_eq_zero_of_le (parent?_eq_none_iff.mp h)
  rw [ancestors, hlen]
  rfl

theorem mem_ancestors_iff_parent? :
    a ∈ e.ancestors ↔ ∃ p, e.parent? = some p ∧ (a ∈ p.ancestors ∨ a = p) := by
  cases h : e.parent? with
  | none => simp [ancestors_of_parent?_eq_none h]
  | some p => simp [ancestors_of_parent? h]

/-- The second entity is the parent of the first one. -/
def Parent (e p : EntityId) : Prop := e.parent? = some p

theorem Parent.length_lt (h : e.Parent p) : p.segments.length < e.segments.length := by
  rw [Parent, parent?] at h
  split at h
  · exact absurd h (by simp)
  · next hlen =>
    obtain rfl := Option.some.inj h
    rw [List.length_dropLast]
    omega

/-- The containers of an entity are reached from it by one or more steps to the parent. -/
theorem mem_ancestors_iff_transGen : a ∈ e.ancestors ↔ Relation.TransGen Parent e a := by
  constructor
  · intro h
    induction hn : e.segments.length using Nat.strongRecOn generalizing e with
    | _ n ih =>
      obtain ⟨p, hp, h | rfl⟩ := mem_ancestors_iff_parent?.mp h
      · exact .head hp (ih _ (hn ▸ Parent.length_lt hp) h rfl)
      · exact .single hp
  · intro h
    induction h using Relation.TransGen.head_induction_on with
    | single hp => exact mem_ancestors_iff_parent?.mpr ⟨a, hp, .inr rfl⟩
    | head hp _ ih => exact mem_ancestors_iff_parent?.mpr ⟨_, hp, .inl ih⟩

end EntityId

/-- Who asks for a shared lock without holding it makes a shared request. -/
theorem Request.eq_shared {kind : Request} (h : Request.of? none .shared = some kind) :
    kind = .shared := by
  cases h
  rfl

/-- A lock that another transaction holds exclusively is not granted to readers. -/
theorem Lock.grantable_shared_of_exclusive {l : Lock} {i v : TransactionId}
    (hv : l.modeOf v = some .exclusive) : l.grantable i .shared = false := by
  rw [Bool.eq_false_iff]
  intro hg
  have hmem : v ∈ l.owners := System.mem_owners_of_modeOf hv
  rw [Lock.modeOf, if_pos hmem] at hv
  obtain hfree | hshared := (Lock.grantable_shared_iff.mp hg).1
  · exact hfree v hmem
  · exact absurd (hv.symm.trans hshared) (by simp)

/-! ### Requests that stand before a lock -/

/-- A call of transaction `r` at this stage still needs the shared lock of `a`, or it has failed. -/
def Stage.Faces (r : TransactionRef) (a : EntityId) : Stage → Prop
  | concluded response => response ≠ .returned (.ok .unit)
  | taking _ q _ needs => q = r ∧ ⟨a, .shared⟩ ∈ needs
  | looking _ q name kind _ goal _ =>
    q = r ∧ (name = .entity a ∧ kind = .shared ∨ ⟨a, .shared⟩ ∈ goal.rest)
  | granted _ q _ goal _ => q = r ∧ ⟨a, .shared⟩ ∈ goal.rest
  | failed .. => True
  | undoing _ _ _ cause _ => ∃ error, cause = .failure error
  | deciding .. | preparing .. | committing .. => False

theorem Stage.Faces.of_suspends {r : TransactionRef} {a : EntityId} {p q : Stage}
    (h : p.Faces r a) (hq : p.Suspends q) : q.Faces r a := by
  cases hq with
  | asleep | undoing | preparing | committing => exact h

namespace System

variable {s s' : System} {p p' q : Stage} {e : Event} {r : TransactionRef} {a : EntityId}
  {v : TransactionId} {later : List Event}

/-- Transaction number `v` has locked an entity exclusively. -/
def Locks (v : TransactionId) (a : EntityId) (s : System) (_ : Event) : Prop :=
  (s.lockAt (.entity a)).modeOf v = some .exclusive

instance : Decidable (s.Locks v a e) := inferInstanceAs (Decidable (_ = _))

/-- No lock request changes the hold of another transaction. -/
theorem Advance.modeOf_of_requester (ha : Advance s p s' p') (hr : p.requester? = some r)
    (hne : v ≠ r.id) :
    (s'.lockAt (.entity a)).modeOf v = (s.lockAt (.entity a)).modeOf v := by
  have hapart : ∀ {w : Bool}, ¬ (w = false ∧ r.id = v) := fun h => hne h.2.symm
  cases ha with
  | refuse | covered | ask => exact congrArg (Lock.modeOf · v) (lockAt_addLock s _ _)
  | sleep =>
    cases hr
    exact modeOf_modifyLock (Lock.modeOf_park.trans (Lock.modeOf_approach hapart))
  | grant hj =>
    cases hr
    exact modeOf_modifyLock
      ((Lock.modeOf_grant_ne hne (Attempt.judge_eq_granted_iff.mp hj).2.1).trans
        (Lock.modeOf_approach hapart))
  | fail =>
    cases hr
    exact modeOf_modifyLock (Lock.modeOf_abandon.trans (Lock.modeOf_approach hapart))
  | giveBack =>
    cases hr
    exact modeOf_modifyLock (s := s) (Lock.modeOf_release.trans (if_neg hne))
  | undo | undone | removed | prepare | prepared | commit | committed =>
    exact absurd hr (by simp [Stage.requester?])
  | _ => rfl

/-- While a request of transaction `r` goes on, transaction number `v` has `a` locked
exclusively. -/
structure KeptOut (r : TransactionRef) (v : TransactionId) (a : EntityId) (s : System) (p : Stage) :
    Prop where
  inOrder : InOrder s p
  waiting : Waiting s p
  locked : p.requester? = some r → (s.lockAt (.entity a)).modeOf v = some .exclusive

namespace KeptOut

theorem start (h : KeptOut r v a s idle) (he : s.Locks v a e) (hst : Start s e s' p) :
    KeptOut r v a s' p := by
  refine ⟨h.inOrder.start hst, h.waiting.start h.inOrder hst, fun hp => ?_⟩
  cases hst with
  | lock | lockAll | acquire | upgrade => exact he
  | wake | expire => exact (modeOf_modifyLock (s := s) rfl).trans he
  | _ => exact absurd hp (by simp [Stage.requester?])

theorem advance (h : KeptOut r v a s p) (hne : v ≠ r.id) (ha : Advance s p s' p') :
    KeptOut r v a s' p' where
  inOrder := h.inOrder.advance ha
  waiting := h.waiting.advance h.inOrder ha
  locked hp := (ha.modeOf_of_requester (ha.requester? hp) hne).trans
    (h.locked (ha.requester? hp))

theorem invariant (hne : v ≠ r.id) : Invariant (Locks v a) (KeptOut r v a) where
  inOrder := inOrder
  rest h := ⟨h.inOrder.rest, h.waiting.rest, by simp [Stage.requester?]⟩
  start he h hst := h.start he hst
  advance h ha := h.advance hne ha

/-- A request that needs the shared lock of `a` comes no further than there. -/
theorem faces_advance (h : KeptOut r v a s p) (hne : v ≠ r.id) (hf : p.Faces r a)
    (ha : Advance s p s' p') : p'.Faces r a := by
  have hnone : p.requester? = some r → (s.lockAt (.entity a)).modeOf r.id = none := fun hp =>
    (h.waiting.sound _).modeOf_eq_none (h.locked hp) hne.symm
  cases ha with
  | done => exact absurd hf.2 (by simp)
  | refuse | fail | giveBack => trivial
  | covered hi hk =>
    obtain ⟨rfl, hmem⟩ := hf
    rcases List.mem_cons.mp hmem with rfl | hmem
    · rw [hnone rfl] at hk
      exact absurd hk (by simp [Request.of?])
    · exact ⟨rfl, hmem⟩
  | ask hi hk =>
    obtain ⟨rfl, hmem⟩ := hf
    rcases List.mem_cons.mp hmem with rfl | hmem
    · rw [hnone rfl] at hk
      exact ⟨rfl, .inl ⟨rfl, Request.eq_shared hk⟩⟩
    · exact ⟨rfl, .inr hmem⟩
  | grant hj =>
    obtain ⟨rfl, ⟨rfl, rfl⟩ | hmem⟩ := hf
    · -- Readers do not get past the exclusive hold.
      have hg := (Attempt.judge_eq_granted_iff.mp hj).2.1
      rw [Lock.approach_of_not_first (.inr (by simp)), attempt_request,
        Lock.grantable_shared_of_exclusive (h.locked rfl)] at hg
      exact absurd hg (by simp)
    · exact ⟨rfl, hmem⟩
  | keep => exact hf
  | abort => exact ⟨_, rfl⟩
  | undone =>
    obtain ⟨error, rfl⟩ := hf
    simp [Stage.Faces, Cause.outcome]
  | removed =>
    obtain ⟨error, hcause⟩ := hf
    exact absurd hcause (by simp)
  | beginPhased | beginAtOnce | prepare | prepared | commit | committed => exact hf.elim
  | grantedSingle => exact absurd hf.2 (by simp [Goal.rest])
  | _ => simp [Stage.Faces]

theorem endures (hne : v ≠ r.id) :
    Endures (Locks v a) (KeptOut r v a) fun _ p => p.Faces r a where
  invariant := invariant hne
  waiting h := h.waiting
  unprepared h := h
  uncommitted h := h
  advance hi h ha := hi.faces_advance hne h ha
  suspend _ h _ _ hq := h.of_suspends hq
  aside _ _ _ _ h := h
  wait _ _ _ _ _ h := h
  wake _ _ _ h := h
  reply h := h

end KeptOut

/-! ### Containers -/

/-- Containment, and what an exclusive lock on a container keeps out.  An entity is locked before
another one, under the hierarchical granularity, just if it is an ancestor of it that has a name,
and just if it is reached from it by one or more steps to the parent.  Take any run of any managers
with this granularity, in it a call of `lock` or `lockAll` by a transaction that asks for an entity,
and an ancestor of the entity that has a name.  If another transaction number has the ancestor
locked exclusively from the request on, then the call does not return success. -/
theorem containers_keep_out (configs : List Config) (lockConfig : Config)
    (before later : List Event) (e : Event) (r : TransactionRef) (n : Need) (v : TransactionId)
    (a : EntityId) :
    let s := (System.new .hierarchical configs lockConfig).run before
    (∀ a e : EntityId, (a ∈ Granularity.hierarchical.containers e ↔
        a.isAncestorOf e = true ∧ a.segments ≠ []) ∧
      (a ∈ Granularity.hierarchical.containers e ↔ Relation.TransGen EntityId.Parent e a)) ∧
    (e.Requests r n → a.isAncestorOf n.entity = true → a.segments ≠ [] → v ≠ r.id →
      Obeys (Locks v a) s (e :: later) → ¬ s.ReturnsAt e later (.ok .unit)) := by
  intro s
  refine ⟨fun _ _ => ⟨EntityId.mem_ancestors, EntityId.mem_ancestors_iff_transGen⟩,
    fun hn ha hname hne ho hret => ?_⟩
  obtain ⟨hinOrder, hwaiting⟩ : InOrder s idle ∧ Waiting s idle :=
    Waiting.invariant.run ⟨.new _ _ _, .new _ _ _⟩ (.trivial _ before)
  have hg : s.granularity = .hierarchical := congrArg Prod.fst
    (settings_run (.new .hierarchical configs lockConfig) before)
  have hneed : ⟨a, .shared⟩ ∈ e.needs s.granularity :=
    hn.container _ (hg ▸ EntityId.mem_ancestors.mpr ⟨ha, hname⟩)
  have hkept : KeptOut r v a s idle := ⟨hinOrder, hwaiting, by simp [Stage.requester?]⟩
  obtain hstep | ⟨error, -, hstep⟩ | ⟨-, hst, hadv⟩ := hinOrder.tidy.asked hn.asker?
  · have hnone := hret.1
    rw [answerTo?, hstep] at hnone
    exact absurd hnone (by simp [Response.outcome?, Response.call?])
  · obtain ⟨-, hfailed⟩ := hret.at_once (congrArg Prod.snd hstep)
    exact absurd hfailed (by simp)
  · exact (KeptOut.endures hne).returned hkept ho.1 hst ⟨rfl, hneed⟩ hadv ho.2 hret rfl

/-- One transaction locks a container exclusively.  Another one asks for two entities, gets the
first one, which lies elsewhere, and sleeps over the container of the second one, also when it wakes
up. -/
theorem kept_out_asleep :
    let before : List Event := [.begin 0, .begin 0, .lock ⟨0, 1⟩ ⟨["b"]⟩ .exclusive]
    let e : Event := .lockAll ⟨0, 2⟩ [⟨⟨["b", "c"]⟩, .exclusive⟩, ⟨⟨["a"]⟩, .shared⟩]
    let s := (System.new .hierarchical [{}] {}).run before
    let s' := (s.step e).1
    (⟨["b"]⟩ : EntityId).isAncestorOf ⟨["b", "c"]⟩ = true ∧
      Obeys (Locks 1 ⟨["b"]⟩) s [e, .wake 0] ∧
      (s'.lockAt (.entity ⟨["a"]⟩)).modeOf 2 = some .shared ∧
      (s.step e).2 = .asleep 0 ∧ (s'.step (.wake 0)).2 = .asleep 0 ∧
      ¬ s.ReturnsAt e [.wake 0] (.ok .unit) := by
  intro before e s s'
  have hanc : (⟨["b"]⟩ : EntityId).isAncestorOf ⟨["b", "c"]⟩ = true := by decide +kernel
  have hlocks : Obeys (Locks 1 ⟨["b"]⟩) s [e, .wake 0] := by decide +kernel
  have hgot : (s'.lockAt (.entity ⟨["a"]⟩)).modeOf 2 = some .shared ∧
      (s.step e).2 = .asleep 0 ∧ (s'.step (.wake 0)).2 = .asleep 0 := by decide +kernel
  obtain ⟨-, hkept⟩ := containers_keep_out [{}] {} before [.wake 0] e ⟨0, 2⟩
    ⟨⟨["b", "c"]⟩, .exclusive⟩ 1 ⟨["b"]⟩
  exact ⟨hanc, hlocks, hgot.1, hgot.2.1, hgot.2.2,
    hkept ⟨rfl, by simp⟩ hanc (by simp) (by decide) hlocks⟩

/-- The root is an ancestor of an entity of which it is no container, to which no parents lead, and
which another transaction gets while the root is locked exclusively. -/
theorem root_keeps_nobody_out :
    let s := (System.new .hierarchical [{}] {}).run
      [.begin 0, .begin 0, .lock ⟨0, 1⟩ ⟨[]⟩ .exclusive]
    let result := s.step (.lock ⟨0, 2⟩ ⟨["a"]⟩ .exclusive)
    (⟨[]⟩ : EntityId).isAncestorOf ⟨["a"]⟩ = true ∧
      ⟨[]⟩ ∉ Granularity.hierarchical.containers ⟨["a"]⟩ ∧
      ¬ Relation.TransGen EntityId.Parent ⟨["a"]⟩ ⟨[]⟩ ∧
      (s.lockAt (.entity ⟨[]⟩)).modeOf 1 = some .exclusive ∧
      result.2 = .returned (.ok .unit) ∧
      (result.1.lockAt (.entity ⟨[]⟩)).modeOf 1 = some .exclusive ∧
      (result.1.lockAt (.entity ⟨["a"]⟩)).modeOf 2 = some .exclusive := by
  intro s result
  have hno : (⟨[]⟩ : EntityId) ∉ EntityId.ancestors ⟨["a"]⟩ := by decide
  exact ⟨by decide +kernel, hno, fun h => hno (EntityId.mem_ancestors_iff_transGen.mpr h),
    by decide +kernel⟩

end System

end Locking
