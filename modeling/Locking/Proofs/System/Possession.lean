import Locking.Proofs.System.Aftermath
import Locking.Proofs.System.Holdings

/-! What a lock call guarantees when it succeeds.  All that its transaction asked for is owned at the
moment of the answer, with all containers, and so is all that the transaction owned before the call.  A
lock that has been reached once stays owned until the call returns: another request of the call may
give it up for an upgrade, but not without getting more. -/

namespace Locking

/-- The locks that a granted request is to be followed by. -/
def Goal.rest : Goal → List Need
  | single => []
  | plan _ rest => rest

/-- What is asked for is what is requested. -/
theorem Request.mode_eq {held : Option LockMode} {mode : LockMode} {kind : Request}
    (h : Request.of? held mode = some kind) : kind.mode = mode := by
  match held, mode, h with
  | none, .shared, rfl | none, .exclusive, rfl | some .shared, .exclusive, rfl => rfl

/-- Nothing is asked for that gives less than what is held. -/
theorem Request.covers_of_held {held mode wanted : LockMode} {kind : Request}
    (h : Request.of? (some held) mode = some kind) (hc : held.covers wanted = true) :
    kind.mode.covers wanted = true := by
  match held, mode, h with
  | .shared, .exclusive, rfl => cases wanted <;> rfl

namespace System

variable {s s' t : System} {p p' q : Stage} {e : Event} {r : TransactionRef} {c : CallId}
  {n : Need} {later : List Event} {name : LockName}

/-! ### One request at a time -/

/-- Locks are used through their transactions only, transaction `r` makes no request while another
one of it is asleep, and its locks are released only when it ends. -/
def Undisturbed (r : TransactionRef) (s : System) (e : Event) : Prop :=
  e.usesLock = false ∧ e ≠ .unlockAll r ∧ e ≠ .forget r ∧ (e.asker? = some r →
    ∀ (c : CallId) (k : Call), s.calls[c]? = some k → k.transaction = r → k.point.isAsleep = false)

instance (r : TransactionRef) (s : System) (e : Event) : Decidable (s.Undisturbed r e) :=
  decidable_of_iff (e.usesLock = false ∧ e ≠ .unlockAll r ∧ e ≠ .forget r ∧ (e.asker? = some r →
    ∀ entry ∈ s.calls.toList, entry.2.transaction = r → entry.2.point.isAsleep = false)) <| by
    simp only [Prod.forall, Std.ExtTreeMap.mem_toList_iff_getElem?_eq_some]
    rfl

/-- A call of transaction `r` is asleep. -/
def AsleepFor (s : System) (r : TransactionRef) (c : CallId) : Prop :=
  ∃ k : Call, s.calls[c]? = some k ∧ k.transaction = r ∧ k.point.isAsleep = true

theorem Undisturbed.awake (h : s.Undisturbed r e) (he : e.asker? = some r) (c : CallId) :
    ¬ s.AsleepFor r c := by
  rintro ⟨k, hk, hkr, hasleep⟩
  exact absurd (h.2.2.2 he c k hk hkr) (by simp [hasleep])

/-- A transaction has at most one request, which is asleep or goes on. -/
structure Lone (r : TransactionRef) (s : System) (p : Stage) : Prop where
  once : ∀ b c, s.AsleepFor r b → s.AsleepFor r c → b = c
  awake : p.requester? = some r → ∀ c, ¬ s.AsleepFor r c

namespace Lone

theorem advance (h : Lone r s p) (ha : Advance s p s' p') : Lone r s' p' := by
  have hcase : ∀ {c}, s'.AsleepFor r c → s.AsleepFor r c ∨
      p.call? = some c ∧ p.requester? = some r ∧ p'.requester? = none := by
    rintro c ⟨k, hk, rfl, hasleep⟩
    rcases ha.calls_of_asleep hk hasleep with hk | ⟨q, name, kind, d, goal, w, rfl, rfl, rfl⟩
    · exact .inl ⟨k, hk, rfl, hasleep⟩
    · exact .inr ⟨rfl, rfl, rfl⟩
  refine ⟨fun b c hb hc => ?_, fun hp c hc => ?_⟩
  · rcases hcase hb with hb | ⟨hb, hr, -⟩ <;> rcases hcase hc with hc | ⟨hc, hr', -⟩
    · exact h.once b c hb hc
    · exact absurd hb (h.awake hr' b)
    · exact absurd hc (h.awake hr c)
    · exact Option.some.inj (hb.symm.trans hc)
  · rcases hcase hc with hc | ⟨-, -, hnone⟩
    · exact h.awake (ha.requester? hp) c hc
    · exact absurd (hp.symm.trans hnone) (by simp)

/-- An active transaction asks for locks only while no request of it is asleep. -/
theorem start (h : Lone r s idle) (ho : InOrder s idle) (he : e.usesLock = false)
    (hasker : e.asker? = some r → (s.transactionAt r).state = .active → ∀ c, ¬ s.AsleepFor r c)
    (hst : Start s e s' p) : Lone r s' p := by
  have hold : ∀ {c}, s'.AsleepFor r c → s.AsleepFor r c := by
    rintro c ⟨⟨q, access, point⟩, hk, rfl, hasleep⟩
    cases point with
    | waiting name d goal =>
      obtain ⟨d', hk⟩ := ho.calls_of_asleep hst hk
      exact ⟨_, hk, rfl, rfl⟩
    | _ => exact absurd hasleep (by simp [Point.isAsleep])
  refine ⟨fun b c hb hc => h.once b c (hold hb) (hold hc), fun hp b hb => ?_⟩
  -- A request goes on that has been asleep, so no other one is, or a new one begins.
  have hwoken : ∀ {c : CallId} {name : LockName} {d : Deadline} {goal : Goal},
      s.calls[c]? = some ⟨r, .shared, .waiting name d goal⟩ → s'.calls[c]? = none → False := by
    intro c name d goal hk hnone
    obtain rfl := h.once b c (hold hb) ⟨_, hk, rfl, rfl⟩
    obtain ⟨k, hk', -⟩ := hb
    exact absurd (hk'.symm.trans hnone) (by simp)
  cases hst with
  | lock _ hs | lockAll _ hs =>
    obtain rfl := Option.some.inj hp
    exact hasker rfl hs b hb
  | acquire | upgrade => exact absurd he (by simp [Event.usesLock])
  | wake hk | expire hk =>
    obtain rfl := Option.some.inj hp
    exact hwoken hk (by simp [modifyLock, dismiss])
  | _ => exact absurd hp (by simp [Stage.requester?])

theorem invariant (r : TransactionRef) : Invariant (Undisturbed r) fun s p =>
    Managed s p ∧ Lone r s p where
  inOrder h := h.1.inOrder
  rest h := ⟨Managed.invariant.rest h.1, h.2.once, by simp [Stage.requester?]⟩
  start he h hst := ⟨Managed.invariant.start he.1 h.1 hst,
    h.2.start h.1.inOrder he.1 (fun hr _ => he.awake hr) hst⟩
  advance h ha := ⟨Managed.invariant.advance h.1 ha, h.2.advance ha⟩

end Lone

/-! ### What a call has gained -/

/-- As long as it is active, a transaction owns a lock that it needs. -/
def Owns (s : System) (r : TransactionRef) (n : Need) : Prop :=
  (s.transactionAt r).state = .active → (s.lockAt (.entity n.entity)).Covers r.id n.mode

/-- A call that stands at a stage returns with success only if its transaction owns a lock.  Until then
the lock is among those that are still needed, or it is the one that is being asked for, or it is
owned. -/
def Gains (s : System) (r : TransactionRef) (n : Need) : Stage → Prop
  | .concluded response => response = .returned (.ok .unit) → s.Owns r n
  | .taking _ q _ needs =>
    q = r ∧ (s.transactionAt r).state = .active ∧ (s.Owns r n ∨ n ∈ needs)
  | .looking _ q name kind _ goal _ => q = r ∧ (s.Owns r n ∧ name ≠ .entity n.entity ∨
      name = .entity n.entity ∧ kind.mode.covers n.mode = true ∨ n ∈ goal.rest)
  | .granted _ q _ goal _ => q = r ∧ (s.Owns r n ∨ n ∈ goal.rest)
  | .failed .. => True
  | .undoing _ _ _ cause _ => ∃ error, cause = .failure error
  | .deciding .. | .preparing .. | .committing .. => False

namespace Owns

/-- Only a request of its own takes from a transaction what it owns, and only for the same lock. -/
theorem advance (h : s.Owns r n) (hm : Managed s p) (hr : r = ⟨0, r.id⟩) (ha : Advance s p s' p')
    (hlook : ∀ c kind d goal w, p ≠ .looking c r (.entity n.entity) kind d goal w) :
    s'.Owns r n := by
  intro hactive
  obtain ⟨hs, hl⟩ := hm.ledger
  have hid : ∀ q access, p.user? = some (q, access) → q ≠ r → r.id ≠ q.id := by
    intro q access hu hne hid
    rw [hm.ref_eq hu, ← hid, ← hr] at hne
    exact hne rfl
  have hsame := ha.modeOf_of_active hl hid hactive hlook
  exact (Lock.covers_congr hsame).mpr (h (active_of_turns (ha.turns hl r) hactive))

theorem start (h : s.Owns r n) (hm : Managed s idle) (hr : r = ⟨0, r.id⟩) (he : s.Undisturbed r e)
    (hst : Start s e s' p) : s'.Owns r n := by
  intro hactive
  have hsame := hst.modeOf hm.inOrder hm.recorded.single he.1 (hr ▸ he.2.1) (hr ▸ he.2.2.1)
    (.entity n.entity)
  exact (Lock.covers_congr hsame).mpr
    (h (active_of_turns (.begins (hst.begins hm.inOrder r)) hactive))

end Owns

namespace Gains

/-- What a transaction owns it still owns when it goes on to ask for another lock, or for more of the
same one. -/
theorem ask {m : Need} {rest : List Need} {kind : Request} (h : s.Owns r n ∨ n ∈ m :: rest)
    (hs : (s.transactionAt r).state = .active) (hown : s.Owns r n → s'.Owns r n)
    (hk : Request.of? ((s.lockAt (.entity m.entity)).modeOf r.id) m.mode = some kind) :
    s'.Owns r n ∧ LockName.entity m.entity ≠ .entity n.entity ∨
      LockName.entity m.entity = .entity n.entity ∧ kind.mode.covers n.mode = true ∨ n ∈ rest := by
  rcases h with h | h
  · by_cases hm : m.entity = n.entity
    · obtain ⟨held, hheld, hcovers⟩ := h hs
      rw [hm, hheld] at hk
      exact .inr (.inl ⟨congrArg _ hm, Request.covers_of_held hk hcovers⟩)
    · exact .inl ⟨hown h, by simpa using hm⟩
  · rcases List.mem_cons.mp h with rfl | h
    · exact .inr (.inl ⟨rfl, Request.mode_eq hk ▸ LockMode.covers_self _⟩)
    · exact .inr (.inr h)

theorem advance (h : s.Gains r n p) (hm : Managed s p) (hr : r = ⟨0, r.id⟩)
    (ha : Advance s p s' p') : s'.Gains r n p' := by
  have hown := fun h : s.Owns r n => h.advance hm hr ha
  have hlooked := hm.waiting.looked
  cases ha with
  | done => exact fun _ => h.2.2.resolve_right (by simp)
  | refuse | fail | giveBack => trivial
  | @covered c q d m rest hi hk =>
    obtain ⟨rfl, hs, h⟩ := h
    refine ⟨rfl, ?_⟩
    rcases h with h | h
    · exact .inl (hown h (by simp))
    rcases List.mem_cons.mp h with rfl | h
    · refine .inl fun _ => ?_
      rw [lockAt_addLock]
      exact Request.of?_eq_none_iff.mp hk
    · exact .inr h
  | ask hi hk =>
    obtain ⟨rfl, hs, h⟩ := h
    exact ⟨rfl, Gains.ask h hs (fun h => hown h (by simp)) hk⟩
  | @grant c q name kind d goal w g hj =>
    obtain ⟨rfl, ⟨h, hne⟩ | ⟨rfl, hcovers⟩ | h⟩ := h
    · refine ⟨rfl, .inl (hown h fun _ _ _ _ _ hp => hne ?_)⟩
      cases hp
      rfl
    · refine ⟨rfl, .inl fun _ => ⟨kind.mode, ?_, hcovers⟩⟩
      show ((s.modifyLock _ _).lockAt _).modeOf _ = _
      rw [lockAt_modifyLock_self (hlooked _ rfl), Lock.modeOf_grant_self]
    · exact ⟨rfl, .inr h⟩
  | @keep c q d a rest w hactive =>
    obtain ⟨rfl, h⟩ := h
    have hsame := view_modifyTransaction (s := s) (r := q) (q := q) Transaction.state
      (f := fun t => { t with lockSet := t.lockSet.insert a }) fun _ => rfl
    exact ⟨rfl, hsame.trans hactive, h.imp (fun h => hown h (by simp)) id⟩
  | abort => exact ⟨_, rfl⟩
  | @undone c q access cause hc =>
    obtain ⟨error, rfl⟩ := h
    exact fun hok => absurd hok (by simp [Cause.outcome])
  | removed =>
    obtain ⟨error, h⟩ := h
    exact absurd h (by simp)
  | beginPhased | beginAtOnce | prepare | prepared | commit | committed => exact h.elim
  | _ => exact fun hok => absurd hok (by simp)

/-- What is known of a call in progress lasts as long as its transaction owns what it owns. -/
theorem resting (h : s.Gains r n q) (hq : t.resumesAt c = some q)
    (hown : t.AsleepFor r c → s.Owns r n → s'.Owns r n) : s'.Gains r n q := by
  rw [resumesAt] at hq
  split at hq
  · next hk =>
    obtain ⟨kind, -, rfl⟩ := Option.map_eq_some_iff.mp hq
    obtain ⟨rfl, h⟩ := h
    exact ⟨rfl, h.imp_left (.imp_left (hown ⟨_, hk, rfl, rfl⟩))⟩
  · cases hq; exact h
  · cases hq; exact h
  · cases hq; exact h
  · exact absurd hq (by simp)

theorem suspended (h : s.Gains r n p) (hm : Managed s p) (hr : r = ⟨0, r.id⟩)
    (ha : Advance s p s' p') (hq : p.Suspends q) : s'.Gains r n q := by
  cases hq with
  | asleep =>
    obtain ⟨rfl, h⟩ := h
    refine ⟨rfl, h.imp_left fun ⟨h, hne⟩ => ⟨h.advance hm hr ha fun _ _ _ _ _ hp => hne ?_, hne⟩⟩
    cases hp
    rfl
  | _ => exact h

theorem endures (n : Need) (hr : r = ⟨0, r.id⟩) :
    Endures (Undisturbed r) (fun s p => Managed s p ∧ Lone r s p) fun s p => s.Gains r n p where
  invariant := Lone.invariant r
  waiting h := h.1.waiting
  unprepared h := h
  uncommitted h := h
  advance hi h ha := h.advance hi.1 hr ha
  suspend hi h ha _ hq := h.suspended hi.1 hr ha hq
  aside hi ha _ hq h := h.resting hq fun hasleep hown => hown.advance hi.1 hr ha (by
    -- A request of the transaction does not go on while another one is asleep.
    rintro c kind d goal w rfl
    exact hi.2.awake rfl _ hasleep)
  wait he hi hst _ hq h := h.resting hq fun _ hown => hown.start hi.1 hr he hst
  wake {s c q name goal d d' w} _ hk _ h := by
    obtain ⟨rfl, h⟩ := h
    refine ⟨rfl, h.imp_left (.imp_left fun h hactive => ?_)⟩
    exact (Lock.covers_congr (modeOf_modifyLock (s := s) rfl)).mpr (h hactive)
  reply h := h

end Gains

/-- What a lock call guarantees when it succeeds.  Take any run of one manager in which locks are used
through it alone, with any granularity, and in it a call of `lock` or `lockAll` that returns success;
until then its transaction makes no other request while one of it is asleep, and its locks are not
released expressly.  Then, at the moment of the answer, the transaction is active, owns each entity
that it asked for in a mode that covers every mode it asked for, owns all containers of the entity at
least shared, and owns each lock that it owned before the call in a mode that is no weaker. -/
theorem owned_after_success (g : Granularity) (config lockConfig : Config)
    (before later : List Event) (e : Event) (r : TransactionRef) (he : e.asker? = some r)
    (hbefore : Obeys (fun _ e => e.usesLock = false) (System.new g [config] lockConfig) before)
    (hafter : Obeys (Undisturbed r) ((System.new g [config] lockConfig).run before) (e :: later))
    (hret : ((System.new g [config] lockConfig).run before).ReturnsAt e later (.ok .unit)) :
    let s := (System.new g [config] lockConfig).run before
    let s' := (s.step e).1.run later
    (s'.transactionAt r).state = .active ∧
      (∀ n, e.Requests r n → (s'.lockAt (.entity n.entity)).Covers r.id n.mode ∧
        ∀ a ∈ g.containers n.entity, (s'.lockAt (.entity a)).Covers r.id .shared) ∧
      ∀ name mode, (s.lockAt name).modeOf r.id = some mode → (s'.lockAt name).Covers r.id mode := by
  intro s s'
  have hm : Managed s idle := Managed.invariant.run (.new g config lockConfig) hbefore
  have hsettings : s.settings = (System.new g [config] lockConfig).settings :=
    settings_run (.new g [config] lockConfig) before
  have hg : s.granularity = g := congrArg Prod.fst hsettings
  obtain ⟨hrule, hlater⟩ := hafter
  have halone : ∀ c, ¬ s.AsleepFor r c := hrule.awake he
  have hi : Managed s idle ∧ Lone r s idle :=
    ⟨hm, fun b _ hb => absurd hb (halone b), fun _ => halone⟩
  obtain hstep | ⟨error, -, hstep⟩ | ⟨hactive, hst, ha⟩ := hm.inOrder.tidy.asked he
  · have hnone := hret.1
    rw [answerTo?, hstep] at hnone
    exact absurd hnone (by simp [Response.outcome?, Response.call?])
  · obtain ⟨-, hfailed⟩ := hret.at_once (congrArg Prod.snd hstep)
    exact absurd hfailed (by simp)
  have hr : r = ⟨0, r.id⟩ := (Managed.invariant.start hrule.1 hm hst).ref_eq rfl
  have hend : (s'.transactionAt r).state = .active := by
    have hleft := (Fares.endures r).returned hm hrule.1 hst ⟨by simp [hactive], rfl, hactive⟩ ha
      (hlater.mono fun h => h.1) hret
    cases hleft.2 _ rfl with
    | active hs => exact hs
  have hgained : ∀ n, s.Owns r n ∨ n ∈ e.needs s.granularity →
      (s'.lockAt (.entity n.entity)).Covers r.id n.mode := fun n hn =>
    (Gains.endures n hr).returned hi hrule hst ⟨rfl, hactive, hn⟩ ha hlater hret rfl hend
  refine ⟨hend, fun n hn => ⟨?_, fun a hmem => ?_⟩, fun name mode hmode => ?_⟩
  · obtain ⟨mode, hneed, hcovers⟩ := hn.exists_need s.granularity
    obtain ⟨held, hheld, hmode⟩ := hgained _ (.inr hneed)
    exact ⟨held, hheld, LockMode.covers_trans hmode hcovers⟩
  · exact hgained _ (.inr (hn.container s.granularity (hg ▸ hmem)))
  · -- What one manager's transactions own are the locks of entities.
    have hhas : (s.lockAt name).Has r.id := .inl (not_not.mp fun hn => by
      rw [Lock.modeOf, if_neg hn] at hmode
      exact absurd hmode (by simp))
    obtain ⟨x, -, rfl⟩ := Transaction.mem_lockedNames.mp (hm.recorded.listed_of_has rfl hhas)
    exact hgained ⟨x, mode⟩ (.inl fun _ => ⟨mode, hmode, mode.covers_self⟩)

/-- An entity has itself and another one as containers, the latter twice.  A reader of the entity asks
for both at once, falls asleep over the upgrade that this takes, and gets all. -/
theorem owned_after_upgrade :
    let g := Granularity.ofTable [(⟨["x"]⟩, [⟨["c"]⟩, ⟨["x"]⟩, ⟨["c"]⟩])]
    let before : List Event := [.begin 0, .begin 0, .lock ⟨0, 1⟩ ⟨["x"]⟩ .shared,
      .lock ⟨0, 2⟩ ⟨["x"]⟩ .shared]
    let e : Event := .lockAll ⟨0, 1⟩ [⟨⟨["x"]⟩, .exclusive⟩, ⟨⟨["c"]⟩, .shared⟩]
    let later : List Event := [.wake 0, .rollback ⟨0, 2⟩, .wake 0]
    let fresh := System.new g [{}] {}
    let s := fresh.run before
    let s' := (s.step e).1.run later
    Obeys (fun _ e => e.usesLock = false) fresh before ∧ Obeys (Undisturbed ⟨0, 1⟩) s (e :: later) ∧
      s.ReturnsAt e later (.ok .unit) ∧ ((s.step e).1.lockAt (.entity ⟨["x"]⟩)).modeOf 1 = none ∧
      (s'.lockAt (.entity ⟨["x"]⟩)).Covers 1 .exclusive ∧
      (s'.lockAt (.entity ⟨["c"]⟩)).Covers 1 .shared := by
  intro g before e later fresh s s'
  have hbefore : Obeys (fun _ e => e.usesLock = false) fresh before := by decide +kernel
  have hafter : Obeys (Undisturbed ⟨0, 1⟩) s (e :: later) := by decide +kernel
  have hret : s.ReturnsAt e later (.ok .unit) := by decide +kernel
  have hgivenUp : ((s.step e).1.lockAt (.entity ⟨["x"]⟩)).modeOf 1 = none := by decide +kernel
  obtain ⟨-, howned, -⟩ :=
    owned_after_success g {} {} before later e ⟨0, 1⟩ rfl hbefore hafter hret
  obtain ⟨hx, hcontainers⟩ := howned ⟨⟨["x"]⟩, .exclusive⟩ ⟨rfl, by simp⟩
  exact ⟨hbefore, hafter, hret, hgivenUp, hx, hcontainers ⟨["c"]⟩ (by decide +kernel)⟩

end System

end Locking
