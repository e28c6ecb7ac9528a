import Locking.Proofs.Hierarchy.Ascent
import Locking.Proofs.System.Deeds
import Locking.Proofs.System.Retained

/-! The climb of a call that locks a set of entities.  As long as its transaction has not been
interrupted, it has the locks of all needs that the call has met, in modes that cover them, and it
has no others; so whatever the call requests comes after all that the transaction has. -/

namespace Locking

/-- The events of transactions that take locks in sets only and release them only when they end. -/
def Event.isBatched : Event → Bool
  | begin _ | lockAll .. | register .. | commit _ | rollback _ | drop _ | interrupt _
  | managerInterrupt _ | remove _ | wake _ | expire _ | reply .. => true
  | _ => false

theorem Event.usesLock_of_isBatched {e : Event} (h : e.isBatched = true) : e.usesLock = false := by
  cases e <;> first | rfl | exact absurd h (by simp [isBatched])

theorem Request.mode_of? {mode : LockMode} {kind : Request}
    (h : Request.of? none mode = some kind) : kind.mode = mode ∧ kind ≠ .upgrade := by
  cases mode <;> cases h <;> exact ⟨rfl, by simp⟩

namespace Lock

variable {l : Lock} {i : TransactionId} {kind : Request} {w : Bool}

theorem approach_of_ne (hk : kind ≠ .upgrade) : l.approach i kind w = l := by
  simp [approach, enter, hk]

end Lock

/-- What does not hurt a transaction that is being waited for: it stays live, and an interrupt is
not forgotten. -/
structure Transaction.Lasts (t t' : Transaction) : Prop where
  live : t.Live → t'.Live
  told : t.isInterrupted = true → t'.isInterrupted = true

theorem Transaction.Lasts.refl (t : Transaction) : t.Lasts t := ⟨id, id⟩

theorem Transaction.Lasts.trans {t t' t'' : Transaction} (h : t.Lasts t') (h' : t'.Lasts t'') :
    t.Lasts t'' := ⟨h'.live ∘ h.live, h'.told ∘ h.told⟩

namespace System

variable {s s' : System} {p p' q : Stage} {e : Event} {r t : TransactionRef} {c : CallId}
  {name : LockName} {had : Need → Prop} {n : Need} {rest : List Need}

/-! ### What a call knows of its transaction -/

/-- A transaction has the locks of the needs that its call has met, unless it has been interrupted,
and no others; the needs that are left ascend from there. -/
structure Ascent (s : System) (r : TransactionRef) (had : Need → Prop) (rest : List Need) :
    Prop where
  ascending : Need.Ascending had rest
  owned : ∀ name, (s.lockAt name).modeOf r.id ≠ none → ∃ m, had m ∧ name = .entity m.entity
  held : (s.transactionAt r).isInterrupted = false → ∀ m, had m →
    ∃ mode, (s.lockAt (.entity m.entity)).modeOf r.id = some mode ∧ mode.covers m.mode = true
  live : (s.transactionAt r).Live

/-- What a request of a climbing call asks for comes after all that its transaction has. -/
structure Ahead (s : System) (r : TransactionRef) (name : LockName) (kind : Request)
    (had : Need → Prop) (n : Need) (rest : List Need) : Prop where
  entity : name = .entity n.entity
  mode : kind.mode = n.mode
  fresh : kind ≠ .upgrade
  beyond : n.Beyond had
  ascent : Ascent s r had (n :: rest)

/-- What holds of a call that stands at a stage, if locks are taken in sets only. -/
def Climbs (s : System) : Stage → Prop
  | .concluded _ | .deciding .. => True
  | .taking _ r _ needs => ∃ had, Ascent s r had needs
  | .looking _ r name kind _ goal _ =>
    ∃ had n rest, goal = .plan n.entity rest ∧ Ahead s r name kind had n rest
  | .granted _ r _ goal _ => ∃ had e rest, goal = .plan e rest ∧ Ascent s r had rest
  | .failed _ _ goal error => (∃ e rest, goal = .plan e rest) ∧ error ≠ .deadlock
  | .undoing _ r _ cause _ =>
    cause ≠ .failure .deadlock ∧ (s.transactionAt r).state ≠ .active
  | .preparing _ r _ | .committing _ r _ => (s.transactionAt r).state ≠ .active

/-- What happens to the system leaves a transaction its locks, or interrupts it. -/
structure Spares (s s' : System) (r : TransactionRef) : Prop where
  lasts : (s.transactionAt r).Lasts (s'.transactionAt r)
  locks : ∀ name, (s'.lockAt name).modeOf r.id = (s.lockAt name).modeOf r.id ∨
    (s'.lockAt name).modeOf r.id = none ∧
      ((s.transactionAt r).Live → (s'.transactionAt r).isInterrupted = true)

theorem Ascent.spared (h : Ascent s r had rest) (hs : Spares s s' r) : Ascent s' r had rest where
  ascending := h.ascending
  owned name hn := by
    rcases hs.locks name with hsame | ⟨hnone, -⟩
    · exact h.owned name (hsame ▸ hn)
    · exact absurd hnone hn
  held hi m hm := by
    have hold : (s.transactionAt r).isInterrupted = false := by
      cases hold : (s.transactionAt r).isInterrupted with
      | false => rfl
      | true => rw [hs.lasts.told hold] at hi; exact absurd hi (by simp)
    rcases hs.locks (.entity m.entity) with hsame | ⟨-, htold⟩
    · rw [hsame]
      exact h.held hold m hm
    · rw [htold h.live] at hi
      exact absurd hi (by simp)
  live := hs.lasts.live h.live

theorem Ahead.spared {kind : Request} (h : Ahead s r name kind had n rest) (hs : Spares s s' r) :
    Ahead s' r name kind had n rest :=
  { h with ascent := h.ascent.spared hs }

theorem Climbs.spared (h : Climbs s p) (hs : ∀ r, p.requester? = some r → Spares s s' r)
    (hended : ∀ r, (s.transactionAt r).state ≠ .active → (s'.transactionAt r).state ≠ .active) :
    Climbs s' p := by
  cases p with
  | concluded | failed | deciding => exact h
  | taking =>
    obtain ⟨had, ha⟩ := h
    exact ⟨had, ha.spared (hs _ rfl)⟩
  | looking =>
    obtain ⟨had, n, rest, hgoal, ha⟩ := h
    exact ⟨had, n, rest, hgoal, ha.spared (hs _ rfl)⟩
  | granted =>
    obtain ⟨had, e, rest, hgoal, ha⟩ := h
    exact ⟨had, e, rest, hgoal, ha.spared (hs _ rfl)⟩
  | undoing => exact ⟨h.1, hended _ h.2⟩
  | preparing | committing => exact hended _ h

theorem Climbs.suspended (h : Climbs s p) (hq : p.Suspends q) : Climbs s q := by
  cases hq <;> exact h

/-! ### What leaves a transaction its locks -/

theorem lasts_modifyTransaction {f : Transaction → Transaction}
    (hf : ∀ t : Transaction, t.Lasts (f t)) :
    (s.transactionAt t).Lasts ((s.modifyTransaction r f).transactionAt t) :=
  rel_modifyTransaction .refl hf

theorem lasts_setState {state : State} (hne : (s.transactionAt r).state ≠ .active) :
    (s.transactionAt t).Lasts ((s.setState r state).transactionAt t) where
  live := live_setState hne
  told := rel_modifyTransaction (R := fun u u' => u.isInterrupted = true → u'.isInterrupted = true)
    (fun _ => id) fun _ => id

theorem lasts_retire : (s.transactionAt t).Lasts ((s.retire r).transactionAt t) := by
  have hstate : ((s.retire r).transactionAt t).state = (s.transactionAt t).state :=
    view_retire Transaction.state (fun _ => rfl) fun _ => rfl
  have htold : ((s.retire r).transactionAt t).isInterrupted = (s.transactionAt t).isInterrupted :=
    view_retire Transaction.isInterrupted (fun _ => rfl) fun _ => rfl
  refine ⟨fun h => ?_, fun h => htold.trans h⟩
  rwa [Transaction.Live, hstate, htold]

theorem inactive_setState {state : State} (hr : r ∈ s.transactions) (hs : state ≠ .active) :
    ((s.setState r state).transactionAt r).state ≠ .active := by
  rwa [(moves_setState hr state).self]

theorem Spares.of_modeOf (ht : (s.transactionAt t).Lasts (s'.transactionAt t))
    (hl : ∀ name, (s'.lockAt name).modeOf t.id = (s.lockAt name).modeOf t.id) : Spares s s' t :=
  ⟨ht, fun name => .inl (hl name)⟩

theorem spares_addLock : Spares s (s.addLock name) t :=
  .of_modeOf (.refl _) fun other => congrArg (Lock.modeOf · t.id) (lockAt_addLock s name other)

/-- A transaction whose locks are released without its own doing has been interrupted. -/
theorem Spares.of_released (ht : (s.transactionAt t).Lasts (s'.transactionAt t))
    (hl : ∀ name, s'.lockAt name = s.lockAt name ∨
      s'.lockAt name = (s.lockAt name).release r.id)
    (hne : (s.transactionAt r).state ≠ .active) (hid : t.id = r.id → t = r) : Spares s s' t := by
  refine ⟨ht, fun name => ?_⟩
  rcases hl name with hsame | hreleased
  · exact .inl (by rw [hsame])
  · rw [hreleased, Lock.modeOf_release]
    by_cases htr : t.id = r.id
    · obtain rfl := hid htr
      exact .inr ⟨if_pos rfl, fun hlive => ht.told (hlive.resolve_left hne)⟩
    · exact .inl (if_neg htr)

/-! ### Advances -/

theorem release_retire (s : System) (r : TransactionRef) (name : LockName) :
    (s.retire r).lockAt name = s.lockAt name ∨
      (s.retire r).lockAt name = (s.lockAt name).release r.id :=
  rel_releaseAll (R := fun l l' => l' = l ∨ l' = l.release r.id) (fun _ => .inl rfl)
    (fun _ => .inr rfl) name

/-- What a call does leaves all other transactions their locks, unless it ends a transaction that
has been interrupted; its own transaction has them as long as the call is not at rest. -/
theorem Advance.spares (h : Climbs s p) (ha : Advance s p s' p')
    (hid : ∀ r access, p.user? = some (r, access) → t.id = r.id → t = r)
    (hother : p.requester? = some t → p'.call? = none) (hcommit : ∀ c, p ≠ .deciding c t) :
    Spares s s' t := by
  have hsame : ∀ {f : Transaction → Transaction} {r}, (∀ t, (f t).state = t.state) →
      (∀ t, (f t).isInterrupted = t.isInterrupted) →
        (s.transactionAt t).Lasts ((s.modifyTransaction r f).transactionAt t) :=
    fun hstate htold => lasts_modifyTransaction fun u =>
      ⟨fun hu => by rwa [Transaction.Live, hstate, htold], fun hu => (htold u).trans hu⟩
  have hretired : ∀ {r access state statistics}, p.user? = some (r, access) →
      (s.transactionAt r).state ≠ .active →
        Spares s (((s.setState r state).retire r).setStatistics statistics) t :=
    fun hu hne => .of_released ((lasts_setState hne).trans lasts_retire)
      (release_retire (s.setState _ _) _) hne (hid _ _ hu)
  cases ha with
  | refuse | covered => exact spares_addLock
  | ask =>
    exact .of_modeOf (hsame (fun _ => rfl) fun _ => rfl) fun _ =>
      congrArg (Lock.modeOf · t.id) (lockAt_addLock s _ _)
  | sleep =>
    obtain ⟨had, n, rest, -, hahead⟩ := h
    refine .of_modeOf (.refl _) fun _ => modeOf_modifyLock ?_
    rw [Lock.approach_of_ne hahead.fresh, Lock.modeOf_park]
  | @grant c r name kind d goal w g hj =>
    obtain ⟨had, n, rest, -, hahead⟩ := h
    obtain ⟨-, hgrantable, -⟩ := Attempt.judge_eq_granted_iff.mp hj
    rw [Lock.approach_of_ne hahead.fresh] at hgrantable
    have htr : t.id ≠ r.id := fun htr => by
      obtain rfl := hid _ _ rfl htr
      exact absurd (hother rfl) (by simp [Stage.call?])
    exact .of_modeOf (hsame (fun _ => rfl) fun _ => rfl) fun _ => modeOf_modifyLock (by
      rw [Lock.approach_of_ne hahead.fresh]
      exact Lock.modeOf_grant_ne htr hgrantable)
  | fail =>
    obtain ⟨had, n, rest, -, hahead⟩ := h
    exact .of_modeOf (hsame (fun _ => rfl) fun _ => rfl) fun _ => modeOf_modifyLock (by
      rw [Lock.approach_of_ne hahead.fresh, Lock.modeOf_abandon])
  | keep => exact .of_modeOf (hsame (fun _ => rfl) fun _ => rfl) fun _ => rfl
  | @giveBack c r d e rest w hs =>
    exact .of_released (.refl _) (fun name => rel_modifyLock (s := s) (f := (Lock.release · r.id))
      (R := fun l l' => l' = l ∨ l' = l.release r.id) (fun _ => .inl rfl) (fun _ => .inr rfl) name)
      hs (hid _ _ rfl)
  | @abort c r e rest error hs =>
    have htr : t ≠ r := fun htr => absurd (hother (congrArg some htr.symm)) (by simp [Stage.call?])
    refine .of_modeOf ?_ fun _ => rfl
    rw [setState, transactionAt_modifyTransaction_ne htr]
    exact .refl _
  | @beginPhased c r | @beginAtOnce c r =>
    have htr : t ≠ r := by
      rintro rfl
      exact hcommit c rfl
    refine .of_modeOf ?_ fun _ => rfl
    rw [setState, transactionAt_modifyTransaction_ne htr]
    exact .refl _
  | undone => exact hretired rfl h.2
  | committed => exact hretired rfl h
  | removed =>
    obtain ⟨hlasts, hlocks⟩ : Spares s (((s.setState _ .aborted).retire _).setStatistics
      s.statistics.countRollback) t := hretired rfl h.2
    refine ⟨?_, fun name => ?_⟩
    · rw [transactionAt_alert]
      exact hlasts
    · rw [modeOf_alert, transactionAt_alert]
      exact hlocks name
  | _ => exact .of_modeOf (.refl _) fun _ => rfl

/-- A transaction that is no longer active is never active again. -/
theorem Advance.inactive (ha : Advance s p s' p')
    (hne : (s.transactionAt t).state ≠ .active) : (s'.transactionAt t).state ≠ .active := by
  have hmodify : ∀ {f : Transaction → Transaction} {r},
      (∀ u : Transaction, u.state ≠ .active → (f u).state ≠ .active) →
        ((s.modifyTransaction r f).transactionAt t).state ≠ .active := fun hf =>
    rel_modifyTransaction (R := fun u u' => u.state ≠ .active → u'.state ≠ .active) (fun _ => id) hf
      hne
  have hretired : ∀ {r : TransactionRef} {state : State}, state ≠ .active →
      (((s.setState r state).retire r).transactionAt t).state ≠ .active := fun hstate => by
    rw [view_retire Transaction.state (fun _ => rfl) fun _ => rfl]
    exact hmodify fun _ _ => hstate
  cases ha with
  | ask | grant | fail | keep => exact hmodify fun _ => id
  | abort | beginPhased | beginAtOnce => exact hmodify fun _ _ => by simp
  | undone | committed => exact hretired (by simp)
  | removed =>
    rw [transactionAt_alert]
    exact hretired (by simp)
  | _ => exact hne

/-- A need is met by a lock that the transaction has already. -/
theorem Ascent.met (h : Ascent s r had (n :: rest))
    (hn : ∃ mode, (s.lockAt (.entity n.entity)).modeOf r.id = some mode ∧
      mode.covers n.mode = true) : Ascent s r (fun m => had m ∨ m = n) rest where
  ascending := h.ascending.2
  owned name ho := by
    obtain ⟨m, hm, hname⟩ := h.owned name ho
    exact ⟨m, .inl hm, hname⟩
  held hi m hm := by
    rcases hm with hm | rfl
    · exact h.held hi m hm
    · exact hn
  live := h.live

/-- A need that is not met yet comes after all that the transaction has. -/
theorem Ascent.ahead {kind : Request} (h : Ascent s r had (n :: rest))
    (hi : (s.transactionAt r).isInterrupted = false)
    (hk : Request.of? ((s.lockAt (.entity n.entity)).modeOf r.id) n.mode = some kind) :
    Ahead s r (.entity n.entity) kind had n rest := by
  have hbeyond : n.Beyond had := by
    refine h.ascending.1.resolve_left fun ⟨m, hm, hmn, hcovers⟩ => ?_
    obtain ⟨mode, hmode, hcovers'⟩ := h.held hi m hm
    rw [hmn] at hmode
    rw [Request.of?_eq_none_iff.mpr ⟨mode, hmode, LockMode.covers_trans hcovers' hcovers⟩] at hk
    exact absurd hk (by simp)
  have hfree : (s.lockAt (.entity n.entity)).modeOf r.id = none := by
    by_contra ho
    obtain ⟨m, hm, hname⟩ := h.owned _ ho
    have hbefore := hbeyond m hm
    rw [LockName.entity.inj hname] at hbefore
    exact EntityId.Before.irrefl _ hbefore
  rw [hfree] at hk
  obtain ⟨hmode, hfresh⟩ := Request.mode_of? hk
  exact ⟨rfl, hmode, hfresh, hbeyond, h⟩

/-- A request that is granted meets the next need. -/
theorem Ahead.granted {kind : Request} (h : Ahead s r name kind had n rest)
    (ht : (s.transactionAt r).Lasts (s'.transactionAt r))
    (hother : ∀ other, other ≠ name → (s'.lockAt other).modeOf r.id = (s.lockAt other).modeOf r.id)
    (hself : (s'.lockAt name).modeOf r.id = some kind.mode) :
    Ascent s' r (fun m => had m ∨ m = n) rest where
  ascending := h.ascent.ascending.2
  owned other ho := by
    by_cases hn : other = name
    · exact ⟨n, .inr rfl, hn.trans h.entity⟩
    · rw [hother other hn] at ho
      obtain ⟨m, hm, hname⟩ := h.ascent.owned other ho
      exact ⟨m, .inl hm, hname⟩
  held hi m hm := by
    have hold : (s.transactionAt r).isInterrupted = false := by
      cases hold : (s.transactionAt r).isInterrupted with
      | false => rfl
      | true => rw [ht.told hold] at hi; exact absurd hi (by simp)
    rcases hm with hm | rfl
    · have hne : LockName.entity m.entity ≠ name := by
        rw [h.entity]
        intro hmn
        have hbefore := h.beyond m hm
        rw [LockName.entity.inj hmn] at hbefore
        exact EntityId.Before.irrefl _ hbefore
      rw [hother _ hne]
      exact h.ascent.held hold m hm
    · rw [← h.entity, hself, h.mode]
      exact ⟨_, rfl, LockMode.covers_self _⟩
  live := ht.live h.ascent.live

/-- A call climbs on, if its request does not fail because of a deadlock. -/
theorem Climbs.advance (h : Climbs s p) (ho : InOrder s p) (hw : Waiting s p)
    (ha : Advance s p s' p') (hd : ∀ c r goal, p' ≠ .failed c r goal .deadlock) : Climbs s' p' := by
  cases ha with
  | done | sleep | grantedSingle | failedSingle | abortEnded | undo | undone | removed | prepare
  | commit | committed => trivial
  | refuse => exact ⟨⟨_, _, rfl⟩, by simp⟩
  | @covered c r d n rest hi hk =>
    obtain ⟨had, hascent⟩ := h
    have hmet := hascent.met (Request.of?_eq_none_iff.mp hk)
    exact ⟨_, _, _, rfl, hmet.spared spares_addLock⟩
  | @ask c r d n rest kind hi hk =>
    obtain ⟨had, hascent⟩ := h
    have hahead : Ahead (s.addLock (.entity n.entity)) r (.entity n.entity) kind had n rest :=
      (hascent.ahead hi hk).spared spares_addLock
    exact ⟨had, n, rest, rfl, hahead.spared
      (.of_modeOf (lasts_modifyTransaction fun _ => ⟨id, id⟩) fun _ => rfl)⟩
  | @grant c r name kind d goal w g hj =>
    obtain ⟨had, n, rest, rfl, hahead⟩ := h
    refine ⟨_, _, _, rfl, hahead.granted (lasts_modifyTransaction fun _ => ⟨id, id⟩)
      (fun other hn => ?_) ?_⟩
    · exact congrArg (Lock.modeOf · r.id) (lockAt_modifyLock_ne hn)
    · refine (congrArg (Lock.modeOf · r.id) (lockAt_modifyLock_self (hw.looked name rfl))).trans ?_
      exact Lock.modeOf_grant_self kind
  | @fail c r name kind d goal w g error hj =>
    obtain ⟨had, n, rest, rfl, -⟩ := h
    exact ⟨⟨_, _, rfl⟩, fun herror => hd c r _ (by rw [herror])⟩
  | @keep c r d e rest w hs =>
    obtain ⟨had, e', rest', hgoal, hascent⟩ := h
    obtain ⟨-, rfl⟩ := Goal.plan.inj hgoal
    exact ⟨had, hascent.spared
      (.of_modeOf (lasts_modifyTransaction fun _ => ⟨id, id⟩) fun _ => rfl)⟩
  | giveBack => exact ⟨⟨_, _, rfl⟩, by simp⟩
  | @abort c r e rest error =>
    exact ⟨fun hcause => h.2 (Cause.failure.inj hcause),
      inactive_setState (s := s.setStatistics _) (ho.user r .shared rfl) (by simp)⟩
  | @beginPhased c r | @beginAtOnce c r => exact inactive_setState (ho.user r .exclusive rfl) (by simp)
  | prepared => exact h

/-! ### Starts -/

/-- No batched event gives or takes a lock before its call goes on. -/
theorem Start.modeOf_of_batched (he : e.isBatched = true) (hs : Start s e s' p) (name : LockName)
    (i : TransactionId) : (s'.lockAt name).modeOf i = (s.lockAt name).modeOf i := by
  refine hs.modeOf_eq ?_ name i
  cases e with
  | acquire | upgrade | release | unlockAll | forget => exact absurd he (by simp [Event.isBatched])
  | _ => rfl

theorem Start.graph_of_batched (he : e.isBatched = true) (hs : Start s e s' p) :
    s'.graph = s.graph := by
  cases hs with
  | lock | acquire | upgrade | release | unlockAll | forget | wait | stopWaiting | removeWaits =>
    exact absurd he (by simp [Event.isBatched])
  | interrupt | managerInterrupt => exact graph_alert _ _
  | _ => rfl

theorem Start.inactive (ho : InOrder s idle) (hs : Start s e s' p)
    (hne : (s.transactionAt t).state ≠ .active) : (s'.transactionAt t).state ≠ .active :=
  (State.Turns.begins (hs.begins ho t)).ne_active hne

/-- A start spares every transaction whose only use it is not. -/
theorem Start.spares (ho : InOrder s idle) (he : e.isBatched = true) (hs : Start s e s' p)
    (hclimbs : ∀ c q, s.resumesAt c = some q → Climbs s q)
    (hfree : e.use? = some (t, .exclusive) → s.admits t .exclusive = false) : Spares s s' t := by
  refine .of_modeOf ?_ fun name => hs.modeOf_of_batched he name t.id
  have hother : ∀ {r}, e.use? = some (r, .exclusive) → s.admits r .exclusive = true → t ≠ r := by
    rintro r huse ha rfl
    rw [hfree huse] at ha
    exact absurd ha (by simp)
  cases hs with
  | lock | acquire | upgrade | release | unlockAll | forget | wait | stopWaiting | removeWaits =>
    exact absurd he (by simp [Event.isBatched])
  | begin hn =>
    rw [transactionAt_begin ho hn]
    exact .refl _
  | register | dropEnded => exact lasts_modifyTransaction fun _ => ⟨id, id⟩
  | commitInterrupted ha | rollback ha =>
    rw [setState, transactionAt_modifyTransaction_ne (hother rfl ha)]
    exact .refl _
  | drop ha =>
    rw [setState, transactionAt_modifyTransaction_ne (hother rfl ha)]
    exact lasts_modifyTransaction fun _ => ⟨id, id⟩
  | interrupt | managerInterrupt =>
    rw [System.interrupt, transactionAt_alert]
    exact lasts_modifyTransaction fun _ => ⟨fun _ => .inr rfl, fun _ => rfl⟩
  | remove => exact lasts_modifyTransaction fun _ => ⟨fun _ => .inr rfl, fun _ => rfl⟩
  | @notPrepared c r _ _ rest _ _ hk =>
    have hne : (s.transactionAt r).state ≠ .active :=
      hclimbs c (.preparing c r rest) (by rw [resumesAt, hk])
    exact lasts_setState (s := s.dismiss c) hne
  | @notCommitted c r _ _ rest _ _ hk =>
    have hne : (s.transactionAt r).state ≠ .active :=
      hclimbs c (.committing c r rest) (by rw [resumesAt, hk])
    exact lasts_setState (s := s.dismiss c) hne
  | _ => exact .refl _

/-- A call that sets out, or goes on, climbs. -/
theorem Climbs.start (ho : InOrder s idle)
    (hg : s.granularity = .hierarchical ∨ s.granularity = .flat) (he : e.isBatched = true)
    (hs : Start s e s' p) (hclimbs : ∀ c q, s.resumesAt c = some q → Climbs s q)
    (hfresh : ∀ r, e.asker? = some r → r ∈ s.transactions → ∀ name,
      (s.lockAt name).modeOf r.id = none) : Climbs s' p := by
  have hspared : ∀ {q}, e.use? = none → Climbs s q → Climbs s' q := fun huse hq =>
    hq.spared (fun t _ => hs.spares ho he hclimbs (by simp [huse])) fun t => hs.inactive ho
  have hended : ∀ {r access state}, state ≠ .active → s.admits r access = true →
      ((s.setState r state).transactionAt r).state ≠ .active := fun hstate ha =>
    inactive_setState (admits_iff.mp ha).1 hstate
  cases hs with
  | lock | acquire | upgrade => exact absurd he (by simp [Event.isBatched])
  | lockAll ha hs =>
    refine ⟨fun _ => False, Granularity.ascending_needsOfAll hg _, fun name hn => ?_,
      fun _ _ hm => hm.elim, .inl hs⟩
    exact absurd (hfresh _ rfl (admits_iff.mp ha).1 name) hn
  | commitInterrupted ha | rollback ha => exact ⟨by simp, hended (by simp) ha⟩
  | drop ha =>
    exact ⟨by simp, inactive_setState
      (mem_transactions_modifyTransaction.mpr (admits_iff.mp ha).1) (by simp)⟩
  | remove hs =>
    have hmoves := moves_modifyTransaction (mem_of_registeredState? hs)
      (f := fun t => { t with state := .aborting, isInterrupted := true }) fun _ => ⟨rfl, rfl⟩
    exact ⟨by simp, by rw [hmoves.self]; simp⟩
  | wake hk hw => exact hspared rfl (hclimbs _ _ (resumesAt_of_waiter? hk hw))
  | @expire c r name d goal w hk _ hw =>
    have hq : Climbs s (.looking c r name w.request d goal true) :=
      hclimbs c _ (resumesAt_of_waiter? hk hw)
    exact hspared (q := .looking c r name w.request .passed goal true) rfl hq
  | @prepared c r _ _ rest _ hk =>
    exact hspared rfl (hclimbs c (.preparing c r rest) (by rw [resumesAt, hk]))
  | @committed c r _ _ rest _ hk =>
    exact hspared rfl (hclimbs c (.committing c r rest) (by rw [resumesAt, hk]))
  | @rolledBack c r access _ rest cause _ _ hk =>
    exact hspared rfl (hclimbs c (.undoing c r access cause rest) (by rw [resumesAt, hk]))
  | @notPrepared c r access store rest answer error hk ha =>
    refine ⟨?_, inactive_setState (s := s.dismiss c) (ho.known c _ hk) (by simp)⟩
    rintro ⟨⟩
    cases answer <;> simp [Reply.prepareError?] at ha
  | @notCommitted c r access store rest answer error hk ha =>
    refine ⟨?_, inactive_setState (s := s.dismiss c) (ho.known c _ hk) (by simp)⟩
    rintro ⟨⟩
    cases answer <;> simp [Reply.commitError?] at ha
  | _ => trivial

/-! ### Upgrades -/

/-- Nobody waits to upgrade a lock. -/
def NoUpgrade (s : System) : Prop := ∀ name i, i ∉ (s.lockAt name).upgraders

theorem NoUpgrade.lenient :
    Lock.Lenient fun l l' => (∀ i, i ∉ l.upgraders) → ∀ i, i ∉ l'.upgraders where
  refl _ := id
  trans h h' := h' ∘ h
  notify _ := id
  release _ _ h j hj := h j (Lock.mem_upgraders_release.mp hj).2

theorem NoUpgrade.advance (h : NoUpgrade s) (hp : Climbs s p) (ha : Advance s p s' p') :
    NoUpgrade s' := by
  by_cases hlook : p.lock? = none
  · exact fun name => lenient.advance ha hlook name (h name)
  have hlooked : ∀ {f : Lock → Lock} {name}, (∀ i, i ∉ (f (s.lockAt name)).upgraders) →
      NoUpgrade (s.modifyLock name f) := fun hf other =>
    lenient.modifyLock (fun _ _ => hf) other (h other)
  cases ha with
  | sleep =>
    obtain ⟨had, n, rest, -, hahead⟩ := hp
    refine hlooked fun i hi => ?_
    rw [Lock.approach_of_ne hahead.fresh] at hi
    exact h _ i hi
  | grant =>
    obtain ⟨had, n, rest, -, hahead⟩ := hp
    refine hlooked fun i hi => ?_
    rw [Lock.approach_of_ne hahead.fresh] at hi
    exact h _ i (Lock.mem_upgraders_grant.mp hi).2
  | fail =>
    obtain ⟨had, n, rest, -, hahead⟩ := hp
    refine hlooked fun i hi => ?_
    rw [Lock.approach_of_ne hahead.fresh] at hi
    exact h _ i (Lock.mem_upgraders_abandon.mp hi).2
  | _ => exact absurd rfl hlook

theorem NoUpgrade.start (h : NoUpgrade s) (he : e.isBatched = true) (hs : Start s e s' p) :
    NoUpgrade s' := by
  by_cases hlook : p.lock? = none
  · exact fun name => lenient.start hs hlook name (h name)
  cases hs with
  | acquire | upgrade => exact absurd he (by simp [Event.isBatched])
  | wake | expire => exact fun other =>
      lenient.modifyLock (s := s) (f := (Lock.rouse · _)) (fun _ => id) other (h other)
  | _ => exact absurd rfl hlook

end System

end Locking
