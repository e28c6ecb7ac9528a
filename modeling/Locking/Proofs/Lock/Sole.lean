import Locking.Proofs.Lock.Traffic

/-! A lock at which no transaction has two requests.  As long as a transaction makes no request
while another one of it is in progress, and nobody releases the lock for a transaction that is
upgrading it, the pending upgraders are just the transactions whose upgrades sleep at the lock, and
what is looked at and decided in a critical section concerns one transaction alone. -/

namespace Locking

/-! ### Runs by a rule -/

/-- Whether a rule allows each action of a run in the state in which it is taken. -/
def Obeys {σ α : Type} (step : σ → α → σ) (rule : σ → α → Prop) : σ → List α → Prop
  | _, [] => True
  | s, a :: actions => rule s a ∧ Obeys step rule (step s a) actions

instance Obeys.decidable {σ α : Type} {step : σ → α → σ} {rule : σ → α → Prop}
    [∀ s a, Decidable (rule s a)] (s : σ) : (actions : List α) →
    Decidable (Obeys step rule s actions)
  | [] => .isTrue trivial
  | a :: actions =>
    have : Decidable (Obeys step rule (step s a) actions) := Obeys.decidable _ actions
    inferInstanceAs (Decidable (rule s a ∧ Obeys step rule (step s a) actions))

theorem obeys_append {σ α : Type} {step : σ → α → σ} {rule : σ → α → Prop} {s : σ}
    {actions later : List α} : Obeys step rule s (actions ++ later) ↔
      Obeys step rule s actions ∧ Obeys step rule (actions.foldl step s) later := by
  induction actions generalizing s with
  | nil => simp [Obeys]
  | cons a actions ih => simp [Obeys, ih, and_assoc]

/-! ### Requests asleep -/

/-- A waiter without what changes while it sleeps. -/
def Waiter.errand (w : Waiter) : Errand := ⟨w.call, w.transaction, w.request⟩

/-- The request that looks at a lock. -/
def Attempt.errand (a : Attempt) : Errand := ⟨a.call, a.transaction, a.request⟩

/-- A request of a transaction that has the lock already is an upgrade. -/
theorem Request.held_eq_none {held : Option LockMode} {mode : LockMode} {kind : Request}
    (h : Request.of? held mode = some kind) (hk : kind ≠ .upgrade) : held = none := by
  cases held with
  | none => rfl
  | some held =>
    cases held <;> cases mode <;> simp [Request.of?] at h
    exact absurd h.symm hk

/-- The transaction that makes a request. -/
def Move.asker? : Move → Option TransactionId
  | .acquire _ i _ | .upgrade _ i => some i
  | _ => none

namespace Lock

variable {l : Lock} {i j : TransactionId} {kind : Request} {c : CallId} {w : Waiter} {x : Errand}

/-- The requests that are asleep on the lock. -/
def requests (l : Lock) : List Errand := l.waiters.map Waiter.errand

theorem mem_requests : x ∈ l.requests ↔ ∃ w ∈ l.waiters, w.errand = x := List.mem_map

@[simp] theorem requests_notify : l.notify.requests = l.requests := by
  simp [requests, notify, List.map_map, Function.comp_def, Waiter.errand]

@[simp] theorem requests_release : (l.release i).requests = l.requests :=
  requests_notify (l := { l.disown i with upgraders := l.upgraders.erase i })

@[simp] theorem requests_enter : (l.enter i kind).requests = l.requests := by
  rw [requests, waiters_enter, requests]

@[simp] theorem requests_grant : (l.grant i kind).requests = l.requests := by
  rw [requests, waiters_grant, requests]

@[simp] theorem requests_abandon : (l.abandon i).requests = l.requests := by
  unfold abandon
  split
  · exact requests_notify (l := { l with upgraders := l.upgraders.erase i })
  · rfl

theorem requests_park : (l.park c i kind).requests = l.requests ++ [⟨c, i, kind⟩] := by
  simp [requests, park, Waiter.errand]

theorem mem_requests_rouse : x ∈ (l.rouse w).requests ↔ x ∈ l.requests ∧ x.call ≠ w.call := by
  simp only [mem_requests, rouse, List.mem_filter, decide_eq_true_eq]
  constructor
  · rintro ⟨v, ⟨hv, hne⟩, rfl⟩
    exact ⟨⟨v, hv, rfl⟩, hne⟩
  · rintro ⟨⟨v, hv, rfl⟩, hne⟩
    exact ⟨v, ⟨hv, hne⟩, rfl⟩

end Lock

/-! ### What a look leaves -/

namespace Attempt

variable {a : Attempt} {l : Lock} {g : WaitForGraph} {i : TransactionId} {x : Errand}

theorem mem_requests_run : x ∈ (a.run l g).1.requests ↔
    x ∈ l.requests ∨ (a.judge l g).2 = .sleeps ∧ x = a.errand := by
  unfold run
  split
  · next hj => simp [hj, Lock.requests_park, errand]
  · next hj => simp [hj]
  · next hj => simp [hj]

/-- Who has looked at the lock waits to upgrade it only if it has fallen asleep. -/
theorem mem_upgraders_run : i ∈ (a.run l g).1.upgraders ↔
    i ∈ l.upgraders ∧ (i = a.transaction → (a.judge l g).2 = .sleeps) := by
  unfold run
  split
  · next hj => simp [hj, Lock.park]
  · next hj => simp [hj, Lock.mem_upgraders_grant, and_comm]
  · next hj => simp [hj, Lock.mem_upgraders_abandon, and_comm]

/-- Nobody becomes an owner but by being granted the lock. -/
theorem mem_owners_run (h : i ∈ (a.run l g).1.owners) :
    i ∈ l.owners ∨ (a.judge l g).2 = .granted ∧ i = a.transaction := by
  unfold run at h
  split at h
  · exact .inl h
  · next hj =>
    rcases Lock.mem_owners_grant.mp h with h | ⟨-, h⟩
    · exact .inr ⟨by rw [hj], h⟩
    · exact .inl h
  · exact .inl (by simpa using h)

end Attempt

namespace Traffic

variable {t : Traffic} {m : Move} {i j : TransactionId} {a : Attempt} {l : Lock}
  {g g' : WaitForGraph} {x : Errand} {kind : Request} {moves : List Move}

/-! ### Looks -/

/-- The request that looks at the lock in a critical section, the lock as it finds it, and the
wait-for graph that it goes by. -/
def look? (t : Traffic) : Move → Option (Attempt × Lock × WaitForGraph)
  | .enter c isInterrupted isLate g =>
    (t.errands.find? (·.call == c)).map fun e =>
      (⟨c, e.transaction, e.kind, isInterrupted, isLate, false⟩,
        t.lock.enter e.transaction e.kind, g)
  | .wake c isInterrupted isLate g =>
    (t.lock.waiter? c).map fun w =>
      (⟨c, w.transaction, w.request, isInterrupted, isLate, true⟩, t.lock.rouse w, g)
  | _ => none

/-- What is decided in a critical section about the request that looks at the lock. -/
def verdict? (t : Traffic) (m : Move) : Option (TransactionId × Request × Verdict) :=
  (t.look? m).map fun (a, l, g) => (a.transaction, a.request, (a.judge l g).2)

/-- The requests that are on their way to the lock or asleep on it. -/
def requests (t : Traffic) : List Errand := t.errands ++ t.lock.requests

/-- A transaction has given up its hold in order to upgrade it, and waits for that. -/
def Upgrading (t : Traffic) (i : TransactionId) : Prop :=
  ∃ x ∈ t.lock.requests, x.transaction = i ∧ x.kind = .upgrade

instance : Decidable (t.Upgrading i) :=
  inferInstanceAs (Decidable (∃ x ∈ t.lock.requests, x.transaction = i ∧ x.kind = .upgrade))

/-- No transaction makes a request while another one of it is in progress, and the lock is not
released for a transaction that is upgrading it. -/
def Considerate (t : Traffic) : Move → Prop
  | .acquire _ i _ | .upgrade _ i => ∀ x ∈ t.requests, x.transaction ≠ i
  | .release i => ¬ t.Upgrading i
  | _ => True

instance : (m : Move) → Decidable (t.Considerate m)
  | .acquire _ i _ | .upgrade _ i =>
    inferInstanceAs (Decidable (∀ x ∈ t.requests, x.transaction ≠ i))
  | .release i => inferInstanceAs (Decidable (¬ t.Upgrading i))
  | .enter .. | .wake .. | .notify => .isTrue trivial

/-- What holds of a lock at which no transaction has two requests. -/
structure Sole (t : Traffic) : Prop where
  orderly : t.Orderly
  alone : ∀ x ∈ t.requests, ∀ y ∈ t.requests, x.transaction = y.transaction → x = y
  upgrader : ∀ i, i ∈ t.lock.upgraders ↔ t.Upgrading i
  absent : ∀ x ∈ t.requests, x.kind ≠ .upgrade → x.transaction ∉ t.lock.owners

/-- What a request finds when it looks at a lock at which its transaction has no other one. -/
structure Finds (t : Traffic) (m : Move) (a : Attempt) (l : Lock) : Prop where
  sound : l.Sound
  call : ∀ w ∈ l.waiters, w.call ≠ a.call
  mem : a.errand ∈ t.requests
  errands : ∀ x ∈ (t.step m).errands, x ∈ t.errands ∧ x.transaction ≠ a.transaction
  requests : ∀ x, x ∈ l.requests ↔ x ∈ t.lock.requests ∧ x.transaction ≠ a.transaction
  upgraders : ∀ i, i ∈ l.upgraders ↔
    i ≠ a.transaction ∧ i ∈ t.lock.upgraders ∨ i = a.transaction ∧ a.request = .upgrade
  owners : ∀ i, i ∈ l.owners ↔ i ∈ t.lock.owners ∧ (a.request = .upgrade → i ≠ a.transaction)
  first : a.hasWaited = false → ∀ x ∈ t.lock.requests, x.transaction ≠ a.transaction

theorem verdict?_eq_some_iff {v : Verdict} : t.verdict? m = some (i, kind, v) ↔ ∃ a l g,
    t.look? m = some (a, l, g) ∧ a.transaction = i ∧ a.request = kind ∧ (a.judge l g).2 = v := by
  simp only [verdict?, Option.map_eq_some_iff, Prod.exists, Prod.mk.injEq]

theorem lock_of_look (h : t.look? m = some (a, l, g)) : (t.step m).lock = (a.run l g).1 := by
  cases m with
  | enter c isInterrupted isLate g =>
    obtain ⟨e, he, heq⟩ := Option.map_eq_some_iff.mp h
    cases heq
    simp only [step, he]
  | wake c isInterrupted isLate g =>
    obtain ⟨w, hw, heq⟩ := Option.map_eq_some_iff.mp h
    cases heq
    simp only [step, hw]
  | _ => exact absurd h (by simp [look?])

/-- The requests asleep are the same after a critical section in which none looks at the lock, and
there is no new owner. -/
theorem step_of_no_look (h : t.look? m = none) :
    (t.step m).lock.requests = t.lock.requests ∧
      ∀ j ∈ (t.step m).lock.owners, j ∈ t.lock.owners := by
  cases m with
  | acquire c i mode => rw [lock_acquire]; exact ⟨rfl, fun _ => id⟩
  | upgrade c i => rw [lock_upgrade]; exact ⟨rfl, fun _ => id⟩
  | enter | wake =>
    rw [look?, Option.map_eq_none_iff] at h
    simp only [step, h]
    exact ⟨trivial, fun _ => id⟩
  | release i => exact ⟨Lock.requests_release, fun j hj => (Lock.mem_owners_release.mp hj).2⟩
  | notify => exact ⟨Lock.requests_notify, fun _ => id⟩

namespace Sole

/-- The upgrade of a transaction is its only request. -/
theorem not_upgrading (h : t.Sole) (hx : x ∈ t.requests) (hk : x.kind ≠ .upgrade) :
    ¬ t.Upgrading x.transaction := by
  rintro ⟨y, hy, hid, hyk⟩
  rw [h.alone y (List.mem_append_right _ hy) x hx hid] at hyk
  exact hk hyk

theorem finds (h : t.Sole) (hl : t.look? m = some (a, l, g)) : t.Finds m a l := by
  cases m with
  | enter c isInterrupted isLate g =>
    obtain ⟨e, he, heq⟩ := Option.map_eq_some_iff.mp hl
    cases heq
    obtain rfl : e.call = c := by simpa using List.find?_some he
    have hmem : e ∈ t.errands := List.mem_of_find?_eq_some he
    have hreq : e ∈ t.requests := List.mem_append_left _ hmem
    -- The transaction has this errand and no request asleep.
    have hawake : ∀ x ∈ t.lock.requests, x.transaction ≠ e.transaction := by
      intro x hx hid
      obtain rfl := h.alone x (List.mem_append_right _ hx) e hreq hid
      obtain ⟨w, hw, hwx⟩ := Lock.mem_requests.mp hx
      exact h.orderly.apart x hmem w hw (congrArg Errand.call hwx)
    refine ⟨h.orderly.sound.enter, by simpa using h.orderly.apart e hmem, hreq, fun x hx => ?_,
      fun x => ?_, fun i => ?_, fun i => Lock.mem_owners_enter, fun _ => hawake⟩
    · simp only [step, he, List.mem_filter, decide_eq_true_eq] at hx
      refine ⟨hx.1, fun hid => hx.2 ?_⟩
      rw [h.alone x (List.mem_append_left _ hx.1) e hreq hid]
    · rw [Lock.requests_enter]
      exact ⟨fun hx => ⟨hx, hawake x hx⟩, And.left⟩
    · rw [Lock.mem_upgraders_enter, and_comm (a := e.kind = .upgrade)]
      refine or_congr_left ⟨fun hi => ⟨?_, hi⟩, And.right⟩
      rintro rfl
      obtain ⟨x, hx, hid, -⟩ := (h.upgrader _).mp hi
      exact hawake x hx hid
  | wake c isInterrupted isLate g =>
    obtain ⟨w, hw, heq⟩ := Option.map_eq_some_iff.mp hl
    cases heq
    obtain ⟨hmem, rfl⟩ := h.orderly.sound.waiter?_eq_some_iff.mp hw
    have hasleep : w.errand ∈ t.lock.requests := Lock.mem_requests.mpr ⟨w, hmem, rfl⟩
    have hreq : w.errand ∈ t.requests := List.mem_append_right _ hasleep
    have hne : ∀ x ∈ t.lock.requests, x.call ≠ w.call ↔ x.transaction ≠ w.transaction := by
      intro x hx
      obtain ⟨v, hv, rfl⟩ := Lock.mem_requests.mp hx
      refine not_congr ⟨fun hc => ?_, fun hid => ?_⟩
      · rw [h.orderly.sound.waiter_eq hv hmem hc]
        rfl
      · exact congrArg Errand.call (h.alone v.errand (List.mem_append_right _ hx) w.errand hreq hid)
    have hupgrading : t.Upgrading w.transaction ↔ w.request = .upgrade := by
      constructor
      · rintro ⟨x, hx, hid, hk⟩
        rw [h.alone x (List.mem_append_right _ hx) w.errand hreq hid] at hk
        exact hk
      · exact fun hk => ⟨w.errand, hasleep, rfl, hk⟩
    refine ⟨h.orderly.sound.rouse hmem, fun v hv => by simpa using (List.mem_filter.mp hv).2, hreq,
      fun x hx => ?_, fun x => ?_, fun i => ?_, fun i => ?_, fun hfirst => absurd hfirst (by simp)⟩
    · simp only [step, hw] at hx
      refine ⟨hx, fun hid => ?_⟩
      obtain rfl := h.alone x (List.mem_append_left _ hx) w.errand hreq hid
      exact h.orderly.apart _ hx w hmem rfl
    · rw [Lock.mem_requests_rouse]
      exact and_congr_right (hne x)
    · show i ∈ t.lock.upgraders ↔ _
      by_cases hi : i = w.transaction
      · simp [hi, h.upgrader, hupgrading]
      · simp [hi]
    · show i ∈ t.lock.owners ↔ _
      refine ⟨fun hi => ⟨hi, fun hk hiw => ?_⟩, And.left⟩
      exact h.orderly.sound.apart i hi ((h.upgrader i).mpr (hiw ▸ hupgrading.mpr hk))
  | _ => exact absurd hl (by simp [look?])

/-- After a look at the lock, a request in progress is one of another transaction, or it is the one
that has looked and fallen asleep. -/
theorem mem_requests_of_look (h : t.Sole) (hl : t.look? m = some (a, l, g))
    (hx : x ∈ (t.step m).requests) : x ∈ t.requests ∧
      (x.transaction ≠ a.transaction ∨ (a.judge l g).2 = .sleeps ∧ x = a.errand) := by
  have hf := h.finds hl
  rcases List.mem_append.mp hx with hx | hx
  · obtain ⟨hx, hne⟩ := hf.errands x hx
    exact ⟨List.mem_append_left _ hx, .inl hne⟩
  · rw [lock_of_look hl, Attempt.mem_requests_run] at hx
    rcases hx with hx | ⟨hs, rfl⟩
    · obtain ⟨hx, hne⟩ := (hf.requests x).mp hx
      exact ⟨List.mem_append_right _ hx, .inl hne⟩
    · exact ⟨hf.mem, .inr ⟨hs, rfl⟩⟩

/-- A request is new in a critical section in which its transaction makes it, and it is an upgrade
if the transaction has the lock already. -/
theorem mem_requests_step (h : t.Sole) (hx : x ∈ (t.step m).requests) : x ∈ t.requests ∨
    m.asker? = some x.transaction ∧
      (x.kind ≠ .upgrade → t.lock.modeOf x.transaction = none) := by
  cases hl : t.look? m with
  | some look => exact .inl (h.mem_requests_of_look hl hx).1
  | none =>
  have hsend : ∀ e : Errand, x ∈ (t.send e).requests → x ∈ t.requests ∨ x = e := by
    intro e hx
    unfold Traffic.send at hx
    split at hx
    · exact .inl hx
    · exact (List.mem_cons.mp hx).symm
  cases m with
  | acquire c i mode =>
    simp only [Traffic.step] at hx
    split at hx
    · next kind hk =>
      rcases hsend _ hx with hx | rfl
      · exact .inl hx
      · exact .inr ⟨rfl, Request.held_eq_none hk⟩
    · exact .inl hx
  | upgrade c i =>
    simp only [Traffic.step] at hx
    split at hx
    · exact .inl hx
    · rcases hsend _ hx with hx | rfl
      · exact .inl hx
      · exact .inr ⟨rfl, fun hk => absurd rfl hk⟩
  | enter | wake =>
    rw [look?, Option.map_eq_none_iff] at hl
    simp only [Traffic.step, hl] at hx
    exact .inl hx
  | release | notify => exact .inl (by simpa [requests, Traffic.step] using hx)

/-- A request that has looked at the lock is asleep there or has come to its end; the others are as
they were. -/
theorem look (h : t.Sole) (hl : t.look? m = some (a, l, g)) : (t.step m).Sole := by
  have hf := h.finds hl
  have hlock := lock_of_look hl
  have hrest := fun x => h.mem_requests_of_look (x := x) hl
  refine ⟨h.orderly.step m, fun x hx y hy => h.alone x (hrest x hx).1 y (hrest y hy).1, fun i => ?_,
    fun x hx hk ho => ?_⟩
  · rw [hlock, Attempt.mem_upgraders_run, hf.upgraders, h.upgrader]
    simp only [Upgrading, hlock, Attempt.mem_requests_run]
    constructor
    · rintro ⟨⟨hne, x, hx, rfl, hk⟩ | ⟨rfl, hk⟩, hs⟩
      · exact ⟨x, .inl ((hf.requests x).mpr ⟨hx, hne⟩), rfl, hk⟩
      · exact ⟨a.errand, .inr ⟨hs rfl, rfl⟩, rfl, hk⟩
    · rintro ⟨x, hx | ⟨hs, rfl⟩, rfl, hk⟩
      · obtain ⟨hx, hne⟩ := (hf.requests x).mp hx
        exact ⟨.inl ⟨hne, x, hx, rfl, hk⟩, fun he => absurd he hne⟩
      · exact ⟨.inr ⟨rfl, hk⟩, fun _ => hs⟩
  · obtain ⟨hmem, hne⟩ := hrest x hx
    rw [hlock] at ho
    rcases Attempt.mem_owners_run ho with ho | ⟨hg, hid⟩
    · exact h.absent x hmem hk ((hf.owners _).mp ho).1
    · rcases hne with hne | ⟨hs, -⟩
      · exact hne hid
      · exact absurd (hg.symm.trans hs) (by simp)

/-- A request that is sent on its way is the only one of its transaction. -/
theorem send (h : t.Sole) (hi : ∀ x ∈ t.requests, x.transaction ≠ i) {c : CallId}
    (hk : kind ≠ .upgrade → t.lock.modeOf i = none) : (t.send ⟨c, i, kind⟩).Sole := by
  have horderly := h.orderly.send ⟨c, i, kind⟩
  unfold Traffic.send at horderly ⊢
  split
  · exact h
  · next hb =>
    rw [if_neg hb] at horderly
    refine ⟨horderly, fun x hx y hy hid => ?_, h.upgrader, fun x hx hkind ho => ?_⟩
    · rcases List.mem_cons.mp hx with rfl | hx <;> rcases List.mem_cons.mp hy with rfl | hy
      · rfl
      · exact absurd hid.symm (hi y hy)
      · exact absurd hid (hi x hx)
      · exact h.alone x hx y hy hid
    · rcases List.mem_cons.mp hx with rfl | hx
      · exact h.orderly.sound.modeOf_ne_none ho (hk hkind)
      · exact h.absent x hx hkind ho

theorem step (h : t.Sole) (hm : t.Considerate m) : (t.step m).Sole := by
  cases hl : t.look? m with
  | some look => exact h.look hl
  | none =>
  cases m with
  | acquire c i mode =>
    simp only [Traffic.step]
    split
    · next kind hk =>
      exact h.send hm (Request.held_eq_none hk)
    · exact h
  | upgrade c i =>
    simp only [Traffic.step]
    split
    · exact h
    · exact h.send hm fun hne => absurd rfl hne
  | enter | wake =>
    rw [look?, Option.map_eq_none_iff] at hl
    simpa only [Traffic.step, hl] using h
  | release i =>
    refine ⟨h.orderly.step _, ?_, fun j => ?_, fun x hx hk ho => ?_⟩
    · simpa [requests, Traffic.step] using h.alone
    · rw [Traffic.step, Lock.mem_upgraders_release, h.upgrader, Upgrading, Upgrading,
        Lock.requests_release]
      refine ⟨And.right, fun hj => ⟨?_, hj⟩⟩
      rintro rfl
      exact hm hj
    · refine h.absent x ?_ hk (Lock.mem_owners_release.mp ho).2
      simpa [requests, Traffic.step] using hx
  | notify =>
    refine ⟨h.orderly.step _, ?_, fun j => ?_, fun x hx => h.absent x ?_⟩
    · simpa [requests, Traffic.step] using h.alone
    · rw [Traffic.step, Upgrading, Lock.requests_notify]
      exact h.upgrader j
    · simpa [requests, Traffic.step] using hx

theorem run (h : t.Sole) (ho : Obeys Traffic.step Considerate t moves) : (t.run moves).Sole := by
  induction moves generalizing t with
  | nil => exact h
  | cons m moves ih => exact ih (h.step ho.1) ho.2

theorem default : Sole {} := by
  refine ⟨⟨.default, by simp⟩, by simp [requests, Lock.requests], fun i => ?_,
    by simp [requests, Lock.requests]⟩
  simp [Upgrading, Lock.requests]

end Sole

end Traffic

end Locking
