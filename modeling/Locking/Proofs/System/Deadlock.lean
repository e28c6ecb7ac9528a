import Locking.Proofs.System.Watched

/-! Deadlocks do not go undetected.  Once every request in progress is asleep and none of them has
been notified, each of them is blocked by another transaction, and following who blocks whom never
leads back to where it started. -/

namespace Locking

open Relation

namespace Lock

variable {l : Lock} {waits : TransactionId → TransactionId → Prop} {bare : TransactionId → Prop}
  {w : Waiter} {u : TransactionId}

/-- A waiter that has not been notified has another transaction in its way. -/
theorem Attended.exists_blocker (h : l.Attended waits bare fun _ => False) (hs : l.Sound)
    (hone : ∀ u ∈ l.waiters, ∀ v ∈ l.waiters, u.transaction = v.transaction → u = v)
    (hw : w ∈ l.waiters) (hn : w.isNotified = false) :
    ∃ u, u ∈ l.blockers w.transaction w.request := by
  have hother : ∀ {u}, u ∈ l.owners → u ≠ w.transaction := fun hu huw =>
    h.unowned w hw (huw ▸ hu)
  by_cases hk : w.request = .upgrade
  · obtain ⟨u, hu⟩ := h.occupied w hw hn hk
    exact ⟨u, mem_blockers.mpr ⟨hother hu, .inl hu⟩⟩
  · by_cases ho : ∃ u, u ∈ l.owners
    · obtain ⟨u, hu⟩ := ho
      exact ⟨u, mem_blockers.mpr ⟨hother hu, .inl hu⟩⟩
    · have hupgrader : ¬ ∀ u, u ∉ l.upgraders := fun hu =>
        absurd (hs.isNotified (hs.free (not_exists.mp ho) hu) hw) (by simp [hn])
      simp only [not_forall, not_not] at hupgrader
      obtain ⟨u, hu⟩ := hupgrader
      refine ⟨u, mem_blockers.mpr ⟨fun huw => ?_, .inr ⟨hk, hu⟩⟩⟩
      -- The waiter would be the upgrade itself.
      obtain ⟨v, hv, hvu, hupgrade⟩ := (h.upgrader u hu).resolve_left id
      rw [hone v hv w hw (hvu.trans huw)] at hupgrade
      exact hk hupgrade

/-- If no waiter has been notified, the graph leads from a waiter whose transaction has a lock to
everyone in its way, at most by way of a pending upgrade. -/
theorem Attended.reaches (h : l.Attended waits bare fun _ => False)
    (hsettled : ∀ v ∈ l.waiters, v.isNotified = false)
    (hbare : ∀ i, l.Has i → ¬ bare i) (hw : w ∈ l.waiters) (hwbare : ¬ bare w.transaction)
    (hu : u ∈ l.blockers w.transaction w.request) : TransGen waits w.transaction u := by
  obtain ⟨howner, hupgrader⟩ := (h.tracked w hw (hsettled w hw)).resolve_left hwbare
  obtain ⟨hne, hu | ⟨hk, hu⟩⟩ := mem_blockers.mp hu
  · rcases howner u hu with hwait | ⟨hk, -, v, hv, hvw⟩
    · exact .single hwait
    · obtain ⟨x, hx, rfl, hupgrade⟩ := (h.upgrader v hv).resolve_left id
      have htracks := (h.tracked x hx (hsettled x hx)).resolve_left (hbare _ (.inr hv))
      have hnext : waits x.transaction u :=
        (htracks.1 u hu).resolve_right fun hk' => hk'.1 hupgrade
      exact .tail (.single (hupgrader hk _ hv hvw)) hnext
  · exact .single (hupgrader hk u hu hne)

end Lock

namespace System

/-! ### Who blocks whom -/

/-- No request that is asleep has been notified since it fell asleep. -/
def Settled (s : System) : Prop := ∀ name, ∀ w ∈ (s.lockAt name).waiters, w.isNotified = false

/-- A call of transaction number `t` is asleep on a lock with a request. -/
def Sleeps (s : System) (c : CallId) (t : TransactionId) (name : LockName) (kind : Request) :
    Prop :=
  ∃ r access d goal w, s.calls[c]? = some ⟨r, access, .waiting name d goal⟩ ∧ r.id = t ∧
    (s.lockAt name).waiter? c = some w ∧ w.request = kind

/-- Transaction number `u` is in the way of a request of transaction number `t`: it owns the lock,
or it waits to upgrade it and the request is not an upgrade itself. -/
def Obstructs (s : System) (name : LockName) (kind : Request) (t u : TransactionId) : Prop :=
  u ≠ t ∧ (u ∈ (s.lockAt name).owners ∨ kind ≠ .upgrade ∧ u ∈ (s.lockAt name).upgraders)

instance (s : System) (name : LockName) (kind : Request) (t u : TransactionId) :
    Decidable (s.Obstructs name kind t u) :=
  inferInstanceAs (Decidable (_ ∧ (_ ∨ _)))

/-- Transaction number `t` is asleep with a request that transaction number `u` is in the way of. -/
def BlockedBy (s : System) (t u : TransactionId) : Prop :=
  ∃ c name kind, s.Sleeps c t name kind ∧ s.Obstructs name kind t u

instance (s : System) : Decidable s.Settled :=
  decidable_of_iff (∀ entry ∈ s.locks.toList, ∀ w ∈ entry.2.waiters, w.isNotified = false) <| by
    constructor
    · intro h name w hw
      have hl := mem_locks_of_waiter hw
      rw [lockAt, Std.ExtTreeMap.getElem?_eq_some_getElem hl] at hw
      exact h (name, s.locks[name]) (Std.ExtTreeMap.mem_toList_iff_getElem?_eq_some.mpr
        (Std.ExtTreeMap.getElem?_eq_some_getElem hl)) w hw
    · rintro h ⟨name, l⟩ hl w hw
      apply h name w
      rw [lockAt, Std.ExtTreeMap.mem_toList_iff_getElem?_eq_some.mp hl]
      exact hw

/-! ### The invariant of a run -/

/-- All that is known of the locks and requests of one manager. -/
structure Guarded (s : System) (p : Stage) : Prop where
  recorded : Recorded s p
  waiting : Waiting s p
  watched : Watched s p
  ledger : ∃ hs, Ledger s p hs

theorem Guarded.invariant : Invariant OneRequest Guarded where
  inOrder h := Ledger.invariant.inOrder h.ledger
  rest h := ⟨h.recorded.rest, h.waiting.rest, h.watched.rest, Ledger.invariant.rest h.ledger⟩
  start he h hst := by
    have ho := Ledger.invariant.inOrder h.ledger
    obtain ⟨hs, hl⟩ := h.ledger
    exact ⟨h.recorded.start ho he.1 hst, h.waiting.start ho hst,
      h.watched.start h.recorded h.waiting hl he hst, Ledger.invariant.start trivial ⟨hs, hl⟩ hst⟩
  advance h ha := by
    have ho := Ledger.invariant.inOrder h.ledger
    obtain ⟨hs, hl⟩ := h.ledger
    exact ⟨h.recorded.advance ho h.waiting ha, h.waiting.advance ho ha,
      h.watched.advance h.recorded h.waiting hl ha, Ledger.invariant.advance ⟨hs, hl⟩ ha⟩

theorem Guarded.new (g : Granularity) (config lockConfig : Config) :
    Guarded (System.new g [config] lockConfig) idle :=
  ⟨.new g config lockConfig, .new g [config] lockConfig, .new g [config] lockConfig,
    [], .new g [config] lockConfig⟩

/-! ### No undetected deadlock -/

namespace Guarded

variable {s : System} {c : CallId} {r : TransactionRef} {access : Access} {name : LockName}
  {d : Deadline} {goal : Goal} {kind : Request} {t u : TransactionId}

theorem one (h : Guarded s idle) (name : LockName) : ∀ v ∈ (s.lockAt name).waiters,
    ∀ w ∈ (s.lockAt name).waiters, v.transaction = w.transaction → v = w := fun v hv w hw ht =>
  (h.waiting.sound name).waiter_eq hv hw (h.watched.alone name name v hv w hw ht)

/-- A call that is asleep has a waiter with a request of its transaction. -/
theorem exists_waiter (h : Guarded s idle)
    (hk : s.calls[c]? = some ⟨r, access, .waiting name d goal⟩) :
    ∃ w ∈ (s.lockAt name).waiters, w.transaction = r.id ∧ s.Sleeps c r.id name w.request := by
  obtain ⟨w, hmem, hc⟩ := h.waiting.waiter c r name d goal (sleeperAt_of_call hk)
  have hw := (h.waiting.sound name).waiter?_eq_some_iff.mpr ⟨hmem, hc⟩
  obtain ⟨-, -, hid⟩ := h.waiting.of_waiter? hk hw
  exact ⟨w, hmem, hid.symm, r, access, d, goal, w, hk, rfl, hw, rfl⟩

theorem waiter_of_sleeps (h : Guarded s idle) (hsleeps : s.Sleeps c t name kind) :
    ∃ w ∈ (s.lockAt name).waiters, w.transaction = t ∧ w.request = kind := by
  obtain ⟨r, access, d, goal, w, hk, rfl, hw, hkind⟩ := hsleeps
  obtain ⟨hmem, -, hid⟩ := h.waiting.of_waiter? hk hw
  exact ⟨w, hmem, hid.symm, hkind⟩

theorem attended (h : Guarded s idle) (name : LockName) :
    (s.lockAt name).Attended s.graph.Waits s.Bare fun _ => False :=
  h.watched.attended_asleep (fun _ _ => id) name

/-- The wait-for graph knows who blocks a transaction that has any lock. -/
theorem waits_of_blockedBy (h : Guarded s idle) (hs : s.Settled) (hb : s.BlockedBy t u)
    (ht : ¬ s.Bare t) : TransGen s.graph.Waits t u := by
  obtain ⟨c, name, kind, hsleeps, hobstructs⟩ := hb
  obtain ⟨w, hw, rfl, rfl⟩ := h.waiter_of_sleeps hsleeps
  exact (h.attended name).reaches (hs name) (fun i hi hbare => hbare name hi) hw ht
    (Lock.mem_blockers.mpr hobstructs)

theorem not_bare_of_blockedBy (hb : s.BlockedBy t u) : ¬ s.Bare u := by
  obtain ⟨c, name, kind, -, -, hu | ⟨-, hu⟩⟩ := hb
  · exact fun hbare => hbare name (.inl hu)
  · exact fun hbare => hbare name (.inr hu)

theorem waits_of_chain (h : Guarded s idle) (hs : s.Settled) (hb : TransGen s.BlockedBy t u)
    (ht : ¬ s.Bare t) : TransGen s.graph.Waits t u := by
  induction hb using TransGen.head_induction_on with
  | single hb => exact h.waits_of_blockedBy hs hb ht
  | head hb _ ih => exact (h.waits_of_blockedBy hs hb ht).trans (ih (not_bare_of_blockedBy hb))

end Guarded

/-- No undetected deadlock: in any run of one manager in which locks are used through transactions
only and no transaction has two requests asleep, whenever none of the requests that are asleep has
been notified, each of them has another transaction in its way, and no transaction is blocked by
itself through any number of others. -/
theorem no_undetected_deadlock (g : Granularity) (config lockConfig : Config) (events : List Event)
    (ho : Obeys OneRequest (System.new g [config] lockConfig) events)
    (hs : ((System.new g [config] lockConfig).run events).Settled) :
    let s := (System.new g [config] lockConfig).run events
    (∀ c r access name d goal, s.calls[c]? = some ⟨r, access, .waiting name d goal⟩ →
      ∃ kind u, s.Sleeps c r.id name kind ∧ s.Obstructs name kind r.id u) ∧
    ∀ t, ¬ TransGen s.BlockedBy t t := by
  intro s
  have h : Guarded s idle := Guarded.invariant.run (.new g config lockConfig) ho
  constructor
  · intro c r access name d goal hk
    obtain ⟨w, hw, hid, hsleeps⟩ := h.exists_waiter hk
    obtain ⟨u, hu⟩ := (h.attended name).exists_blocker (h.waiting.sound name) (h.one name) hw
      (hs name w hw)
    rw [hid] at hu
    exact ⟨w.request, u, hsleeps, Lock.mem_blockers.mp hu⟩
  · intro t ht
    obtain ⟨p, -, hp⟩ := TransGen.tail'_iff.mp ht
    exact h.watched.acyclic t (h.waits_of_chain hs ht (Guarded.not_bare_of_blockedBy hp))

/-- Two transactions wait in a row, and the last one is the only one that is not blocked. -/
theorem waits_in_a_row :
    let events : List Event := [.begin 0, .begin 0, .begin 0,
      .lock ⟨0, 1⟩ ⟨["a"]⟩ .exclusive, .lock ⟨0, 2⟩ ⟨["b"]⟩ .exclusive,
      .lock ⟨0, 2⟩ ⟨["a"]⟩ .shared, .lock ⟨0, 3⟩ ⟨["b"]⟩ .exclusive]
    let fresh := System.new .hierarchical [{}] {}
    Obeys OneRequest fresh events ∧ (fresh.run events).Settled ∧
      (fresh.run events).calls.size = 2 ∧ ∀ t, ¬ TransGen (fresh.run events).BlockedBy t t := by
  intro events fresh
  have ho : Obeys OneRequest fresh events := by decide +kernel
  have hs : (fresh.run events).Settled := by decide +kernel
  exact ⟨ho, hs, by decide +kernel,
    (no_undetected_deadlock .hierarchical {} {} events ho hs).2⟩

end System

end Locking
