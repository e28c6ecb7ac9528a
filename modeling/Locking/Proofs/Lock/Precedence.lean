import Locking.Proofs.Lock.Kept
import Locking.Proofs.Lock.Sole

/-! Upgrades take precedence.  At a lock at which no transaction has two requests, a transaction
that gives up its hold in order to upgrade it stays a pending upgrader until the upgrade is granted
or fails.  No fresh request overtakes it, and the owners that are left only give way to another
upgrade. -/

namespace Locking

namespace Traffic

variable {t : Traffic} {m : Move} {i j : TransactionId} {a : Attempt} {l : Lock}
  {g : WaitForGraph} {moves : List Move}

/-! ### Transactions that upgrade -/

/-- The transaction that gives up its hold in a critical section in order to upgrade it. -/
def yields? (t : Traffic) : Move → Option TransactionId
  | .enter c _ _ _ =>
    ((t.errands.find? (·.call == c)).filter (·.kind == .upgrade)).map (·.transaction)
  | _ => none

/-- The upgrade of a transaction begins in the critical section, or has begun and not ended. -/
def Upgrades (t : Traffic) (i : TransactionId) (m : Move) : Prop :=
  t.Upgrading i ∨ t.yields? m = some i

instance : Decidable (t.Upgrades i m) :=
  inferInstanceAs (Decidable (t.Upgrading i ∨ t.yields? m = some i))

/-- A considerate critical section while a transaction upgrades the lock, in which no other one
begins to. -/
def Unrivalled (i : TransactionId) (t : Traffic) (m : Move) : Prop :=
  t.Considerate m ∧ t.Upgrades i m ∧ ∀ j ∈ t.yields? m, j = i

instance : Decidable (t.Unrivalled i m) :=
  inferInstanceAs (Decidable (t.Considerate m ∧ t.Upgrades i m ∧ ∀ j ∈ t.yields? m, j = i))

theorem looked?_eq (t : Traffic) (m : Move) : t.looked? m = (t.look? m).map (·.2.1) := by
  cases m with
  | enter | wake => simp [looked?, look?, Option.map_map, Function.comp_def]
  | _ => rfl

/-- An upgrade looks at the lock as soon as it has given up the hold, and when it wakes up. -/
theorem look_of_yields (h : t.yields? m = some i) : ∃ a l g, t.look? m = some (a, l, g) ∧
    a.transaction = i ∧ a.request = .upgrade := by
  cases m with
  | enter c isInterrupted isLate g =>
    cases he : t.errands.find? (·.call == c) with
    | none => simp [yields?, he] at h
    | some e =>
      obtain ⟨e', he', rfl⟩ := Option.map_eq_some_iff.mp h
      obtain ⟨heq, hk⟩ := Option.filter_eq_some_iff.mp he'
      obtain rfl : e = e' := Option.some.inj (he.symm.trans heq)
      exact ⟨_, _, _, congrArg (Option.map _) he, rfl, by simpa using hk⟩
  | _ => exact absurd h (by simp [yields?])

namespace Sole

theorem upgrades_of_look (h : t.Sole) (hl : t.look? m = some (a, l, g))
    (hk : a.request = .upgrade) : t.Upgrades a.transaction m := by
  cases m with
  | enter c isInterrupted isLate g =>
    obtain ⟨e, he, heq⟩ := Option.map_eq_some_iff.mp hl
    cases heq
    exact .inr (by simp [yields?, he, show e.kind = .upgrade from hk])
  | wake c isInterrupted isLate g =>
    obtain ⟨w, hw, heq⟩ := Option.map_eq_some_iff.mp hl
    cases heq
    obtain ⟨hmem, -⟩ := h.orderly.sound.waiter?_eq_some_iff.mp hw
    exact .inl ⟨w.errand, Lock.mem_requests.mpr ⟨w, hmem, rfl⟩, rfl, hk⟩
  | _ => exact absurd hl (by simp [look?])

/-- The upgrade of a transaction is what looks at the lock if a request of the transaction does. -/
theorem request_of_upgrades (h : t.Sole) (hl : t.look? m = some (a, l, g))
    (hi : t.Upgrades a.transaction m) : a.request = .upgrade := by
  rcases hi with hi | hi
  · by_contra hk
    exact h.not_upgrading (h.finds hl).mem hk hi
  · obtain ⟨a', l', g', hl', -, hk⟩ := look_of_yields hi
    obtain ⟨rfl, -⟩ := Prod.mk.inj (Option.some.inj (hl.symm.trans hl'))
    exact hk

theorem upgrading_of_ne (hl : t.look? m = some (a, l, g)) (hi : t.Upgrades i m)
    (hne : i ≠ a.transaction) : t.Upgrading i := by
  refine hi.resolve_right fun hy => ?_
  obtain ⟨a', l', g', hl', hid, -⟩ := look_of_yields hy
  obtain ⟨rfl, -⟩ := Prod.mk.inj (Option.some.inj (hl.symm.trans hl'))
  exact hne hid.symm

/-- Whoever looks at the lock sees the pending upgrade. -/
theorem mem_upgraders_of_look (h : t.Sole) (hl : t.look? m = some (a, l, g))
    (hi : t.Upgrades i m) : i ∈ l.upgraders := by
  rw [(h.finds hl).upgraders]
  by_cases hid : i = a.transaction
  · subst hid
    exact .inr ⟨rfl, h.request_of_upgrades hl hi⟩
  · exact .inl ⟨hid, (h.upgrader i).mpr (upgrading_of_ne hl hi hid)⟩

theorem upgrade_of_granted (h : t.Sole) (hi : t.Upgrades i m) (hl : t.look? m = some (a, l, g))
    (hg : (a.judge l g).2 = .granted) : a.request = .upgrade := by
  have hpending := h.mem_upgraders_of_look hl hi
  have hgrantable := (Attempt.judge_eq_granted_iff.mp (Prod.ext rfl hg)).2.1
  cases hk : a.request with
  | shared => exact absurd hpending ((Lock.grantable_shared_iff.mp (hk ▸ hgrantable)).2.1 i)
  | exclusive => exact absurd hpending ((Lock.grantable_exclusive_iff.mp (hk ▸ hgrantable)).2 i)
  | upgrade => rfl

/-- While an upgrade is pending, owners are lost until another upgrade takes the whole lock. -/
theorem owners_of_passed (h : t.Sole) (hi : t.Upgrades i m) (hl : l ∈ t.passed m) :
    (∀ j ∈ l.owners, j ∈ t.lock.owners) ∨ ∃ j, t.verdict? m = some (j, .upgrade, .granted) ∧
      l.mode = some .exclusive ∧ ∀ k, k ∈ l.owners ↔ k = j := by
  rw [passed, looked?_eq, List.mem_append, Option.mem_toList, Option.map_eq_some_iff,
    List.mem_singleton] at hl
  cases hlook : t.look? m with
  | none =>
    rcases hl with ⟨_, hsome, -⟩ | rfl
    · exact absurd (hlook.symm.trans hsome) (by simp)
    · exact .inl (step_of_no_look hlook).2
  | some look =>
    obtain ⟨a, found, g⟩ := look
    have hfound : ∀ j ∈ found.owners, j ∈ t.lock.owners := fun j hj =>
      ((h.finds hlook).owners j |>.mp hj).1
    rcases hl with ⟨look', hsome, rfl⟩ | rfl
    · obtain rfl := Option.some.inj (hlook.symm.trans hsome)
      exact .inl hfound
    · rw [lock_of_look hlook]
      by_cases hg : (a.judge found g).2 = .granted
      · have hk := h.upgrade_of_granted hi hlook hg
        have hrun : (a.run found g).1 = found.grant a.transaction .upgrade := by
          rw [Attempt.run, show a.judge found g = (_, .granted) from Prod.ext rfl hg, hk]
        refine .inr ⟨a.transaction, verdict?_eq_some_iff.mpr ⟨a, found, g, hlook, rfl, hk, hg⟩, ?_,
          fun k => ?_⟩
        · rw [hrun, Lock.mode_grant]
          rfl
        · rw [hrun, Lock.mem_owners_grant]
          simp
      · refine .inl fun j hj => hfound j ?_
        exact (Attempt.mem_owners_run hj).resolve_right fun hgranted => hg hgranted.1

/-- An upgrade stays pending until it is granted or fails. -/
theorem upgrading_step (h : t.Sole) (hi : t.Upgrades i m) : (t.step m).Upgrading i ∨
    ∃ v, v ≠ .sleeps ∧ t.verdict? m = some (i, .upgrade, v) := by
  cases hlook : t.look? m with
  | none =>
    rcases hi with hi | hi
    · left
      rwa [Upgrading, (step_of_no_look hlook).1]
    · obtain ⟨_, _, _, hsome, -⟩ := look_of_yields hi
      exact absurd (hlook.symm.trans hsome) (by simp)
  | some look =>
    obtain ⟨a, l, g⟩ := look
    rw [Upgrading, lock_of_look hlook]
    by_cases hid : i = a.transaction
    · subst hid
      have hk := h.request_of_upgrades hlook hi
      by_cases hs : (a.judge l g).2 = .sleeps
      · exact .inl ⟨a.errand, Attempt.mem_requests_run.mpr (.inr ⟨hs, rfl⟩), rfl, hk⟩
      · exact .inr ⟨_, hs, verdict?_eq_some_iff.mpr ⟨a, l, g, hlook, rfl, hk, rfl⟩⟩
    · obtain ⟨x, hx, rfl, hk⟩ := upgrading_of_ne hlook hi hid
      have hfound := ((h.finds hlook).requests x).mpr ⟨hx, hid⟩
      exact .inl ⟨x, Attempt.mem_requests_run.mpr (.inl hfound), rfl, hk⟩

/-- Nobody begins to wait for an upgrade but by giving up its hold. -/
theorem upgrades_of_step (h : t.Sole) (hj : (t.step m).Upgrading j) : t.Upgrades j m := by
  cases hlook : t.look? m with
  | none => exact .inl (by rwa [Upgrading, (step_of_no_look hlook).1] at hj)
  | some look =>
    obtain ⟨a, l, g⟩ := look
    obtain ⟨x, hx, rfl, hk⟩ := hj
    rw [lock_of_look hlook, Attempt.mem_requests_run] at hx
    rcases hx with hx | ⟨-, rfl⟩
    · exact .inl ⟨x, ((h.finds hlook).requests x |>.mp hx).1, rfl, hk⟩
    · exact h.upgrades_of_look hlook hk

/-- While one transaction alone upgrades the lock, nobody else is granted it. -/
theorem unrivalled (h : t.Sole) (hothers : ∀ j ≠ i, ¬ t.Upgrading j)
    (ho : Obeys Traffic.step (Unrivalled i) t moves) {before after : List Move}
    (hm : moves = before ++ m :: after) :
    (∀ j kind, (t.run before).verdict? m = some (j, kind, .granted) → j = i ∧ kind = .upgrade) ∧
      ∀ j ∈ ((t.run before).step m).lock.owners, j ∈ t.lock.owners ∨ j = i := by
  induction before generalizing t moves with
  | nil =>
    subst hm
    obtain ⟨-, hi, honly⟩ := ho.1
    have hgranted : ∀ j kind, t.verdict? m = some (j, kind, .granted) → j = i ∧ kind = .upgrade := by
      intro j kind hv
      obtain ⟨a, l, g, hl, rfl, rfl, hg⟩ := verdict?_eq_some_iff.mp hv
      have hk := h.upgrade_of_granted hi hl hg
      refine ⟨?_, hk⟩
      rcases h.upgrades_of_look hl hk with hu | hy
      · by_contra hne
        exact hothers _ hne hu
      · exact honly _ hy
    refine ⟨hgranted, fun j hj => ?_⟩
    rcases h.owners_of_passed hi (l := (t.step m).lock) (by simp [passed]) with hlost | ⟨k, hv, -, hk⟩
    · exact .inl (hlost j hj)
    · exact .inr (((hk j).mp hj).trans (hgranted k _ hv).1)
  | cons first before ih =>
    subst hm
    obtain ⟨⟨hc, hi, honly⟩, hrest⟩ := ho
    have hothers' : ∀ j ≠ i, ¬ (t.step first).Upgrading j := by
      intro j hj hu
      rcases h.upgrades_of_step hu with hu | hy
      · exact hothers j hj hu
      · exact hj (honly j hy)
    obtain ⟨hgranted, howners⟩ := ih (h.step hc) hothers' hrest rfl
    refine ⟨hgranted, fun j hj => ?_⟩
    rcases howners j hj with hj | rfl
    swap
    · exact .inr rfl
    rcases h.owners_of_passed hi (l := (t.step first).lock) (by simp [passed]) with
      hlost | ⟨k, hv, -, hk⟩
    · exact .inl (hlost j hj)
    · right
      obtain rfl := (hk j).mp hj
      obtain ⟨a, l, g, hl, rfl, hkind, -⟩ := verdict?_eq_some_iff.mp hv
      by_contra hne
      rcases h.upgrades_of_look hl hkind with hu | hy
      · exact hothers _ hne hu
      · exact hne (honly _ hy)

end Sole

/-- A pending upgrade is not overtaken.  In a run in which no transaction has two requests at the
lock and nobody releases it for a transaction that waits to upgrade it, such a transaction is a
pending upgrader and no owner.  From the critical section in which it gives up its hold to the one
in which its upgrade is granted or fails, only upgrades are granted, and the lock loses owners or
comes to belong to one upgrader alone.  If no other transaction upgrades the lock meanwhile, then no
other one is granted it. -/
theorem upgrade_not_overtaken (moves : List Move) (ho : Obeys Traffic.step Considerate {} moves)
    (i : TransactionId) :
    let t := run {} moves
    (t.Upgrading i → i ∈ t.lock.upgraders ∧ i ∉ t.lock.owners) ∧
    (∀ m, t.Upgrades i m →
      (∀ j kind, t.verdict? m = some (j, kind, .granted) → kind = .upgrade) ∧
      (∀ l ∈ t.passed m, (∀ j ∈ l.owners, j ∈ t.lock.owners) ∨
        ∃ j, t.verdict? m = some (j, .upgrade, .granted) ∧ l.mode = some .exclusive ∧
          ∀ k, k ∈ l.owners ↔ k = j) ∧
      ((t.step m).Upgrading i ∨ ∃ v, v ≠ .sleeps ∧ t.verdict? m = some (i, .upgrade, v))) ∧
    ∀ later, (∀ j ≠ i, ¬ t.Upgrading j) → Obeys Traffic.step (Unrivalled i) t later →
      ∀ before m after, later = before ++ m :: after →
        (∀ j kind, (t.run before).verdict? m = some (j, kind, .granted) →
          j = i ∧ kind = .upgrade) ∧
        ∀ j ∈ ((t.run before).step m).lock.owners, j ∈ t.lock.owners ∨ j = i := by
  intro t
  have h : t.Sole := Sole.default.run ho
  refine ⟨fun hi => ?_, fun m hi => ⟨fun j kind hv => ?_, fun l => h.owners_of_passed hi,
    h.upgrading_step hi⟩, fun later hothers hlater before m after => h.unrivalled hothers hlater⟩
  · have hpending := (h.upgrader i).mpr hi
    exact ⟨hpending, fun howner => h.orderly.sound.apart i howner hpending⟩
  · obtain ⟨a, l, g, hl, -, rfl, hg⟩ := verdict?_eq_some_iff.mp hv
    exact h.upgrade_of_granted hi hl hg

/-- A reader upgrades while another one reads on, and is granted before the one that came after. -/
theorem upgrade_granted_first :
    let moves : List Move := [.acquire 0 1 .shared, .enter 0 false false {}, .acquire 1 2 .shared,
      .enter 1 false false {}, .acquire 2 1 .exclusive]
    let later : List Move := [.enter 2 false false {}, .acquire 3 3 .shared,
      .enter 3 false false {}, .release 2, .wake 3 false false {}, .wake 2 false false {}]
    let t := run {} moves
    Obeys Traffic.step Considerate {} moves ∧ Obeys Traffic.step (Unrivalled 1) t later ∧
      (∀ before m after, later = before ++ m :: after → ∀ j kind,
        (t.run before).verdict? m = some (j, kind, .granted) → j = 1 ∧ kind = .upgrade) ∧
      (t.run later).lock.modeOf 1 = some .exclusive ∧ (t.run later).lock.waiters.length = 1 := by
  intro moves later t
  have ho : Obeys Traffic.step Considerate {} moves := by decide +kernel
  have hlater : Obeys Traffic.step (Unrivalled 1) t later := by decide +kernel
  have hidle : t.lock.requests = [] := by decide +kernel
  refine ⟨ho, hlater, fun before m after hm => ?_, by decide +kernel, by decide +kernel⟩
  refine ((upgrade_not_overtaken moves ho 1).2.2 later ?_ hlater before m after hm).1
  rintro j - ⟨x, hx, -⟩
  rw [hidle] at hx
  exact absurd hx List.not_mem_nil

end Traffic

end Locking
