import Mathlib.Logic.Relation
import Locking.Proofs.System.Burden
import Locking.Proofs.System.Deadlock

/-! Wake-ups settle.  A request that has been notified looks at its lock again, and the failed
upgrades and aborted transactions that come of it notify others; but whatever a call does brings it
closer to its end, unless it falls asleep where it has been asleep before, and then there is one
notification fewer.  This holds of calls that go on side by side, in any order of their advances. -/

namespace Locking

namespace Crowd

open Locking.System Relation

/-! ### One step towards rest -/

/-- What may happen while nobody makes a new call and no deadline passes. -/
inductive Settles : Crowd → Crowd → Prop
  /-- A request that has been notified wakes up. -/
  | wake {k c r name d goal w}
      (hk : k.system.calls[c]? = some ⟨r, .shared, .waiting name d goal⟩)
      (hw : (k.system.lockAt name).waiter? c = some w) (hn : w.isNotified = true) :
    Settles k (k.enter ((k.system.dismiss c).modifyLock name (·.rouse w))
      (.looking c r name w.request d goal true))
  /-- A store that has been called replies. -/
  | reply {k c j answer s p} (hk : k.system.calls[c]? = some j) (hp : j.point.isAsleep = false)
      (hs : Start k.system (.reply c answer) s p) : Settles k (k.enter s p)
  /-- A call that goes on does the next thing. -/
  | advance {k c p s p'} (hc : k.going c = some p) (ha : Advance k.system p s p') :
    Settles k (k.follow c s p')
  /-- A transaction that is about to end gives back one of its locks ahead of the others, which it
  gives back in the step that ends it. -/
  | release {k c p r e} (hc : k.going c = some p) (hp : p.ending? = some r)
      (he : e ∈ (k.system.transactionAt r).lockSet) (hl : .entity e ∈ k.system.locks) :
    Settles k ⟨k.system.releaseOne r e, k.going⟩

variable {k k' : Crowd} {fresh s s' : System} {events : List Event} {p p' : Stage} {b c : CallId}
  {r : TransactionRef} {e : EntityId} {n : Nat}

namespace Orderly

theorem going_of_call {j : Call} (h : k.Orderly) (hk : k.system.calls[c]? = some j) :
    k.going c = none := by
  cases hc : k.going c with
  | none => rfl
  | some p =>
    have hnone := ((h.inOrder c p hc).going c (h.call c p hc)).1
    exact absurd (hnone.symm.trans hk) (by simp)

theorem modifyTransaction {f : Transaction → Transaction} (h : k.Orderly) :
    (⟨k.system.modifyTransaction r f, k.going⟩ : Crowd).Orderly := by
  have hmem : ∀ q, q ∈ (k.system.modifyTransaction r f).transactions ↔
      q ∈ k.system.transactions := fun _ => mem_transactions_modifyTransaction
  have hchange : ∀ {p}, System.InOrder k.system p →
      System.InOrder (k.system.modifyTransaction r f) p := fun h =>
    ⟨h.fresh, h.suited, fun c j hj => (hmem _).mpr (h.known c j hj), h.apart,
      fun q hq => h.numbered q ((hmem q).mp hq), h.going,
      fun q access hq => (hmem q).mpr (h.user q access hq), h.aside⟩
  exact ⟨hchange h.resting, ⟨h.waiting.sound, h.waiting.caller, h.waiting.waiter, h.waiting.looked⟩,
    h.call, fun c p hc => hchange (h.inOrder c p hc), h.apart, h.looked⟩

theorem settles (h : k.Orderly) (hs : Settles k k') : k'.Orderly := by
  cases hs with
  | wake hk hw =>
    exact h.start (fun _ _ huse => absurd huse (by simp [Event.use?])) (.wake hk hw)
  | reply _ _ hs => exact h.start (fun _ _ huse => absurd huse (by simp [Event.use?])) hs
  | advance hc ha => exact h.advance hc ha
  | release _ _ _ hl => exact h.modifyTransaction.release hl

end Orderly

theorem Reached.orderly (h : Reached fresh events k) (ho : System.InOrder fresh idle)
    (hw : Waiting fresh idle) : k.Orderly := by
  induction h with
  | fresh => exact .still ho hw
  | start _ hadmits hs _ ih => exact ih.start hadmits hs
  | advance _ hc ha ih => exact ih.advance hc ha
  | release _ _ hl ih => exact ih.release hl
  | number _ ih => exact ih.number

/-! ### A measure of what is left to do -/

def burdenAt (k : Crowd) (c : CallId) : Nat :=
  k.system.burdenAt c + (k.going c).elim 0 (Stage.burden k.system.storeCount)

/-- How far a call is from being asleep and not notified: a notified one has to wake up first, and
then to look at its lock. -/
def stirAt (k : Crowd) (c : CallId) : Nat :=
  (if k.system.Due c then 2 else 0) + if ((k.going c).bind Stage.lock?).isSome then 1 else 0

def load (n : Nat) (k : Crowd) : Nat := ∑ c ∈ Finset.range n, k.burdenAt c

/-- What the first `n` calls have still to do, and the locks that are still to be given back.  A
request that is granted adds one of these. -/
def rank (n : Nat) (k : Crowd) : Nat := 2 * k.load n + k.system.holdings

def stir (n : Nat) (k : Crowd) : Nat := ∑ c ∈ Finset.range n, k.stirAt c

/-- A bound on the steps until the first `n` calls are at rest. -/
def unrest (n : Nat) (k : Crowd) : Nat := k.rank n * (3 * n + 1) + k.stir n

theorem stirAt_le (k : Crowd) (c : CallId) : k.stirAt c ≤ 3 := by
  unfold stirAt
  split <;> split <;> decide

theorem stir_le (n : Nat) (k : Crowd) : k.stir n ≤ 3 * n := by
  calc k.stir n ≤ ∑ _c ∈ Finset.range n, 3 := Finset.sum_le_sum fun c _ => k.stirAt_le c
    _ = 3 * n := by
      rw [Finset.sum_const_nat fun _ _ => rfl, Finset.card_range, Nat.mul_comm]

theorem sum_range_lt {f g : CallId → Nat} (hn : c < n) (hb : ∀ b, b ≠ c → f b ≤ g b)
    (hc : f c < g c) : ∑ b ∈ Finset.range n, f b < ∑ b ∈ Finset.range n, g b := by
  refine Finset.sum_lt_sum (fun b _ => ?_) ⟨c, Finset.mem_range.mpr hn, hc⟩
  by_cases h : b = c
  · exact h ▸ Nat.le_of_lt hc
  · exact hb b h

theorem unrest_lt_of_rank (h : k'.rank n < k.rank n) : k'.unrest n < k.unrest n := by
  have hstir := k'.stir_le n
  have hmul := Nat.mul_le_mul_right (3 * n + 1) (Nat.succ_le_of_lt h)
  rw [Nat.succ_mul] at hmul
  unfold unrest
  omega

theorem Orderly.burdenAt_going (h : k.Orderly) (hc : k.going c = some p) :
    k.burdenAt c = p.burden k.system.storeCount := by
  rw [burdenAt, hc, burdenAt_of_none ((h.inOrder c p hc).going c (h.call c p hc)).1]
  exact Nat.zero_add _

theorem burdenAt_follow_self (hp : p.call? = some c ∨ p.call? = none) :
    (k.follow c s p).burdenAt c = s.burdenAt c + p.burden s.storeCount := by
  have hgoing : (k.follow c s p).going c = p.call?.map fun _ => p := if_pos rfl
  rw [burdenAt, hgoing]
  rcases hp with hp | hp
  · rw [hp]
    rfl
  · rw [hp, Stage.burden_of_call? _ hp]
    rfl

theorem burdenAt_enter_self (hp : p.call? = some c ∨ p.call? = none) (hc : k.going c = none) :
    (k.enter s p).burdenAt c = s.burdenAt c + p.burden s.storeCount := by
  have hgoing : (k.enter s p).going c = if p.call? = some c then some p else k.going c := rfl
  rw [burdenAt, hgoing]
  rcases hp with hp | hp
  · rw [if_pos hp]
    rfl
  · rw [if_neg (by simp [hp]), hc, Stage.burden_of_call? _ hp]
    rfl

/-! ### Crowds in which one call has gone on -/

/-- No call but one has come to another point. -/
structure Moved (c : CallId) (k k' : Crowd) : Prop where
  going : ∀ b, b ≠ c → k'.going b = k.going b
  calls : ∀ b, b ≠ c → k'.system.calls[b]? = k.system.calls[b]?
  stores : k'.system.storeCount = k.system.storeCount

namespace Moved

theorem burdenAt (h : Moved c k k') (hb : b ≠ c) : k'.burdenAt b = k.burdenAt b := by
  rw [Crowd.burdenAt, Crowd.burdenAt, h.going b hb, h.stores,
    System.burdenAt_congr (h.calls b hb) h.stores]

theorem load_le (h : Moved c k k') (hc : k'.burdenAt c ≤ k.burdenAt c) : k'.load n ≤ k.load n := by
  refine Finset.sum_le_sum fun b _ => ?_
  by_cases hb : b = c
  · exact hb ▸ hc
  · exact Nat.le_of_eq (h.burdenAt hb)

/-- The call that has gone on has come closer to its end. -/
theorem unrest_lt (h : Moved c k k') (hn : c < n) (hc : k'.burdenAt c < k.burdenAt c)
    (hh : k'.system.holdings ≤ k.system.holdings + 1) : k'.unrest n < k.unrest n := by
  have hload : k'.load n < k.load n :=
    sum_range_lt hn (fun b hb => Nat.le_of_eq (h.burdenAt hb)) hc
  apply unrest_lt_of_rank
  unfold rank
  omega

/-- The call that has gone on has used up a notification. -/
theorem unrest_lt_of_due (h : Moved c k k') (hn : c < n) (hc : k'.burdenAt c ≤ k.burdenAt c)
    (hh : k'.system.holdings ≤ k.system.holdings)
    (hd : ∀ b, k'.system.Due b → b ≠ c ∧ k.system.Due b)
    (hs : k.system.Due c ∨ ((k.going c).bind Stage.lock?).isSome ∧ k'.going c = none) :
    k'.unrest n < k.unrest n := by
  have hload := h.load_le hc (n := n)
  have hrank : k'.rank n ≤ k.rank n := by
    unfold rank
    omega
  have hself : k'.stirAt c < k.stirAt c := by
    rw [stirAt, stirAt, if_neg fun h => (hd c h).1 rfl]
    rcases hs with hdue | ⟨hlook, hgone⟩
    · rw [if_pos hdue]
      split <;> omega
    · rw [hgone, if_pos hlook]
      exact Nat.lt_of_lt_of_le Nat.one_pos (Nat.le_add_left _ _)
  have hstir : k'.stir n < k.stir n := by
    refine sum_range_lt hn (fun b hb => ?_) hself
    rw [stirAt, stirAt, h.going b hb]
    apply Nat.add_le_add_right
    by_cases hdue : k'.system.Due b
    · rw [if_pos hdue, if_pos (hd b hdue).2]
    · rw [if_neg hdue]
      exact Nat.zero_le _
  exact Nat.add_lt_add_of_le_of_lt (Nat.mul_le_mul_right _ hrank) hstir

end Moved

theorem moved_enter (hp : ∀ b, p.call? = some b → b = c)
    (hc : ∀ b, b ≠ c → s.calls[b]? = k.system.calls[b]?)
    (hs : s.storeCount = k.system.storeCount) : Moved c k (k.enter s p) where
  going b hb := if_neg fun h => hb (hp b h)
  calls := hc
  stores := hs

theorem Orderly.moved_follow (h : k.Orderly) (hc : k.going c = some p)
    (ha : Advance k.system p s' p') : Moved c k (k.follow c s' p') where
  going _ hb := if_neg hb
  calls _ hb := ha.calls_ne (h.call c p hc) hb
  stores := ha.storeCount

/-! ### Every step leaves less to do -/

/-- Only the first `n` calls are in progress or go on. -/
structure Within (n : Nat) (k : Crowd) : Prop where
  next : k.system.nextCall ≤ n
  going : ∀ c p, k.going c = some p → c < n

namespace Within

theorem enter (h : Within n k) (hn : s.nextCall = k.system.nextCall)
    (hp : ∀ c, p.call? = some c → c < n) : Within n (k.enter s p) where
  next := hn ▸ h.next
  going b q hq := by
    rcases going_enter.mp hq with ⟨hb, -⟩ | ⟨-, hq⟩
    · exact hp b hb
    · exact h.going b q hq

theorem follow (h : Within n k) (ho : k.Orderly) (hc : k.going c = some p)
    (ha : Advance k.system p s' p') : Within n (k.follow c s' p') where
  next := by
    cases ha.keeps with
    | nothing _ hn => exact hn ▸ h.next
    | @call d _ _ _ hd _ _ _ hn =>
      obtain rfl := Option.some.inj (hd.symm.trans (ho.call c p hc))
      rw [show (k.follow d s' p').system.nextCall = _ from hn]
      exact Nat.max_le.mpr ⟨h.next, h.going d p hc⟩
  going b q hq := by
    rcases going_follow.mp hq with ⟨rfl, -⟩ | ⟨-, hq⟩
    · exact h.going b p hc
    · exact h.going b q hq

theorem of_call {j : Call} (h : Within n k) (ho : k.Orderly) (hk : k.system.calls[c]? = some j) :
    c < n :=
  Nat.lt_of_lt_of_le (ho.resting.fresh c j hk) h.next

theorem settles (h : Within n k) (ho : k.Orderly) (hs : Settles k k') : Within n k' := by
  cases hs with
  | wake hk =>
    exact h.enter rfl fun c hc => Option.some.inj hc ▸ h.of_call ho hk
  | reply hk hp hs =>
    obtain ⟨-, -, -, hn, -, hcall⟩ := hs.eases ho.resting hk hp
    exact h.enter hn fun c hc => hcall c hc ▸ h.of_call ho hk
  | advance hc ha => exact h.follow ho hc ha
  | release => exact ⟨h.next, h.going⟩

end Within

theorem Orderly.unrest_wake {name : LockName} {d : Deadline} {goal : Goal} {w : Waiter}
    (ho : k.Orderly) (hn : Within n k)
    (hk : k.system.calls[c]? = some ⟨r, .shared, .waiting name d goal⟩)
    (hw : (k.system.lockAt name).waiter? c = some w) (hnotified : w.isNotified = true) :
    (k.enter ((k.system.dismiss c).modifyLock name (·.rouse w))
      (.looking c r name w.request d goal true)).unrest n < k.unrest n := by
  have hidle := ho.going_of_call hk
  obtain ⟨hmem, hcall, -⟩ := ho.waiting.of_waiter? hk hw
  have hdue : k.system.Due c := ⟨name, w, hmem, hcall, hnotified⟩
  have hleft := fun b => ho.waiting.due_of_rouse (b := b) hk hw
  have hmoved : Moved c k (k.enter ((k.system.dismiss c).modifyLock name (·.rouse w))
      (.looking c r name w.request d goal true)) :=
    moved_enter (fun b hb => (Option.some.inj hb).symm)
      (fun b hb => calls_dismiss.trans (if_neg hb)) rfl
  refine hmoved.unrest_lt_of_due (hn.of_call ho hk) ?_ (Nat.le_refl _) hleft (.inl hdue)
  rw [burdenAt_enter_self (.inl rfl) hidle, burdenAt, hidle]
  exact Nat.le_of_eq (burdenAt_rouse hk)

theorem Orderly.unrest_advance (ho : k.Orderly) (hn : Within n k) (hc : k.going c = some p)
    (ha : Advance k.system p s' p') : (k.follow c s' p').unrest n < k.unrest n := by
  have hcall := ho.call c p hc
  have hmoved := ho.moved_follow hc ha
  have hbefore := ho.burdenAt_going hc
  have hafter : (k.follow c s' p').burdenAt c = s'.burdenAt c + p'.burden s'.storeCount :=
    burdenAt_follow_self (ha.call?_eq.imp_left fun h => h.trans hcall)
  rcases ha.eases (ho.inOrder c p hc) (ho.waitingAt hc) hcall with hlt | ⟨heq, hh, hlock, hp, hdue⟩
  · refine hmoved.unrest_lt (hn.going c p hc) ?_ ha.holdings_le
    rwa [hafter, hbefore]
  · have hasleep : (k.follow c s' p').going c = none :=
      (if_pos rfl).trans (by rw [hp, Option.map_none])
    refine hmoved.unrest_lt_of_due (hn.going c p hc) ?_ (Nat.le_of_eq hh) hdue
      (.inr ⟨by rwa [hc], hasleep⟩)
    rw [hafter, hbefore, heq]

theorem unrest_release (he : e ∈ (k.system.transactionAt r).lockSet) :
    unrest n ⟨k.system.releaseOne r e, k.going⟩ < k.unrest n := by
  have hstores := k.system.storeCount_releaseOne r e
  have hload : load n ⟨k.system.releaseOne r e, k.going⟩ = k.load n := by
    refine Finset.sum_congr rfl fun b _ => ?_
    have hburden : (k.system.releaseOne r e).burdenAt b = k.system.burdenAt b :=
      System.burdenAt_congr rfl hstores
    rw [burdenAt, burdenAt, hstores]
    exact congrArg (· + _) hburden
  apply unrest_lt_of_rank
  rw [rank, rank, hload]
  exact Nat.add_lt_add_left (holdings_releaseOne he) _

theorem Settles.unrest_lt (ho : k.Orderly) (hn : Within n k) (hs : Settles k k') :
    k'.unrest n < k.unrest n := by
  cases hs with
  | wake hk hw hnotified => exact ho.unrest_wake hn hk hw hnotified
  | @reply c j answer s p hk hp hs =>
    obtain ⟨hlt, hstores, hh, -, hcalls, hcall⟩ := hs.eases ho.resting hk hp
    have hidle := ho.going_of_call hk
    have hpcall : p.call? = some c ∨ p.call? = none := by
      cases hpc : p.call? with
      | none => exact .inr rfl
      | some b => exact .inl (hcall b hpc ▸ rfl)
    refine (moved_enter hcall hcalls hstores).unrest_lt (hn.of_call ho hk) ?_
      (hh.trans (Nat.le_succ _))
    rw [burdenAt_enter_self hpcall hidle, burdenAt, hidle]
    exact hlt
  | advance hc ha => exact ho.unrest_advance hn hc ha
  | release _ _ he => exact unrest_release he

/-! ### Any number of steps -/

theorem Settles.length_le {steps : List Crowd} (ho : k.Orderly) (hn : Within n k)
    (hsteps : List.IsChain Settles (k :: steps)) : steps.length ≤ k.unrest n := by
  induction steps generalizing k with
  | nil => exact Nat.zero_le _
  | cons k' steps ih =>
    obtain ⟨hs, hsteps⟩ := List.isChain_cons_cons.mp hsteps
    have hrest := ih (ho.settles hs) (hn.settles ho hs) hsteps
    have hless := hs.unrest_lt ho hn
    rw [List.length_cons]
    omega

/-- No call goes on, and every call in progress is asleep on a lock and has not been notified. -/
structure AtRest (k : Crowd) : Prop where
  going : ∀ c, k.going c = none
  asleep : ∀ (c : CallId) (j : Call), k.system.calls[c]? = some j → j.point.isAsleep = true
  settled : k.system.Settled

theorem AtRest.not_settles (h : k.AtRest) : ¬ Settles k k' := by
  intro hs
  cases hs with
  | wake hk hw hnotified =>
    have hmem := List.mem_of_find?_eq_some hw
    exact absurd (h.settled _ _ hmem) (by simp [hnotified])
  | reply hk hp => exact absurd (h.asleep _ _ hk) (by simp [hp])
  | advance hc | release hc => exact absurd hc (by simp [h.going])

theorem Orderly.atRest (ho : k.Orderly) (hs : ∀ k', ¬ Settles k k') : k.AtRest where
  going c := by
    cases hc : k.going c with
    | none => rfl
    | some p =>
      obtain ⟨s', p', ha⟩ := exists_advance k.system (ho.call c p hc)
      exact absurd (.advance hc ha) (hs _)
  asleep c j hk := by
    by_contra hp
    obtain ⟨s', p, hst, -⟩ := follows_step ho.resting.tidy (.reply c .done)
    exact hs _ (.reply hk (Bool.eq_false_iff.mpr hp) hst)
  settled name w hw := by
    by_contra hnotified
    obtain ⟨r, d, goal, hsleep, -⟩ := ho.waiting.caller name w hw
    have hk := ho.resting.call_of_sleeperAt hsleep
    have hwaiter := (ho.waiting.sound name).waiter?_eq_some_iff.mpr ⟨hw, rfl⟩
    exact hs _ (.wake hk hwaiter (Bool.not_eq_false _ ▸ hnotified))

theorem Orderly.exists_atRest (ho : k.Orderly) (hn : Within n k) :
    ∃ k', ReflTransGen Settles k k' ∧ k'.AtRest := by
  induction hu : k.unrest n using Nat.strong_induction_on generalizing k with
  | _ m ih =>
    by_cases hs : ∃ k', Settles k k'
    · obtain ⟨k', hs⟩ := hs
      have hless := hs.unrest_lt ho hn
      obtain ⟨k'', hsteps, hrest⟩ := ih _ (hu ▸ hless) (ho.settles hs) (hn.settles ho hs) rfl
      exact ⟨k'', .head hs hsteps, hrest⟩
    · exact ⟨k, .refl, ho.atRest fun k' h => hs ⟨k', h⟩⟩

theorem Orderly.within (ho : k.Orderly) : Within (k.system.nextCall + 1) k where
  next := Nat.le_succ _
  going c p hc := Nat.lt_succ_of_le ((ho.inOrder c p hc).going c (ho.call c p hc)).2

/-- Wake-ups settle.  Take whatever a system can become while any number of calls go on side by
side, and go on from there with nothing but notified requests that wake up, stores that reply, and
calls that go on, in any order.  The number of steps that can be taken is bounded; no further one
can be taken just when every call in progress is asleep and has not been notified; and wherever the
steps may have led, such a state is still reached. -/
theorem wake_ups_settle (g : Granularity) (configs : List Config) (lockConfig : Config)
    (events : List Event) (k : Crowd)
    (hk : Reached (System.new g configs lockConfig) events k) :
    (∃ bound, ∀ steps, List.IsChain Settles (k :: steps) → steps.length ≤ bound) ∧
      ∀ k', ReflTransGen Settles k k' →
        ((∀ k'', ¬ Settles k' k'') ↔ k'.AtRest) ∧
          ∃ k'', ReflTransGen Settles k' k'' ∧ k''.AtRest := by
  have ho : k.Orderly :=
    hk.orderly (.new g configs lockConfig) (.new g configs lockConfig)
  refine ⟨⟨k.unrest (k.system.nextCall + 1), fun steps hsteps =>
    Settles.length_le ho ho.within hsteps⟩, fun k' hsteps => ?_⟩
  have ho' : k'.Orderly := by
    induction hsteps with
    | refl => exact ho
    | tail _ hs ih => exact ih.settles hs
  exact ⟨⟨ho'.atRest, fun h _ => h.not_settles⟩, ho'.exists_atRest ho'.within⟩

/-- Three requests wait for one lock, which its owner gives up.  Both readers are notified, and so
is the writer, and all of them look at the lock again before they come to rest. -/
theorem settles_behind_readers :
    let fresh := System.new .hierarchical [{}] {}
    let events : List Event := [.begin 0, .begin 0, .begin 0, .begin 0,
      .lock ⟨0, 1⟩ ⟨["a"]⟩ .exclusive, .lock ⟨0, 2⟩ ⟨["a"]⟩ .shared,
      .lock ⟨0, 3⟩ ⟨["a"]⟩ .exclusive, .lock ⟨0, 4⟩ ⟨["a"]⟩ .shared, .rollback ⟨0, 1⟩]
    let k := still (fresh.run events)
    Reached fresh events k ∧ ¬ k.AtRest ∧ ∃ k', ReflTransGen Settles k k' ∧ k'.AtRest := by
  intro fresh events k
  have hk : Reached fresh events k :=
    Reached.fresh.run (.new .hierarchical [{}] {}) events
  have hnotified : ¬ k.system.Settled := by decide +kernel
  obtain ⟨-, hsteps⟩ := wake_ups_settle .hierarchical [{}] {} events k hk
  exact ⟨hk, fun h => hnotified h.settled, (hsteps k .refl).2⟩

end Crowd

end Locking
