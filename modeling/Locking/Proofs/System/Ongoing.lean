import Mathlib.Data.List.Induction
import Locking.Proofs.Commit.Standing
import Locking.Proofs.Hierarchy.Plan
import Locking.Proofs.Lock.Kept
import Locking.Proofs.System.Crowd
import Locking.Proofs.System.Watched

/-! A lock call from its request to its answer.  It may fall asleep many times, and it may have to
roll its transaction back and wait for the stores, while any number of other calls go on.  What it is
answered with is told from the events that let it go on, and what holds of every stage that it comes
to, and is left alone by the others as long as it rests, holds of its last one, in which it returns. -/

namespace Locking

namespace Event

/-- Whether an event asks for the lock of an entity in a mode on behalf of a transaction. -/
def Requests (r : TransactionRef) (n : Need) : Event → Prop
  | lock q e mode => q = r ∧ ⟨e, mode⟩ = n
  | lockAll q requests => q = r ∧ n ∈ requests
  | _ => False

/-- The locks that a request takes, in the order in which it takes them. -/
def needs (g : Granularity) : Event → List Need
  | lock _ e mode => g.needs e mode
  | lockAll _ requests => g.needsOfAll requests
  | _ => []

section Requests

variable {e : Event} {r : TransactionRef} {n : Need}

theorem Requests.asker? (h : e.Requests r n) : e.asker? = some r := by
  cases e with
  | lock | lockAll => exact congrArg some h.1
  | _ => exact h.elim

/-- What a transaction asks for is among the locks that its request takes. -/
theorem Requests.exists_need (h : e.Requests r n) (g : Granularity) :
    ∃ mode, ⟨n.entity, mode⟩ ∈ e.needs g ∧ mode.covers n.mode = true := by
  cases e with
  | lock q a mode =>
    obtain ⟨-, rfl⟩ := h
    exact ⟨mode, g.mem_needs_self a mode, mode.covers_self⟩
  | lockAll q requests => exact g.exists_mem_needsOfAll h.2
  | _ => exact h.elim

/-- So are its containers. -/
theorem Requests.container (h : e.Requests r n) (g : Granularity) {a : EntityId}
    (ha : a ∈ g.containers n.entity) : ⟨a, .shared⟩ ∈ e.needs g := by
  cases e with
  | lock q b mode =>
    obtain ⟨-, rfl⟩ := h
    exact g.mem_needs_container ha mode
  | lockAll q requests => exact g.mem_needsOfAll_container h.2 ha
  | _ => exact h.elim

end Requests

end Event

/-- The call that is in progress after a response. -/
def Response.call? : Response → Option CallId
  | asleep c | storeCall c _ => some c
  | _ => none

theorem Response.eq_returned {response : Response} {outcome : Outcome}
    (h : response.outcome? = some outcome) : response = .returned outcome := by
  cases response with
  | returned => exact congrArg _ (Option.some.inj h)
  | _ => exact absurd h (by simp [outcome?])

/-- A transaction is refused no lock just while it is active. -/
theorem Transaction.refusal?_eq_none_iff {t : Transaction} :
    t.refusal? = none ↔ t.state = .active := by
  cases h : t.state <;> simp [refusal?, h]

namespace System

variable {s s' : System} {p p' : Stage} {e : Event} {r : TransactionRef} {c b : CallId}
  {d : Deadline} {needs : List Need} {later : List Event} {outcome outcome' : Outcome}
  {result : System × Response}

/-! ### From the request on -/

/-- Unless it is refused, which changes nothing, a request takes the locks it needs. -/
theorem Tidy.taking (ht : s.Tidy)
    (hstart : s.admits r .shared = true → (s.transactionAt r).state = .active →
      Start s e s (.taking s.nextCall r s.lockDeadline needs))
    (hstep : s.step e = s.withAccess r .shared fun s => match (s.transactionAt r).refusal? with
      | some error => (s, .returned (.failed error))
      | none => s.take s.nextCall r s.lockDeadline needs) :
    s.step e = (s, .refused) ∨
      (∃ error, (s.transactionAt r).refusal? = some error ∧
        s.step e = (s, .returned (.failed error))) ∨
      (s.transactionAt r).state = .active ∧
        Start s e s (.taking s.nextCall r s.lockDeadline needs) ∧
        Advances s (.taking s.nextCall r s.lockDeadline needs) (s.step e) := by
  rw [hstep, withAccess]
  by_cases ha : s.admits r .shared = true
  swap
  · rw [if_neg ha]
    exact .inl rfl
  rw [if_pos ha]
  cases hrefused : (s.transactionAt r).refusal? with
  | some error => exact .inr (.inl ⟨error, rfl, rfl⟩)
  | none =>
    have hs : (s.transactionAt r).state = .active := Transaction.refusal?_eq_none_iff.mp hrefused
    have htake := taking_course s.nextCall r s.lockDeadline needs s
    rw [ht.dismiss_nextCall] at htake
    exact .inr (.inr ⟨hs, hstart ha hs, htake⟩)

/-- What becomes of a lock request: it is refused without any change, or it takes the locks it needs,
for a transaction that is active. -/
theorem Tidy.asked (ht : s.Tidy) (he : e.asker? = some r) :
    s.step e = (s, .refused) ∨
      (∃ error, (s.transactionAt r).refusal? = some error ∧
        s.step e = (s, .returned (.failed error))) ∨
      (s.transactionAt r).state = .active ∧
        Start s e s (.taking s.nextCall r s.lockDeadline (e.needs s.granularity)) ∧
        Advances s (.taking s.nextCall r s.lockDeadline (e.needs s.granularity)) (s.step e) := by
  cases e with
  | lock q a mode =>
    obtain rfl := Option.some.inj he
    exact ht.taking (fun ha hs => .lock ha hs) rfl
  | lockAll q requests =>
    obtain rfl := Option.some.inj he
    exact ht.taking (fun ha hs => .lockAll ha hs) rfl
  | _ => exact absurd he (by simp [Event.asker?])

/-! ### What requests are answered with -/

/-- What a call in progress returns first. -/
def answer? (s : System) (c : CallId) : List Event → Option Outcome
  | [] => none
  | e :: later => (if e.resumes c then (s.step e).2.outcome? else none).or
      ((s.step e).1.answer? c later)

/-- What the call returns that an event makes, at once or in the course of later events. -/
def answerTo? (s : System) (e : Event) (later : List Event) : Option Outcome :=
  (s.step e).2.outcome?.or
    ((s.step e).2.call?.bind fun c => (s.step e).1.answer? c later)

/-! ### The moment of the answer -/

/-- The call that an event makes returns with the last of the later events, and not before. -/
def ReturnsAt (s : System) (e : Event) (later : List Event) (outcome : Outcome) : Prop :=
  s.answerTo? e later = some outcome ∧ (later ≠ [] → s.answerTo? e later.dropLast = none)

instance : Decidable (s.ReturnsAt e later outcome) :=
  inferInstanceAs (Decidable (_ ∧ (_ → _)))

theorem answerTo?_of_outcome (h : (s.step e).2.outcome? = some outcome) (later : List Event) :
    s.answerTo? e later = some outcome := by
  rw [answerTo?, h, Option.some_or]

theorem answerTo?_of_call (h : (s.step e).2.call? = some c) (later : List Event) :
    s.answerTo? e later = (s.step e).1.answer? c later := by
  have hout : (s.step e).2.outcome? = none := by
    cases hr : (s.step e).2 with
    | returned =>
      rw [hr] at h
      exact absurd h (by simp [Response.call?])
    | _ => rfl
  rw [answerTo?, hout, h, Option.none_or, Option.bind_some]

theorem answer?_append (s : System) (c : CallId) (later rest : List Event) :
    s.answer? c (later ++ rest) = (s.answer? c later).or ((s.run later).answer? c rest) := by
  induction later generalizing s with
  | nil => exact Option.none_or.symm
  | cons e later ih =>
    rw [List.cons_append, answer?, ih, answer?, Option.or_assoc]
    rfl

/-- What a call has returned it is not going to return again. -/
theorem answerTo?_append (h : s.answerTo? e later = some outcome) (rest : List Event) :
    s.answerTo? e (later ++ rest) = some outcome := by
  cases hout : (s.step e).2.outcome? with
  | some outcome' =>
    rw [answerTo?_of_outcome hout] at h ⊢
    exact h
  | none =>
    cases hc : (s.step e).2.call? with
    | none =>
      rw [answerTo?, hout, hc] at h
      exact absurd h (by simp)
    | some c =>
      rw [answerTo?_of_call hc] at h ⊢
      rw [answer?_append, h, Option.some_or]

/-- A call that returns in the course of some events does so with one of them. -/
theorem exists_returnsAt (h : s.answerTo? e later = some outcome) :
    ∃ now rest, later = now ++ rest ∧ s.ReturnsAt e now outcome := by
  induction later using List.reverseRecOn with
  | nil => exact ⟨[], [], rfl, h, fun hne => absurd rfl hne⟩
  | append_singleton later next ih =>
    cases hans : s.answerTo? e later with
    | some outcome' =>
      rw [answerTo?_append hans] at h
      obtain rfl := Option.some.inj h
      obtain ⟨now, rest, rfl, hret⟩ := ih hans
      exact ⟨now, rest ++ [next], List.append_assoc .., hret⟩
    | none =>
      exact ⟨later ++ [next], [], (List.append_nil _).symm, h, fun _ => by
        rwa [List.dropLast_concat]⟩

/-- A call that returns at once leaves nothing for later events to do. -/
theorem ReturnsAt.at_once (h : s.ReturnsAt e later outcome)
    (hr : (s.step e).2 = .returned outcome') : later = [] ∧ outcome' = outcome := by
  have hout : (s.step e).2.outcome? = some outcome' := by rw [hr]; rfl
  obtain ⟨hans, hnot⟩ := h
  rw [answerTo?_of_outcome hout] at hans
  refine ⟨?_, Option.some.inj hans⟩
  by_contra hne
  rw [answerTo?_of_outcome hout] at hnot
  exact absurd (hnot hne) (by simp)

/-- A call that does not return at once is in progress until it does. -/
theorem ReturnsAt.in_progress (h : s.ReturnsAt e later outcome)
    (hout : (s.step e).2.outcome? = none) : ∃ c, (s.step e).2.call? = some c ∧
      (s.step e).1.answer? c later = some outcome ∧
        (later ≠ [] → (s.step e).1.answer? c later.dropLast = none) := by
  obtain ⟨hans, hnot⟩ := h
  cases hc : (s.step e).2.call? with
  | none =>
    rw [answerTo?, hout, hc] at hans
    exact absurd hans (by simp)
  | some c =>
    rw [answerTo?_of_call hc] at hans
    refine ⟨c, rfl, hans, fun hne => ?_⟩
    rw [← answerTo?_of_call hc]
    exact hnot hne

/-- A call returns with an event that lets it go on, which is the last one, or it is in progress
after the event. -/
theorem answer?_cons_cases (hans : s.answer? c (e :: later) = some outcome)
    (hnot : s.answer? c (e :: later).dropLast = none) :
    later = [] ∧ e.resumes c = true ∧ (s.step e).2 = .returned outcome ∨
      (s.step e).1.answer? c later = some outcome ∧
        (later ≠ [] → (s.step e).1.answer? c later.dropLast = none) := by
  cases hout : if e.resumes c then (s.step e).2.outcome? else none with
  | none =>
    rw [answer?, hout, Option.none_or] at hans
    refine .inr ⟨hans, fun hne => ?_⟩
    rwa [List.dropLast_cons_of_ne_nil hne, answer?, hout, Option.none_or] at hnot
  | some outcome' =>
    rw [answer?, hout, Option.some_or] at hans
    obtain rfl := Option.some.inj hans
    left
    split at hout
    · next hce =>
      refine ⟨?_, hce, Response.eq_returned hout⟩
      by_contra hne
      rw [List.dropLast_cons_of_ne_nil hne, answer?, if_pos hce, hout, Option.some_or] at hnot
      exact absurd hnot (by simp)
    · exact absurd hout (by simp)

/-! ### What a call carries with it -/

theorem Advance.nextCall_le (ha : Advance s p s' p') : s.nextCall ≤ s'.nextCall := by
  cases ha.keeps with
  | nothing _ hn => exact Nat.le_of_eq hn.symm
  | call _ _ _ _ hn => exact hn ▸ Nat.le_max_left _ _

theorem InOrder.nextCall_le (ho : InOrder s idle) (hst : Start s e s' p) :
    s.nextCall ≤ s'.nextCall := by
  cases ho.raises hst with
  | nothing _ hn | new _ hn | call _ _ hn => exact Nat.le_of_eq hn.symm
  | late _ hs => rw [hs]; exact Nat.le_max_left _ _

theorem Advance.call?_concluded {response : Response} (ha : Advance s p s' (.concluded response))
    (hc : p.call? = some c) (hb : response.call? = some b) :
    b = c ∧ ∃ k, s'.calls[c]? = some k := by
  cases ha with
  | sleep | undo | prepare | commit =>
    cases hc
    cases hb
    exact ⟨rfl, _, calls_suspend_self⟩
  | _ => exact absurd hb (by simp [Response.call?])

/-- A call that is in progress after its course is the one that has gone on. -/
theorem Advances.call? (ha : Advances s p result) (hc : p.call? = some c)
    (hb : result.2.call? = some b) : b = c ∧ ∃ k, result.1.calls[c]? = some k := by
  induction ha with
  | concluded => exact absurd hc (by simp [Stage.call?])
  | @step s p s' p' result ha hrest ih =>
    rcases ha.call?_eq with hp | hp
    · exact ih (hp.trans hc) hb
    cases hrest with
    | concluded => exact ha.call?_concluded hc hb
    | step ha' =>
      obtain ⟨d, hd⟩ := ha'.exists_call
      rw [hp] at hd
      exact absurd hd (by simp)

/-- `E` holds of a lock call wherever it stands, in runs that obey the rule.  Its own advances
preserve it, and so do the advances and starts of others at the stage at which it rests, to go on
with it when it wakes up or its store replies. -/
structure Endures (rule : System → Event → Prop) (I E : System → Stage → Prop) : Prop where
  invariant : Invariant rule I
  waiting : ∀ {s p}, I s p → Waiting s p
  unprepared : ∀ {s c r stores}, ¬ E s (.preparing c r stores)
  uncommitted : ∀ {s c r stores}, ¬ E s (.committing c r stores)
  advance : ∀ {s p s' p'}, I s p → E s p → Advance s p s' p' → E s' p'
  suspend : ∀ {s p s' p' q}, I s p → E s p → Advance s p s' p' → p'.call? = none →
    p.Suspends q → E s' q
  aside : ∀ {s p s' p' c q}, I s p → Advance s p s' p' → p.call? ≠ some c →
    s.resumesAt c = some q → E s q → E s' q
  wait : ∀ {s e s' p c q}, rule s e → I s idle → Start s e s' p → p.call? ≠ some c →
    s.resumesAt c = some q → E s q → E s' q
  wake : ∀ {s c r name goal d d' w}, I s idle →
    s.calls[c]? = some ⟨r, .shared, .waiting name d goal⟩ → (s.lockAt name).waiter? c = some w →
      E s (.looking c r name w.request d goal true) →
        E ((s.dismiss c).modifyLock name (·.rouse w)) (.looking c r name w.request d' goal true)
  reply : ∀ {s c r access cause stores statistics}, E s (.undoing c r access cause stores) →
    E ((s.dismiss c).setStatistics statistics) (.undoing c r access cause stores)

/-- Wherever a call stands, whether it goes on or rests, `E` holds of it. -/
structure Carried (I E : System → Stage → Prop) (c : CallId) (s : System) (p : Stage) : Prop where
  holds : I s p
  going : p.call? = some c → E s p
  resting : ∀ q, s.resumesAt c = some q → E s q

namespace Endures

variable {rule : System → Event → Prop} {I E : System → Stage → Prop}

theorem carried_advance (h : Endures rule I E) (hc : Carried I E c s p) (ha : Advance s p s' p') :
    Carried I E c s' p' := by
  have ho := h.invariant.inOrder hc.holds
  have hw := h.waiting hc.holds
  have hnext := h.invariant.advance hc.holds ha
  obtain ⟨b, hb⟩ := ha.exists_call
  refine ⟨hnext, fun hp' => ?_, fun q hq => ?_⟩
  · have hp : p.call? = some c := by
      rcases ha.call?_eq with hcall | hcall
      · rw [← hcall, hp']
      · exact absurd (hcall.symm.trans hp') (by simp)
    exact h.advance hc.holds (hc.going hp) ha
  by_cases hbc : b = c
  · subst hbc
    have hp' : p'.call? = none := by
      rcases ha.call?_eq with hcall | hcall
      · have hnone := (h.invariant.inOrder hnext).going b (hcall.trans hb)
        rw [resumesAt_of_none hnone.1] at hq
        exact absurd hq (by simp)
      · exact hcall
    exact h.suspend hc.holds (hc.going hb) ha hp' (ha.suspends ho hw hb hp' hq)
  · have hsame := ha.resumesAt_ne ho hw hb (Ne.symm hbc)
    rw [hsame] at hq
    exact h.aside hc.holds ha (by simpa [hb] using hbc) hq (hc.resting q hq)

/-- A call in progress that an event lets go on goes on where it rested. -/
theorem going_start (h : Endures rule I E) (hc : Carried I E c s idle) (hlt : c < s.nextCall)
    (hst : Start s e s' p) (hp : p.call? = some c) : E s' p := by
  have hnew : s.nextCall ≠ c := Nat.ne_of_gt hlt
  cases hst with
  | wake hk hw | expire hk _ hw =>
    obtain rfl := Option.some.inj hp
    exact h.wake hc.holds hk hw (hc.resting _ (resumesAt_of_waiter? hk hw))
  | @prepared b q _ _ rest _ hk | @notPrepared b q _ _ rest _ _ hk =>
    obtain rfl := Option.some.inj hp
    exact absurd (hc.resting (.preparing b q rest) (by rw [resumesAt, hk])) h.unprepared
  | @committed b q _ _ rest _ hk | @notCommitted b q _ _ rest _ _ hk =>
    obtain rfl := Option.some.inj hp
    exact absurd (hc.resting (.committing b q rest) (by rw [resumesAt, hk])) h.uncommitted
  | rolledBack hk =>
    obtain rfl := Option.some.inj hp
    exact h.reply (hc.resting _ (by rw [resumesAt, hk]))
  | lock | lockAll | acquire | upgrade | commit | commitInterrupted | rollback | drop | remove =>
    exact absurd (Option.some.inj hp) hnew
  | _ => exact absurd hp (by simp [Stage.call?])

theorem carried_start (h : Endures rule I E) (hc : Carried I E c s idle) (hlt : c < s.nextCall)
    (he : rule s e) (hst : Start s e s' p) : Carried I E c s' p := by
  have hnext := h.invariant.start he hc.holds hst
  refine ⟨hnext, h.going_start hc hlt hst, fun q hq => ?_⟩
  by_cases hp : p.call? = some c
  · rw [resumesAt_of_none ((h.invariant.inOrder hnext).going c hp).1] at hq
    exact absurd hq (by simp)
  · obtain hsame | ⟨hnone, -⟩ := hst.resumesAt_ne (h.waiting hc.holds) hp
    · rw [hsame] at hq
      exact h.wait he hc.holds hst hp hq (hc.resting q hq)
    · rw [hnone] at hq
      exact absurd hq (by simp)

theorem carried_invariant (h : Endures rule I E) (c : CallId) :
    Invariant rule fun s p => Carried I E c s p ∧ c < s.nextCall where
  inOrder hc := h.invariant.inOrder hc.1.holds
  rest hc := ⟨⟨h.invariant.rest hc.1.holds, by simp [Stage.call?], hc.1.resting⟩, hc.2⟩
  start he hc hst := ⟨h.carried_start hc.1 hc.2 he hst,
    Nat.lt_of_lt_of_le hc.2 ((h.invariant.inOrder hc.1.holds).nextCall_le hst)⟩
  advance hc ha := ⟨h.carried_advance hc.1 ha, Nat.lt_of_lt_of_le hc.2 ha.nextCall_le⟩

theorem concluded (h : Endures rule I E) (hI : I s p) (hE : E s p) (ha : Advances s p result) :
    E result.1 (.concluded result.2) :=
  (ha.preserve (P := fun s p => I s p ∧ E s p) (fun hp ha =>
    ⟨h.invariant.advance hp.1 ha, h.advance hp.1 hp.2 ha⟩) ⟨hI, hE⟩).2

/-- When an event makes a call in progress return, `E` holds of what it returns. -/
theorem answered (h : Endures rule I E) (hc : Carried I E c s idle) (hlt : c < s.nextCall)
    (he : rule s e) (hce : e.resumes c = true) (hr : (s.step e).2 = .returned outcome) :
    E (s.step e).1 (.concluded (.returned outcome)) := by
  have ht := (h.invariant.inOrder hc.holds).tidy
  have hgo : ∀ {s' p}, Start s e s' p → p.call? = some c → Advances s' p (s.step e) →
      E (s.step e).1 (.concluded (.returned outcome)) := by
    intro s' p hst hp ha
    rw [← hr]
    exact h.concluded (h.invariant.start he hc.holds hst) (h.going_start hc hlt hst hp) ha
  cases e with
  | wake b =>
    obtain rfl : b = c := by simpa [Event.resumes] using hce
    obtain hrefused | ⟨q, name, d, goal, w, hk, hw⟩ := wake_cases ht b
    · exact absurd ((congrArg Prod.snd hrefused).symm.trans hr) (by simp)
    · exact hgo (.wake hk hw) rfl (waking_course ht hk hw)
  | expire b =>
    obtain rfl : b = c := by simpa [Event.resumes] using hce
    obtain hrefused | ⟨q, name, d, goal, hk, hd⟩ := expire_cases ht b
    · exact absurd ((congrArg Prod.snd hrefused).symm.trans hr) (by simp)
    cases hw : (s.lockAt name).waiter? b with
    | none =>
      exact absurd ((congrArg Prod.snd (expire_idle hk hd hw)).symm.trans hr) (by simp)
    | some w => exact hgo (.expire hk hd hw) rfl (expiring_course ht hk hd hw)
  | reply b a =>
    obtain rfl : b = c := by simpa [Event.resumes] using hce
    cases hk : s.calls[b]? with
    | none => exact absurd hr (by simp [System.step, System.reply, hk])
    | some k =>
      obtain ⟨q, access, point⟩ := k
      cases point with
      | waiting => exact absurd hr (by simp [System.step, System.reply, hk])
      | preparing store rest =>
        exact absurd (hc.resting (.preparing b q rest) (by rw [resumesAt, hk])) h.unprepared
      | committing store rest =>
        exact absurd (hc.resting (.committing b q rest) (by rw [resumesAt, hk])) h.uncommitted
      | rollingBack store rest cause =>
        obtain ⟨statistics, hreply⟩ := reply_rolledBack hk a
        have hst : Start s (.reply b a) ((s.dismiss b).setStatistics statistics)
          (.undoing b q access cause rest) := .rolledBack hk
        refine hgo hst rfl ?_
        show Advances _ _ (s.reply b a)
        rw [hreply]
        exact undoing_course (s.setStatistics statistics) b q access cause rest
  | _ => exact absurd hce (by simp [Event.resumes])

/-- `E` holds of what a call in progress returns later on, at the moment in which it does. -/
theorem run (h : Endures rule I E) (hc : Carried I E c s idle) (hlt : c < s.nextCall)
    (ho : Obeys rule s later) (hans : s.answer? c later = some outcome)
    (hnot : later ≠ [] → s.answer? c later.dropLast = none) :
    E (s.run later) (.concluded (.returned outcome)) := by
  induction later generalizing s with
  | nil => exact absurd hans (by simp [answer?])
  | cons e later ih =>
    obtain ⟨he, ho⟩ := ho
    obtain ⟨rfl, hce, hr⟩ | ⟨hans, hnot⟩ := answer?_cons_cases hans (hnot (by simp))
    · exact h.answered hc hlt he hce hr
    · obtain ⟨hnext, hlt'⟩ := (h.carried_invariant c).step ⟨hc, hlt⟩ he
      exact ih hnext hlt' ho hans hnot

/-- If `E` holds of a call that is about to take its locks, it holds of what the call returns, at the
moment in which it does. -/
theorem returned (h : Endures rule I E) (hI : I s idle) (he : rule s e)
    (hst : Start s e s' (.taking c r d needs)) (hE : E s' (.taking c r d needs))
    (ha : Advances s' (.taking c r d needs) (s.step e)) (ho : Obeys rule (s.step e).1 later)
    (hret : s.ReturnsAt e later outcome) :
    E ((s.step e).1.run later) (.concluded (.returned outcome)) := by
  have hI' : I s' (.taking c r d needs) := h.invariant.start he hI hst
  cases hout : (s.step e).2.outcome? with
  | some outcome' =>
    have hr := Response.eq_returned hout
    obtain ⟨rfl, rfl⟩ := hret.at_once hr
    rw [← hr]
    exact h.concluded hI' hE ha
  | none =>
    obtain ⟨b, hb, hans, hnot⟩ := hret.in_progress hout
    obtain ⟨rfl, k, hk⟩ := ha.call? rfl hb
    have hcarried : Carried I E b s' (.taking b r d needs) := by
      refine ⟨hI', fun _ => hE, fun q hq => ?_⟩
      rw [resumesAt_of_none ((h.invariant.inOrder hI').going b rfl).1] at hq
      exact absurd hq (by simp)
    have hend := ha.preserve h.carried_advance hcarried
    have hrest : Carried I E b (s.step e).1 idle :=
      ⟨h.invariant.rest hend.holds, by simp [Stage.call?], hend.resting⟩
    exact h.run hrest ((h.invariant.inOrder hrest.holds).fresh b k hk) ho hans hnot

end Endures

end System

end Locking
