import Locking.Proofs.System.Deeds
import Locking.Proofs.System.Extension

/-! A caller that locks several entities, by one call after the other or by one call for all of
them, while any number of other calls go on.  Between its calls it goes on using its transaction,
and it stops at the first call that fails.  What it has still to ask for may as well be added to the
call that it makes now: the caller does the same, and it is answered with the same. -/

namespace Locking

namespace Crowd

open Locking.System

/-- A deed of others than call `c`, which may let it go on.  Its deadline does not pass, and its
number is not given to another call. -/
inductive Does (c : CallId) (k : Crowd) : Deed → Crowd → Prop
  | event {e s p} (ha : k.Admits e) (hs : Start k.system e s p)
      (hp : ∀ b, p.call? = some b → k.going b = none)
      (hnew : p.call? = some c → e.resumes c = true) (hexpire : e ≠ .expire c) :
    Does c k (.event e) (k.enter s p)
  | advance {b p s p'} (hb : k.going b = some p) (hcall : p.call? = some b) (hne : b ≠ c)
      (ha : Advance k.system p s p') : Does c k (.advance b) (k.follow b s p')
  | release {r name} (hne : (k.system.transactionAt r).state ≠ .active)
      (hl : name ∈ k.system.locks) :
    Does c k (.release r name) ⟨k.system.release r.id name, k.going⟩
  | number : Does c k .number ⟨{ k.system with nextCall := k.system.nextCall + 1 }, k.going⟩

/-- The crowd in which call `c` has more locks to take. -/
def extend (k : Crowd) (c : CallId) (more : List Need) : Crowd where
  system := k.system.extend c more
  going b := if b = c then (k.going c).map (·.extend more) else k.going b

variable {k k' : Crowd} {b c : CallId} {s : System} {p : Stage} {e : Event} {d : Deed}
  {more : List Need}

theorem extend_of_free (hc : k.going c = none) (hk : k.system.calls[c]? = none) :
    k.extend c more = k := by
  have hgoing : (k.extend c more).going = k.going := by
    funext b
    show (if b = c then _ else _) = _
    split
    · next hb => rw [hb, hc]; rfl
    · rfl
  obtain ⟨s, going⟩ := k
  rw [extend, extend_of_none hk] at hgoing ⊢
  exact congrArg (Crowd.mk s) hgoing

theorem enter_extend : (k.enter s p).extend c more =
    (k.extend c more).enter (s.extend c more) (p.extendAt c more) := by
  simp only [enter, extend, Crowd.mk.injEq, Stage.call?_extendAt, true_and]
  funext b
  by_cases hb : b = c
  · subst hb
    by_cases hp : p.call? = some b
    · simp [hp, Stage.extendAt_of_eq hp]
    · simp [hp]
  · by_cases hp : p.call? = some b
    · have hne : p.call? ≠ some c := fun h => hb (Option.some.inj (hp.symm.trans h))
      simp [hb, hp, Stage.extendAt_of_ne hne]
    · simp [hb, hp]

theorem follow_extend_ne (hb : b ≠ c) : (k.follow b s p).extend c more =
    (k.extend c more).follow b (s.extend c more) p := by
  simp only [follow, extend, Crowd.mk.injEq, true_and]
  funext d
  by_cases hd : d = c
  · subst hd
    simp [Ne.symm hb]
  · simp [hd]

theorem follow_extend_self : (k.follow c s p).extend c more =
    (k.extend c more).follow c (s.extend c more) (p.extend more) := by
  simp only [follow, extend, Crowd.mk.injEq, Stage.call?_extend, true_and]
  funext d
  by_cases hd : d = c
  · simp [hd, Option.map_map, Function.comp_def]
  · simp [hd]

theorem follow_follow {s' : System} {p' : Stage} :
    (k.follow c s p).follow c s' p' = k.follow c s' p' := by
  simp only [follow, Crowd.mk.injEq, true_and]
  funext d
  split <;> rfl

theorem extend_follow : (k.extend c more).follow c s p = k.follow c s p := by
  simp only [follow, extend, Crowd.mk.injEq, true_and]
  funext b
  split
  · rfl
  · rfl

theorem follow_of_going (hc : k.going c = some p) (hp : p.call? = some c) :
    k.follow c k.system p = k := by
  obtain ⟨s, going⟩ := k
  simp only [follow, Crowd.mk.injEq, true_and]
  funext b
  split
  · next hb => rw [hb, hp, Option.map_some, ← hc]
  · rfl

/-- A call that goes on and has more locks to take stands at a stage with these locks. -/
theorem follow_extend (hk : k.system.calls[c]? = none) :
    (k.follow c k.system p).extend c more = k.follow c k.system (p.extend more) := by
  rw [follow_extend_self, extend_follow, extend_of_none hk]

theorem going_extend_ne (hb : b ≠ c) : (k.extend c more).going b = k.going b := if_neg hb

theorem going_extend_self : (k.extend c more).going c = (k.going c).map (·.extend more) :=
  if_pos rfl

theorem going_extend_eq_none : (k.extend c more).going b = none ↔ k.going b = none := by
  by_cases hb : b = c
  · rw [hb, going_extend_self, Option.map_eq_none_iff]
  · rw [going_extend_ne hb]

/-- Whether a crowd admits an event depends on the uses only that its calls make of transactions. -/
theorem admits_iff_use : k.Admits e ↔ ∀ r access, e.use? = some (r, access) → ∀ b access',
    (k.going b).bind Stage.user? = some (r, access') → access'.permits access = true := by
  constructor
  · intro h r access he b access' hb
    obtain ⟨p, hp, hu⟩ := Option.bind_eq_some_iff.mp hb
    exact h r access he b p access' hp hu
  · intro h r access he b p access' hp hu
    exact h r access he b access' (Option.bind_eq_some_iff.mpr ⟨p, hp, hu⟩)

theorem admits_extend : (k.extend c more).Admits e ↔ k.Admits e := by
  have huse : ∀ b, ((k.extend c more).going b).bind Stage.user? = (k.going b).bind Stage.user? := by
    intro b
    by_cases hb : b = c
    · rw [hb, going_extend_self, Option.bind_map]
      exact congrArg (Option.bind _) (funext fun p => Stage.user?_extend)
    · rw [going_extend_ne hb]
  simp only [admits_iff_use, huse]

namespace Does

theorem settings (h : k.Does c d k') : k'.system.settings = k.system.settings := by
  cases h with
  | event _ hs => exact hs.settings
  | advance _ _ _ ha => exact ha.settings
  | release | number => rfl

variable (hcommit : ∀ j, k.system.calls[c]? = some j → j.point.commits = false)

include hcommit

/-- The others do not see whether call `c` has more locks to take. -/
theorem extend (h : k.Does c d k') : (k.extend c more).Does c d (k'.extend c more) := by
  cases h with
  | event ha hs hp hnew hexpire =>
    rw [enter_extend]
    refine .event (admits_extend.mpr ha) (hs.extend hnew hexpire hcommit) (fun b hb => ?_) ?_
      hexpire
    · rw [Stage.call?_extendAt] at hb
      exact going_extend_eq_none.mpr (hp b hb)
    · rwa [Stage.call?_extendAt]
  | @advance b p s p' hb hcall hne ha =>
    rw [follow_extend_ne hne]
    have hc : p.call? ≠ some c := fun h => hne (Option.some.inj (hcall.symm.trans h))
    exact .advance ((going_extend_ne hne).trans hb) hcall hne (ha.extend_ne hc)
  | release hne hl => exact .release hne hl
  | number => exact .number

theorem of_extend (h : (k.extend c more).Does c d k') :
    ∃ j, k.Does c d j ∧ k' = j.extend c more := by
  cases h with
  | event ha hs hp hnew hexpire =>
    obtain ⟨s, p, hs', rfl, rfl⟩ := hs.of_extend hnew hexpire hcommit
    rw [Stage.call?_extendAt] at hnew
    refine ⟨_, .event (admits_extend.mp ha) hs' (fun b hb => ?_) hnew hexpire, enter_extend.symm⟩
    exact going_extend_eq_none.mp (hp b (Stage.call?_extendAt.trans hb))
  | @advance b p s p' hb hcall hne ha =>
    have hc : p.call? ≠ some c := fun h => hne (Option.some.inj (hcall.symm.trans h))
    obtain ⟨t, ha', rfl⟩ := ha.of_extend_ne hc
    exact ⟨_, .advance ((going_extend_ne hne).symm.trans hb) hcall hne ha',
      (follow_extend_ne hne).symm⟩
  | release hne hl => exact ⟨_, .release hne hl, rfl⟩
  | number => exact ⟨_, .number, rfl⟩

end Does

end Crowd

/-- The locks that are needed to lock a list of entities one after the other. -/
def Granularity.needsInTurn (g : Granularity) (needs : List Need) : List Need :=
  needs.flatMap fun n => g.needs n.entity n.mode

/-! ### A caller -/

/-- What a call returns at a stage, if it returns there. -/
def Stage.outcome? : Stage → Option Outcome
  | concluded response => response.outcome?
  | _ => none

@[simp] theorem Stage.outcome?_extend {p : Stage} {more : List Need} :
    (p.extend more).outcome? = p.outcome? := by
  cases p <;> rfl

/-- A crowd with somebody in it who locks entities on behalf of a transaction. -/
structure Caller where
  crowd : Crowd
  /-- What it is going to lock by its next calls. -/
  left : List Need
  /-- What it has been answered with in the end. -/
  answer : Option Outcome := none

namespace Caller

open Locking.System

/-- What may happen next, as far as a caller is concerned that makes calls of number `c` for
transaction `r`, one at a time.  Until it has been answered nobody else changes the state of its
transaction. -/
inductive Step (c : CallId) (r : TransactionRef) : Caller → Option Deed → Caller → Prop
  | others {k left answer d k'} (h : k.Does c d k')
      (hr : answer = none → (k'.system.transactionAt r).state = (k.system.transactionAt r).state) :
    Step c r ⟨k, left, answer⟩ (some d) ⟨k', left, answer⟩
  /-- Its call advances.  A call that has got all its locks concludes if it is the last one. -/
  | advance {k left p s p'} (hc : k.going c = some p) (ha : Advance k.system p s p')
      (hlast : ∀ d, p = .taking c r d [] → left = []) :
    Step c r ⟨k, left, none⟩ none ⟨k.follow c s p', left, p'.outcome?⟩
  /-- Its call has got all its locks and is followed by the next one. -/
  | next {k n left d} (hc : k.going c = some (.taking c r d []))
      (hr : (k.system.transactionAt r).refusal? = none) :
    Step c r ⟨k, n :: left, none⟩ none ⟨k.follow c k.system (.taking c r k.system.lockDeadline
      (k.system.granularity.needs n.entity n.mode)), left, none⟩
  /-- The next call is refused. -/
  | refused {k n left d error} (hc : k.going c = some (.taking c r d []))
      (hr : (k.system.transactionAt r).refusal? = some error) :
    Step c r ⟨k, n :: left, none⟩ none
      ⟨k.follow c k.system (.concluded (.returned (.failed error))), n :: left,
        some (.failed error)⟩

/-- What a caller comes to, against some deeds of the others. -/
inductive Runs (c : CallId) (r : TransactionRef) : Caller → List Deed → Caller → Prop
  | refl {x} : Runs c r x [] x
  | step {x deeds y d z} (h : Runs c r x deeds y) (hs : Step c r y d z) :
    Runs c r x (deeds ++ d.toList) z

variable {c : CallId} {r : TransactionRef} {x y z : Caller} {k : Crowd} {d : Option Deed}
  {deeds later : List Deed} {g : Granularity}

theorem Runs.trans (h : Runs c r x deeds y) (h' : Runs c r y later z) :
    Runs c r x (deeds ++ later) z := by
  induction h' with
  | refl => rwa [List.append_nil]
  | step _ hs ih =>
    rw [← List.append_assoc]
    exact .step ih hs

theorem Runs.single (hs : Step c r x d y) : Runs c r x d.toList y := .step .refl hs

/-! ### What is known of a caller -/

end Caller

/-- A lock call of an active transaction waits for ever.  Only its failure changes the state. -/
def Stage.Patient (r : TransactionRef) (state : State) : Stage → Prop
  | taking _ q d _ => q = r ∧ d = .never ∧ state = .active
  | looking _ q _ _ d goal _ | granted _ q d goal _ =>
    q = r ∧ d = .never ∧ state = .active ∧ goal ≠ .single
  | failed _ _ goal _ => goal ≠ .single
  | undoing _ _ _ cause _ => ∃ error, cause = .failure error
  | deciding .. | preparing .. | committing .. | concluded _ => False

/-- A lock call in progress of an active transaction that waits for ever, or one that has failed. -/
def Call.Patient (r : TransactionRef) (state : State) (k : Call) : Prop :=
  match k.point with
  | .waiting _ d goal => k.transaction = r ∧ d = .never ∧ state = .active ∧ goal ≠ .single
  | .rollingBack _ _ cause => ∃ error, cause = .failure error
  | .preparing .. | .committing .. => False

theorem Call.Patient.commits {r : TransactionRef} {state : State} {k : Call}
    (h : k.Patient r state) : k.point.commits = false := by
  obtain ⟨q, access, point⟩ := k
  cases point with
  | preparing | committing => exact h.elim
  | _ => rfl

namespace System

variable {s s' : System} {p p' : Stage} {e : Event} {r : TransactionRef} {c : CallId}

theorem lockDeadline_of_timeless (h : s.lockWaitTimeout = none) : s.lockDeadline = .never := by
  rw [lockDeadline, h]

/-- A call that waits for ever goes on doing so, until it fails. -/
theorem Advance.patient (ha : Advance s p s' p') (hp : p.Patient r (s.transactionAt r).state)
    (hcall : p.call? = some c) (hk : s.calls[c]? = none) :
    (p'.call? ≠ none → p'.Patient r (s'.transactionAt r).state) ∧
      ∀ k, s'.calls[c]? = some k → k.Patient r (s'.transactionAt r).state := by
  have hgone : ∀ {Q : Call → Prop}, s'.calls = s.calls → ∀ k, s'.calls[c]? = some k → Q k := by
    intro Q h k hk'
    rw [h, hk] at hk'
    exact absurd hk' (by simp)
  cases ha with
  | done => exact ⟨fun h => absurd rfl h, hgone rfl⟩
  | refuse => exact ⟨fun _ => by simp [Stage.Patient], hgone rfl⟩
  | covered => exact ⟨fun _ => ⟨hp.1, hp.2.1, hp.2.2, by simp⟩, hgone rfl⟩
  | ask =>
    exact ⟨fun _ => ⟨hp.1, hp.2.1, state_setWaitingOn.trans hp.2.2, by simp⟩, hgone rfl⟩
  | @sleep c _ _ _ _ _ _ _ =>
    cases hcall
    refine ⟨fun h => absurd rfl h, fun k hk' => ?_⟩
    rw [calls_suspend, if_pos rfl] at hk'
    cases hk'
    exact hp
  | grant =>
    exact ⟨fun _ => ⟨hp.1, hp.2.1, state_setWaitingOn.trans hp.2.2.1, hp.2.2.2⟩, hgone rfl⟩
  | fail => exact ⟨fun _ => hp.2.2.2, hgone rfl⟩
  | grantedSingle => exact absurd rfl hp.2.2.2
  | @keep b q d a rest w =>
    have hsame := view_modifyTransaction (s := s) (r := q) (q := r) Transaction.state
      (f := fun t => { t with lockSet := t.lockSet.insert a }) fun _ => rfl
    exact ⟨fun _ => ⟨hp.1, hp.2.1, hsame.trans hp.2.2.1⟩, hgone rfl⟩
  | giveBack => exact ⟨fun _ => hp.2.2.2, hgone rfl⟩
  | failedSingle => exact absurd rfl hp
  | abort => exact ⟨fun _ => ⟨_, rfl⟩, hgone rfl⟩
  | abortEnded => exact ⟨fun h => absurd rfl h, hgone rfl⟩
  | undo =>
    cases hcall
    refine ⟨fun h => absurd rfl h, fun k hk' => ?_⟩
    rw [calls_suspend, if_pos rfl] at hk'
    cases hk'
    exact hp
  | undone => exact ⟨fun h => absurd rfl h, hgone (calls_retire _ _).1⟩
  | removed =>
    exact ⟨fun h => absurd rfl h, hgone ((calls_alert _ _).1.trans (calls_retire _ _).1)⟩
  | beginPhased | beginAtOnce | prepare | prepared | commit | committed => exact hp.elim

/-- Only the last advance of a call that has got all its locks returns success. -/
theorem Advance.of_ok {v : Value} (ha : Advance s p s' p')
    (hp : p.Patient r (s.transactionAt r).state) (hok : p'.outcome? = some (.ok v)) :
    ∃ b d, p = .taking b r d [] := by
  cases ha with
  | @done b q d =>
    obtain ⟨rfl, -, -⟩ := hp
    exact ⟨b, d, rfl⟩
  | grantedSingle => exact absurd rfl hp.2.2.2
  | undone =>
    obtain ⟨error, rfl⟩ := hp
    exact absurd hok (by simp [Stage.outcome?, Response.outcome?, Cause.outcome])
  | removed =>
    obtain ⟨error, h⟩ := hp
    exact absurd h (by simp)
  | prepare | prepared | commit | committed => exact hp.elim
  | _ => exact absurd hok (by simp [Stage.outcome?, Response.outcome?])

theorem Advance.calls_of_call (ha : Advance s p s' p') (hp : p'.call? ≠ none) :
    s'.calls = s.calls := by
  cases ha.keeps with
  | nothing hcalls => exact hcalls
  | call _ _ _ _ _ hnone => exact absurd hnone.1 hp

theorem Advance.calls_of_outcome (ha : Advance s p s' p') (hp : p'.outcome? ≠ none) :
    s'.calls = s.calls := by
  cases ha with
  | undone | committed => exact (calls_retire _ _).1
  | removed => exact (calls_alert _ _).1.trans (calls_retire _ _).1
  | done | grantedSingle | failedSingle | abortEnded => rfl
  | _ => exact absurd rfl hp

/-- A call that is let go on goes on waiting for ever. -/
theorem Resumption.patient (hs : s.Resumption c e s' p)
    (hk : ∀ k, s.calls[c]? = some k → k.Patient r (s.transactionAt r).state) :
    (s' = s ∧ p.call? = none) ∨ s.calls[c]? ≠ none ∧ p.call? = some c ∧
      p.Patient r (s.transactionAt r).state ∧ s'.calls[c]? = none := by
  have hdismissed : (s.dismiss c).calls[c]? = none := by rw [calls_dismiss, if_pos rfl]
  cases hs with
  | quiet => exact .inl ⟨rfl, rfl⟩
  | wake hk' => exact .inr ⟨by simp [hk'], rfl, hk _ hk', hdismissed⟩
  | rolledBack hk' => exact .inr ⟨by simp [hk'], rfl, hk _ hk', hdismissed⟩

end System

namespace Caller

open Locking.System

variable {c : CallId} {r : TransactionRef} {x y z : Caller} {k k' : Crowd} {d : Option Deed}
  {deeds : List Deed} {g : Granularity}

/-- What is known of a caller whose calls wait for ever. -/
structure Ready (c : CallId) (r : TransactionRef) (g : Granularity) (x : Caller) : Prop where
  timeless : x.crowd.system.lockWaitTimeout = none
  granularity : x.crowd.system.granularity = g
  going : ∀ p, x.crowd.going c = some p → p.call? = some c ∧
    p.Patient r (x.crowd.system.transactionAt r).state ∧ x.crowd.system.calls[c]? = none
  resting : ∀ j, x.crowd.system.calls[c]? = some j →
    j.Patient r (x.crowd.system.transactionAt r).state
  answered : x.answer ≠ none → x.crowd.going c = none ∧ x.crowd.system.calls[c]? = none
  succeeded : ∀ v, x.answer = some (.ok v) → x.left = []

namespace Ready

theorem commits (h : Ready c r g x) (j : Call) (hj : x.crowd.system.calls[c]? = some j) :
    j.point.commits = false := (h.resting j hj).commits

/-- The others leave the call of the caller alone, or they let it go on. -/
theorem does (h : Ready c r g x) {deed : Deed} (hd : x.crowd.Does c deed k') :
    k'.going c = x.crowd.going c ∧ k'.system.calls[c]? = x.crowd.system.calls[c]? ∨
      ∃ p, x.crowd.system.calls[c]? ≠ none ∧ k'.going c = some p ∧ p.call? = some c ∧
        p.Patient r (x.crowd.system.transactionAt r).state ∧ k'.system.calls[c]? = none := by
  cases hd with
  | @event e s p _ hs _ hnew hexpire =>
    cases he : e.resumes c with
    | false =>
      have hc : p.call? ≠ some c := fun hc => by simp [hnew hc] at he
      exact .inl ⟨if_neg hc, (hs.put he hc rfl).2⟩
    | true =>
      obtain ⟨rfl, hp⟩ | ⟨hk, hp, hpatient, hnone⟩ :=
        (hs.resumption he hexpire h.commits).patient h.resting
      · exact .inl ⟨if_neg (by simp [hp]), rfl⟩
      · exact .inr ⟨p, hk, if_pos hp, hp, hpatient, hnone⟩
  | @advance b p s p' hb hcall hne ha =>
    have hc : p.call? ≠ some c := fun hc => hne (Option.some.inj (hcall.symm.trans hc))
    exact .inl ⟨if_neg hne.symm, ha.calls_aside hc⟩
  | release | number => exact .inl ⟨rfl, rfl⟩

theorem others (h : Ready c r g x) {deed : Deed} (hd : x.crowd.Does c deed k')
    (hr : x.answer = none →
      (k'.system.transactionAt r).state = (x.crowd.system.transactionAt r).state) :
    Ready c r g ⟨k', x.left, x.answer⟩ := by
  have hsettings : k'.system.settings = x.crowd.system.settings := hd.settings
  have hstate : x.crowd.going c ≠ none ∨ x.crowd.system.calls[c]? ≠ none →
      (k'.system.transactionAt r).state = (x.crowd.system.transactionAt r).state := by
    intro hbusy
    refine hr (not_not.mp fun hans => ?_)
    obtain ⟨hgoing, hcall⟩ := h.answered hans
    exact hbusy.elim (· hgoing) (· hcall)
  have hdoes := h.does hd
  refine ⟨(congrArg (·.2.2) hsettings).trans h.timeless,
    (congrArg (·.1) hsettings).trans h.granularity, fun p hp => ?_, fun j hj => ?_,
    fun hans => ?_, h.succeeded⟩
  · obtain ⟨hgoing, hcall⟩ | ⟨q, hbusy, hgoing, hq, hpatient, hcall⟩ := hdoes
    · have hp : x.crowd.going c = some p := hgoing.symm.trans hp
      obtain ⟨hp', hpatient, hnone⟩ := h.going p hp
      exact ⟨hp', by rwa [hstate (.inl (by simp [hp]))], hcall.trans hnone⟩
    · obtain rfl : q = p := Option.some.inj (hgoing.symm.trans hp)
      exact ⟨hq, by rwa [hstate (.inr hbusy)], hcall⟩
  · obtain ⟨-, hcall⟩ | ⟨-, -, -, -, -, hcall⟩ := hdoes
    · have hj : x.crowd.system.calls[c]? = some j := hcall.symm.trans hj
      rw [hstate (.inr (by simp [hj]))]
      exact h.resting j hj
    · exact absurd (hcall.symm.trans hj) (by simp)
  · obtain ⟨hgoing, hcall⟩ := h.answered hans
    obtain ⟨hgoing', hcall'⟩ | ⟨q, hbusy, -⟩ := hdoes
    · exact ⟨hgoing'.trans hgoing, hcall'.trans hcall⟩
    · exact absurd hcall hbusy

theorem advance {p p' : Stage} {s : System} (h : Ready c r g x) (hc : x.crowd.going c = some p)
    (ha : Advance x.crowd.system p s p') (hlast : ∀ d, p = .taking c r d [] → x.left = []) :
    Ready c r g ⟨x.crowd.follow c s p', x.left, p'.outcome?⟩ := by
  obtain ⟨hp, hpatient, hnone⟩ := h.going p hc
  have hsettings : s.settings = x.crowd.system.settings := ha.settings
  obtain ⟨hgoing, hresting⟩ := ha.patient hpatient hp hnone
  refine ⟨(congrArg (·.2.2) hsettings).trans h.timeless,
    (congrArg (·.1) hsettings).trans h.granularity, fun q hq => ?_, hresting, fun hans => ?_,
    fun v hv => ?_⟩
  · obtain ⟨-, hp', rfl⟩ | ⟨hne, -⟩ := Crowd.going_follow.mp hq
    · refine ⟨(ha.call?_eq.resolve_right hp').trans hp, hgoing hp', ?_⟩
      show s.calls[c]? = none
      rw [ha.calls_of_call hp', hnone]
    · exact absurd rfl hne
  · have hp' : p'.call? = none := by
      cases p' with
      | concluded => rfl
      | _ => exact absurd rfl hans
    have hgone : (x.crowd.follow c s p').going c = p'.call?.map fun _ => p' := if_pos rfl
    refine ⟨by rw [hgone, hp', Option.map_none], ?_⟩
    show s.calls[c]? = none
    rw [ha.calls_of_outcome hans, hnone]
  · obtain ⟨b, d, rfl⟩ := ha.of_ok hpatient hv
    obtain rfl : b = c := Option.some.inj hp
    exact hlast d rfl

theorem next {n : Need} {left : List Need} {d : Deadline} (h : Ready c r g ⟨k, n :: left, none⟩)
    (hc : k.going c = some (.taking c r d [])) (needs : List Need) :
    Ready c r g
      ⟨k.follow c k.system (.taking c r k.system.lockDeadline needs), left, none⟩ := by
  obtain ⟨-, ⟨-, -, hs⟩, hnone⟩ := h.going _ hc
  have hd : k.system.lockDeadline = .never := lockDeadline_of_timeless h.timeless
  refine ⟨h.timeless, h.granularity, fun p hp => ?_, h.resting, by simp, by simp⟩
  obtain ⟨-, -, rfl⟩ | ⟨hne, -⟩ := Crowd.going_follow.mp hp
  · exact ⟨rfl, ⟨rfl, hd, hs⟩, hnone⟩
  · exact absurd rfl hne

/-- A caller that has still to ask for something is not refused. -/
theorem refusal?_eq_none {d : Deadline} (h : Ready c r g x)
    (hc : x.crowd.going c = some (.taking c r d [])) :
    (x.crowd.system.transactionAt r).refusal? = none := by
  obtain ⟨-, ⟨-, -, hs⟩, -⟩ := h.going _ hc
  rw [Transaction.refusal?, hs]

theorem step (h : Ready c r g x) (hs : Step c r x d y) : Ready c r g y := by
  cases hs with
  | others hd hr => exact h.others hd hr
  | advance hc ha hlast => exact h.advance hc ha hlast
  | next hc => exact h.next hc _
  | refused hc hr =>
    rw [h.refusal?_eq_none hc] at hr
    exact absurd hr (by simp)

theorem runs (h : Ready c r g x) (hr : Runs c r x deeds y) : Ready c r g y := by
  induction hr with
  | refl => exact h
  | step _ hs ih => exact ih.step hs

end Ready

/-! ### One call instead of many -/

/-- The caller that adds to its call all that it is going to lock by later ones. -/
def merge (c : CallId) (g : Granularity) (x : Caller) : Caller :=
  ⟨x.crowd.extend c (g.needsInTurn x.left), [], x.answer⟩

/-- To make the next call is to do nothing if it has been added already. -/
theorem Ready.merge_next {n : Need} {left : List Need} {d : Deadline}
    (h : Ready c r g ⟨k, n :: left, none⟩) (hc : k.going c = some (.taking c r d [])) :
    merge c g ⟨k.follow c k.system (.taking c r k.system.lockDeadline
      (k.system.granularity.needs n.entity n.mode)), left, none⟩ =
        merge c g ⟨k, n :: left, none⟩ := by
  obtain ⟨hp, ⟨-, rfl, -⟩, hnone⟩ := h.going _ hc
  have hg : k.system.granularity = g := h.granularity
  have hnow : k.extend c (g.needsInTurn (n :: left)) =
      k.follow c k.system (.taking c r .never (g.needsInTurn (n :: left))) := by
    conv_lhs => rw [← Crowd.follow_of_going hc hp]
    exact Crowd.follow_extend hnone
  rw [merge, merge, Crowd.follow_extend hnone, hnow, lockDeadline_of_timeless h.timeless, hg]
  rfl

/-- A call to which nothing is left to take has been extended by nothing, if it is the last one. -/
theorem Ready.needsInTurn_eq_nil {p : Stage} (h : Ready c r g x) (hc : x.crowd.going c = some p)
    (hlast : ∀ d, p = .taking c r d [] → x.left = []) (q : TransactionRef) (d : Deadline)
    (hp : p = .taking c q d []) : g.needsInTurn x.left = [] := by
  subst hp
  obtain ⟨-, ⟨rfl, -, -⟩, -⟩ := h.going _ hc
  rw [hlast d rfl]
  rfl

/-- An advance of the call is one of the call with more locks to take, unless another call is to be
made before. -/
theorem Ready.merge_advance {p p' : Stage} {s : System} (h : Ready c r g x) (hx : x.answer = none)
    (hc : x.crowd.going c = some p) (ha : Advance x.crowd.system p s p')
    (hlast : ∀ d, p = .taking c r d [] → x.left = []) :
    Step c r (x.merge c g) none (merge c g ⟨x.crowd.follow c s p', x.left, p'.outcome?⟩) := by
  obtain ⟨hp, -, hnone⟩ := h.going p hc
  have ha' := ha.extend hp hnone (h.needsInTurn_eq_nil hc hlast)
  have hc' : (x.crowd.extend c (g.needsInTurn x.left)).going c =
      some (p.extend (g.needsInTurn x.left)) := by
    rw [Crowd.going_extend_self, hc, Option.map_some]
  have hsame : (x.crowd.extend c (g.needsInTurn x.left)).system = x.crowd.system :=
    extend_of_none hnone
  rw [← hsame] at ha'
  have hstep : Step c r ⟨x.crowd.extend c (g.needsInTurn x.left), [], none⟩ none _ :=
    .advance hc' ha' fun _ _ => rfl
  rw [← Crowd.follow_extend_self, Stage.outcome?_extend] at hstep
  rw [merge, merge, hx]
  exact hstep

/-- What a caller does is done by the one with all in one call, too, unless it is the next call. -/
theorem Ready.merge_step (h : Ready c r g x) (hs : Step c r x d y) :
    Step c r (x.merge c g) d (y.merge c g) ∨ d = none ∧ y.merge c g = x.merge c g := by
  cases hs with
  | others hd hr => exact .inl (.others (hd.extend h.commits) hr)
  | advance hc ha hlast => exact .inl (h.merge_advance rfl hc ha hlast)
  | next hc => exact .inr ⟨rfl, h.merge_next hc⟩
  | refused hc hr =>
    rw [h.refusal?_eq_none hc] at hr
    exact absurd hr (by simp)

theorem Ready.merge_runs (h : Ready c r g x) (hr : Runs c r x deeds y) :
    Runs c r (x.merge c g) deeds (y.merge c g) := by
  induction hr with
  | refl => exact .refl
  | step hr hs ih =>
    obtain hstep | ⟨rfl, hsame⟩ := (h.runs hr).merge_step hs
    · exact .step ih hstep
    · rw [hsame]
      simpa using ih

/-- An advance of the call with more locks to take is one of the call. -/
theorem Ready.of_merge_advance {p q : Stage} {t : System} (h : Ready c r g x) (hx : x.answer = none)
    (hc : x.crowd.going c = some p)
    (ha : Advance x.crowd.system (p.extend (g.needsInTurn x.left)) t q)
    (hlast : ∀ d, p = .taking c r d [] → x.left = []) :
    ∃ y, Step c r x none y ∧
      (⟨(x.crowd.extend c (g.needsInTurn x.left)).follow c t q, [], q.outcome?⟩ : Caller) =
        y.merge c g := by
  obtain ⟨hp, -, hnone⟩ := h.going p hc
  obtain ⟨s, p', ha', rfl, rfl⟩ := ha.of_extend hp hnone (h.needsInTurn_eq_nil hc hlast)
  obtain ⟨k, left, answer⟩ := x
  obtain rfl : answer = none := hx
  refine ⟨_, .advance hc ha' hlast, ?_⟩
  rw [merge, Crowd.follow_extend_self, Stage.outcome?_extend]

/-- If another call is to be made first, the call with more locks to take advances as that one. -/
theorem Ready.of_merge_next {n : Need} {left : List Need} {d : Deadline} {q : Stage} {t : System}
    (h : Ready c r g ⟨k, n :: left, none⟩) (hc : k.going c = some (.taking c r d []))
    (ha : Advance k.system (.taking c r d (g.needsInTurn (n :: left))) t q) :
    ∃ y, Runs c r ⟨k, n :: left, none⟩ [] y ∧
      (⟨(k.extend c (g.needsInTurn (n :: left))).follow c t q, [], q.outcome?⟩ : Caller) =
        y.merge c g := by
  obtain ⟨-, ⟨-, hd, -⟩, -⟩ := h.going _ hc
  have hg : k.system.granularity = g := h.granularity
  have hdeadline : d = k.system.lockDeadline := hd.trans (lockDeadline_of_timeless h.timeless).symm
  have hneeds : k.system.granularity.needs n.entity n.mode ≠ [] := by simp [Granularity.needs]
  have hnext : Step c r ⟨k, n :: left, none⟩ none _ := .next hc (h.refusal?_eq_none hc)
  have hsame := congrArg Caller.crowd (h.merge_next hc)
  obtain ⟨y, hy, hmerge⟩ := (h.step hnext).of_merge_advance rfl (if_pos rfl) (by
    rw [hdeadline, Granularity.needsInTurn, List.flatMap_cons, ← hg] at ha
    rw [← hg]
    exact ha) fun d' hp => absurd hp (by simp [hneeds])
  refine ⟨y, (Runs.single hnext).trans (.single hy), ?_⟩
  rw [← hmerge]
  exact congrArg (fun j : Crowd => (⟨j.follow c t q, [], q.outcome?⟩ : Caller)) hsame.symm

/-- What the caller with all in one call does is done by the other one, which makes its next call
first if that is due. -/
theorem Ready.of_merge_step (h : Ready c r g x) (hs : Step c r (x.merge c g) d z) :
    ∃ y, Runs c r x d.toList y ∧ z = y.merge c g := by
  obtain ⟨k, left, answer⟩ := x
  generalize hm : merge c g ⟨k, left, answer⟩ = m at hs
  cases hs with
  | others hd hr =>
    cases hm
    obtain ⟨k', hd', rfl⟩ := hd.of_extend h.commits
    exact ⟨⟨k', left, answer⟩, .single (.others hd' hr), rfl⟩
  | @advance _ _ q t q' hc ha =>
    cases hm
    rw [Crowd.going_extend_self] at hc
    obtain ⟨p, hp, rfl⟩ := Option.map_eq_some_iff.mp hc
    obtain ⟨-, -, hnone⟩ := h.going p hp
    rw [show (k.extend c (g.needsInTurn left)).system = k.system from extend_of_none hnone] at ha
    by_cases hlast : ∀ d, p = .taking c r d [] → left = []
    · obtain ⟨y, hy, hmerge⟩ := h.of_merge_advance rfl hp ha hlast
      exact ⟨y, .single hy, hmerge⟩
    · simp only [not_forall] at hlast
      obtain ⟨d, rfl, hleft⟩ := hlast
      obtain ⟨n, left, rfl⟩ := List.exists_cons_of_ne_nil hleft
      obtain ⟨y, hy, hmerge⟩ := h.of_merge_next hp ha
      exact ⟨y, hy, hmerge⟩
  | next | refused => exact absurd (congrArg Caller.left hm) (by simp [merge])

theorem Ready.of_merge_runs {m : Caller} (h : Ready c r g x) (hm : m = x.merge c g)
    (hr : Runs c r m deeds z) : ∃ y, Runs c r x deeds y ∧ z = y.merge c g := by
  induction hr with
  | refl => exact ⟨x, .refl, hm⟩
  | step _ hs ih =>
    obtain ⟨y, hy, rfl⟩ := ih
    obtain ⟨z, hz, rfl⟩ := (h.runs hy).of_merge_step hs
    exact ⟨z, hy.trans hz, rfl⟩

/-! ### Callers that begin -/

/-- A caller that is about to make calls of `lock`, one for each entity. -/
def oneByOne (k : Crowd) (c : CallId) (r : TransactionRef) (needs : List Need) : Caller :=
  ⟨k.follow c k.system (.taking c r k.system.lockDeadline []), needs, none⟩

/-- A caller that makes one call of `lockAll`. -/
def atOnce (k : Crowd) (c : CallId) (r : TransactionRef) (requests : List Need) : Caller :=
  ⟨k.follow c k.system (.taking c r k.system.lockDeadline
    (k.system.granularity.needsOfAll requests)), [], none⟩

theorem Ready.oneByOne (ht : k.system.lockWaitTimeout = none) (hk : k.system.calls[c]? = none)
    (hs : (k.system.transactionAt r).state = .active) (needs : List Need) :
    Ready c r k.system.granularity (oneByOne k c r needs) := by
  have hd : k.system.lockDeadline = .never := lockDeadline_of_timeless ht
  refine ⟨ht, rfl, fun p hp => ?_, fun j hj => ?_, fun h => absurd rfl h, by simp [Caller.oneByOne]⟩
  · obtain ⟨-, -, rfl⟩ | ⟨hne, -⟩ := Crowd.going_follow.mp hp
    · exact ⟨rfl, ⟨rfl, hd, hs⟩, hk⟩
    · exact absurd rfl hne
  · exact absurd (hk.symm.trans hj) (by simp)

/-- All calls of `lock` added to the first one are a call that takes the same locks. -/
theorem merge_oneByOne (hk : k.system.calls[c]? = none) (needs : List Need) :
    merge c g (oneByOne k c r needs) =
      ⟨k.follow c k.system (.taking c r k.system.lockDeadline (g.needsInTurn needs)),
        [], none⟩ := by
  rw [merge, oneByOne, Crowd.follow_extend hk]
  rfl

/-- When a caller has been answered, nothing is left that could have been added to a call. -/
theorem Ready.merge_answered {left : List Need} {answer : Outcome}
    (h : Ready c r g ⟨k, left, some answer⟩) : merge c g ⟨k, left, some answer⟩ =
      ⟨k, [], some answer⟩ := by
  obtain ⟨hgoing, hcall⟩ := h.answered (by simp)
  rw [merge, Crowd.extend_of_free hgoing hcall]

/-! ### Callers that nobody disturbs -/

theorem follow_still {s : System} {p : Stage} (hc : p.call? = some c) :
    (Crowd.still s).follow c s p = Crowd.alone s p := by
  simp only [Crowd.follow, Crowd.still, Crowd.alone, Crowd.mk.injEq, true_and]
  funext b
  by_cases hb : b = c
  · simp [hb, hc]
  · simp [hc, hb, Ne.symm hb]

/-- A call that goes on alone does so until it has returned, fallen asleep or called a store. -/
theorem Runs.advances {s : System} {p : Stage} {result : System × Response}
    (ha : Advances s p result) (hc : p.call? = some c) :
    Runs c r ⟨Crowd.alone s p, [], none⟩ [] ⟨Crowd.still result.1, [], result.2.outcome?⟩ := by
  induction ha with
  | concluded => exact absurd hc (by simp [Stage.call?])
  | @step s p s' p' result ha hrest ih =>
    have hstep : Step c r ⟨Crowd.alone s p, [], none⟩ none
        ⟨Crowd.alone s' p', [], p'.outcome?⟩ := by
      rw [← Crowd.follow_alone hc ha.call?_eq]
      exact .advance (if_pos hc) ha fun _ _ => rfl
    rcases ha.call?_eq with hcall | hcall
    · have hp' := hcall.trans hc
      have hnone : p'.outcome? = none := by
        cases p' with
        | concluded => exact absurd hp' (by simp [Stage.call?])
        | _ => rfl
      rw [hnone] at hstep
      exact (Runs.single hstep).trans (ih hp')
    · cases hrest with
      | concluded => exact .single hstep
      | step ha' =>
        obtain ⟨b, hb⟩ := ha'.exists_call
        exact absurd (hcall.symm.trans hb) (by simp)

/-- Undisturbed, a caller that locks a set of entities does what `lockAll` does. -/
theorem Runs.lockAll {s : System} (hk : s.calls[c]? = none)
    (hs : (s.transactionAt r).state = .active) (requests : List Need) :
    Runs c r (atOnce (.still s) c r requests) []
      ⟨.still (s.lockAll c r requests).1, [], (s.lockAll c r requests).2.outcome?⟩ := by
  have hcourse := taking_course c r s.lockDeadline (s.granularity.needsOfAll requests) s
  rw [dismiss_of_none hk] at hcourse
  have hrun := Runs.advances (r := r) hcourse rfl
  rw [← follow_still rfl] at hrun
  rw [System.lockAll, Transaction.refusal?, hs]
  exact hrun

/-- Undisturbed, a caller that locks one entity does what `lock` does. -/
theorem Runs.lock {s : System} (hk : s.calls[c]? = none)
    (hs : (s.transactionAt r).state = .active) (n : Need) :
    Runs c r (oneByOne (.still s) c r [n]) [] ⟨.still (s.lock c r n.entity n.mode).1, [],
      (s.lock c r n.entity n.mode).2.outcome?⟩ := by
  have hcourse := taking_course c r s.lockDeadline (s.granularity.needs n.entity n.mode) s
  rw [dismiss_of_none hk] at hcourse
  have hrun := Runs.advances (r := r) hcourse rfl
  have hrefusal : (s.transactionAt r).refusal? = none := by rw [Transaction.refusal?, hs]
  have hnext : Step c r (oneByOne (.still s) c r [n]) none _ := .next (if_pos rfl) hrefusal
  rw [← follow_still rfl] at hrun
  rw [oneByOne, Crowd.follow_follow] at hnext
  rw [System.lock, hrefusal]
  exact (Runs.single hnext).trans hrun

/-- The event that calls `lockAll` is such a caller. -/
theorem Runs.asks {s : System} (ht : s.Tidy) (hc : s.nextCall = c) (ha : s.admits r .shared = true)
    (hs : (s.transactionAt r).state = .active) (requests : List Need) :
    Runs c r (atOnce (.still s) c r requests) [] ⟨.still (s.step (.lockAll r requests)).1, [],
      (s.step (.lockAll r requests)).2.outcome?⟩ := by
  subst hc
  have hstep : s.step (.lockAll r requests) = s.lockAll s.nextCall r requests := if_pos ha
  have hk : s.calls[s.nextCall]? = none := by
    have hnone : (s.dismiss s.nextCall).calls[s.nextCall]? = none := by
      rw [calls_dismiss, if_pos rfl]
    rwa [ht.dismiss_nextCall] at hnone
  rw [hstep]
  exact .lockAll hk hs requests

/-- Nothing else goes on while an event comes to its end at once. -/
theorem Runs.event {s s' : System} {e : Event} {response : Response} {left : List Need}
    (hs : Start s e s' (.concluded response)) (hexpire : e ≠ .expire c)
    (hr : (s'.transactionAt r).state = (s.transactionAt r).state) :
    Runs c r ⟨.still s, left, none⟩ [.event e] ⟨.still s', left, none⟩ := by
  have hdoes : (Crowd.still s).Does c (.event e) _ :=
    .event (fun _ _ _ _ _ _ hc => absurd hc (by simp [Crowd.still])) hs
      (by simp [Stage.call?]) (by simp [Stage.call?]) hexpire
  rw [Crowd.enter_concluded] at hdoes
  exact .single (.others hdoes fun _ => hr)

theorem Runs.unlocks {s : System} {q : TransactionRef} {left : List Need}
    (ha : s.admits q .shared = true)
    (hr : ((s.step (.unlockAll q)).1.transactionAt r).state = (s.transactionAt r).state) :
    Runs c r ⟨.still s, left, none⟩ [.event (.unlockAll q)]
      ⟨.still (s.step (.unlockAll q)).1, left, none⟩ := by
  have hstep : s.step (.unlockAll q) = (s.releaseAll q, .returned (.ok .unit)) := if_pos ha
  rw [hstep] at hr ⊢
  exact .event (.unlockAll ha) (by simp) hr

/-- A caller whose call sleeps in a crowd in which nothing goes on is woken up. -/
theorem Runs.wakes {s : System} {q : TransactionRef} {name : LockName} {d : Deadline} {goal : Goal}
    {w : Waiter} (ht : s.Tidy) (hk : s.calls[c]? = some ⟨q, .shared, .waiting name d goal⟩)
    (hw : (s.lockAt name).waiter? c = some w) :
    Runs c r ⟨.still s, [], none⟩ [.event (.wake c)]
      ⟨.still (s.step (.wake c)).1, [], (s.step (.wake c)).2.outcome?⟩ := by
  have hdoes : (Crowd.still s).Does c (.event (.wake c)) _ :=
    .event (fun _ _ he => absurd he (by simp [Event.use?])) (.wake hk hw) (fun _ _ => rfl)
      (fun _ => by simp [Event.resumes]) (by simp)
  exact (Runs.single (.others hdoes fun _ => rfl)).trans (.advances (waking_course ht hk hw) rfl)

end Caller

end Locking
