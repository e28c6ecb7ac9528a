import Mathlib.Data.Fintype.Basic
import Mathlib.Data.Fintype.Defs
import Locking.Proofs.Lock.Sole

/-! Several locks that share a wait-for graph.  As long as a transaction makes no request, at
whatever lock, while another one of it is in progress, a request that fails leaves no trace: neither
at its lock, but for a hold that it had given up, nor in the graph. -/

namespace Locking

/-- Something done at a lock.  Calls of a transaction that has been interrupted are refused before
they come to the lock; whether it has been, and whether a deadline has passed, is up to the
surroundings. -/
inductive Visit where
  | acquire (c : CallId) (i : TransactionId) (mode : LockMode) (isInterrupted : Bool)
  | upgrade (c : CallId) (i : TransactionId) (isInterrupted : Bool)
  | enter (c : CallId) (isInterrupted isLate : Bool)
  | wake (c : CallId) (isInterrupted isLate : Bool)
  | release (i : TransactionId)
  | notify
deriving DecidableEq, Repr

namespace Visit

/-- The transaction that makes a request. -/
def asker? : Visit → Option TransactionId
  | acquire _ i _ _ | upgrade _ i _ => some i
  | _ => none

/-- The transaction whose request is refused at once. -/
def refused? : Visit → Option TransactionId
  | acquire _ i _ true | upgrade _ i true => some i
  | _ => none

/-- The critical section of the lock, where requests go by the wait-for graph as it is. -/
def move? (g : WaitForGraph) : Visit → Option Move
  | acquire c i mode isInterrupted => if isInterrupted then none else some (.acquire c i mode)
  | upgrade c i isInterrupted => if isInterrupted then none else some (.upgrade c i)
  | enter c isInterrupted isLate => some (.enter c isInterrupted isLate g)
  | wake c isInterrupted isLate => some (.wake c isInterrupted isLate g)
  | release i => some (.release i)
  | notify => some .notify

end Visit

/-- Locks, each with the requests on their way to it, and the wait-for graph of all of them. -/
structure Network (ι : Type) where
  traffic : ι → Traffic := fun _ => {}
  graph : WaitForGraph := {}

/-- A request that has failed.  A request that was refused at once has no kind. -/
structure Failure where
  transaction : TransactionId
  kind : Option Request
  /-- The lock as the request found it when it was evaluated for the last time. -/
  found : Lock
  error : Error

/-- What a failed request leaves of its lock and of the wait-for graph.  The lock is as it was when
the request was evaluated for the last time, but for the pending upgrade of its transaction and for
those who waited behind that, and nothing is left of the request itself. -/
structure Failure.Untraced (f : Failure) (l : Lock) (g : WaitForGraph) : Prop where
  owners : l.owners = f.found.owners
  mode : l.mode = f.found.mode
  upgraders : ∀ i ≠ f.transaction, i ∈ l.upgraders ↔ i ∈ f.found.upgraders
  withdrawn : f.transaction ∉ l.upgraders
  waits : g.waitsFor f.transaction = []
  awake : ∀ w ∈ l.waiters, w.transaction ≠ f.transaction
  parked : l.parked = l.waiters.countP (!·.isNotified)
  lost : f.kind = some .upgrade → f.transaction ∉ l.owners ∧ (l.owners = ∅ → l.mode = none) ∧
    l.waiters = f.found.waiters.map fun w => { w with isNotified := true }

namespace Network

variable {ι : Type}

/-- What a critical section of a lock leaves of the wait-for graph. -/
def graphAfter (t : Traffic) (g : WaitForGraph) (m : Move) : WaitForGraph :=
  match t.look? m with
  | some (a, l, g) => (a.run l g).2.1
  | none =>
    match m with
    | .release i => g.remove i
    | _ => g

def step [DecidableEq ι] (n : Network ι) (p : ι × Visit) : Network ι :=
  match p.2.move? n.graph with
  | none => n
  | some m =>
    { traffic := Function.update n.traffic p.1 ((n.traffic p.1).step m)
      graph := graphAfter (n.traffic p.1) n.graph m }

def run [DecidableEq ι] (n : Network ι) (visits : List (ι × Visit)) : Network ι := visits.foldl step n

/-- A transaction has a request on its way to a lock or asleep on one. -/
def Busy (n : Network ι) (i : TransactionId) : Prop :=
  ∃ k, ∃ x ∈ (n.traffic k).requests, x.transaction = i

instance [Fintype ι] (n : Network ι) (i : TransactionId) : Decidable (n.Busy i) :=
  inferInstanceAs (Decidable (∃ k, ∃ x ∈ (n.traffic k).requests, x.transaction = i))

/-- No transaction makes a request while another one of it is in progress, and nothing is released
for a transaction while a request of it is in progress. -/
def Considerate (n : Network ι) : ι × Visit → Prop
  | (_, .acquire _ i _ _) | (_, .upgrade _ i _) | (_, .release i) => ¬ n.Busy i
  | _ => True

instance [Fintype ι] (n : Network ι) : (p : ι × Visit) → Decidable (n.Considerate p)
  | (_, .acquire _ i _ _) | (_, .upgrade _ i _) | (_, .release i) =>
    inferInstanceAs (Decidable (¬ n.Busy i))
  | (_, .enter ..) | (_, .wake ..) | (_, .notify) => .isTrue trivial

/-- The request that looks at a lock, the lock as it finds it, and the graph that it goes by. -/
def look? (n : Network ι) (p : ι × Visit) : Option (Attempt × Lock × WaitForGraph) :=
  (p.2.move? n.graph).bind (n.traffic p.1).look?

/-- The request that fails at a lock. -/
def failure? (n : Network ι) (p : ι × Visit) : Option Failure :=
  match p.2.refused? with
  | some i => some ⟨i, none, (n.traffic p.1).lock, .interrupted⟩
  | none => (n.look? p).bind fun (a, l, g) =>
    match (a.judge l g).2 with
    | .failed error => some ⟨a.transaction, some a.request, l, error⟩
    | _ => none

/-- What holds of locks at which no transaction has two requests, be it at one lock or at two. -/
structure Sole (n : Network ι) : Prop where
  sole : ∀ k, (n.traffic k).Sole
  alone : ∀ k o, ∀ x ∈ (n.traffic k).requests, ∀ y ∈ (n.traffic o).requests,
    x.transaction = y.transaction → k = o
  waiting : ∀ i j, n.graph.Waits i j → ∃ k, ∃ x ∈ (n.traffic k).lock.requests, x.transaction = i

variable {k o : ι} {v : Visit} {m : Move} {i j : TransactionId} {a : Attempt} {l : Lock}
  {g : WaitForGraph} {x : Errand} {f : Failure}

/-! ### The wait-for graph after a look -/

/-- Who has not looked at the lock waits for those for whom it waited before. -/
theorem waits_of_run_ne (hne : i ≠ a.transaction) (h : (a.run l g).2.1.Waits i j) :
    g.Waits i j := by
  have hjudge := Attempt.waits_judge a l (g := g) (j := j) hne
  unfold Attempt.run at h
  split at h
  · next hj => exact hjudge.mp (by rwa [hj])
  · next hj => exact hjudge.mp (by rw [hj]; exact (Attempt.waits_leave h).1)
  · next hj => exact hjudge.mp (by rw [hj]; exact (Attempt.waits_leave h).1)

/-- Who has looked at the lock and has not fallen asleep waits for nobody. -/
theorem not_waits_of_run (hs : (a.judge l g).2 ≠ .sleeps)
    (hfirst : a.hasWaited = false → ¬ g.Waits a.transaction j) :
    ¬ (a.run l g).2.1.Waits a.transaction j := by
  have hold : ¬ (a.leave g).Waits a.transaction j := by
    intro h
    obtain ⟨hw, hne⟩ := Attempt.waits_leave h
    cases ha : a.hasWaited with
    | false => exact hfirst ha hw
    | true => exact hne ha rfl
  unfold Attempt.run
  split
  · next hj => exact absurd (by rw [hj]) hs
  · next hj =>
    obtain ⟨-, -, rfl⟩ := Attempt.judge_eq_granted_iff.mp hj
    exact hold
  · next hj =>
    intro h
    obtain ⟨hw, hne⟩ := Attempt.waits_leave h
    refine hold ?_
    unfold Attempt.leave
    split
    · next ha => exact absurd rfl (hne ha)
    · exact Attempt.waits_of_failed hj hw

/-- A request goes by the graph that the locks share. -/
theorem graph_of_look {n : Network ι} (h : v.move? n.graph = some m)
    (hl : (n.traffic k).look? m = some (a, l, g)) : g = n.graph := by
  cases v with
  | acquire | upgrade =>
    simp only [Visit.move?, Option.ite_none_left_eq_some] at h
    obtain ⟨-, heq⟩ := h
    cases heq
    exact absurd hl (by simp [Traffic.look?])
  | enter | wake =>
    cases Option.some.inj h
    obtain ⟨_, -, heq⟩ := Option.map_eq_some_iff.mp hl
    cases heq
    rfl
  | release | notify =>
    cases Option.some.inj h
    exact absurd hl (by simp [Traffic.look?])

variable {n : Network ι} {visits : List (ι × Visit)}

theorem not_busy_of_asker (hc : n.Considerate (k, v)) (h : v.move? n.graph = some m)
    (hi : m.asker? = some i) : v.asker? = some i ∧ ¬ n.Busy i := by
  cases v with
  | acquire | upgrade =>
    simp only [Visit.move?, Option.ite_none_left_eq_some] at h
    obtain ⟨-, heq⟩ := h
    cases heq
    obtain rfl := Option.some.inj hi
    exact ⟨rfl, hc⟩
  | _ =>
    cases Option.some.inj h
    exact absurd hi (by simp [Move.asker?])

theorem considerate_of_move (hc : n.Considerate (k, v)) (h : v.move? n.graph = some m) :
    (n.traffic k).Considerate m := by
  have hidle : ∀ {i}, ¬ n.Busy i → ∀ x ∈ (n.traffic k).requests, x.transaction ≠ i :=
    fun hb x hx hid => hb ⟨k, x, hx, hid⟩
  cases v with
  | acquire | upgrade =>
    simp only [Visit.move?, Option.ite_none_left_eq_some] at h
    obtain ⟨-, heq⟩ := h
    cases heq
    exact hidle hc
  | release =>
    cases Option.some.inj h
    rintro ⟨x, hx, hid, -⟩
    exact hidle hc x (List.mem_append_right _ hx) hid
  | _ =>
    cases Option.some.inj h
    trivial

/-! ### Runs -/

variable [DecidableEq ι]

theorem step_of_no_move (h : v.move? n.graph = none) : n.step (k, v) = n := by
  simp only [step, h]

theorem traffic_step_self (h : v.move? n.graph = some m) :
    (n.step (k, v)).traffic k = (n.traffic k).step m := by
  simp only [step, h, Function.update_self]

theorem traffic_step_ne (ho : o ≠ k) : (n.step (k, v)).traffic o = n.traffic o := by
  unfold step
  split
  · rfl
  · exact Function.update_of_ne ho _ _

theorem graph_step (h : v.move? n.graph = some m) :
    (n.step (k, v)).graph = graphAfter (n.traffic k) n.graph m := by
  simp only [step, h]

namespace Sole

/-- A request that is new at a lock is made by a transaction that had none, and it is an upgrade if
that transaction has the lock already. -/
theorem mem_requests_step (h : n.Sole) (hc : n.Considerate (k, v))
    (hx : x ∈ ((n.step (k, v)).traffic o).requests) : x ∈ (n.traffic o).requests ∨
      o = k ∧ v.asker? = some x.transaction ∧ ¬ n.Busy x.transaction ∧
        (x.kind ≠ .upgrade → (n.traffic k).lock.modeOf x.transaction = none) := by
  cases hm : v.move? n.graph with
  | none => exact .inl (by rwa [step_of_no_move hm] at hx)
  | some m =>
  by_cases ho : o = k
  · subst ho
    rw [traffic_step_self hm] at hx
    rcases (h.sole o).mem_requests_step hx with hx | ⟨hasker, hmode⟩
    · exact .inl hx
    · obtain ⟨hasker, hidle⟩ := not_busy_of_asker hc hm hasker
      exact .inr ⟨rfl, hasker, hidle, hmode⟩
  · rw [traffic_step_ne ho] at hx
    exact .inl hx

omit [DecidableEq ι] in
/-- A request that looks at a lock for the first time belongs to a transaction that waits for
nobody. -/
theorem first (h : n.Sole) (hl : (n.traffic k).look? m = some (a, l, g))
    (ha : a.hasWaited = false) (j : TransactionId) : ¬ n.graph.Waits a.transaction j := by
  intro hw
  have hf := (h.sole k).finds hl
  obtain ⟨o, x, hx, hid⟩ := h.waiting _ _ hw
  obtain rfl := h.alone o k x (List.mem_append_right _ hx) a.errand hf.mem hid
  exact hf.first ha x hx hid

/-- A transaction that waits is still asleep, if what was done left its requests where they were. -/
theorem waiting_of_kept (h : n.Sole) (hw : n.graph.Waits i j)
    (hk : ∀ x ∈ (n.traffic k).lock.requests, x.transaction = i →
      x ∈ ((n.step (k, v)).traffic k).lock.requests) :
    ∃ o, ∃ x ∈ ((n.step (k, v)).traffic o).lock.requests, x.transaction = i := by
  obtain ⟨o, x, hx, hid⟩ := h.waiting i j hw
  by_cases ho : o = k
  · subst ho
    exact ⟨o, x, hk x hx hid, hid⟩
  · exact ⟨o, x, by rwa [traffic_step_ne ho], hid⟩

theorem waiting_step (h : n.Sole) (hw : (n.step (k, v)).graph.Waits i j) :
    ∃ o, ∃ x ∈ ((n.step (k, v)).traffic o).lock.requests, x.transaction = i := by
  cases hm : v.move? n.graph with
  | none =>
    rw [step_of_no_move hm] at hw ⊢
    exact h.waiting i j hw
  | some m =>
  rw [graph_step hm] at hw
  cases hl : (n.traffic k).look? m with
  | none =>
    refine h.waiting_of_kept (j := j) ?_ fun x hx _ => ?_
    · simp only [graphAfter, hl] at hw
      split at hw
      · exact (WaitForGraph.waits_remove.mp hw).2.2
      · exact hw
    · rwa [traffic_step_self hm, (Traffic.step_of_no_look hl).1]
  | some look =>
    obtain ⟨a, l, g⟩ := look
    obtain rfl := graph_of_look hm hl
    simp only [graphAfter, hl] at hw
    by_cases hid : i = a.transaction
    · subst hid
      by_cases hs : (a.judge l n.graph).2 = .sleeps
      · refine ⟨k, a.errand, ?_, rfl⟩
        rw [traffic_step_self hm, Traffic.lock_of_look hl]
        exact Attempt.mem_requests_run.mpr (.inr ⟨hs, rfl⟩)
      · exact absurd hw (not_waits_of_run hs fun ha => h.first hl ha j)
    · refine h.waiting_of_kept (waits_of_run_ne hid hw) fun x hx hxi => ?_
      have hfound := (((h.sole k).finds hl).requests x).mpr ⟨hx, hxi ▸ hid⟩
      rw [traffic_step_self hm, Traffic.lock_of_look hl]
      exact Attempt.mem_requests_run.mpr (.inl hfound)

theorem step (h : n.Sole) (hc : n.Considerate (k, v)) : (n.step (k, v)).Sole := by
  have hnew := fun {o x} => h.mem_requests_step (o := o) (x := x) hc
  refine ⟨fun o => ?_, fun o o' x hx y hy hid => ?_, fun i j => h.waiting_step⟩
  · cases hm : v.move? n.graph with
    | none => simpa only [step_of_no_move hm] using h.sole o
    | some m =>
      by_cases ho : o = k
      · subst ho
        simpa only [traffic_step_self hm] using (h.sole o).step (considerate_of_move hc hm)
      · simpa only [traffic_step_ne ho] using h.sole o
  · rcases hnew hx with hx | ⟨hxk, -, hidle, -⟩ <;> rcases hnew hy with hy | ⟨hyk, -, hidle', -⟩
    · exact h.alone o o' x hx y hy hid
    · exact absurd ⟨o, x, hx, hid⟩ hidle'
    · exact absurd ⟨o', y, hy, hid.symm⟩ hidle
    · rw [hxk, hyk]

theorem run (h : n.Sole) (ho : Obeys Network.step Considerate n visits) : (n.run visits).Sole := by
  induction visits generalizing n with
  | nil => exact h
  | cons p visits ih => exact ih (h.step ho.1) ho.2

omit [DecidableEq ι] in
theorem default : Sole ({} : Network ι) :=
  ⟨fun _ => .default, fun _ _ x hx => absurd hx (by simp [Traffic.requests, Lock.requests]),
    fun i j hw => absurd hw (by simp [WaitForGraph.Waits, WaitForGraph.blockersOf])⟩

end Sole

/-! ### Requests that fail -/

omit [DecidableEq ι] in
theorem Sole.waitsFor_eq_nil (h : n.Sole) (hi : ¬ n.Busy i) : n.graph.waitsFor i = [] := by
  refine List.eq_nil_iff_forall_not_mem.mpr fun j hj => ?_
  obtain ⟨k, x, hx, hid⟩ := h.waiting i j (IdSet.mem_toList.mp hj)
  exact hi ⟨k, x, List.mem_append_right _ hx, hid⟩

/-- A request that is refused at once leaves everything as it is. -/
theorem untraced_of_refused (h : n.Sole) (hc : n.Considerate (k, v)) (hi : v.refused? = some i) :
    n.step (k, v) = n ∧
      Failure.Untraced ⟨i, none, (n.traffic k).lock, .interrupted⟩ (n.traffic k).lock n.graph := by
  obtain ⟨hm, hidle⟩ : v.move? n.graph = none ∧ ¬ n.Busy i := by
    cases v with
    | acquire _ _ _ b | upgrade _ _ b =>
      cases b with
      | true => exact ⟨rfl, Option.some.inj hi ▸ hc⟩
      | false => exact absurd hi (by simp [Visit.refused?])
    | _ => exact absurd hi (by simp [Visit.refused?])
  have hgone : ∀ x ∈ (n.traffic k).lock.requests, x.transaction ≠ i := fun x hx hid =>
    hidle ⟨k, x, List.mem_append_right _ hx, hid⟩
  refine ⟨step_of_no_move hm, rfl, rfl, fun _ _ => Iff.rfl, ?_, h.waitsFor_eq_nil hidle, ?_,
    (h.sole k).orderly.sound.parked, by simp⟩
  · rw [(h.sole k).upgrader]
    rintro ⟨x, hx, hid, -⟩
    exact hgone x hx hid
  · exact fun w hw => hgone w.errand (Lock.mem_requests.mpr ⟨w, hw, rfl⟩)

theorem untraced_of_look (h : n.Sole) (hm : v.move? n.graph = some m)
    (hl : (n.traffic k).look? m = some (a, l, g)) {error : Error}
    (hj : (a.judge l g).2 = .failed error) :
    Failure.Untraced ⟨a.transaction, some a.request, l, error⟩ ((n.step (k, v)).traffic k).lock
      (n.step (k, v)).graph := by
  have hf := (h.sole k).finds hl
  have hlock : ((n.step (k, v)).traffic k).lock = l.abandon a.transaction := by
    rw [traffic_step_self hm, Traffic.lock_of_look hl, Attempt.run,
      show a.judge l g = (_, .failed error) from Prod.ext rfl hj]
  have hgraph : (n.step (k, v)).graph = (a.run l g).2.1 := by
    simp only [graph_step hm, graphAfter, hl]
  have hsound : (l.abandon a.transaction).Sound := hf.sound.abandon
  have hgone : ∀ w ∈ l.waiters, w.transaction ≠ a.transaction := fun w hw =>
    ((hf.requests w.errand).mp (Lock.mem_requests.mpr ⟨w, hw, rfl⟩)).2
  rw [hlock, hgraph]
  refine ⟨Lock.owners_abandon, ?_, fun i hi => ?_, ?_, ?_, ?_, hsound.parked, fun hk => ⟨?_, ?_, ?_⟩⟩
  · unfold Lock.abandon
    split <;> rfl
  · rw [Lock.mem_upgraders_abandon]
    exact and_iff_right hi
  · rw [Lock.mem_upgraders_abandon]
    exact fun hself => hself.1 rfl
  · obtain rfl := graph_of_look hm hl
    refine List.eq_nil_iff_forall_not_mem.mpr fun j hw => ?_
    exact not_waits_of_run (by simp [hj]) (fun ha => h.first hl ha j) (IdSet.mem_toList.mp hw)
  · intro w hw
    unfold Lock.abandon at hw
    split at hw
    · obtain ⟨v, hv, rfl⟩ := List.mem_map.mp hw
      exact hgone v hv
    · exact hgone w hw
  · rw [Lock.owners_abandon]
    exact fun ho => ((hf.owners _).mp ho).2 (Option.some.inj hk) rfl
  · intro hempty
    exact hsound.mode_eq_none.mpr fun i => by rw [hempty]; simp
  · have hmem : a.transaction ∈ l.upgraders :=
      (hf.upgraders _).mpr (.inr ⟨rfl, Option.some.inj hk⟩)
    rw [Lock.abandon, if_pos hmem]
    rfl

/-- As long as a transaction has a request in progress, it makes no other one. -/
theorem mem_requests_of_busy (h : n.Sole) (ho : Obeys step Considerate n visits)
    (hb : Obeys step (fun n _ => n.Busy i) n visits)
    (hx : x ∈ ((n.run visits).traffic k).requests) (hid : x.transaction = i) :
    x ∈ (n.traffic k).requests := by
  induction visits generalizing n with
  | nil => exact hx
  | cons p visits ih =>
    rcases h.mem_requests_step ho.1 (ih (h.step ho.1) ho.2 hb.2 hx) with hx | ⟨-, -, hidle, -⟩
    · exact hx
    · exact absurd (hid ▸ hb.1) hidle

/-- A failed request leaves no trace.  Consider a run, on locks that share a wait-for graph, in
which no transaction makes a request while another one of it is in progress, and nothing is released
for a transaction while a request of it is in progress.  A request that fails then leaves its lock
as it found it when it was evaluated for the last time, but for the hold that an upgrade had given
up and for its pending upgrade, of which all waiters are told, and its transaction waits for nobody.
A request that is refused at once changes nothing at all, and one that is no upgrade leaves its
transaction with the hold that it had when it made the request.  Epochs never start over here;
`Traffic.Orderly.runByWord_eq` says when it makes no difference that a lock counts them in a word. -/
theorem failed_request_leaves_no_trace (visits : List (ι × Visit)) (p : ι × Visit) (f : Failure)
    (ho : Obeys step Considerate {} visits) (hp : (run {} visits).Considerate p) :
    let n := run {} visits
    let n' := n.step p
    n.failure? p = some f →
      f.Untraced (n'.traffic p.1).lock n'.graph ∧ (f.kind = none → n' = n) ∧
      ∀ kind, f.kind = some kind → kind ≠ .upgrade → ∀ before v after,
        visits = before ++ (p.1, v) :: after → v.asker? = some f.transaction →
        Obeys step (fun n _ => n.Busy f.transaction) (run {} (before ++ [(p.1, v)])) after →
          (n'.traffic p.1).lock.modeOf f.transaction =
            ((run {} before).traffic p.1).lock.modeOf f.transaction := by
  intro n n' hfail
  obtain ⟨k, v⟩ := p
  have h : n.Sole := Sole.default.run ho
  rw [failure?] at hfail
  split at hfail
  · next i hi =>
    obtain rfl := Option.some.inj hfail
    obtain ⟨hsame, huntraced⟩ := untraced_of_refused h hp hi
    refine ⟨?_, fun _ => hsame, by simp⟩
    rwa [show n' = n from hsame]
  obtain ⟨⟨a, l, g⟩, hlook, hjudge⟩ := Option.bind_eq_some_iff.mp hfail
  obtain ⟨m, hm, hl⟩ := Option.bind_eq_some_iff.mp hlook
  obtain ⟨error, hj, rfl⟩ : ∃ error, (a.judge l g).2 = .failed error ∧
      ⟨a.transaction, some a.request, l, error⟩ = f := by
    cases hj : (a.judge l g).2 <;> simp_all
  have huntraced := untraced_of_look h hm hl hj
  refine ⟨huntraced, fun hk => absurd hk (by simp), ?_⟩
  rintro kind hkind hne before v₀ after rfl hasker hbusy
  obtain rfl := Option.some.inj hkind
  have hf := (h.sole k).finds hl
  -- The transaction has no hold now, nor had it one when it made the request.
  have hnow : (n'.traffic k).lock.modeOf a.transaction = none := by
    refine if_neg fun hown => ?_
    rw [huntraced.owners, hf.owners] at hown
    exact (h.sole k).absent a.errand hf.mem hne hown.1
  rw [hnow]
  obtain ⟨hbefore, hfirst, hafter⟩ := obeys_append.mp ho
  have hstart : (run {} before).Sole := Sole.default.run hbefore
  have hrun : run {} (before ++ [(k, v₀)]) = (run {} before).step (k, v₀) := by
    simp [run]
  have hmem : a.errand ∈ (((run {} before).step (k, v₀)).traffic k).requests := by
    refine mem_requests_of_busy (hstart.step hfirst) hafter (hrun ▸ hbusy) ?_ rfl
    simpa [run, n] using hf.mem
  rcases hstart.mem_requests_step hfirst hmem with hold | ⟨-, -, -, hmode⟩
  · have hidle : ¬ (run {} before).Busy a.transaction := by
      cases v₀ with
      | acquire | upgrade =>
        obtain rfl := Option.some.inj hasker
        exact hfirst
      | _ => exact absurd hasker (by simp [Visit.asker?])
    exact absurd ⟨k, a.errand, hold, rfl⟩ hidle
  · exact (hmode hne).symm

/-- A reader whose fellow waits for it at another lock may not wait for the fellow, so its upgrade
fails, and the writer behind them is told. -/
theorem upgrade_refused_without_trace :
    let visits : List (Fin 2 × Visit) := [(0, .acquire 0 1 .shared false), (0, .enter 0 false false),
      (0, .acquire 1 2 .shared false), (0, .enter 1 false false),
      (1, .acquire 2 1 .exclusive false), (1, .enter 2 false false),
      (1, .acquire 3 2 .shared false), (1, .enter 3 false false),
      (0, .acquire 4 3 .exclusive false), (0, .enter 4 false false),
      (0, .acquire 5 1 .exclusive false)]
    let n := run {} visits
    let n' := n.step (0, .enter 5 false false)
    ∃ f, n.failure? (0, .enter 5 false false) = some f ∧ f.kind = some .upgrade ∧
      f.error = .deadlock ∧ f.Untraced (n'.traffic 0).lock n'.graph ∧
      (n'.traffic 0).lock.modeOf 1 = none ∧ (n'.traffic 0).lock.waiters.length = 1 := by
  intro visits n n'
  have hany : (n.failure? (0, .enter 5 false false)).any
      (fun f => f.kind == some .upgrade && f.error == .deadlock) = true := by decide +kernel
  cases hf : n.failure? (0, .enter 5 false false) with
  | none => simp [hf] at hany
  | some f =>
  obtain ⟨hkind, herror⟩ : f.kind = some .upgrade ∧ f.error = .deadlock := by
    simpa [hf] using hany
  exact ⟨f, rfl, hkind, herror, (failed_request_leaves_no_trace visits (0, .enter 5 false false) f
    (by decide +kernel) trivial hf).1, by decide +kernel, by decide +kernel⟩

end Network

end Locking
