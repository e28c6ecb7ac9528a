import Locking.Proofs.Commit.Ledger

/-! Exactly one outcome for every transaction and store.  Whatever happens in whatever order, a
store is called at most once in each phase of a transaction; a transaction that has committed has
had all its stores commit and none roll back, one that was aborted has had all of them roll back,
and once it has ended no store is called for it any more. -/

namespace Locking.System

variable {s s' s'' : System} {p p' p'' : Stage} {hs hs' hs'' : History} {r : TransactionRef}

/-- The history of store calls after a list of events, if it was `hs` before. -/
def historyFrom (s : System) (hs : History) : List Event → History
  | [] => hs
  | e :: events => (s.step e).1.historyFrom ((hs.answered e).noted (s.step e).2) events

/-- The history of store calls of a list of events. -/
def history (s : System) (events : List Event) : History := s.historyFrom [] events

theorem historyFrom_append (s : System) (hs : History) (events later : List Event) :
    s.historyFrom hs (events ++ later) =
      (s.run events).historyFrom (s.historyFrom hs events) later := by
  induction events generalizing s hs with
  | nil => rfl
  | cons e events ih => exact ih _ _

/-! ### The ledger of a run -/

namespace Ledger

theorem new (g : Granularity) (configs : List Config) (lockConfig : Config) :
    Ledger (System.new g configs lockConfig) idle [] := by
  refine ⟨InOrder.new g configs lockConfig, current_concluded, by simp, fun r => ?_⟩
  have hr : (System.new g configs lockConfig).transactionAt r = default :=
    transactionAt_new
  refine .of_active ?_ (by rw [hr]; rfl) (by simp [taskAt, System.new]) rfl
  rw [hr]
  exact List.nodup_nil

theorem Next.refl (h : Ledger s p hs) : Next s hs s p hs := ⟨h, fun _ _ => ⟨rfl, rfl⟩⟩

theorem Next.trans (h : Next s hs s' p' hs') (h' : Next s' hs' s'' p'' hs'') :
    Next s hs s'' p'' hs'' := by
  refine ⟨h'.ledger, fun r hr => ?_⟩
  obtain ⟨hend, hof⟩ := h.ended r hr
  have hr' : (s'.transactionAt r).state.isFinal = true := by
    rw [show (s'.transactionAt r).state = (s.transactionAt r).state from congrArg Prod.fst hend]
    exact hr
  obtain ⟨hend', hof'⟩ := h'.ended r hr'
  exact ⟨hend'.trans hend, hof'.trans hof⟩

theorem rest {response : Response} (h : Ledger s (.concluded response) hs) : Next s hs s idle hs :=
  h.frame h.inOrder.rest current_concluded (fun _ => rfl) rfl fun _ => rfl

theorem at_of_advance (h : Advance s p s' p') (hs : History) : hs.at p = hs := by
  cases h <;> rfl

theorem advances {s₀ : System} {hs₀ : History} {result : System × Response}
    (ha : Advances s p result) (h : Next s₀ hs₀ s p (hs.at p)) :
    Next s₀ hs₀ result.1 (.concluded result.2) (hs.noted result.2) := by
  induction ha with
  | concluded => exact h
  | step ha _ ih =>
    rw [at_of_advance ha] at h
    exact ih (h.trans (h.ledger.advance ha))

theorem step (h : Ledger s idle hs) (e : Event) :
    Next s hs (s.step e).1 idle ((hs.answered e).noted (s.step e).2) := by
  obtain ⟨s', p, hst, ha⟩ := follows_step h.inOrder.tidy e
  have hnext := advances ha (h.start hst)
  exact hnext.trans hnext.ledger.rest

theorem run (h : Ledger s idle hs) (events : List Event) :
    Next s hs (s.run events) idle (s.historyFrom hs events) := by
  induction events generalizing s hs with
  | nil => exact .refl h
  | cons e events ih => exact (h.step e).trans (ih (h.step e).ledger)

/-- In every run there is a history beside the system. -/
theorem invariant : Invariant (fun _ _ => True) fun s p => ∃ hs, Ledger s p hs where
  inOrder h := h.choose_spec.inOrder
  rest h := ⟨_, h.choose_spec.rest.ledger⟩
  start _ h hst := ⟨_, (h.choose_spec.start hst).ledger⟩
  advance h ha := ⟨_, (h.choose_spec.advance ha).ledger⟩

end Ledger

/-! ### What the entries tell -/

namespace Entry

variable {calls : History}

theorem inPhases (h : Entry s idle r calls) : InPhases r (s.transactionAt r).stores calls := by
  have hunderway : ∀ phase : Phase, (s.transactionAt r).state = phase.state →
      InPhases r (s.transactionAt r).stores calls := by
    intro phase hstate
    rcases h.underway phase hstate with ⟨c, ⟨phase', store, rest⟩, hc⟩ | ⟨c, task, hc⟩
    · obtain ⟨-, done, before, hdone, hof, hprogress⟩ := h.calling c phase' store rest hc
      rw [hof]
      exact hprogress.inPhases_open rfl hdone
    · exact absurd hc (by simp [Stage.task?])
  cases hstate : (s.transactionAt r).state with
  | active =>
    rw [h.active hstate]
    exact .nil
  | committing => exact hunderway .commit hstate
  | aborting => exact hunderway .rollback hstate
  | committed => exact (h.committed hstate).inPhases List.prefix_rfl
  | aborted => exact (h.aborted hstate).inPhases List.prefix_rfl

/-- Each store of a committed transaction was asked once to commit, did so, and was not asked to
roll back. -/
theorem commits_once (h : Entry s p r calls) (hc : (s.transactionAt r).state = .committed)
    {store : Store} (hmem : store ∈ (s.transactionAt r).stores) :
    (∃ k a, calls.ofStore store.key .commit = [k] ∧ k.reply? = some a ∧
      ∀ message, a ≠ .failed message) ∧ calls.ofStore store.key .rollback = [] := by
  have hprogress := h.committed hc
  obtain ⟨k, hone, -, a, ha, hok⟩ := hprogress.ofStore_eq_singleton h.keys hmem
  refine ⟨⟨k, a, hone, ha, ?_⟩, hprogress.ofStore_rollback_eq_nil (by simp)⟩
  rintro message rfl
  exact absurd hok (by simp [Phase.accepts])

/-- Each store of an aborted transaction was asked once to roll back, and has replied. -/
theorem rolls_back_once (h : Entry s p r calls) (ha : (s.transactionAt r).state = .aborted)
    {store : Store} (hmem : store ∈ (s.transactionAt r).stores) :
    ∃ k a, calls.ofStore store.key .rollback = [k] ∧ k.reply? = some a := by
  obtain ⟨k, hone, -, a, ha, -⟩ := (h.aborted ha).ofStore_eq_singleton h.keys hmem
  exact ⟨k, a, hone, ha⟩

end Entry

/-- Over any run of any number of transaction managers, whatever the stores reply and whatever
else is done while they are called: the stores of a transaction differ, only they are called for
it, and each of them at most once in every phase.  If the transaction has committed, each of its
stores was asked once to commit, did so, and was not asked to roll back; if it was aborted, each
of its stores was asked once to roll back, and has replied; and once it has ended no further call
is made for it in any continuation of the run. -/
theorem one_outcome (g : Granularity) (configs : List Config) (lockConfig : Config)
    (events : List Event) (r : TransactionRef) :
    let fresh := System.new g configs lockConfig
    let t := (fresh.run events).transactionAt r
    let calls := (fresh.history events).of r
    (t.stores.map (·.key)).Nodup ∧ (∀ k ∈ calls, k.request.store ∈ t.stores) ∧
      (∀ key phase, (calls.ofStore key phase).length ≤ 1) ∧
      (t.state = .committed → ∀ store ∈ t.stores,
        (∃ k a, calls.ofStore store.key .commit = [k] ∧ k.reply? = some a ∧
          ∀ message, a ≠ .failed message) ∧ calls.ofStore store.key .rollback = []) ∧
      (t.state = .aborted → ∀ store ∈ t.stores,
        ∃ k a, calls.ofStore store.key .rollback = [k] ∧ k.reply? = some a) ∧
      (t.state.isFinal = true → ∀ later, (fresh.history (events ++ later)).of r = calls) := by
  intro fresh t calls
  have h : Ledger (fresh.run events) idle (fresh.history events) :=
    ((Ledger.new g configs lockConfig).run events).ledger
  have hr := h.entry r
  refine ⟨hr.keys, hr.inPhases.store_mem, fun key phase => hr.inPhases.length_ofStore_le hr.keys,
    fun hc store hmem => hr.commits_once hc hmem, fun ha store hmem => hr.rolls_back_once ha hmem,
    fun hf later => ?_⟩
  rw [history, historyFrom_append]
  exact ((h.run later).ended r hf).2

end Locking.System
