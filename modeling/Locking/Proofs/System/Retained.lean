import Locking.Proofs.Commit.Outcome
import Locking.Proofs.Lock.Kept
import Locking.Proofs.System.Deadlock
import Locking.Proofs.System.Life
import Locking.Proofs.System.Passage

/-! Locks outlive the store calls.  From the moment in which a transaction is no longer active until
it has ended, it owns the same locks in the same modes, whatever the others do. -/

namespace Locking

/-- Whether an event asks for a single lock, or has locks released before a transaction ends. -/
def Event.handlesLocks : Event → Bool
  | acquire .. | upgrade .. | release .. | unlockAll .. | forget .. => true
  | _ => false

/-- Transaction number `i` is about to look at a lock for the first time. -/
def Stage.Enters : Stage → TransactionId → Prop
  | looking _ r _ _ _ _ w, i => w = false ∧ r.id = i
  | _, _ => False

namespace Lock

variable {l : Lock} {i j : TransactionId} {kind : Request} {w : Bool}

theorem modeOf_approach (hj : ¬ (w = false ∧ i = j)) :
    (l.approach i kind w).modeOf j = l.modeOf j := by
  unfold approach
  split
  · rfl
  · next hw =>
    unfold enter
    split
    · exact modeOf_beginUpgrade.trans (if_neg fun hji => hj ⟨by simpa using hw, hji.symm⟩)
    · rfl

end Lock

namespace System

variable {s s' s₀ s₁ s₂ : System} {p p' p₁ p₂ : Stage} {e : Event} {r q : TransactionRef}
  {t : TransactionId} {hs : History} {name other : LockName}

/-- Locks are asked for by `lock` and `lockAll` only, no transaction has two requests asleep, and
those of transaction number `t` are released only when it ends. -/
def Untouched (t : TransactionId) (s : System) (e : Event) : Prop :=
  s.OneRequest e ∧ e ≠ .unlockAll ⟨0, t⟩ ∧ e ≠ .forget ⟨0, t⟩

instance : Decidable (s.Untouched t e) :=
  inferInstanceAs (Decidable (s.OneRequest e ∧ e ≠ .unlockAll ⟨0, t⟩ ∧ e ≠ .forget ⟨0, t⟩))

/-! ### Holds after a change -/

theorem modeOf_modifyLock {f : Lock → Lock}
    (hf : (f (s.lockAt name)).modeOf t = (s.lockAt name).modeOf t) :
    ((s.modifyLock name f).lockAt other).modeOf t = (s.lockAt other).modeOf t :=
  rel_modifyLock (R := fun l l' => l'.modeOf t = l.modeOf t) (fun _ => rfl) (fun _ => hf) other

theorem modeOf_releaseAll (ht : t ≠ r.id) :
    ((s.releaseAll r).lockAt name).modeOf t = (s.lockAt name).modeOf t :=
  rel_releaseAll (R := fun l l' => l'.modeOf t = l.modeOf t) (fun _ => rfl)
    (fun _ => Lock.modeOf_release.trans (if_neg ht)) name

theorem modeOf_alert : ((s.alert r).lockAt name).modeOf t = (s.lockAt name).modeOf t :=
  rel_alert (R := fun l l' => l'.modeOf t = l.modeOf t) (fun _ => rfl) (fun _ => rfl) r name

theorem Start.modeOf_eq (he : e.handlesLocks = false) (hst : Start s e s' p) (name : LockName)
    (i : TransactionId) : (s'.lockAt name).modeOf i = (s.lockAt name).modeOf i := by
  cases hst with
  | acquire | upgrade | release | unlockAll | forget =>
    exact absurd he (by simp [Event.handlesLocks])
  | interrupt | managerInterrupt => exact modeOf_alert
  | wake | expire => exact modeOf_modifyLock (s := s) rfl
  | _ => rfl

/-! ### From the moment on in which a transaction begins to end -/

/-- Until it has ended, a transaction that is no longer active owns the same locks in the same
modes. -/
theorem Advance.modeOf (hg : Guarded s p) (ha : Advance s p s' p')
    (hbegun : (s.transactionAt ⟨0, t⟩).state ≠ .active) (haside : ¬ p.Enters t)
    (hend : (s'.transactionAt ⟨0, t⟩).state.isFinal = false) (name : LockName) :
    (s'.lockAt name).modeOf t = (s.lockAt name).modeOf t := by
  have ho : InOrder s p := Guarded.invariant.inOrder hg
  have hid : ∀ {r access}, p.user? = some (r, access) → r = ⟨0, r.id⟩ := fun hu =>
    hg.recorded.ref_eq ho (ho.user _ _ hu)
  -- Whoever releases locks has ended, so it is another transaction.
  have hretired : ∀ {r access state}, p.user? = some (r, access) → state.isFinal = true →
      (((s.setState r state).retire r).transactionAt ⟨0, t⟩).state.isFinal = false →
        (((s.setState r state).retire r).lockAt name).modeOf t = (s.lockAt name).modeOf t := by
    intro r access state hu hf hend
    refine modeOf_releaseAll (s := s.setState r state) ?_
    rintro rfl
    rw [← hid hu, state_retired (ho.user _ _ hu) state, hf] at hend
    exact absurd hend (by simp)
  cases ha with
  | refuse | covered | ask => exact congrArg (Lock.modeOf · t) (lockAt_addLock s _ name)
  | sleep => exact modeOf_modifyLock (Lock.modeOf_park.trans (Lock.modeOf_approach haside))
  | @grant c r name kind d goal w g hj =>
    obtain ⟨hi, hgrantable, -⟩ := Attempt.judge_eq_granted_iff.mp hj
    have htr : t ≠ r.id := by
      rintro rfl
      rw [← hid rfl] at hbegun
      exact hbegun (hg.watched.active_of_look hi)
    exact modeOf_modifyLock
      ((Lock.modeOf_grant_ne htr hgrantable).trans (Lock.modeOf_approach haside))
  | fail => exact modeOf_modifyLock (Lock.modeOf_abandon.trans (Lock.modeOf_approach haside))
  | giveBack hs => exact absurd hg.watched.ready hs
  | undone | committed => exact hretired rfl rfl hend
  | removed =>
    rw [transactionAt_alert] at hend
    exact modeOf_alert.trans (hretired rfl rfl hend)
  | _ => rfl

/-- What happens between the courses of calls takes no lock from a transaction, unless its locks are
released expressly. -/
theorem Start.modeOf (ho : InOrder s idle) (hsingle : ∃ n, s.begun = [n]) (he : e.usesLock = false)
    (hunlock : e ≠ .unlockAll ⟨0, t⟩) (hforget : e ≠ .forget ⟨0, t⟩) (hst : Start s e s' p)
    (name : LockName) : (s'.lockAt name).modeOf t = (s.lockAt name).modeOf t := by
  have hother : ∀ {r}, s.admits r .shared = true → r ≠ ⟨0, t⟩ → t ≠ r.id := by
    rintro r ha hr rfl
    exact hr (ho.ref_eq hsingle (admits_iff.mp ha).1)
  cases hst with
  | acquire | upgrade | release => exact absurd he (by simp [Event.usesLock])
  | interrupt | managerInterrupt => exact modeOf_alert
  | unlockAll ha => exact modeOf_releaseAll (hother ha fun hr => hunlock (by rw [hr]))
  | forget ha => exact modeOf_releaseAll (hother ha fun hr => hforget (by rw [hr]))
  | wake | expire => exact modeOf_modifyLock (s := s) rfl
  | _ => rfl

/-- Transaction number `t` is no longer active, and until it has ended it owns the same locks as in
the system `s₀`, in the same modes. -/
structure Retains (t : TransactionId) (s₀ s : System) (p : Stage) : Prop where
  begun : (s.transactionAt ⟨0, t⟩).state ≠ .active
  aside : ¬ p.Enters t
  same : (s.transactionAt ⟨0, t⟩).state.isFinal = false → ∀ name,
    (s.lockAt name).modeOf t = (s₀.lockAt name).modeOf t

namespace Retains

theorem advance (h : Retains t s₀ s p) (hg : Guarded s p) (hl : Ledger s p hs)
    (ha : Advance s p s' p') : Retains t s₀ s' p' := by
  have hturns := ha.turns hl ⟨0, t⟩
  refine ⟨hturns.ne_active h.begun, ?_, fun hend name => ?_⟩
  · cases ha with
    | ask =>
      -- Only an active transaction takes locks.
      rintro ⟨-, rfl⟩
      refine h.begun ?_
      rw [← hg.recorded.ref_eq hl.inOrder (hl.inOrder.user _ _ rfl)]
      exact hg.watched.ready
    | _ => exact id
  · exact (ha.modeOf hg h.begun h.aside hend name).trans (h.same (hturns.unfinished hend) name)

theorem start (h : Retains t s₀ s idle) (hg : Guarded s idle) (he : s.Untouched t e)
    (hst : Start s e s' p) : Retains t s₀ s' p := by
  have hturns := State.Turns.begins (hst.begins (Guarded.invariant.inOrder hg) ⟨0, t⟩)
  refine ⟨hturns.ne_active h.begun, ?_, fun hend name => ?_⟩
  · cases hst with
    | acquire | upgrade => exact absurd he.1.1 (by simp [Event.usesLock])
    | wake | expire => exact fun hw => absurd hw.1 (by simp)
    | _ => exact id
  · have hsame := hst.modeOf (Guarded.invariant.inOrder hg) hg.recorded.single he.1.1 he.2.1 he.2.2
    exact (hsame name).trans (h.same (hturns.unfinished hend) name)

theorem invariant (t : TransactionId) (s₀ : System) : Invariant (Untouched t) fun s p =>
    (Guarded s p ∧ ∃ hs, Ledger s p hs) ∧ Retains t s₀ s p where
  inOrder h := Guarded.invariant.inOrder h.1.1
  rest h := ⟨⟨Guarded.invariant.rest h.1.1, Ledger.invariant.rest h.1.2⟩,
    h.2.begun, id, h.2.same⟩
  start he h hst := ⟨⟨Guarded.invariant.start he.1 h.1.1 hst,
    Ledger.invariant.start trivial h.1.2 hst⟩, h.2.start h.1.1 he hst⟩
  advance h ha := ⟨⟨Guarded.invariant.advance h.1.1 ha, Ledger.invariant.advance h.1.2 ha⟩,
    h.2.advance h.1.1 h.1.2.choose_spec ha⟩

end Retains

/-! ### The moment in which a transaction begins to end -/

theorem Advance.leaves (hl : Ledger s p hs) (ha : Advance s p s' p')
    (hactive : (s.transactionAt q).state = .active) (hleft : (s'.transactionAt q).state ≠ .active) :
    (∀ name, s'.lockAt name = s.lockAt name) ∧ ¬ p'.Enters t := by
  have hsame : (s'.transactionAt q).state = (s.transactionAt q).state →
      (∀ name, s'.lockAt name = s.lockAt name) ∧ ¬ p'.Enters t := fun h =>
    absurd (h.trans hactive) hleft
  -- Who ends has not been active before.
  have hdone : ∀ {c r phase}, p.task? = some (c, r, phase, []) → phase ≠ .prepare →
      (∀ name, s'.lockAt name = s.lockAt name) ∧ ¬ p'.Enters t := by
    intro c r phase hp hne
    obtain ⟨state, hmoves, hstate, -⟩ := hl.moves_of_done ha hp hne
    refine hsame (hmoves.other q ?_)
    rintro rfl
    exact phase.state_ne_active (hstate.symm.trans hactive)
  cases ha with
  | ask | grant | fail | keep => exact hsame (view_modifyTransaction Transaction.state fun _ => rfl)
  | undone | removed | committed => exact hdone rfl (by simp)
  | abort | beginPhased | beginAtOnce => exact ⟨fun _ => rfl, id⟩
  | _ => exact hsame rfl

theorem Start.leaves (hst : Start s e s' p) (hactive : (s.transactionAt q).state = .active)
    (hleft : (s'.transactionAt q).state ≠ .active) :
    (∀ name, s'.lockAt name = s.lockAt name) ∧ ¬ p.Enters t := by
  have hsame : (s'.transactionAt q).state = (s.transactionAt q).state →
      (∀ name, s'.lockAt name = s.lockAt name) ∧ ¬ p.Enters t := fun h =>
    absurd (h.trans hactive) hleft
  cases hst with
  | acquire | upgrade => exact hsame (view_modifyTransaction Transaction.state fun _ => rfl)
  | interrupt | managerInterrupt =>
    refine hsame ?_
    rw [System.interrupt, transactionAt_alert]
    exact view_modifyTransaction Transaction.state fun _ => rfl
  | unlockAll => exact hsame (view_releaseAll Transaction.state fun _ => rfl)
  | forget => exact hsame (view_forget Transaction.state fun _ => rfl)
  | release | wake | expire => exact hsame rfl
  | _ => exact ⟨fun _ => rfl, id⟩

theorem Passes.leaves (hl : Ledger s₁ p₁ hs) (h : Passes s e s₁ p₁ s₂ p₂)
    (hactive : (s₁.transactionAt q).state = .active)
    (hleft : (s₂.transactionAt q).state ≠ .active) :
    (∀ name, s₂.lockAt name = s₁.lockAt name) ∧ ¬ p₂.Enters t := by
  cases h with
  | start hst => exact hst.leaves hactive hleft
  | advance _ ha => exact ha.leaves hl hactive hleft

/-- A transaction for which a store is being called has not ended. -/
theorem Ledger.not_final_of_open (hl : Ledger s idle hs) {k : Contact} (hk : k ∈ hs.of r)
    (hopen : k.reply? = none) : (s.transactionAt r).state.isFinal = false := by
  obtain ⟨hmem, hr⟩ := List.mem_filter.mp hk
  obtain ⟨⟨phase, store, rest⟩, htask⟩ := hl.opens k hmem hopen
  rw [of_decide_eq_true hr] at htask
  rw [((hl.entry r).calling k.call phase store rest htask).1]
  exact phase.isFinal_state

/-- Locks outlive the store calls.  Take a run of one manager whose locks are asked for by `lock` and
`lockAll` only, in which no transaction has two requests asleep and the locks of transaction number
`t` are not released expressly.  The moment in which the transaction ceases to be active leaves all
locks alone, and whenever a store is being called for the transaction after that, it owns the same
locks as at that moment, in the same modes.  An event after which it is no longer active has such a
moment in its course. -/
theorem locks_outlive_store_calls (g : Granularity) (config lockConfig : Config) (t : TransactionId)
    (before later : List Event) (e : Event)
    (ho : Obeys (Untouched t) (System.new g [config] lockConfig) (before ++ e :: later)) :
    let fresh := System.new g [config] lockConfig
    let s := fresh.run before
    let r : TransactionRef := ⟨0, t⟩
    (∀ s₁ p₁ s₂ p₂, Passes s e s₁ p₁ s₂ p₂ → (s₁.transactionAt r).state = .active →
      (s₂.transactionAt r).state ≠ .active → (∀ name, s₂.lockAt name = s₁.lockAt name) ∧
        ∀ k ∈ (fresh.history (before ++ e :: later)).of r, k.reply? = none → ∀ name,
          ((fresh.run (before ++ e :: later)).lockAt name).modeOf t =
            (s₁.lockAt name).modeOf t) ∧
      ((s.transactionAt r).state = .active → ((s.step e).1.transactionAt r).state ≠ .active →
        ∃ s₁ p₁ s₂ p₂, Passes s e s₁ p₁ s₂ p₂ ∧ (s₁.transactionAt r).state = .active ∧
          (s₂.transactionAt r).state ≠ .active) := by
  intro fresh s r
  obtain ⟨hbefore, he, hlater⟩ := obeys_append.mp ho
  have hknown : Invariant (Untouched t) fun s p => Guarded s p ∧ ∃ hs, Ledger s p hs :=
    (Guarded.invariant.mono And.left).and (Ledger.invariant.mono fun _ => trivial)
  have h : Guarded s idle ∧ ∃ hs, Ledger s idle hs :=
    hknown.run ⟨.new g config lockConfig, _, .new g [config] lockConfig⟩ hbefore
  refine ⟨fun s₁ p₁ s₂ p₂ hpass hactive hleft => ?_, fun hactive hleft =>
    (hknown.inOrder h).tidy.exists_passes
      (P := fun s' _ => (s'.transactionAt r).state = .active) hactive hleft⟩
  obtain ⟨⟨-, hs, hl⟩, hnext⟩ := hknown.passes h he hpass
  obtain ⟨hlocks, haside⟩ := hpass.leaves (t := t) hl hactive hleft
  refine ⟨hlocks, fun k hk hopen name => ?_⟩
  have hstart : Retains t s₁ s₂ p₂ := ⟨hleft, haside, fun _ name => by rw [hlocks]⟩
  have hinv := Retains.invariant t s₁
  have hend := (hinv.run (hinv.advances ⟨hnext, hstart⟩ hpass.advances) hlater).2
  have hrun : fresh.run (before ++ e :: later) = (s.step e).1.run later := run_append ..
  rw [hrun]
  refine hend.same ?_ name
  have hledger := ((Ledger.new g [config] lockConfig).run (before ++ e :: later)).ledger
  rw [← hrun]
  exact hledger.not_final_of_open hk hopen

/-- A lock request fails to avoid a deadlock, and its transaction still owns its lock while a store is
being called to roll back, although the other one has been removed and has woken up. -/
theorem lock_kept_in_rollback :
    let before : List Event := [.begin 0, .begin 0, .register ⟨0, 1⟩ ⟨1, "one"⟩,
      .lock ⟨0, 1⟩ ⟨["a"]⟩ .exclusive, .lock ⟨0, 2⟩ ⟨["b"]⟩ .exclusive,
      .lock ⟨0, 2⟩ ⟨["a"]⟩ .shared]
    let e : Event := .lock ⟨0, 1⟩ ⟨["b"]⟩ .shared
    let later : List Event := [.remove ⟨0, 2⟩, .wake 0]
    let fresh := System.new .flat [{}] {}
    let k : Contact := ⟨1, ⟨⟨1, "one"⟩, ⟨0, 1⟩, .rollback⟩, none⟩
    Obeys (Untouched 1) fresh (before ++ e :: later) ∧
      k ∈ (fresh.history (before ++ e :: later)).of ⟨0, 1⟩ ∧
      ∃ s₁ p₁ s₂ p₂, Passes (fresh.run before) e s₁ p₁ s₂ p₂ ∧
        (s₁.transactionAt ⟨0, 1⟩).state = .active ∧ (s₂.transactionAt ⟨0, 1⟩).state ≠ .active ∧
        (s₁.lockAt (.entity ⟨["a"]⟩)).modeOf 1 = some .exclusive ∧
        ((fresh.run (before ++ e :: later)).lockAt (.entity ⟨["a"]⟩)).modeOf 1 =
          some .exclusive := by
  intro before e later fresh k
  have ho : Obeys (Untouched 1) fresh (before ++ e :: later) := by decide +kernel
  have hk : k ∈ (fresh.history (before ++ e :: later)).of ⟨0, 1⟩ := by decide +kernel
  have hkept : ((fresh.run (before ++ e :: later)).lockAt (.entity ⟨["a"]⟩)).modeOf 1 =
      some .exclusive := by decide +kernel
  have h := locks_outlive_store_calls .flat {} {} 1 before later e ho
  obtain ⟨s₁, p₁, s₂, p₂, hpass, hactive, hleft⟩ := h.2 (by decide +kernel) (by decide +kernel)
  have hsame := (h.1 s₁ p₁ s₂ p₂ hpass hactive hleft).2 k hk rfl (.entity ⟨["a"]⟩)
  exact ⟨ho, hk, s₁, p₁, s₂, p₂, hpass, hactive, hleft, hsame.symm.trans hkept, hkept⟩

end System

end Locking
