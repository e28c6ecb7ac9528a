import Mathlib.Data.List.Forall2
import Mathlib.Data.List.Nodup
import Locking.Proofs.System.Stage

/-! The calls of the stores, kept as a history, and what such a history looks like for a
transaction that is coming to its end: the stores are asked one after the other, and once a phase
has failed all of them are rolled back. -/

namespace Locking

/-- A call of a store, and the reply to it once that has come. -/
structure Contact where
  call : CallId
  request : StoreCall
  reply? : Option Reply := none
deriving DecidableEq, Repr

/-- All calls of stores, in the order in which they were made. -/
abbrev History := List Contact

/-- The reply of a store to what a call has asked of it. -/
def Contact.answer (c : CallId) (a : Reply) (h : Contact) : Contact :=
  if h.call = c ∧ h.reply? = none then { h with reply? := some a } else h

namespace History

/-- The history with the reply that an event brings. -/
def answered (hs : History) : Event → History
  | .reply c a => hs.map (·.answer c a)
  | _ => hs

/-- The history with the call to which an event has led. -/
def noted (hs : History) : Response → History
  | .storeCall c request => hs ++ [⟨c, request, none⟩]
  | _ => hs

/-- The calls that were made for a transaction. -/
def of (hs : History) (r : TransactionRef) : History := hs.filter (·.request.transaction = r)

/-- The calls in which the store with a key was asked to go through a phase. -/
def ofStore (hs : History) (key : Nat) (phase : Phase) : History :=
  hs.filter fun h => h.request.store.key = key ∧ h.request.phase = phase

variable {hs hs' : History} {r q : TransactionRef} {key : Nat} {phase : Phase} {h : Contact}

theorem of_append : of (hs ++ hs') r = hs.of r ++ hs'.of r := List.filter_append ..

theorem ofStore_append :
    ofStore (hs ++ hs') key phase = hs.ofStore key phase ++ hs'.ofStore key phase :=
  List.filter_append ..

theorem of_singleton_same (h : Contact) : of [h] h.request.transaction = [h] := by simp [of]

theorem of_singleton_ne (hr : h.request.transaction ≠ r) : of [h] r = [] := by simp [of, hr]

theorem of_answered (c : CallId) (a : Reply) :
    of (hs.map (·.answer c a)) r = (hs.of r).map (·.answer c a) := by
  have hsame : ∀ h : Contact, (h.answer c a).request = h.request := by
    intro h
    unfold Contact.answer
    split <;> rfl
  simp only [of, List.filter_map, Function.comp_def, hsame]

/-- A reply changes nothing where no call is open. -/
theorem map_answer_of_closed {c : CallId} (a : Reply)
    (hc : ∀ h ∈ hs, h.reply? = none → h.call ≠ c) : hs.map (·.answer c a) = hs := by
  refine (List.map_congr_left fun h hmem => ?_).trans (List.map_id hs)
  exact if_neg fun ⟨hcall, hopen⟩ => hc h hmem hopen hcall

end History

/-! ### Blocks of calls -/

/-- Stores that were asked, one after the other, to go through a phase for a transaction. -/
def Asked (r : TransactionRef) (phase : Phase) : List Store → History → Prop :=
  List.Forall₂ fun store h => h.request = ⟨store, r, phase⟩

/-- Whether a phase goes on after a reply. -/
def Phase.accepts : Phase → Reply → Bool
  | prepare, .done => true
  | prepare, _ => false
  | commit, .failed _ => false
  | commit, _ => true
  | rollback, _ => true

/-- Stores that were asked and gave a reply after which the phase goes on. -/
def Served (r : TransactionRef) (phase : Phase) : List Store → History → Prop :=
  List.Forall₂ fun store h => h.request = ⟨store, r, phase⟩ ∧
    ∃ a, h.reply? = some a ∧ phase.accepts a = true

section Blocks

variable {r : TransactionRef} {phase phase' : Phase} {done stores : List Store} {hs : History}
  {key : Nat} {h : Contact} {store : Store} {a : Reply}

theorem Served.asked (h : Served r phase done hs) : Asked r phase done hs :=
  List.Forall₂.imp (fun _ _ hs => hs.1) h

theorem Served.concat (hs' : Served r phase done hs) (hr : h.request = ⟨store, r, phase⟩)
    (ha : h.reply? = some a) (hok : phase.accepts a = true) :
    Served r phase (done ++ [store]) (hs ++ [h]) :=
  List.rel_append hs' (.cons ⟨hr, a, ha, hok⟩ .nil)

theorem Asked.concat (hs' : Asked r phase done hs) (hr : h.request = ⟨store, r, phase⟩) :
    Asked r phase (done ++ [store]) (hs ++ [h]) :=
  List.rel_append hs' (.cons hr .nil)

theorem Served.closed (hs' : Served r phase done hs) : ∀ h ∈ hs, h.reply? ≠ none := by
  induction hs' with
  | nil => simp
  | cons hh _ ih =>
    obtain ⟨-, a, ha, -⟩ := hh
    intro h hmem
    rcases List.mem_cons.mp hmem with rfl | hmem
    · simp [ha]
    · exact ih h hmem

theorem Asked.store_mem (hs' : Asked r phase done hs) : ∀ h ∈ hs, h.request.store ∈ done := by
  induction hs' with
  | nil => simp
  | cons hh _ ih =>
    intro h hmem
    rcases List.mem_cons.mp hmem with rfl | hmem
    · simp [hh]
    · exact List.mem_cons_of_mem _ (ih h hmem)

theorem Asked.ofStore_eq_nil (hs' : Asked r phase done hs) (hp : phase' ≠ phase) :
    hs.ofStore key phase' = [] := by
  induction hs' with
  | nil => rfl
  | cons hh _ ih =>
    rw [History.ofStore, List.filter_cons_of_neg (by simp [hh, Ne.symm hp])]
    exact ih

theorem Asked.ofStore_eq_nil_of_not_mem (hs' : Asked r phase done hs)
    (hk : key ∉ done.map (·.key)) : hs.ofStore key phase' = [] := by
  induction hs' with
  | nil => rfl
  | cons hh _ ih =>
    simp only [List.map_cons, List.mem_cons, not_or] at hk
    rw [History.ofStore, List.filter_cons_of_neg (by simp [hh, Ne.symm hk.1])]
    exact ih hk.2

theorem Asked.length_ofStore_le (hs' : Asked r phase done hs) (hd : (done.map (·.key)).Nodup) :
    (hs.ofStore key phase').length ≤ 1 := by
  induction hs' with
  | nil => simp [History.ofStore]
  | @cons store h done hs hh hrest ih =>
    obtain ⟨hk, hd⟩ := List.nodup_cons.mp hd
    by_cases hkey : store.key = key
    · have hnil : History.ofStore hs key phase' = [] :=
        Asked.ofStore_eq_nil_of_not_mem hrest (by rw [← hkey]; exact hk)
      have hlen : (History.ofStore (h :: hs) key phase').length ≤
          1 + (History.ofStore hs key phase').length := by
        rw [History.ofStore, List.filter_cons]
        split
        · rw [List.length_cons, Nat.add_comm]
          exact Nat.le_refl _
        · exact Nat.le_add_left _ _
      rw [hnil] at hlen
      exact hlen
    · rw [History.ofStore, List.filter_cons_of_neg (by simp [hh, hkey])]
      exact ih hd

theorem Served.ofStore_eq_singleton (hs' : Served r phase done hs) (hd : (done.map (·.key)).Nodup)
    (hmem : store ∈ done) : ∃ h, hs.ofStore store.key phase = [h] ∧ h.request = ⟨store, r, phase⟩ ∧
      ∃ a, h.reply? = some a ∧ phase.accepts a = true := by
  induction hs' with
  | nil => simp at hmem
  | @cons other h done hs hh hrest ih =>
    obtain ⟨hk, hd⟩ := List.nodup_cons.mp hd
    rcases List.mem_cons.mp hmem with rfl | hmem
    · have hnil : History.ofStore hs store.key phase = [] :=
        Asked.ofStore_eq_nil_of_not_mem (Served.asked hrest) hk
      refine ⟨h, ?_, hh⟩
      rw [History.ofStore, List.filter_cons_of_pos (by simp [hh.1])]
      exact congrArg (h :: ·) hnil
    · have hkey : other.key ≠ store.key := fun he => hk (List.mem_map.mpr ⟨store, hmem, he.symm⟩)
      obtain ⟨h', hone, hh'⟩ := ih hd hmem
      refine ⟨h', ?_, hh'⟩
      rw [History.ofStore, List.filter_cons_of_neg (by simp [hh.1, hkey])]
      exact hone

end Blocks

/-! ### The course of an ending -/

/-- What went before a phase: nothing at all, the votes of all stores before they are asked to
commit, or before a rollback a phase in which one of the stores failed. -/
inductive Before (r : TransactionRef) (stores : List Store) : Phase → History → Prop
  | nothing {phase} : Before r stores phase []
  | prepared {hs} (hp : Served r .prepare stores hs) : Before r stores .commit hs
  | failed {phase before done served store rest h a} (hp : phase ≠ .rollback)
      (hb : Before r stores phase before) (hs : Served r phase done served)
      (hd : stores = done ++ store :: rest) (hr : h.request = ⟨store, r, phase⟩)
      (ha : h.reply? = some a) (hf : phase.accepts a = false) :
    Before r stores .rollback (before ++ served ++ [h])

/-- A phase in which some stores have been served, with all that went before it. -/
def Progress (r : TransactionRef) (stores : List Store) (phase : Phase) (done : List Store)
    (hs : History) : Prop :=
  ∃ before served, hs = before ++ served ∧ Before r stores phase before ∧
    Served r phase done served

/-- The calls for a transaction phase by phase. -/
def InPhases (r : TransactionRef) (stores : List Store) (hs : History) : Prop :=
  ∃ (prepared committed undone : List Store) (h₁ h₂ h₃ : History), hs = h₁ ++ h₂ ++ h₃ ∧
    Asked r .prepare prepared h₁ ∧ Asked r .commit committed h₂ ∧ Asked r .rollback undone h₃ ∧
    prepared <+: stores ∧ committed <+: stores ∧ undone <+: stores

section Course

variable {r : TransactionRef} {phase phase' : Phase} {done rest stores : List Store}
  {hs hs' : History} {key : Nat} {h : Contact} {store : Store} {a : Reply}

theorem Before.closed (hb : Before r stores phase hs) : ∀ h ∈ hs, h.reply? ≠ none := by
  induction hb with
  | nothing => simp
  | prepared hp => exact hp.closed
  | failed _ _ hs _ _ ha _ ih =>
    intro h hmem
    rcases List.mem_append.mp hmem with hmem | hmem
    · rcases List.mem_append.mp hmem with hmem | hmem
      · exact ih h hmem
      · exact hs.closed h hmem
    · rw [List.mem_singleton.mp hmem, ha]
      simp

theorem Progress.closed (hp : Progress r stores phase done hs) : ∀ h ∈ hs, h.reply? ≠ none := by
  obtain ⟨before, served, rfl, hb, hs⟩ := hp
  intro h hmem
  rcases List.mem_append.mp hmem with hmem | hmem
  · exact hb.closed h hmem
  · exact hs.closed h hmem

theorem Before.progress (hb : Before r stores phase hs) : Progress r stores phase [] hs :=
  ⟨hs, [], (List.append_nil hs).symm, hb, .nil⟩

theorem Progress.concat (hp : Progress r stores phase done hs)
    (hr : h.request = ⟨store, r, phase⟩) (ha : h.reply? = some a)
    (hok : phase.accepts a = true) : Progress r stores phase (done ++ [store]) (hs ++ [h]) := by
  obtain ⟨before, served, rfl, hb, hs⟩ := hp
  exact ⟨before, served ++ [h], List.append_assoc .., hb, hs.concat hr ha hok⟩

theorem Progress.failed (hp : Progress r stores phase done hs) (hne : phase ≠ .rollback)
    (hd : stores = done ++ store :: rest) (hr : h.request = ⟨store, r, phase⟩)
    (ha : h.reply? = some a) (hf : phase.accepts a = false) :
    Progress r stores .rollback [] (hs ++ [h]) := by
  obtain ⟨before, served, rfl, hb, hs⟩ := hp
  exact (Before.failed hne hb hs hd hr ha hf).progress

theorem Progress.prepared (hp : Progress r stores .prepare stores hs) :
    Progress r stores .commit [] hs := by
  obtain ⟨before, served, rfl, hb, hs⟩ := hp
  cases hb with
  | nothing => exact (Before.prepared hs).progress

theorem Before.inPhases (hb : Before r stores phase hs) (ha : Asked r phase done hs')
    (hd : done <+: stores) : InPhases r stores (hs ++ hs') := by
  cases hb with
  | nothing =>
    cases phase with
    | prepare => exact ⟨done, [], [], hs', [], [], by simp, ha, .nil, .nil, hd, by simp, by simp⟩
    | commit => exact ⟨[], done, [], [], hs', [], by simp, .nil, ha, .nil, by simp, hd, by simp⟩
    | rollback => exact ⟨[], [], done, [], [], hs', by simp, .nil, .nil, ha, by simp, by simp, hd⟩
  | prepared hp =>
    exact ⟨stores, done, [], hs, hs', [], by simp, hp.asked, ha, .nil, List.prefix_rfl, hd, by simp⟩
  | @failed phase before tried served store rest h a hne hb hs hstores hr =>
    -- The phase that failed comes last before the rollback.
    have htried : Asked r phase (tried ++ [store]) (served ++ [h]) := hs.asked.concat hr
    have hprefix : tried ++ [store] <+: stores := ⟨rest, by rw [hstores]; simp⟩
    cases hb with
    | nothing =>
      cases phase with
      | prepare =>
        exact ⟨_, [], done, _, [], hs', by simp, htried, .nil, ha, hprefix, by simp, hd⟩
      | commit =>
        exact ⟨[], _, done, [], _, hs', by simp, .nil, htried, ha, by simp, hprefix, hd⟩
      | rollback => exact absurd rfl hne
    | prepared hp =>
      exact ⟨stores, _, done, before, _, hs', by simp, hp.asked, htried, ha, List.prefix_rfl,
        hprefix, hd⟩
    | failed => exact absurd rfl hne

theorem Progress.inPhases (hp : Progress r stores phase done hs) (hd : done <+: stores) :
    InPhases r stores hs := by
  obtain ⟨before, served, rfl, hb, hs⟩ := hp
  exact hb.inPhases hs.asked hd

theorem Progress.inPhases_open (hp : Progress r stores phase done hs)
    (hr : h.request = ⟨store, r, phase⟩) (hd : stores = done ++ store :: rest) :
    InPhases r stores (hs ++ [h]) := by
  obtain ⟨before, served, rfl, hb, hs⟩ := hp
  rw [List.append_assoc]
  exact hb.inPhases (hs.asked.concat hr) ⟨rest, by rw [hd]; simp⟩

theorem InPhases.nil : InPhases r stores [] :=
  ⟨[], [], [], [], [], [], rfl, .nil, .nil, .nil, by simp, by simp, by simp⟩

/-- In every phase each store is called at most once. -/
theorem InPhases.length_ofStore_le (hp : InPhases r stores hs)
    (hnd : (stores.map (·.key)).Nodup) : (hs.ofStore key phase).length ≤ 1 := by
  obtain ⟨d₁, d₂, d₃, h₁, h₂, h₃, rfl, a₁, a₂, a₃, p₁, p₂, p₃⟩ := hp
  have hle : ∀ {phase' done hs}, Asked r phase' done hs → done <+: stores →
      (History.ofStore hs key phase).length ≤ 1 := fun ha hd =>
    ha.length_ofStore_le (hnd.sublist (hd.sublist.map _))
  rw [History.ofStore_append, History.ofStore_append]
  cases phase with
  | prepare => simpa [a₂.ofStore_eq_nil, a₃.ofStore_eq_nil] using hle a₁ p₁
  | commit => simpa [a₁.ofStore_eq_nil, a₃.ofStore_eq_nil] using hle a₂ p₂
  | rollback => simpa [a₁.ofStore_eq_nil, a₂.ofStore_eq_nil] using hle a₃ p₃

theorem InPhases.store_mem (hp : InPhases r stores hs) : ∀ h ∈ hs, h.request.store ∈ stores := by
  obtain ⟨d₁, d₂, d₃, h₁, h₂, h₃, rfl, a₁, a₂, a₃, p₁, p₂, p₃⟩ := hp
  intro h hmem
  rcases List.mem_append.mp hmem with hmem | hmem
  · rcases List.mem_append.mp hmem with hmem | hmem
    · exact p₁.subset (a₁.store_mem h hmem)
    · exact p₂.subset (a₂.store_mem h hmem)
  · exact p₃.subset (a₃.store_mem h hmem)

theorem Before.ofStore_eq_nil (hb : Before r stores phase hs) : hs.ofStore key phase = [] := by
  cases hb with
  | nothing => rfl
  | prepared hp => exact hp.asked.ofStore_eq_nil (by simp)
  | @failed phase before tried served store rest h a hne hb hs hstores hr =>
    have htried : History.ofStore (served ++ [h]) key .rollback = [] :=
      (hs.asked.concat hr).ofStore_eq_nil (Ne.symm hne)
    rw [List.append_assoc, History.ofStore_append, htried, List.append_nil]
    cases hb with
    | nothing => rfl
    | prepared hp => exact hp.asked.ofStore_eq_nil (by simp)
    | failed => exact absurd rfl hne

theorem Progress.ofStore_eq_singleton (hp : Progress r stores phase done hs)
    (hd : (done.map (·.key)).Nodup) (hmem : store ∈ done) :
    ∃ h, hs.ofStore store.key phase = [h] ∧ h.request = ⟨store, r, phase⟩ ∧
      ∃ a, h.reply? = some a ∧ phase.accepts a = true := by
  obtain ⟨before, served, rfl, hb, hs⟩ := hp
  obtain ⟨h, hone, hh⟩ := hs.ofStore_eq_singleton hd hmem
  exact ⟨h, by rw [History.ofStore_append, hb.ofStore_eq_nil, List.nil_append, hone], hh⟩

/-- Nothing is rolled back before or while the stores are asked to commit. -/
theorem Progress.ofStore_rollback_eq_nil (hp : Progress r stores phase done hs)
    (hne : phase ≠ .rollback) : hs.ofStore key .rollback = [] := by
  obtain ⟨before, served, rfl, hb, hs⟩ := hp
  rw [History.ofStore_append, hs.asked.ofStore_eq_nil (Ne.symm hne), List.append_nil]
  cases hb with
  | nothing => rfl
  | prepared hp => exact hp.asked.ofStore_eq_nil (by simp)
  | failed => exact absurd rfl hne

end Course

end Locking
