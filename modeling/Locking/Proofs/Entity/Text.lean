import Mathlib.Data.Set.Function
import Mathlib.Data.List.Basic
import Locking.Entity

/-! Entities as text.  The text of an entity reads back as the same entity exactly if no segment is
empty or holds a dot, and reading never yields another kind of entity.  So no two entities that
were read from texts have the same text. -/

namespace Locking.EntityId

variable {e : EntityId} {cs p : List Char}

/-! ### Pieces -/

theorem pieces_eq_splitOn (cs : List Char) : pieces cs = cs.splitOn '.' := by
  induction cs with
  | nil => rfl
  | cons c cs ih =>
    rw [pieces, List.splitOn, List.splitOnP_cons_eq_if_modifyHead, ih]
    simp only [beq_iff_eq, List.splitOn]
    split
    · rfl
    · cases hs : List.splitOnP (· == '.') cs with
      | nil => exact absurd hs (List.splitOnP_ne_nil _ _)
      | cons => rfl

theorem joined_eq_intercalate : (ps : List (List Char)) → joined ps = ['.'].intercalate ps
  | [] => rfl
  | [p] => by simp [joined, List.intercalate]
  | p :: q :: ps => by
    rw [joined, List.intercalate_cons_cons, joined_eq_intercalate (q :: ps), List.append_assoc]
    rfl

theorem not_mem_of_mem_pieces (h : p ∈ pieces cs) : '.' ∉ p := by
  induction cs generalizing p with
  | nil => simp [List.mem_singleton.mp h]
  | cons c cs ih =>
    rw [pieces] at h
    split at h
    · rcases List.mem_cons.mp h with rfl | h
      · simp
      · exact ih h
    · next hc =>
      split at h
      · simpa [List.mem_singleton.mp h] using Ne.symm hc
      · next q qs hq =>
        rw [hq] at ih
        rcases List.mem_cons.mp h with rfl | h
        · simpa [Ne.symm hc] using ih (List.mem_cons_self)
        · exact ih (List.mem_cons_of_mem _ h)

/-- Pieces without dots are found again in the text that joins them. -/
theorem pieces_joined {ps : List (List Char)} (hne : ps ≠ []) (h : ∀ p ∈ ps, '.' ∉ p) :
    pieces (joined ps) = ps := by
  rw [pieces_eq_splitOn, joined_eq_intercalate, List.splitOn_intercalate '.' h hne]

/-! ### Reading -/

/-- No segment is empty or holds a dot. -/
def Plain (e : EntityId) : Prop := ∀ p ∈ e.segments, p ≠ "" ∧ '.' ∉ p.toList

/-- Reading yields nothing but plain entities. -/
theorem plain_ofText (s : String) : (ofText s).Plain := by
  intro p hp
  obtain ⟨cs, hcs, rfl⟩ := List.mem_map.mp hp
  obtain ⟨hpiece, hne⟩ := List.mem_filter.mp hcs
  refine ⟨fun he => ?_, by simpa using not_mem_of_mem_pieces hpiece⟩
  have hnil : cs = [] := by simpa using congrArg String.toList he
  simp [hnil] at hne

theorem Plain.ofText_text (h : e.Plain) : ofText e.text = e := by
  obtain ⟨segments⟩ := e
  by_cases hne : segments = []
  · subst hne
    simp [ofText, text, joined, pieces]
  have hpieces : pieces (joined (segments.map String.toList)) = segments.map String.toList := by
    refine pieces_joined (by simpa using hne) fun p hp => ?_
    obtain ⟨s, hs, rfl⟩ := List.mem_map.mp hp
    exact (h s hs).2
  have hfull : ∀ p ∈ segments.map String.toList, (!p.isEmpty) = true := by
    intro p hp
    obtain ⟨s, hs, rfl⟩ := List.mem_map.mp hp
    simpa using (h s hs).1
  rw [ofText, text, String.toList_ofList, hpieces, List.filter_eq_self.mpr hfull, List.map_map]
  simp [Function.comp_def]

/-- Text and entities.  What a text is read as has a text of its own that is read as the same, and
no segment of it is empty or holds a dot; an entity of whatever segments is read back from its text
exactly if that is so; and different entities that were read from texts have different texts. -/
theorem text_round_trip :
    (∀ s : String, ofText (ofText s).text = ofText s ∧ (ofText s).Plain) ∧
      (∀ e : EntityId, ofText e.text = e ↔ e.Plain) ∧ Set.InjOn text (Set.range ofText) := by
  have hback : ∀ s : String, ofText (ofText s).text = ofText s := fun s =>
    (plain_ofText s).ofText_text
  refine ⟨fun s => ⟨hback s, plain_ofText s⟩, fun e => ⟨fun h => h ▸ plain_ofText _, ?_⟩, ?_⟩
  · exact Plain.ofText_text
  · rintro _ ⟨s, rfl⟩ _ ⟨t, rfl⟩ hst
    rw [← hback s, hst, hback t]

example : ofText ".ns..orders" = ⟨["ns", "orders"]⟩ ∧
    ofText (text ⟨["ns.orders", ""]⟩) = ⟨["ns", "orders"]⟩ := by decide +kernel

end Locking.EntityId
