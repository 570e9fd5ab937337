import Overlay.Proofs.Text.Fields
import Overlay.Text.Blank

/-!
# Lines and blanks at their ends

A line end closes the lines before it, so lines are read one after another. Trimming takes away
nothing but blanks.
-/

namespace Overlay.Text

/-! ## Lines -/

theorem lines_nil : lines [] = [] := rfl

theorem dropReturn_of_ne {line : List Char} (h : line.getLast? ≠ some '\r') :
    dropReturn line = line :=
  if_neg h

theorem lines_append {s : List Char} (h : ∀ line ∈ fields '\n' s, line.getLast? ≠ some '\r')
    (t : List Char) : lines (s ++ '\n' :: t) = fields '\n' s ++ lines t := by
  have hsplit : fields '\n' (s ++ '\n' :: t) = fields '\n' s ++ fields '\n' t := by
    rw [fields_eq_splitOn, fields_eq_splitOn, fields_eq_splitOn, List.splitOn_append_cons_self]
  have hclosed : (fields '\n' s).map dropReturn = fields '\n' s :=
    (List.map_congr_left fun line hline => dropReturn_of_ne (h line hline)).trans (List.map_id _)
  have hne := fields_ne_nil '\n' t
  unfold lines
  dsimp only
  rw [hsplit, List.dropLast_append_of_ne_nil hne, List.map_append, hclosed, List.getLast?_append]
  cases hlast : (fields '\n' t).getLast? with
  | none => exact absurd (List.getLast?_eq_none_iff.mp hlast) hne
  | some last => cases last <;> simp

theorem fields_of_not_mem {separator : Char} {s : List Char} (h : separator ∉ s) :
    fields separator s = [s] := by
  rw [fields_eq_splitOn]
  exact List.splitOn_eq_singleton h

theorem mem_of_mem_fields {separator c : Char} {s field : List Char}
    (hfield : field ∈ fields separator s) (hc : c ∈ field) : c ∈ s := by
  induction s generalizing field with
  | nil =>
    rw [List.mem_singleton.mp hfield] at hc
    cases hc
  | cons d s ih =>
    rw [fields] at hfield
    by_cases hd : d = separator
    · rw [if_pos hd] at hfield
      rcases List.mem_cons.mp hfield with rfl | hfield
      · cases hc
      · exact List.mem_cons_of_mem d (ih hfield hc)
    · rw [if_neg hd] at hfield
      cases hs : fields separator s with
      | nil => exact absurd hs (fields_ne_nil separator s)
      | cons f rest =>
        rw [hs] at hfield
        rcases List.mem_cons.mp hfield with rfl | hfield
        · rcases List.mem_cons.mp hc with rfl | hc
          · exact List.mem_cons_self
          · exact List.mem_cons_of_mem d (ih (hs ▸ List.mem_cons_self) hc)
        · exact List.mem_cons_of_mem d (ih (hs ▸ List.mem_cons_of_mem f hfield) hc)

theorem flatMap_fields (separator : Char) : ∀ s : List Char,
    (fields separator s).flatMap (· ++ [separator]) = s ++ [separator]
  | [] => rfl
  | c :: s => by
    have ih := flatMap_fields separator s
    rw [fields]
    by_cases hc : c = separator
    · rw [if_pos hc, List.flatMap_cons, ih, hc]
      rfl
    · rw [if_neg hc]
      cases hs : fields separator s with
      | nil => exact absurd hs (fields_ne_nil separator s)
      | cons f rest =>
        rw [hs] at ih
        rw [List.flatMap_cons] at ih ⊢
        rw [List.cons_append, List.cons_append, List.cons_append, ih]

/-! ## Blanks -/

theorem trimStart_cons {c : Char} (h : isBlank c = false) (s : List Char) :
    trimStart (c :: s) = c :: s := by
  simp [trimStart, h]

theorem trimEnd_append {c : Char} (h : isBlank c = false) (s : List Char) :
    trimEnd (s ++ [c]) = s ++ [c] := by
  simp [trimEnd, h]

/-- No blank at the ends. -/
structure Trimmed (s : List Char) : Prop where
  head : ∀ c ∈ s.head?, isBlank c = false
  last : ∀ c ∈ s.getLast?, isBlank c = false

theorem trimmed_iff {s : List Char} : Trimmed s ↔
    (s.head?.all fun c => !isBlank c) = true ∧ (s.getLast?.all fun c => !isBlank c) = true := by
  have hall : ∀ {o : Option Char}, (o.all fun c => !isBlank c) = true ↔ ∀ c ∈ o, isBlank c = false := by
    intro o
    cases o <;> simp
  rw [hall, hall]
  exact ⟨fun ⟨hhead, hlast⟩ => ⟨hhead, hlast⟩, fun ⟨hhead, hlast⟩ => ⟨hhead, hlast⟩⟩

instance (s : List Char) : Decidable (Trimmed s) :=
  decidable_of_iff _ trimmed_iff.symm

theorem Trimmed.trim_eq {s : List Char} (h : Trimmed s) : trim s = s := by
  unfold trim
  cases s with
  | nil => rfl
  | cons c t =>
    obtain ⟨start, d, hend⟩ : ∃ start d, c :: t = start ++ [d] :=
      ⟨_, _, (List.dropLast_concat_getLast (List.cons_ne_nil c t)).symm⟩
    rw [trimStart_cons (h.head c rfl), hend]
    apply trimEnd_append
    apply h.last
    rw [hend]
    simp

/-- Whether a text is trimmed is seen at what it begins and ends with. -/
theorem Trimmed.of_ends {first last s : List Char} (hfirst : Trimmed first) (hlast : Trimmed last)
    (hne : first ≠ []) (hne' : last ≠ []) (hstart : first <+: s) (hend : last <:+ s) :
    Trimmed s := by
  constructor
  · obtain ⟨rest, rfl⟩ := hstart
    obtain ⟨c, t, rfl⟩ := List.exists_cons_of_ne_nil hne
    exact hfirst.head
  · obtain ⟨start, rfl⟩ := hend
    rw [List.getLast?_append, List.getLast?_eq_some_getLast hne', Option.some_or,
      ← List.getLast?_eq_some_getLast hne']
    exact hlast.last

theorem mem_trimEnd {c : Char} (h : isBlank c = false) {s : List Char} (hc : c ∈ s) :
    c ∈ trimEnd s := by
  unfold trimEnd
  rw [List.mem_reverse]
  have hsplit := List.takeWhile_append_dropWhile (p := isBlank) (l := s.reverse)
  have hmem : c ∈ s.reverse.takeWhile isBlank ++ s.reverse.dropWhile isBlank := by
    rw [hsplit]
    exact List.mem_reverse.mpr hc
  rcases List.mem_append.mp hmem with hblank | hrest
  · rw [List.all_eq_true.mp List.all_takeWhile c hblank] at h
    cases h
  · exact hrest

theorem trimEnd_cons {c : Char} (h : isBlank c = false) (s : List Char) :
    trimEnd (c :: s) = c :: trimEnd s := by
  unfold trimEnd
  rw [List.reverse_cons, List.dropWhile_append]
  by_cases hs : (s.reverse.dropWhile isBlank).isEmpty
  · rw [if_pos hs]
    rw [List.isEmpty_iff.mp hs]
    simp [h]
  · rw [if_neg hs]
    simp

end Overlay.Text
