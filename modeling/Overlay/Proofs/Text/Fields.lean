import Overlay.Text.Line

/-!
# Fields of joined texts

Texts that do not contain the separator are the fields of what they are joined to, so they can be
told from it.
-/

namespace Overlay.Text

theorem fields_eq_splitOn (separator : Char) : ∀ s : List Char,
    fields separator s = s.splitOn separator
  | [] => rfl
  | c :: s => by
    rw [fields, fields_eq_splitOn separator s, List.splitOn_cons_eq_if_modifyHead]
    by_cases hc : c = separator
    · simp [hc]
    · rw [if_neg hc, if_neg (by simpa using hc)]
      cases hrest : s.splitOn separator with
      | nil => exact absurd hrest (List.splitOn_ne_nil _ _)
      | cons field rest => rfl

theorem fields_append {separator : Char} {field : List Char} (h : separator ∉ field)
    (s : List Char) : fields separator (field ++ separator :: s) = field :: fields separator s := by
  rw [fields_eq_splitOn, fields_eq_splitOn, List.splitOn_append_cons_self_of_not_mem h]

theorem fields_ne_nil (separator : Char) (s : List Char) : fields separator s ≠ [] := by
  rw [fields_eq_splitOn]
  exact List.splitOn_ne_nil _ _

theorem not_mem_of_mem_fields {separator : Char} : ∀ {s field : List Char},
    field ∈ fields separator s → separator ∉ field
  | [], _, h => by
    rw [List.mem_singleton.mp h]
    exact List.not_mem_nil
  | c :: s, field, h => by
    have ih : ∀ other ∈ fields separator s, separator ∉ other :=
      fun _ hother => not_mem_of_mem_fields hother
    rw [fields] at h
    by_cases hc : c = separator
    · rw [if_pos hc] at h
      rcases List.mem_cons.mp h with rfl | h
      · exact List.not_mem_nil
      · exact ih field h
    · rw [if_neg hc] at h
      cases hrest : fields separator s with
      | nil => exact absurd hrest (fields_ne_nil separator s)
      | cons first rest =>
        rw [hrest] at h ih
        rcases List.mem_cons.mp h with rfl | h
        · simpa [Ne.symm hc] using ih first (List.mem_cons_self ..)
        · exact ih field (List.mem_cons_of_mem _ h)

theorem cut_append {isSeparator : Char → Bool} {separator : Char} (hs : isSeparator separator = true)
    (after : List Char) : ∀ {before : List Char}, (∀ c ∈ before, isSeparator c = false) →
      cut isSeparator (before ++ separator :: after) = some (before, after)
  | [], _ => by rw [List.nil_append, cut, if_pos hs]
  | c :: before, h => by
    obtain ⟨hc, hbefore⟩ := List.forall_mem_cons.mp h
    rw [List.cons_append, cut, hc, cut_append hs after hbefore]
    rfl

theorem eq_append_of_cut {isSeparator : Char → Bool} : ∀ {s before after : List Char},
    cut isSeparator s = some (before, after) → ∃ separator, s = before ++ separator :: after
  | [], _, _, h => by cases h
  | c :: s, before, after, h => by
    rw [cut] at h
    split at h
    · cases h
      exact ⟨c, rfl⟩
    · obtain ⟨⟨before, rest⟩, hcut, hparts⟩ := Option.map_eq_some_iff.mp h
      cases hparts
      obtain ⟨separator, rfl⟩ := eq_append_of_cut hcut
      exact ⟨separator, rfl⟩

theorem joined_append_singleton (text : String) {parts : List String} (hne : parts ≠ [])
    (last : String) : joined text (parts ++ [last]) = joined text parts ++ text ++ last := by
  rw [joined, String.intercalate_append_of_ne_nil hne (by simp), String.intercalate_singleton]
  rfl

theorem joined_cons_append (text first second : String) (rest : List String) :
    joined text ((first ++ text ++ second) :: rest) = joined text (first :: second :: rest) := by
  cases rest with
  | nil => rw [joined, joined, String.intercalate_cons_cons, String.intercalate_singleton,
      String.intercalate_singleton]
  | cons third rest =>
    rw [joined, joined, String.intercalate_cons_cons, String.intercalate_cons_cons,
      String.intercalate_cons_cons]
    simp only [String.append_assoc]

section
variable {separator : Char} {text : String} (htext : text.toList = [separator])
include htext

theorem fields_joined {parts : List String} (hparts : ∀ part ∈ parts, separator ∉ part.toList)
    (hne : parts ≠ []) : fields separator (joined text parts).toList = parts.map String.toList := by
  rw [fields_eq_splitOn, joined, String.toList_intercalate, htext]
  refine List.splitOn_intercalate separator ?_ (by simpa using hne)
  intro s hs
  obtain ⟨part, hpart, rfl⟩ := List.mem_map.mp hs
  exact hparts part hpart

theorem ofList_fields_joined {parts : List String}
    (hparts : ∀ part ∈ parts, separator ∉ part.toList) (hne : parts ≠ []) :
    (fields separator (joined text parts).toList).map String.ofList = parts := by
  rw [fields_joined htext hparts hne, List.map_map]
  simp

theorem joined_injective {parts others : List String}
    (hparts : ∀ part ∈ parts, separator ∉ part.toList)
    (hothers : ∀ part ∈ others, separator ∉ part.toList) (hne : parts ≠ []) (hne' : others ≠ [])
    (h : joined text parts = joined text others) : parts = others := by
  rw [← ofList_fields_joined htext hparts hne, ← ofList_fields_joined htext hothers hne', h]

/-- The last text may contain the separator. -/
theorem fields_joined_append {parts : List String} (hparts : ∀ part ∈ parts, separator ∉ part.toList)
    (last : String) : fields separator (joined text (parts ++ [last])).toList =
      parts.map String.toList ++ fields separator last.toList := by
  by_cases hne : parts = []
  · rw [hne, List.nil_append, joined, String.intercalate_singleton]
    rfl
  · have hsplit : (joined text (parts ++ [last])).toList =
        (joined text parts).toList ++ separator :: last.toList := by
      rw [joined_append_singleton text hne, String.toList_append, String.toList_append, htext]
      simp
    rw [hsplit, fields_eq_splitOn, List.splitOn_append_cons_self, ← fields_eq_splitOn,
      ← fields_eq_splitOn, fields_joined htext hparts hne]

end

theorem prefix_joined (text first : String) (rest : List String) :
    first.toList <+: (joined text (first :: rest)).toList := by
  cases rest with
  | nil => simp [joined]
  | cons next rest =>
    rw [joined, String.intercalate_cons_cons, String.append_assoc, String.toList_append]
    exact List.prefix_append ..

theorem suffix_joined (text : String) (parts : List String) (last : String) :
    last.toList <:+ (joined text (parts ++ [last])).toList := by
  by_cases hne : parts = []
  · simp [hne, joined]
  · rw [joined_append_singleton text hne, String.toList_append]
    exact List.suffix_append ..

theorem mem_joined {text : String} {c : Char} (hc : c ∉ text.toList) : ∀ {parts : List String},
    c ∈ (joined text parts).toList ↔ ∃ part ∈ parts, c ∈ part.toList
  | [] => by simp [joined]
  | [part] => by simp [joined]
  | part :: next :: parts => by
    have ih : c ∈ (joined text (next :: parts)).toList ↔ ∃ part ∈ next :: parts, c ∈ part.toList :=
      mem_joined hc
    rw [joined] at ih
    rw [joined, String.intercalate_cons_cons, String.toList_append, String.toList_append,
      List.mem_append, List.mem_append, ih]
    simp [hc]

end Overlay.Text
