import Overlay.Format
import Overlay.Proofs.Result
import Overlay.Proofs.Text.Lines

/-!
# Streams of documents

Texts of documents that are written one after another are taken apart again: between separator
lines, or each on a line of its own.
-/

namespace Overlay.Format

/-! ## Separator lines -/

theorem chunks_of_unseparated : ∀ {lines : List (List Char)},
    (∀ line ∈ lines, Text.trimEnd line ≠ separator.toList) → chunks lines = [lines]
  | [], _ => rfl
  | line :: lines, h => by
    obtain ⟨hline, hlines⟩ := List.forall_mem_cons.mp h
    rw [chunks, if_neg hline, chunks_of_unseparated hlines]

theorem chunks_append : ∀ {lines : List (List Char)},
    (∀ line ∈ lines, Text.trimEnd line ≠ separator.toList) → ∀ rest,
      chunks (lines ++ separator.toList :: rest) = lines :: chunks rest
  | [], _, rest => by
    have htrim : Text.trimEnd separator.toList = separator.toList := by decide
    rw [List.nil_append, chunks, if_pos htrim]
  | line :: lines, h, rest => by
    obtain ⟨hline, hlines⟩ := List.forall_mem_cons.mp h
    rw [List.cons_append, chunks, if_neg hline, chunks_append hlines rest]

/-- What the text of a document needs, so that it is taken out of a stream as it is: none of its
lines loses a carriage return or is a separator, and one of them has content. -/
structure Stands (s : List Char) : Prop where
  unreturned : ∀ line ∈ Text.fields '\n' s, line.getLast? ≠ some '\r'
  unseparated : ∀ line ∈ Text.fields '\n' s, Text.trimEnd line ≠ separator.toList
  content : (Text.fields '\n' s).any isContent = true

theorem chunks_joined : ∀ {texts : List (List Char)}, (∀ s ∈ texts, Stands s) → texts ≠ [] →
    chunks (Text.lines (Text.joined (separator ++ "\n")
      (texts.map fun s => String.ofList (s ++ ['\n']))).toList) = texts.map (Text.fields '\n')
  | [], _, hne => absurd rfl hne
  | [s], h, _ => by
    have hs := h s List.mem_cons_self
    have htext : (Text.joined (separator ++ "\n") [String.ofList (s ++ ['\n'])]).toList =
        s ++ '\n' :: [] := by
      simp [Text.joined]
    rw [List.map_singleton, htext, Text.lines_append hs.unreturned, Text.lines_nil, List.append_nil,
      chunks_of_unseparated hs.unseparated]
    rfl
  | s :: t :: texts, h, _ => by
    obtain ⟨hs, htexts⟩ := List.forall_mem_cons.mp h
    have ih := chunks_joined htexts (List.cons_ne_nil t texts)
    have htext : (Text.joined (separator ++ "\n")
        ((s :: t :: texts).map fun s => String.ofList (s ++ ['\n']))).toList =
          s ++ '\n' :: (separator.toList ++ '\n' :: (Text.joined (separator ++ "\n")
            ((t :: texts).map fun s => String.ofList (s ++ ['\n']))).toList) := by
      simp only [Text.joined, List.map_cons, String.intercalate_cons_cons]
      simp [separator]
    have hseparator : Text.fields '\n' separator.toList = [separator.toList] := rfl
    have hunreturned : ∀ line ∈ Text.fields '\n' separator.toList, line.getLast? ≠ some '\r' := by
      rw [hseparator]
      decide
    rw [htext, Text.lines_append hs.unreturned, Text.lines_append hunreturned, hseparator,
      List.singleton_append, chunks_append hs.unseparated, ih]
    rfl

theorem documentTexts_of_ne {format : Format} (h : format ≠ .jsonLines) (text : String) :
    documentTexts format text =
      ((chunks (Text.lines text.toList)).filter fun part => part.any isContent).map fun part =>
        String.ofList (part.flatMap fun line => line ++ ['\n']) := by
  cases format with
  | jsonLines => exact absurd rfl h
  | _ => rfl

theorem documentTexts_joined {format : Format} (hformat : format ≠ .jsonLines)
    {texts : List (List Char)} (h : ∀ s ∈ texts, Stands s) :
    documentTexts format (Text.joined (separator ++ "\n")
      (texts.map fun s => String.ofList (s ++ ['\n']))) =
        texts.map fun s => String.ofList (s ++ ['\n']) := by
  rw [documentTexts_of_ne hformat]
  by_cases hne : texts = []
  · subst hne
    rfl
  · have hcontent : ∀ part ∈ texts.map (Text.fields '\n'), part.any isContent = true := by
      intro part hpart
      obtain ⟨s, hs, rfl⟩ := List.mem_map.mp hpart
      exact (h s hs).content
    rw [chunks_joined h hne, List.filter_eq_self.mpr hcontent, List.map_map]
    apply List.map_congr_left
    intro s _
    rw [Function.comp_apply, Text.flatMap_fields]

theorem endsWith_iff {text : String} :
    text.endsWith "\n" = true ↔ text.toList.getLast? = some '\n' := by
  rw [String.endsWith, String.Slice.endsWith_string_iff, String.copy_toSlice,
    List.getLast?_eq_some_iff]
  constructor
  · rintro ⟨s, hs⟩
    exact ⟨s, hs.symm⟩
  · rintro ⟨s, hs⟩
    exact ⟨s, hs.symm⟩

/-- A text that does not end with a line feed is closed by one. -/
theorem closed_ofList {s : List Char} (h : s.getLast? ≠ some '\n') :
    closed (String.ofList s) = String.ofList (s ++ ['\n']) := by
  have hends : (String.ofList s).endsWith "\n" = false := by
    rw [Bool.eq_false_iff, Ne, endsWith_iff, String.toList_ofList]
    exact h
  simp [closed, hends, String.ofList_append]

/-! ## Documents on lines of their own -/

theorem lines_join : ∀ {texts : List (List Char)}, (∀ s ∈ texts, Stands s ∧ '\n' ∉ s) →
    Text.lines (String.join (texts.map fun s => String.ofList (s ++ ['\n']))).toList = texts
  | [], _ => rfl
  | s :: texts, h => by
    obtain ⟨⟨hs, hbreak⟩, htexts⟩ := List.forall_mem_cons.mp h
    have htext : (String.join ((s :: texts).map fun s => String.ofList (s ++ ['\n']))).toList =
        s ++ '\n' :: (String.join (texts.map fun s => String.ofList (s ++ ['\n']))).toList := by
      simp [String.join_cons]
    rw [htext, Text.lines_append hs.unreturned, Text.fields_of_not_mem hbreak, lines_join htexts]
    rfl

theorem documentTexts_join {texts : List (List Char)} (h : ∀ s ∈ texts, Stands s ∧ '\n' ∉ s) :
    documentTexts .jsonLines (String.join (texts.map fun s => String.ofList (s ++ ['\n']))) =
      texts.map String.ofList := by
  have hcontent : ∀ s ∈ texts, isContent s = true := by
    intro s hs
    have hany := (h s hs).1.content
    rw [Text.fields_of_not_mem (h s hs).2] at hany
    simpa using hany
  have hnonempty : ∀ s ∈ texts, (!(Text.trim s).isEmpty) = true := by
    intro s hs
    have hc := hcontent s hs
    unfold isContent at hc
    cases ht : Text.trim s with
    | nil => rw [ht] at hc; cases hc
    | cons c rest => rfl
  have hparts : ∀ part ∈ texts.map fun line => [line], part.any isContent = true := by
    intro part hpart
    obtain ⟨s, hs, rfl⟩ := List.mem_map.mp hpart
    simpa using hcontent s hs
  simp only [documentTexts, lines_join h]
  rw [List.filter_eq_self.mpr hnonempty, List.filter_eq_self.mpr hparts, List.map_map]
  simp

/-! ## Values -/

theorem decodeStream_of_texts {format : Format} {text : String} {values : List Value}
    {textOf : Value → String} (htexts : documentTexts format text = values.map textOf)
    (hdecode : ∀ v ∈ values, format.decode (textOf v) = .ok v)
    (hnull : ∀ v ∈ values, v.isNull = false) : format.decodeStream text = .ok values := by
  have hvalues : (values.map textOf).mapM format.decode = .ok values := by
    have hread : ∀ v ∈ values, (format.decode ∘ textOf) v = .ok (id v) := hdecode
    rw [List.mapM_map, Result.mapM_of_forall hread, List.map_id]
  rw [decodeStream, htexts, hvalues, Result.ok_bind]
  exact congrArg Except.ok (List.filter_eq_self.mpr fun v hv => by simp [hnull v hv])

section
variable {format : Format} {write : Value → List Char} {values : List Value}
  (hstands : ∀ v ∈ values, Stands (write v))
  (hencode : ∀ v ∈ values, format.encode v = .ok (String.ofList (write v ++ ['\n'])))
  (hnull : ∀ v ∈ values, v.isNull = false)
include hstands hencode hnull

/-- Values that are read back one by one are read back from a stream. -/
theorem decodeStream_joined (hformat : format ≠ .jsonLines)
    (hdecode : ∀ v ∈ values, format.decode (String.ofList (write v ++ ['\n'])) = .ok v) :
    (do format.decodeStream (← format.encodeStream values)) = .ok values := by
  have htexts : format.encodeStream values = .ok (Text.joined (separator ++ "\n")
      ((values.map write).map fun s => String.ofList (s ++ ['\n']))) := by
    unfold encodeStream
    rw [Result.mapM_of_forall hencode, List.map_map]
    cases format with
    | jsonLines => exact absurd rfl hformat
    | _ => rfl
  have hdocuments := documentTexts_joined hformat (List.forall_mem_map.mpr hstands)
  rw [List.map_map] at hdocuments
  rw [htexts, Result.ok_bind, List.map_map, decodeStream_of_texts hdocuments hdecode hnull]

theorem decodeStream_join (hformat : format = .jsonLines) (hbreak : ∀ v ∈ values, '\n' ∉ write v)
    (hdecode : ∀ v ∈ values, format.decode (String.ofList (write v)) = .ok v) :
    (do format.decodeStream (← format.encodeStream values)) = .ok values := by
  subst hformat
  have htexts : Format.jsonLines.encodeStream values = .ok (String.join
      ((values.map write).map fun s => String.ofList (s ++ ['\n']))) := by
    unfold encodeStream
    rw [Result.mapM_of_forall hencode, List.map_map]
    rfl
  have hdocuments := (documentTexts_join (List.forall_mem_map.mpr fun v hv =>
    ⟨hstands v hv, hbreak v hv⟩)).trans List.map_map
  rw [htexts, Result.ok_bind, decodeStream_of_texts hdocuments hdecode hnull]

end

end Overlay.Format
