import Overlay.Proofs.Escape.Json
import Overlay.Toml.Printer

/-!
# TOML of escaped values

How a text is quoted in TOML does not depend on its dollar signs, as long as it has any, so the text
of an escaped value is the escaped text of the value.
-/

namespace Overlay.Toml

/-! ## Texts -/

theorem longestRow_doubled {c : Char} (h : c ≠ '$') (s : List Char) :
    longestRow c (doubled s) = longestRow c s := by
  unfold longestRow
  generalize ((0, 0) : Nat × Nat) = state
  induction s generalizing state with
  | nil => rfl
  | cons d s ih =>
    rw [doubled]
    by_cases hd : d = '$'
    · subst hd
      rw [if_pos rfl, List.foldl_cons, List.foldl_cons, List.foldl_cons, ih]
      simp only [h, if_false, Nat.max_zero]
    · rw [if_neg hd, List.foldl_cons, List.foldl_cons, ih]

theorem traits_doubled (s : List Char) : Traits.of (doubled s) = Traits.of s := by
  have hquote : '\x22' ≠ '$' := by decide
  have hmark : '\x27' ≠ '$' := by decide
  simp only [Traits.of, any_doubled, contains_doubled, longestRow_doubled hquote, longestRow_doubled hmark]

theorem keyQuoting_doubled (s : List Char) : keyQuoting (doubled s) = keyQuoting s := by
  unfold keyQuoting
  rw [traits_doubled, isEmpty_doubled, all_doubled]

theorem not_mem_escape {long : Bool} {c : Char} (h : c ≠ '$') : '$' ∉ escape long c := by
  have hhex : '$' ∉ (Text.hexOfWidth 4 c.toNat).map Char.toUpper := not_mem_upperHex
  unfold escape
  split_ifs <;> simp [hhex, h.symm]

theorem escaped_doubled (long : Bool) : ∀ (row : Nat) (s : List Char),
    escaped long row (doubled s) = doubled (escaped long row s)
  | _, [] => rfl
  | row, c :: s => by
    have ih := fun row => escaped_doubled long row s
    by_cases hc : c = '$'
    · subst hc
      have hsign : ∀ s, escaped long 0 ('$' :: s) = '$' :: escaped long 0 s := fun s => rfl
      have hfirst : ∀ s, escaped long row ('$' :: s) = '$' :: escaped long 0 s := fun s => rfl
      rw [doubled, if_pos rfl, hfirst, hfirst, hsign, ih, doubled, if_pos rfl]
    · rw [doubled_cons_of_ne hc, escaped, escaped]
      split
      · generalize (if long = true then 2 else 0) = most
        by_cases hrow : row < most
        · rw [if_pos hrow, if_pos hrow, ih, doubled_cons_of_ne hc]
        · rw [if_neg hrow, if_neg hrow, ih, doubled_cons_of_ne (by decide), doubled_cons_of_ne hc]
      · rw [ih, doubled_append, doubled_eq_self (not_mem_escape hc)]

theorem quote_doubled (q : Quoting) (s : List Char) : quote q (doubled s) = doubled (quote q s) := by
  have hbreak : doubled (if s.contains '\n' then ['\n'] else []) =
      if s.contains '\n' then ['\n'] else [] := by
    split <;> rfl
  unfold quote
  rw [contains_doubled]
  cases q with
  | bare => rfl
  | basic =>
    simp only [escaped_doubled, doubled_cons_of_ne (c := '\x22') (by decide), doubled_append]
    rfl
  | literal =>
    simp only [doubled_cons_of_ne (c := '\x27') (by decide), doubled_append]
    rfl
  | longBasic =>
    simp only [escaped_doubled, doubled_append, hbreak]
    rfl
  | longLiteral =>
    simp only [doubled_append, hbreak]
    rfl

theorem stringText_escapeText (s : String) : stringText (escapeText s) = doubled (stringText s) := by
  rw [stringText, toList_escapeText, traits_doubled, quote_doubled, stringText]

theorem keyText_escapeText (s : String) : keyText (escapeText s) = doubled (keyText s) := by
  rw [keyText, toList_escapeText, keyQuoting_doubled, quote_doubled, keyText]

/-! ## Values in a line -/

mutual
theorem inline?_escape : ∀ v : Value, inline? v.escape = (inline? v).map doubled
  | .null => rfl
  | .bool b => by cases b <;> rfl
  | .int n => congrArg some (doubled_int n.toInt).symm
  | .float x => congrArg some (Decimal.doubled_render (by decide) (by decide) x).symm
  | .string s => congrArg some (stringText_escapeText s)
  | .list items => by
    rw [Value.escape, inline?, inline?, inlineItems?_escape items, Option.map_map, Option.map_map]
    refine congrArg (Option.map · _) (funext fun parts => ?_)
    rw [Function.comp_apply, Function.comp_apply, doubled_cons_of_ne (by decide), doubled_append,
      doubled_intercalate (by decide)]
    rfl
  | .map [] => rfl
  | .map ((k, v) :: rest) => by
    have hentries := inlineEntries?_escape ((k, v) :: rest)
    rw [Value.escapeEntries] at hentries
    rw [Value.escape, Value.escapeEntries, inline?, inline?, hentries, Option.map_map, Option.map_map]
    · refine congrArg (Option.map · _) (funext fun parts => ?_)
      rw [Function.comp_apply, Function.comp_apply, doubled_cons_of_ne (by decide),
        doubled_cons_of_ne (by decide), doubled_append, doubled_intercalate (by decide)]
      rfl
    · nofun
    · nofun

theorem inlineItems?_escape : ∀ items : List Value,
    inlineItems? (Value.escapeItems items) = (inlineItems? items).map (List.map doubled)
  | [] => rfl
  | v :: rest => by
    rw [Value.escapeItems, inlineItems?, inlineItems?, inline?_escape v, inlineItems?_escape rest]
    cases inline? v <;> cases inlineItems? rest <;> rfl

theorem inlineEntries?_escape : ∀ entries : List (String × Value),
    inlineEntries? (Value.escapeEntries entries) = (inlineEntries? entries).map (List.map doubled)
  | [] => rfl
  | (k, v) :: rest => by
    rw [Value.escapeEntries, inlineEntries?, inlineEntries?, inline?_escape v,
      inlineEntries?_escape rest, keyText_escapeText]
    cases inline? v with
    | none => rfl
    | some first =>
      cases inlineEntries? rest with
      | none => rfl
      | some others => simp [doubled_append, doubled]
end

/-! ## Tables -/

theorem isMap_escape (v : Value) : v.escape.isMap = v.isMap := by
  cases v <;> rfl

theorem isTables_escape (v : Value) : isTables v.escape = isTables v := by
  cases v with
  | list items =>
    rw [Value.escape, Value.escapeItems_eq, isTables, isTables, List.all_map]
    have hmaps : (Value.isMap ∘ Value.escape) = Value.isMap := funext isMap_escape
    rw [hmaps]
    cases items <;> rfl
  | _ => rfl

theorem lines?_escape : ∀ entries : List (String × Value),
    lines? (Value.escapeEntries entries) = (lines? entries).map doubled
  | [] => rfl
  | (k, v) :: rest => by
    rw [Value.escapeEntries, lines?, lines?, lines?_escape rest, isTables_escape, inline?_escape,
      keyText_escapeText]
    cases lines? rest with
    | none => rfl
    | some others =>
      cases isTables v with
      | true => rfl
      | false =>
        cases inline? v with
        | none => rfl
        | some text => simp [doubled_append, doubled]

/-- A section with escaped texts. -/
def Section.doubled (s : Section) : Section :=
  ⟨Overlay.doubled s.header, Overlay.doubled s.body⟩

theorem headerText_escape {open_ close : String} (hopen : '$' ∉ open_.toList)
    (hclose : '$' ∉ close.toList) (path : List String) :
    headerText open_ close (path.map escapeText) = doubled (headerText open_ close path) := by
  have hkeys : (path.map escapeText).map keyText = (path.map keyText).map doubled := by
    rw [List.map_map, List.map_map]
    exact List.map_congr_left fun key _ => keyText_escapeText key
  simp only [headerText, hkeys, doubled_append, doubled_eq_self hopen, doubled_eq_self hclose,
    doubled_intercalate (by decide : '$' ∉ ['.'])]
  rfl

theorem own_escape (path : List String) (entries : List (String × Value)) (body : List Char) :
    own (path.map escapeText) (Value.escapeEntries entries) (doubled body) =
      (own path entries body).map Section.doubled := by
  have hheader : headerText "[" "]" (path.map escapeText) = doubled (headerText "[" "]" path) :=
    headerText_escape (by decide) (by decide) path
  have hentries : (Value.escapeEntries entries).isEmpty = entries.isEmpty := by
    cases entries <;> rfl
  unfold own
  rw [List.isEmpty_map, isEmpty_doubled, hentries, hheader]
  split_ifs <;> rfl

mutual
theorem sections?_escape (path : List String) : ∀ v : Value,
    sections? (path.map escapeText) v.escape =
      (sections? path v).map (List.map Section.doubled)
  | .map entries => by
    rw [Value.escape, sections?, sections?, lines?_escape, sectionsBelow?_escape path entries]
    cases lines? entries with
    | none => rfl
    | some body =>
      cases sectionsBelow? path entries with
      | none => rfl
      | some below => simp [own_escape]
  | .list items => by rw [Value.escape, sections?, sections?, elements?_escape path items]
  | .null | .bool _ | .int _ | .float _ | .string _ => by simp [Value.escape, sections?]

theorem sectionsBelow?_escape (path : List String) : ∀ entries : List (String × Value),
    sectionsBelow? (path.map escapeText) (Value.escapeEntries entries) =
      (sectionsBelow? path entries).map (List.map Section.doubled)
  | [] => rfl
  | (k, v) :: rest => by
    have hpath : path.map escapeText ++ [escapeText k] = (path ++ [k]).map escapeText := by simp
    rw [Value.escapeEntries, sectionsBelow?, sectionsBelow?, isTables_escape, hpath,
      sections?_escape (path ++ [k]) v, sectionsBelow?_escape path rest]
    cases isTables v with
    | true =>
      cases sections? (path ++ [k]) v with
      | none => rfl
      | some first => cases sectionsBelow? path rest <;> simp
    | false => cases sectionsBelow? path rest <;> simp

theorem elements?_escape (path : List String) : ∀ items : List Value,
    elements? (path.map escapeText) (Value.escapeItems items) =
      (elements? path items).map (List.map Section.doubled)
  | [] => rfl
  | .map entries :: rest => by
    have hheader : headerText "[[" "]]" (path.map escapeText) = doubled (headerText "[[" "]]" path) :=
      headerText_escape (by decide) (by decide) path
    rw [Value.escapeItems, Value.escape, elements?, elements?, lines?_escape,
      sectionsBelow?_escape path entries, elements?_escape path rest, hheader]
    cases lines? entries with
    | none => rfl
    | some body =>
      cases sectionsBelow? path entries with
      | none => rfl
      | some below => cases elements? path rest <;> simp [Section.doubled]
  | .null :: rest | .bool _ :: rest | .int _ :: rest | .float _ :: rest | .string _ :: rest
  | .list _ :: rest => by
    simp only [Value.escapeItems, Value.escape, elements?, elements?_escape path rest]
end

theorem joinSections_doubled : ∀ parts : List Section,
    joinSections (parts.map Section.doubled) = doubled (joinSections parts)
  | [] => rfl
  | s :: rest => by
    have hrest : ∀ rest : List Section,
        (rest.map Section.doubled).flatMap (fun t => '\n' :: (t.header ++ t.body)) =
          doubled (rest.flatMap fun t => '\n' :: (t.header ++ t.body)) := by
      intro rest
      induction rest with
      | nil => rfl
      | cons t rest ih =>
        rw [List.map_cons, List.flatMap_cons, List.flatMap_cons, ih, doubled_append,
          doubled_cons_of_ne (by decide), doubled_append]
        rfl
    rw [List.map_cons, joinSections, joinSections, hrest, doubled_append, doubled_append]
    rfl

theorem render?_escape (v : Value) : render? v.escape = (render? v).map escapeText := by
  have hsections := sections?_escape [] v
  unfold render?
  rw [isMap_escape]
  cases v.isMap with
  | false => rfl
  | true =>
    rw [if_pos rfl, if_pos rfl, Option.map_map]
    rw [List.map_nil] at hsections
    rw [hsections, Option.map_map]
    refine congrArg (Option.map · _) (funext fun parts => ?_)
    rw [Function.comp_apply, Function.comp_apply, joinSections_doubled, escapeText,
      String.toList_ofList]

end Overlay.Toml
