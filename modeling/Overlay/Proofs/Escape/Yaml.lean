import Overlay.Proofs.Escape.Json
import Overlay.Proofs.Value.Inside
import Overlay.Proofs.Yaml.Scalar
import Overlay.Yaml.Printer

/-!
# YAML of escaped values

How a text is written in YAML does not depend on how many dollar signs stand in it. Only the length
of a key does: one that grows past the limit is written in another way. If no key does, the text of
an escaped value is the escaped text of the value.
-/

namespace Overlay.Yaml

/-! ## Styles -/

theorem hasNeighbours_cons (first second : Char → Bool) (c : Char) (s : List Char) :
    hasNeighbours first second (c :: s) =
      (s.head?.any (fun d => first c && second d) || hasNeighbours first second s) := by
  cases s <;> rfl

theorem hasNeighbours_doubled {first second : Char → Bool} (h : (first '$' && second '$') = false) :
    ∀ s : List Char, hasNeighbours first second (doubled s) = hasNeighbours first second s
  | [] => rfl
  | c :: s => by
    have ih := hasNeighbours_doubled h s
    rw [hasNeighbours_cons, doubled]
    by_cases hc : c = '$'
    · rw [if_pos hc, hasNeighbours_cons, hasNeighbours_cons, ih, head?_doubled, hc, List.head?_cons,
        Option.any_some, h, Bool.false_or]
    · rw [if_neg hc, hasNeighbours_cons, ih, head?_doubled]

theorem isIndicator_sign (before after : Option Char) : isIndicator before (some '$') after = false := by
  cases before <;> rfl

theorem hasIndicator_doubled : ∀ (before : Option Char) (s : List Char),
    hasIndicator before (doubled s) = hasIndicator before s
  | _, [] => rfl
  | before, c :: s => by
    have ih := fun before => hasIndicator_doubled before s
    rw [doubled]
    by_cases hc : c = '$'
    · simp only [hc, if_true, hasIndicator, isIndicator_sign, ih, Bool.false_or]
    · rw [if_neg hc, hasIndicator, hasIndicator, ih, head?_doubled]

theorem isPrefix_doubled {mark : List Char} (h : '$' ∉ mark) {s : List Char} :
    mark <+: doubled s ↔ mark <+: s := by
  induction mark generalizing s with
  | nil => simp
  | cons m mark ih =>
    obtain ⟨hm, hmark⟩ := List.ne_and_not_mem_of_not_mem_cons h
    cases s with
    | nil => rfl
    | cons c s =>
      by_cases hc : c = '$'
      · simp [doubled, hc, List.cons_prefix_cons, hm.symm]
      · rw [doubled_cons_of_ne hc, List.cons_prefix_cons, List.cons_prefix_cons, ih hmark]

theorem startsWith_doubled {mark : String} (h : '$' ∉ mark.toList) (hlength : mark.toList.length = 3)
    (s : List Char) :
    (String.ofList ((doubled s).take 3) == mark) = (String.ofList (s.take 3) == mark) := by
  have hstart : ∀ t : List Char, String.ofList (t.take 3) = mark ↔ mark.toList <+: t := fun t => by
    rw [List.prefix_iff_eq_take, hlength, ← String.toList_inj, String.toList_ofList, eq_comm]
  rw [Bool.eq_iff_iff, beq_iff_eq, beq_iff_eq, hstart, hstart, isPrefix_doubled h]

theorem needsEscapes_doubled (s : List Char) : needsEscapes (doubled s) = needsEscapes s := by
  rw [needsEscapes, all_doubled, hasNeighbours_doubled rfl, needsEscapes]

theorem isMultiline_doubled (s : List Char) : isMultiline (doubled s) = isMultiline s :=
  any_doubled isBreak s

theorem allowsPlain_doubled (s : List Char) : allowsPlain (doubled s) = allowsPlain s := by
  have hhyphens := startsWith_doubled (by decide : '$' ∉ "---".toList) rfl s
  have hpoints := startsWith_doubled (by decide : '$' ∉ "...".toList) rfl s
  simp only [allowsPlain, needsEscapes_doubled, isMultiline_doubled, hasIndicator_doubled,
    head?_doubled, getLast?_doubled, hhyphens, hpoints]

theorem allowsSingle_doubled (s : List Char) : allowsSingle (doubled s) = allowsSingle s := by
  rw [allowsSingle, needsEscapes_doubled, hasNeighbours_doubled rfl, allowsSingle]

theorem allowsLiteral_doubled (s : List Char) : allowsLiteral (doubled s) = allowsLiteral s := by
  rw [allowsLiteral, needsEscapes_doubled, getLast?_doubled, allowsLiteral]

theorem isAmbiguous_doubled (s : List Char) : isAmbiguous (doubled s) = isAmbiguous s := by
  have hsign : ∀ {s : List Char}, '$' ∈ s → isAmbiguous s = false := fun h => by
    rw [isAmbiguous, resolve_of_sign h]
    exact isZeroPadded_of_sign h
  by_cases h : '$' ∈ s
  · rw [hsign h, hsign (mem_doubled.mpr h)]
  · rw [doubled_eq_self h]

theorem styleOf_doubled (isKey : Bool) (s : List Char) :
    ScalarStyle.of isKey (doubled s) = ScalarStyle.of isKey s := by
  simp only [ScalarStyle.of, allowsSingle_doubled, allowsLiteral_doubled, allowsPlain_doubled,
    isMultiline_doubled, isAmbiguous_doubled, contains_doubled]

/-! ## Texts -/

theorem indented_doubled {write : Char → List Char} (hsign : write '$' = ['$'])
    (hwrite : ∀ c, c ≠ '$' → '$' ∉ write c) (indent : Nat) : ∀ (startsLine : Bool) (s : List Char),
    indented write indent startsLine (doubled s) = doubled (indented write indent startsLine s)
  | _, [] => rfl
  | startsLine, c :: s => by
    have ih := fun startsLine => indented_doubled hsign hwrite indent startsLine s
    have hmargin : doubled (if startsLine then List.replicate indent ' ' else []) =
        if startsLine then List.replicate indent ' ' else [] := by
      apply doubled_eq_self
      split <;> simp
    by_cases hc : c = '$'
    · have hword : isBreak '$' = false := by decide
      simp only [hc, doubled, if_true, indented, hword, Bool.false_eq_true, if_false, hsign, ih,
        doubled_append, hmargin, List.nil_append, List.append_assoc, List.cons_append]
    · rw [doubled_cons_of_ne hc, indented, indented]
      split
      · rw [ih, doubled_cons_of_ne hc]
      · rw [ih, doubled_append, doubled_append, hmargin, doubled_eq_self (hwrite c hc)]

theorem blockHeader_doubled (s : List Char) : blockHeader (doubled s) = doubled (blockHeader s) := by
  have hheader : blockHeader (doubled s) = blockHeader s := by
    unfold blockHeader
    rw [head?_doubled, reverse_doubled]
    cases s.reverse with
    | nil => rfl
    | cons c before =>
      by_cases hc : c = '$'
      · rw [hc]
        rfl
      · rw [doubled_cons_of_ne hc]
        simp only [head?_doubled]
  rw [hheader, doubled_eq_self]
  unfold blockHeader
  dsimp only
  rw [List.mem_append, not_or]
  constructor
  · split <;> decide
  · split
    · decide
    · split
      · decide
      · split <;> decide

theorem not_mem_escape {c : Char} (h : c ≠ '$') : '$' ∉ escape c := by
  have hsplit : ∀ {p : Prop} [Decidable p] {s t : List Char}, '$' ∉ s → '$' ∉ t →
      '$' ∉ if p then s else t := fun hs ht => by
    split
    · exact hs
    · exact ht
  have hself : '$' ∉ [c] := by simpa using h.symm
  have hhex : ∀ {x : Char} {width n : Nat}, x ≠ '$' → '$' ∉ '\\' :: x :: upperHex width n :=
    fun hx => by simp [hx.symm, upperHex, not_mem_upperHex]
  unfold escape
  repeat' apply hsplit
  all_goals first
    | decide
    | exact hself
    | exact hhex (by decide)

theorem write_doubled (style : ScalarStyle) (indent : Nat) (s : List Char) :
    style.write indent (doubled s) = doubled (style.write indent s) := by
  cases style with
  | plain => rfl
  | single =>
    have hmargin : doubled (if s.getLast?.any isBreak then List.replicate indent ' ' else []) =
        if s.getLast?.any isBreak then List.replicate indent ' ' else [] := by
      apply doubled_eq_self
      split <;> simp
    have hwrite : ∀ c : Char, c ≠ '$' → '$' ∉ if c = '\x27' then [c, c] else [c] := by
      intro c hc
      split <;> simp [hc.symm]
    simp only [ScalarStyle.write, getLast?_doubled, doubled_append, hmargin,
      doubled_cons_of_ne (c := '\x27') (by decide), indented_doubled rfl hwrite]
    rfl
  | double =>
    simp only [ScalarStyle.write, doubled_append, doubled_cons_of_ne (c := '\x22') (by decide),
      doubled_flatMap (f := escape) rfl fun _ => not_mem_escape]
    rfl
  | literal =>
    have hwrite : ∀ c : Char, c ≠ '$' → '$' ∉ [c] := fun c hc => by simp [hc.symm]
    simp only [ScalarStyle.write, doubled_append, doubled_cons_of_ne (c := '|') (by decide),
      doubled_cons_of_ne (c := '\n') (by decide), blockHeader_doubled, indented_doubled rfl hwrite]

theorem stringText_escapeText (isKey : Bool) (indent : Nat) (s : String) :
    stringText isKey indent (escapeText s) = doubled (stringText isKey indent s) := by
  rw [stringText, toList_escapeText, styleOf_doubled, write_doubled, stringText]

theorem closeLine_doubled (s : List Char) : closeLine (doubled s) = doubled (closeLine s) := by
  unfold closeLine
  rw [getLast?_doubled]
  split
  · rfl
  · rw [doubled_append]
    rfl

/-! ## Blocks -/

/-- Whether the keys of a map stay on their side of the limit of length when they are escaped. -/
def KeepsKeys : Value → Prop :=
  Value.Everywhere fun
    | .map entries => ∀ e ∈ entries, isSimpleKey (escapeText e.1) = isSimpleKey e.1
    | _ => True

theorem keepsKeys_map {entries : Entries Value} : KeepsKeys (.map entries) ↔
    ∀ e ∈ entries, isSimpleKey (escapeText e.1) = isSimpleKey e.1 ∧ KeepsKeys e.2 := by
  rw [KeepsKeys, Value.everywhere_map, ← forall₂_and]

theorem keepsKeys_list {items : List Value} :
    KeepsKeys (.list items) ↔ ∀ x ∈ items, KeepsKeys x :=
  Value.everywhere_list.trans (and_iff_right trivial)

theorem inline_escape (indent : Nat) (v : Value) :
    inline indent v.escape = doubled (inline indent v) := by
  cases v with
  | bool b => cases b <;> rfl
  | int n => exact (doubled_int n.toInt).symm
  | float x => exact (Decimal.doubled_render (by decide) (by decide) x).symm
  | string s => exact stringText_escapeText false indent s
  | _ => rfl

theorem doubled_column (indent : Nat) : doubled (column indent) = column indent :=
  doubled_eq_self (by simp [column])

theorem drop_column (indent : Nat) (s : List Char) : (column indent ++ s).drop indent = s :=
  List.drop_left' List.length_replicate

mutual
theorem block_escape (indent : Nat) : ∀ v : Value, KeepsKeys v →
    block indent v.escape = doubled (block indent v)
  | .map ((k, x) :: rest), h => by
    have hentries := entries_escape indent ((k, x) :: rest) (keepsKeys_map.mp h)
    rw [Value.escapeEntries] at hentries
    rw [Value.escape, Value.escapeEntries, block, block, hentries, entries, List.append_assoc,
      doubled_append, doubled_column, drop_column, drop_column]
  | .list (x :: rest), h => by
    have hitems := items_escape indent (x :: rest) (keepsKeys_list.mp h)
    rw [Value.escapeItems] at hitems
    rw [Value.escape, Value.escapeItems, block, block, hitems, items, List.append_assoc,
      doubled_append, doubled_column, drop_column, drop_column]
  | .map [], _ | .list [], _ => rfl
  | .null, _ | .bool _, _ | .int _, _ | .float _, _ | .string _, _ => by
    simp only [Value.escape, block, ← closeLine_doubled, ← inline_escape]

theorem afterColon_escape (indent : Nat) : ∀ v : Value, KeepsKeys v →
    afterColon indent v.escape = doubled (afterColon indent v)
  | .map ((k, x) :: rest), h => by
    have hentries := entries_escape (indent + 2) ((k, x) :: rest) (keepsKeys_map.mp h)
    rw [Value.escapeEntries] at hentries
    rw [Value.escape, Value.escapeEntries, afterColon, afterColon, hentries,
      doubled_cons_of_ne (by decide)]
  | .list (x :: rest), h => by
    have hitems := items_escape indent (x :: rest) (keepsKeys_list.mp h)
    rw [Value.escapeItems] at hitems
    rw [Value.escape, Value.escapeItems, afterColon, afterColon, hitems,
      doubled_cons_of_ne (by decide)]
  | .map [], _ | .list [], _ => rfl
  | .null, _ | .bool _, _ | .int _, _ | .float _, _ | .string _, _ => by
    simp only [Value.escape, afterColon, ← closeLine_doubled, ← inline_escape, doubled_cons_of_ne (by decide : ' ' ≠ '$')]

theorem entries_escape (indent : Nat) : ∀ es : List (String × Value),
    (∀ e ∈ es, isSimpleKey (escapeText e.1) = isSimpleKey e.1 ∧ KeepsKeys e.2) →
      entries indent (Value.escapeEntries es) = doubled (entries indent es)
  | [], _ => rfl
  | (k, x) :: rest, h => by
    obtain ⟨⟨hk, hx⟩, hrest⟩ := List.forall_mem_cons.mp h
    rw [Value.escapeEntries, entries, entries, hk, entries_escape indent rest hrest]
    split
    · rw [stringText_escapeText, afterColon_escape indent x hx]
      simp only [doubled_append, doubled_column, doubled_cons_of_ne (c := ':') (by decide)]
    · rw [stringText_escapeText, block_escape (indent + 2) x hx, closeLine_doubled]
      simp only [doubled_append, doubled_column, doubled_cons_of_ne (c := ':') (by decide),
        doubled_cons_of_ne (c := '?') (by decide), doubled_cons_of_ne (c := ' ') (by decide)]

theorem items_escape (indent : Nat) : ∀ xs : List Value, (∀ x ∈ xs, KeepsKeys x) →
    items indent (Value.escapeItems xs) = doubled (items indent xs)
  | [], _ => rfl
  | x :: rest, h => by
    obtain ⟨hx, hrest⟩ := List.forall_mem_cons.mp h
    rw [Value.escapeItems, items, items, items_escape indent rest hrest,
      block_escape (indent + 2) x hx]
    simp only [doubled_append, doubled_column, doubled_cons_of_ne (c := '-') (by decide),
      doubled_cons_of_ne (c := ' ') (by decide)]
end

theorem render_escape {v : Value} (h : KeepsKeys v) : render v.escape = escapeText (render v) := by
  have hblock : String.ofList (block 0 v.escape) = escapeText (String.ofList (block 0 v)) := by
    rw [block_escape 0 v h, escapeText, String.toList_ofList]
  cases v with
  | string s =>
    rw [Value.escape, render, render, stringText_escapeText, closeLine_doubled, escapeText,
      String.toList_ofList]
  | _ => exact hblock

end Overlay.Yaml
