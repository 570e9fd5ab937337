import Overlay.Proofs.Format.Stream
import Overlay.Proofs.Json.RoundTrip

/-!
# JSON in streams

No line of a JSON text is taken for a separator, and none is blank or a comment as a whole: each has
a character that is neither blank nor a hyphen. So values are read back from streams in all forms of
JSON.
-/

namespace Overlay

namespace Json

/-! ## Characters of JSON text -/

/-- Whether a style writes a character: no control character, apart from line feeds in the style with
one entry a line. -/
def Style.Writes (style : Style) (c : Char) : Prop :=
  0x20 ≤ c.toNat ∨ style = .pretty ∧ c = '\n'

theorem ge_of_mem_hexOfWidth {width n : Nat} {c : Char} (h : c ∈ Text.hexOfWidth width n) :
    0x20 ≤ c.toNat := by
  have hdigit : ∀ m < 16, 0x20 ≤ (Nat.digitChar m).toNat := by decide
  obtain ⟨m, hm, rfl⟩ := Text.exists_of_mem_hexOfWidth h
  exact hdigit m hm

theorem ge_of_mem_escape {c d : Char} (h : d ∈ escape c) : 0x20 ≤ d.toNat := by
  by_cases hshort : c ∈ ['\x22', '\\', '\x08', '\x0c', '\n', '\r', '\t']
  · simp only [List.mem_cons, List.not_mem_nil, or_false] at hshort
    rcases hshort with rfl | rfl | rfl | rfl | rfl | rfl | rfl <;>
      (simp [escape] at h; rcases h with rfl | rfl <;> decide)
  · simp only [List.mem_cons, List.not_mem_nil, or_false, not_or] at hshort
    by_cases hcontrol : c.toNat < 0x20
    · simp only [escape, hshort, hcontrol, if_true, if_false, List.mem_cons] at h
      rcases h with rfl | rfl | h
      · decide
      · decide
      · exact ge_of_mem_hexOfWidth h
    · simp only [escape, hshort, hcontrol, if_false, List.mem_singleton] at h
      subst h
      omega

theorem ge_of_mem_quoted {text : String} {c : Char} (h : c ∈ quoted text) : 0x20 ≤ c.toNat := by
  simp only [quoted, List.mem_cons, List.mem_append, List.mem_flatMap, List.not_mem_nil, or_false] at h
  rcases h with rfl | ⟨d, -, hd⟩ | rfl
  · decide
  · exact ge_of_mem_escape hd
  · decide

theorem writes_of_mem_lineBreak {style : Style} {depth : Nat} {c : Char}
    (h : c ∈ style.lineBreak depth) : style.Writes c := by
  cases style with
  | compact => cases h
  | pretty =>
    rcases List.mem_cons.mp h with rfl | h
    · exact .inr ⟨rfl, rfl⟩
    · obtain ⟨-, rfl⟩ := List.mem_replicate.mp h
      exact .inl (by decide)

theorem writes_of_mem_colon {style : Style} {c : Char} (h : c ∈ style.colon) : style.Writes c := by
  cases style <;> simp [Style.colon] at h
  · subst h
    exact .inl (by decide)
  · rcases h with rfl | rfl <;> exact .inl (by decide)

theorem writes_of_mem_charsItems {style : Style} {depth : Nat} : ∀ {items : List Value},
    (∀ x ∈ items, ∀ c ∈ chars style (depth + 1) x, style.Writes c) →
      ∀ c ∈ charsItems style depth items, style.Writes c
  | [], _, c, hc => by
    rw [charsItems, List.mem_append, List.mem_singleton] at hc
    rcases hc with hc | rfl
    · exact writes_of_mem_lineBreak hc
    · exact .inl (by decide)
  | x :: items, h, c, hc => by
    obtain ⟨hx, hitems⟩ := List.forall_mem_cons.mp h
    rw [charsItems, List.mem_cons, List.mem_append, List.mem_append] at hc
    rcases hc with rfl | (hc | hc) | hc
    · exact .inl (by decide)
    · exact writes_of_mem_lineBreak hc
    · exact hx c hc
    · exact writes_of_mem_charsItems hitems c hc

theorem writes_of_mem_charsEntries {style : Style} {depth : Nat} : ∀ {entries : Entries Value},
    (∀ e ∈ entries, ∀ c ∈ chars style (depth + 1) e.2, style.Writes c) →
      ∀ c ∈ charsEntries style depth entries, style.Writes c
  | [], _, c, hc => by
    rw [charsEntries, List.mem_append, List.mem_singleton] at hc
    rcases hc with hc | rfl
    · exact writes_of_mem_lineBreak hc
    · exact .inl (by decide)
  | (k, x) :: entries, h, c, hc => by
    obtain ⟨hx, hentries⟩ := List.forall_mem_cons.mp h
    simp only [charsEntries, List.mem_cons, List.mem_append] at hc
    rcases hc with rfl | (((hc | hc) | hc) | hc) | hc
    · exact .inl (by decide)
    · exact writes_of_mem_lineBreak hc
    · exact .inl (ge_of_mem_quoted hc)
    · exact writes_of_mem_colon hc
    · exact hx c hc
    · exact writes_of_mem_charsEntries hentries c hc

theorem ge_of_mem_decimal {n : Nat} {c : Char} (h : c ∈ Text.decimal n) : 0x20 ≤ c.toNat := by
  have hdigit := Text.isDigit_of_mem_decimal h
  simp only [Char.isDigit, Bool.and_eq_true, decide_eq_true_eq, UInt32.le_iff_toNat_le] at hdigit
  have hle : 48 ≤ c.toNat := hdigit.1
  omega

theorem ge_of_mem_int {n : Int} {c : Char} (h : c ∈ (toString n).toList) : 0x20 ≤ c.toNat := by
  rcases int_text n with ⟨m, hm⟩ | ⟨m, hm⟩
  · rw [hm] at h
    exact ge_of_mem_decimal h
  · rw [hm] at h
    rcases List.mem_cons.mp h with rfl | h
    · decide
    · exact ge_of_mem_decimal h

theorem writes_of_mem_chars {style : Style} {v : Value} (hv : v.Floats fun _ => False) :
    ∀ {depth : Nat}, ∀ c ∈ chars style depth v, style.Writes c := by
  induction v using Value.induction with
  | float x => exact absurd (hv.of_inside .refl) id
  | int n => exact fun c hc => .inl (ge_of_mem_int hc)
  | string s => exact fun c hc => .inl (ge_of_mem_quoted hc)
  | map entries ih =>
    intro depth c hc
    have hv := Value.floats_map.mp hv
    cases entries with
    | nil =>
      simp [chars] at hc
      rcases hc with rfl | rfl <;> exact .inl (by decide)
    | cons e entries =>
      rw [chars_map, List.mem_cons] at hc
      rcases hc with rfl | hc
      · exact .inl (by decide)
      · exact writes_of_mem_charsEntries (fun d hd => ih d hd (hv d hd)) c (List.mem_of_mem_tail hc)
  | list items ih =>
    intro depth c hc
    have hv := Value.floats_list.mp hv
    cases items with
    | nil =>
      simp [chars] at hc
      rcases hc with rfl | rfl <;> exact .inl (by decide)
    | cons x items =>
      rw [chars_list, List.mem_cons] at hc
      rcases hc with rfl | hc
      · exact .inl (by decide)
      · exact writes_of_mem_charsItems (fun y hy => ih y hy (hv y hy)) c (List.mem_of_mem_tail hc)
  | null =>
    intro depth c hc
    have hword : ∀ c ∈ "null".toList, 0x20 ≤ c.toNat := by simp
    exact .inl (hword c hc)
  | bool b =>
    intro depth c hc
    have htrue : ∀ c ∈ "true".toList, 0x20 ≤ c.toNat := by simp
    have hfalse : ∀ c ∈ "false".toList, 0x20 ≤ c.toNat := by simp
    cases b with
    | false => exact .inl (hfalse c hc)
    | true => exact .inl (htrue c hc)

/-! ## Lines of JSON text -/

def isSolid (c : Char) : Bool :=
  !Text.isBlank c && c != '-'

/-- Whether the last line of a text has a solid character, given whether it has one before the text;
none if a line before it has none. -/
def lastSolid? (solid : Bool) : List Char → Option Bool
  | [] => some solid
  | c :: s =>
    if c = '\n' then if solid then lastSolid? false s else none
    else lastSolid? (solid || isSolid c) s

theorem lastSolid?_append : ∀ (s : List Char) (solid : Bool) (t : List Char),
    lastSolid? solid (s ++ t) = (lastSolid? solid s).bind fun solid => lastSolid? solid t
  | [], _, _ => rfl
  | c :: s, solid, t => by
    rw [List.cons_append, lastSolid?, lastSolid?]
    by_cases hc : c = '\n'
    · rw [if_pos hc, if_pos hc]
      cases solid with
      | false => rfl
      | true => exact lastSolid?_append s false t
    · rw [if_neg hc, if_neg hc]
      exact lastSolid?_append s _ t

theorem lastSolid?_line : ∀ {s : List Char}, '\n' ∉ s → ∀ solid,
    lastSolid? solid s = some (solid || s.any isSolid)
  | [], _, solid => by simp [lastSolid?]
  | c :: s, h, solid => by
    obtain ⟨hc, hs⟩ := List.ne_and_not_mem_of_not_mem_cons h
    rw [lastSolid?, if_neg hc.symm, lastSolid?_line hs, List.any_cons, Bool.or_assoc]

theorem lastSolid?_lineBreak (style : Style) (depth : Nat) : ∃ solid,
    lastSolid? true (style.lineBreak depth) = some solid := by
  cases style with
  | compact => exact ⟨true, rfl⟩
  | pretty =>
    have hspaces : '\n' ∉ List.replicate (2 * depth) ' ' := by simp
    exact ⟨_, lastSolid?_line hspaces false⟩

theorem lastSolid?_cons {c : Char} (hc : c ≠ '\n') (hsolid : isSolid c = true) (solid : Bool)
    (s : List Char) : lastSolid? solid (c :: s) = lastSolid? true s := by
  rw [lastSolid?, if_neg hc, hsolid, Bool.or_true]

/-- In a text whose last line has a solid character all lines have one. -/
theorem any_isSolid_of_fields : ∀ {s : List Char} {solid : Bool}, lastSolid? solid s = some true →
    ∀ {f : List Char} {rest : List (List Char)}, Text.fields '\n' s = f :: rest →
      (solid || f.any isSolid) = true ∧ ∀ line ∈ rest, line.any isSolid = true
  | [], solid, h, f, rest, hs => by
    cases hs
    cases h
    exact ⟨rfl, fun _ h => by cases h⟩
  | c :: s, solid, h, f, rest, hs => by
    rw [lastSolid?] at h
    rw [Text.fields] at hs
    by_cases hc : c = '\n'
    · rw [if_pos hc] at h hs
      cases hs
      cases solid with
      | false => cases h
      | true =>
        cases hrest : Text.fields '\n' s with
        | nil => exact absurd hrest (Text.fields_ne_nil '\n' s)
        | cons g others =>
          obtain ⟨hfirst, hothers⟩ := any_isSolid_of_fields h hrest
          exact ⟨rfl, List.forall_mem_cons.mpr ⟨hfirst, hothers⟩⟩
    · rw [if_neg hc] at h hs
      cases hrest : Text.fields '\n' s with
      | nil => exact absurd hrest (Text.fields_ne_nil '\n' s)
      | cons g others =>
        rw [hrest] at hs
        cases hs
        obtain ⟨hfirst, hothers⟩ := any_isSolid_of_fields h hrest
        rw [List.any_cons, ← Bool.or_assoc]
        exact ⟨hfirst, hothers⟩

theorem lastSolid?_quoted (text : String) (solid : Bool) :
    lastSolid? solid (quoted text) = some true := by
  have hbreak : '\n' ∉ quoted text := fun h => absurd (ge_of_mem_quoted h) (by decide)
  have hquote : isSolid '\x22' = true := by decide
  rw [lastSolid?_line hbreak, quoted, List.any_cons, hquote, Bool.true_or, Bool.or_true]

theorem lastSolid?_colon (style : Style) : lastSolid? true style.colon = some true := by
  cases style <;> rfl

theorem lastSolid?_charsItems (style : Style) (depth : Nat) : ∀ {items : List Value},
    (∀ x ∈ items, ∀ solid, lastSolid? solid (chars style (depth + 1) x) = some true) →
      lastSolid? true (charsItems style depth items) = some true
  | [], _ => by
    obtain ⟨solid, hsolid⟩ := lastSolid?_lineBreak style depth
    rw [charsItems, lastSolid?_append, hsolid, Option.bind_some,
      lastSolid?_cons (by decide) (by decide)]
    rfl
  | x :: items, h => by
    obtain ⟨hx, hitems⟩ := List.forall_mem_cons.mp h
    obtain ⟨solid, hsolid⟩ := lastSolid?_lineBreak style (depth + 1)
    rw [charsItems, lastSolid?_cons (by decide) (by decide), lastSolid?_append, lastSolid?_append,
      hsolid, Option.bind_some, hx, Option.bind_some, lastSolid?_charsItems style depth hitems]

theorem lastSolid?_charsEntries (style : Style) (depth : Nat) : ∀ {entries : Entries Value},
    (∀ e ∈ entries, ∀ solid, lastSolid? solid (chars style (depth + 1) e.2) = some true) →
      lastSolid? true (charsEntries style depth entries) = some true
  | [], _ => by
    obtain ⟨solid, hsolid⟩ := lastSolid?_lineBreak style depth
    rw [charsEntries, lastSolid?_append, hsolid, Option.bind_some,
      lastSolid?_cons (by decide) (by decide)]
    rfl
  | (k, x) :: entries, h => by
    obtain ⟨hx, hentries⟩ := List.forall_mem_cons.mp h
    obtain ⟨solid, hsolid⟩ := lastSolid?_lineBreak style (depth + 1)
    rw [charsEntries, lastSolid?_cons (by decide) (by decide)]
    simp only [lastSolid?_append, hsolid, Option.bind_some, lastSolid?_quoted, lastSolid?_colon]
    rw [hx, Option.bind_some, lastSolid?_charsEntries style depth hentries]

theorem isSolid_of_isDigit {c : Char} (h : c.isDigit = true) : isSolid c = true := by
  have hdash : c ≠ '-' := by
    rintro rfl
    cases h
  simp only [Char.isDigit, Bool.and_eq_true, decide_eq_true_eq, UInt32.le_iff_toNat_le] at h
  have hlow : 48 ≤ c.toNat := h.1
  have hhigh : c.toNat ≤ 57 := h.2
  have hblank : Text.isBlank c = false := by
    simp [Text.isBlank]
    omega
  simp [isSolid, hblank, hdash]

theorem any_isSolid_int (n : Int) : (toString n).toList.any isSolid = true := by
  have hdecimal : ∀ m, (Text.decimal m).any isSolid = true := by
    intro m
    cases hd : Text.decimal m with
    | nil => exact absurd hd (Text.decimal_ne_nil m)
    | cons d rest =>
      have hdigit : d.isDigit = true := Text.isDigit_of_mem_decimal (n := m) (by simp [hd])
      rw [List.any_cons, isSolid_of_isDigit hdigit, Bool.true_or]
  rcases int_text n with ⟨m, hm⟩ | ⟨m, hm⟩
  · rw [hm, hdecimal]
  · rw [hm, List.any_cons, hdecimal, Bool.or_true]

theorem lastSolid?_chars (style : Style) {v : Value} (hv : v.Floats fun _ => False) :
    ∀ {depth : Nat} (solid : Bool), lastSolid? solid (chars style depth v) = some true := by
  induction v using Value.induction with
  | float x => exact absurd (hv.of_inside .refl) id
  | int n =>
    intro depth solid
    have hbreak : '\n' ∉ (toString n.toInt).toList := fun h => absurd (ge_of_mem_int h) (by decide)
    rw [chars, lastSolid?_line hbreak, any_isSolid_int, Bool.or_true]
  | string s => exact lastSolid?_quoted s
  | map entries ih =>
    intro depth solid
    have hv := Value.floats_map.mp hv
    cases entries with
    | nil =>
      rw [chars, lastSolid?_cons (by decide) (by decide)]
      rfl
    | cons e entries =>
      have hentries := lastSolid?_charsEntries style depth fun d hd => ih d hd (hv d hd)
      have hcomma : charsEntries style depth (e :: entries) =
          ',' :: (charsEntries style depth (e :: entries)).tail := by
        rw [charsEntries, List.tail_cons]
      rw [hcomma, lastSolid?_cons (by decide) (by decide)] at hentries
      rw [chars_map, lastSolid?_cons (by decide) (by decide), hentries]
  | list items ih =>
    intro depth solid
    have hv := Value.floats_list.mp hv
    cases items with
    | nil =>
      rw [chars, lastSolid?_cons (by decide) (by decide)]
      rfl
    | cons x items =>
      have hitems := lastSolid?_charsItems style depth fun y hy => ih y hy (hv y hy)
      have hcomma : charsItems style depth (x :: items) =
          ',' :: (charsItems style depth (x :: items)).tail := by
        rw [charsItems, List.tail_cons]
      rw [hcomma, lastSolid?_cons (by decide) (by decide)] at hitems
      rw [chars_list, lastSolid?_cons (by decide) (by decide), hitems]
  | null =>
    intro depth solid
    cases solid <;> rfl
  | bool b =>
    intro depth solid
    cases b <;> cases solid <;> rfl

theorem getLast?_chars (style : Style) {v : Value} (hv : v.Floats fun _ => False) :
    (chars style 0 v).getLast? ≠ some '\n' := by
  intro h
  obtain ⟨s, hs⟩ := List.getLast?_eq_some_iff.mp h
  have hlast : lastSolid? false (chars style 0 v) = some true := lastSolid?_chars style hv false
  rw [hs, lastSolid?_append] at hlast
  obtain ⟨solid, -, hsolid⟩ := Option.bind_eq_some_iff.mp hlast
  cases solid <;> cases hsolid

/-! ## Streams -/

theorem trimEnd_ne_separator {line : List Char} (h : line.any isSolid = true) :
    Text.trimEnd line ≠ Format.separator.toList := by
  intro htrim
  obtain ⟨c, hc, hsolid⟩ := List.any_eq_true.mp h
  obtain ⟨hblank, hdash⟩ : Text.isBlank c = false ∧ c ≠ '-' := by simpa [isSolid] using hsolid
  have hmem := Text.mem_trimEnd hblank hc
  rw [htrim] at hmem
  simp [Format.separator] at hmem
  exact hdash hmem

theorem isContent_of_isOpening {c : Char} (h : isOpening c = true) (s : List Char) :
    Format.isContent (c :: s) = true := by
  have hdigit : c.isDigit = true → Text.isBlank c = false := by
    intro hc
    have hsolid := isSolid_of_isDigit hc
    simp only [isSolid, Bool.and_eq_true, Bool.not_eq_true'] at hsolid
    exact hsolid.1
  have hblank : Text.isBlank c = false := by
    simp only [isOpening, Bool.or_eq_true, List.contains_eq_mem, decide_eq_true_eq, List.mem_cons,
      List.not_mem_nil, or_false] at h
    rcases h with hc | rfl | rfl | rfl | rfl | rfl | rfl | rfl
    · exact hdigit hc
    all_goals decide
  have hcomment : c ≠ '#' := by
    rintro rfl
    cases h
  unfold Format.isContent
  rw [Text.trim, Text.trimStart_cons hblank, Text.trimEnd_cons hblank]
  split
  · rename_i heq
    cases heq
  · rename_i heq
    exact absurd (List.cons.inj heq).1 hcomment
  · rfl

theorem stands_chars (style : Style) {v : Value} (hv : v.Floats fun _ => False) :
    Format.Stands (chars style 0 v) := by
  obtain ⟨c, s, hs, hc⟩ := exists_opening style 0 hv
  have hbreak : c ≠ '\n' := by
    rintro rfl
    cases hc
  have hlast : lastSolid? false (chars style 0 v) = some true := lastSolid?_chars style hv false
  obtain ⟨f, rest, hfields⟩ : ∃ f rest, Text.fields '\n' (chars style 0 v) = (c :: f) :: rest := by
    rw [hs, Text.fields, if_neg hbreak]
    cases hrest : Text.fields '\n' s with
    | nil => exact absurd hrest (Text.fields_ne_nil '\n' s)
    | cons f rest => exact ⟨f, rest, rfl⟩
  have hsolid : ∀ line ∈ Text.fields '\n' (chars style 0 v), line.any isSolid = true := by
    obtain ⟨hfirst, hothers⟩ := any_isSolid_of_fields hlast hfields
    rw [hfields]
    exact List.forall_mem_cons.mpr ⟨hfirst, hothers⟩
  constructor
  · intro line hline hreturn
    have hmem := Text.mem_of_mem_fields hline (List.mem_of_getLast? hreturn)
    rcases writes_of_mem_chars hv _ hmem with h | ⟨-, h⟩
    · exact absurd h (by decide)
    · cases h
  · exact fun line hline => trimEnd_ne_separator (hsolid line hline)
  · rw [hfields, List.any_cons, isContent_of_isOpening hc, Bool.true_or]

end Json

namespace Format

/-- The forms of JSON: in one line, with one entry a line, and with a document a line. -/
def jsonForms : List Format :=
  [.json, .jsonPretty, .jsonLines]

def jsonStyle : Format → Json.Style
  | .jsonPretty => .pretty
  | _ => .compact

variable {format : Format}

theorem encode_json (hformat : format ∈ jsonForms) {v : Value} (hv : v.Floats fun _ => False) :
    format.encode v = .ok (String.ofList (Json.chars (jsonStyle format) 0 v ++ ['\n'])) := by
  rw [← closed_ofList (Json.getLast?_chars (jsonStyle format) hv)]
  simp only [jsonForms, List.mem_cons, List.not_mem_nil, or_false] at hformat
  rcases hformat with rfl | rfl | rfl <;> rfl

theorem decode_json (hformat : format ∈ jsonForms) {v : Value} (hv : Json.Readable v)
    {blanks : List Char} (hblanks : Json.skipBlanks blanks = []) :
    format.decode (String.ofList (Json.chars (jsonStyle format) 0 v ++ blanks)) = .ok v := by
  have hparse := hv.parse? (jsonStyle format) hblanks
  simp only [jsonForms, List.mem_cons, List.not_mem_nil, or_false] at hformat
  rcases hformat with rfl | rfl | rfl <;> simp only [decode, hparse]

/-- In every form of JSON a value is read back from its text, and values that are not null are read
back from a stream of them. -/
theorem decode_encode_json (hformat : format ∈ jsonForms) :
    (∀ v, Json.Readable v → (do format.decode (← format.encode v)) = .ok v) ∧
      ∀ values, (∀ v ∈ values, Json.Readable v ∧ v.isNull = false) →
        (do format.decodeStream (← format.encodeStream values)) = .ok values := by
  constructor
  · intro v hv
    rw [encode_json hformat hv.floatless, Result.ok_bind, decode_json hformat hv rfl]
  · intro values hvalues
    have hstands : ∀ v ∈ values, Stands (Json.chars (jsonStyle format) 0 v) :=
      fun v hv => Json.stands_chars _ (hvalues v hv).1.floatless
    have hencode : ∀ v ∈ values, format.encode v =
        .ok (String.ofList (Json.chars (jsonStyle format) 0 v ++ ['\n'])) :=
      fun v hv => encode_json hformat (hvalues v hv).1.floatless
    have hnull : ∀ v ∈ values, v.isNull = false := fun v hv => (hvalues v hv).2
    by_cases hlines : format = .jsonLines
    · have hbreak : ∀ v ∈ values, '\n' ∉ Json.chars (jsonStyle format) 0 v := by
        intro v hv hmem
        subst hlines
        rcases Json.writes_of_mem_chars (hvalues v hv).1.floatless _ hmem with h | ⟨h, -⟩
        · exact absurd h (by decide)
        · cases h
      apply decodeStream_join hstands hencode hnull hlines hbreak
      intro v hv
      rw [← List.append_nil (Json.chars (jsonStyle format) 0 v)]
      exact decode_json hformat (hvalues v hv).1 rfl
    · exact decodeStream_joined hstands hencode hnull hlines fun v hv =>
        decode_json hformat (hvalues v hv).1 rfl

theorem decode_encode_json_of_separators :
    (do Format.jsonPretty.decode (← Format.jsonPretty.encode
      (.map [("# a", .list [.null, .int (-9223372036854775808)]), ("---", .string "\x01\\\x22\n---\n")]))) =
        .ok (.map [("# a", .list [.null, .int (-9223372036854775808)]),
          ("---", .string "\x01\\\x22\n---\n")]) ∧
      (do Format.jsonPretty.decodeStream (← Format.jsonPretty.encodeStream
        [.list [], .string "---", .map [("\r\n# b", .bool true)]])) =
          .ok [.list [], .string "---", .map [("\r\n# b", .bool true)]] :=
  ⟨(decode_encode_json (by decide)).1 _ (by decide), (decode_encode_json (by decide)).2 _ (by decide)⟩

end Format

end Overlay
