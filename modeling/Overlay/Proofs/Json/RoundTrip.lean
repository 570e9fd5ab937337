import Overlay.Proofs.Json.Scalar
import Overlay.Proofs.Value.Number
import Overlay.Proofs.Value.WellFormed

/-!
# Reading back what was written

A value without floats whose containers nest no deeper than the reader allows is read back from its
text, compact or with one entry a line. The statements leave open what follows the text.
-/

namespace Overlay

namespace Value

mutual
/-- How deep containers nest in a value. -/
def nesting : Value → Nat
  | .map entries => nestingEntries entries + 1
  | .list items => nestingItems items + 1
  | _ => 0

def nestingItems : List Value → Nat
  | [] => 0
  | v :: rest => max (nesting v) (nestingItems rest)

def nestingEntries : List (String × Value) → Nat
  | [] => 0
  | (_, v) :: rest => max (nesting v) (nestingEntries rest)
end

end Value

namespace Json

/-! ## Blanks -/

theorem skipBlanks_cons {c : Char} (h : c ∉ [' ', '\n', '\r', '\t']) (s : List Char) :
    skipBlanks (c :: s) = c :: s := by
  simp only [List.mem_cons, List.not_mem_nil, or_false, not_or] at h
  simp [skipBlanks, h]

theorem skipBlanks_lineBreak (style : Style) (depth : Nat) (s : List Char) :
    skipBlanks (style.lineBreak depth ++ s) = skipBlanks s := by
  have hspaces : ∀ n, skipBlanks (List.replicate n ' ' ++ s) = skipBlanks s := by
    intro n
    induction n with
    | zero => rfl
    | succ n ih =>
      rw [← ih]
      simp [skipBlanks, List.replicate_succ]
  cases style with
  | compact => rfl
  | pretty =>
    rw [← hspaces (2 * depth)]
    simp [Style.lineBreak, skipBlanks]

/-- A character that the text of a value may start with. -/
def isOpening (c : Char) : Bool :=
  c.isDigit || ['n', 't', 'f', '-', '\x22', '[', '\x7b'].contains c

theorem isOpening_not_blank {c : Char} (h : isOpening c = true) : c ∉ [' ', '\n', '\r', '\t'] := by
  intro hc
  simp only [List.mem_cons, List.not_mem_nil, or_false] at hc
  rcases hc with rfl | rfl | rfl | rfl <;> cases h

theorem exists_digits (n : Int) :
    ∃ c s, (toString n).toList = c :: s ∧ (c.isDigit = true ∨ c = '-') := by
  rcases int_text n with ⟨m, hm⟩ | ⟨m, hm⟩
  · cases hd : Text.decimal m with
    | nil => exact absurd hd (Text.decimal_ne_nil m)
    | cons d rest =>
      exact ⟨d, rest, hm.trans hd, .inl (Text.isDigit_of_mem_decimal (n := m) (by simp [hd]))⟩
  · exact ⟨'-', _, hm, .inr rfl⟩

theorem exists_opening (style : Style) (depth : Nat) {v : Value} (hv : v.Floats fun _ => False) :
    ∃ c s, chars style depth v = c :: s ∧ isOpening c = true := by
  cases v with
  | null => exact ⟨'n', _, rfl, rfl⟩
  | bool b => cases b <;> exact ⟨_, _, rfl, rfl⟩
  | int n =>
    obtain ⟨c, s, hs, hc⟩ := exists_digits n.toInt
    refine ⟨c, s, hs, ?_⟩
    rcases hc with hc | rfl
    · simp [isOpening, hc]
    · rfl
  | float x => exact absurd (hv.of_inside .refl) id
  | string s => exact ⟨'\x22', _, rfl, rfl⟩
  | map entries => cases entries <;> exact ⟨'\x7b', _, by rw [chars], rfl⟩
  | list items => cases items <;> exact ⟨'[', _, by rw [chars], rfl⟩

theorem skipBlanks_chars (style : Style) (depth : Nat) {v : Value} (hv : v.Floats fun _ => False)
    (s : List Char) : skipBlanks (chars style depth v ++ s) = chars style depth v ++ s := by
  obtain ⟨c, t, ht, hc⟩ := exists_opening style depth hv
  rw [ht, List.cons_append, skipBlanks_cons (isOpening_not_blank hc)]

/-! ## Values and what follows them -/

theorem readValue?_of_skipBlanks {s t : List Char} (h : skipBlanks s = skipBlanks t) :
    ∀ fuel depth, readValue? fuel depth s = readValue? fuel depth t
  | 0, _ => by rw [readValue?, readValue?]
  | fuel + 1, depth => by rw [readValue?, readValue?, h]

theorem readValue?_number {c : Char} (hc : c.isDigit = true ∨ c = '-') (fuel depth : Nat)
    (s : List Char) : readValue? (fuel + 1) depth (c :: s) = readNumber? (c :: s) := by
  have hblank : skipBlanks (c :: s) = c :: s := by
    refine skipBlanks_cons (fun h => ?_) s
    simp only [List.mem_cons, List.not_mem_nil, or_false] at h
    rcases h with rfl | rfl | rfl | rfl <;> simp at hc
  rw [readValue?, hblank]
  split
  all_goals first
    | rfl
    | rename_i heq
      obtain ⟨rfl, -⟩ := List.cons.inj heq
      simp at hc

theorem readValue?_list {s t : List Char} (hs : skipBlanks s = t) (ht : t.head? ≠ some ']')
    (fuel depth : Nat) : readValue? (fuel + 1) (depth + 1) ('[' :: s) =
      (readItems? fuel depth t).map fun (items, rest) => (.list items, rest) := by
  rw [readValue?, skipBlanks_cons (by decide)]
  cases t with
  | nil => simp [hs]
  | cons c t =>
    have hc : c ≠ ']' := by simpa using ht
    simp [hs, hc]

theorem readValue?_map {s t : List Char} (hs : skipBlanks s = t) (ht : t.head? ≠ some '\x7d')
    (fuel depth : Nat) : readValue? (fuel + 1) (depth + 1) ('\x7b' :: s) =
      (readEntries? fuel depth t).map fun (pairs, rest) => (.map (Entries.ofList pairs), rest) := by
  rw [readValue?, skipBlanks_cons (by decide)]
  cases t with
  | nil => simp [hs]
  | cons c t =>
    have hc : c ≠ '\x7d' := by simpa using ht
    simp [hs, hc]

theorem readWord?_append (word : String) (v : Value) (s : List Char) :
    readWord? word v (word.toList ++ s) = some (v, s) := by
  have hstarts : word.toList.isPrefixOf (word.toList ++ s) = true := by simp
  rw [readWord?, if_pos hstarts, ← String.length_toList, List.drop_left]

/-- A value is read back from its text, given as much fuel as the text has characters. -/
def ReadsBack (style : Style) (v : Value) : Prop :=
  ∀ {fuel depth : Nat}, v.nesting ≤ depth → ∀ {indent : Nat},
    (chars style indent v).length ≤ fuel → ∀ {s : List Char}, EndsNumber s →
      readValue? fuel depth (chars style indent v ++ s) = some (v, s)

theorem endsNumber_cons {c : Char} (h : Text.isDigit c = false ∧ c ≠ '.' ∧ c ≠ 'e' ∧ c ≠ 'E')
    (s : List Char) : EndsNumber (c :: s) := by
  intro d hd
  cases hd
  exact h

theorem endsNumber_lineBreak (style : Style) (depth : Nat) {c : Char}
    (h : Text.isDigit c = false ∧ c ≠ '.' ∧ c ≠ 'e' ∧ c ≠ 'E') (s : List Char) :
    EndsNumber (style.lineBreak depth ++ c :: s) := by
  cases style with
  | compact => exact endsNumber_cons h s
  | pretty => exact endsNumber_cons (by decide) _

/-! ## Elements and entries -/

theorem readItems?_of_skipBlanks {s t : List Char} (h : skipBlanks s = skipBlanks t) :
    ∀ fuel depth, readItems? fuel depth s = readItems? fuel depth t
  | 0, _ => by rw [readItems?, readItems?]
  | fuel + 1, depth => by rw [readItems?, readItems?, readValue?_of_skipBlanks h]

theorem readEntries?_of_skipBlanks {s t : List Char} (h : skipBlanks s = skipBlanks t) :
    ∀ fuel depth, readEntries? fuel depth s = readEntries? fuel depth t
  | 0, _ => by rw [readEntries?, readEntries?]
  | fuel + 1, depth => by rw [readEntries?, readEntries?, h]

section
variable (style : Style) {depth : Nat} (indent : Nat)

theorem endsNumber_charsItems (rest : List Value) (s : List Char) :
    EndsNumber (charsItems style indent rest ++ s) := by
  cases rest with
  | nil =>
    rw [charsItems, List.append_assoc]
    exact endsNumber_lineBreak style indent (by decide) s
  | cons x rest =>
    rw [charsItems]
    exact endsNumber_cons (by decide) _

theorem endsNumber_charsEntries (rest : List (String × Value)) (s : List Char) :
    EndsNumber (charsEntries style indent rest ++ s) := by
  cases rest with
  | nil =>
    rw [charsEntries, List.append_assoc]
    exact endsNumber_lineBreak style indent (by decide) s
  | cons e rest =>
    rw [charsEntries]
    exact endsNumber_cons (by decide) _

theorem readItems?_chars : ∀ {items : List Value} {x : Value}, (∀ v ∈ x :: items, ReadsBack style v) →
    Value.nestingItems (x :: items) ≤ depth → ∀ {fuel : Nat},
      (chars style (indent + 1) x ++ charsItems style indent items).length ≤ fuel → ∀ s,
        readItems? fuel depth (chars style (indent + 1) x ++ (charsItems style indent items ++ s)) =
          some (x :: items, s)
  | items, x, hreads, hdepth, 0, hfuel, s => by
    cases items <;> simp [charsItems] at hfuel
  | [], x, hreads, hdepth, fuel + 1, hfuel, s => by
    have hx : x.nesting ≤ depth := by simpa [Value.nestingItems] using hdepth
    have hlength : (chars style (indent + 1) x).length ≤ fuel := by
      simp only [charsItems, List.length_append, List.length_singleton] at hfuel
      omega
    have hread := hreads x List.mem_cons_self hx hlength (endsNumber_charsItems style indent [] s)
    have hclose : skipBlanks (charsItems style indent [] ++ s) = ']' :: s := by
      rw [charsItems, List.append_assoc, skipBlanks_lineBreak]
      exact skipBlanks_cons (by decide) s
    simp [readItems?, hread, hclose]
  | y :: items, x, hreads, hdepth, fuel + 1, hfuel, s => by
    obtain ⟨hx, hitems⟩ := List.forall_mem_cons.mp hreads
    have hnest : x.nesting ≤ depth ∧ Value.nestingItems (y :: items) ≤ depth := by
      rw [Value.nestingItems] at hdepth
      omega
    have hlength : (chars style (indent + 1) x).length ≤ fuel ∧
        (chars style (indent + 1) y ++ charsItems style indent items).length ≤ fuel := by
      simp only [charsItems, List.length_append, List.length_cons] at hfuel ⊢
      omega
    have hread := hx hnest.1 hlength.1 (endsNumber_charsItems style indent (y :: items) s)
    have hrest := readItems?_chars hitems hnest.2 hlength.2 s
    -- The elements after the comma start with a line break, which reading them skips.
    have hskip := readItems?_of_skipBlanks (skipBlanks_lineBreak style (indent + 1)
      (chars style (indent + 1) y ++ (charsItems style indent items ++ s))) fuel depth
    have hcomma : charsItems style indent (y :: items) ++ s = ',' :: (style.lineBreak (indent + 1) ++
        (chars style (indent + 1) y ++ (charsItems style indent items ++ s))) := by
      simp [charsItems]
    rw [hcomma] at hread ⊢
    simp [readItems?, hread, skipBlanks_cons, hskip, hrest]

theorem exists_colon : ∃ blanks, style.colon = ':' :: blanks ∧
    ∀ s, skipBlanks (blanks ++ s) = skipBlanks s := by
  cases style with
  | compact => exact ⟨[], rfl, fun _ => rfl⟩
  | pretty => exact ⟨[' '], rfl, fun _ => rfl⟩

theorem readEntries?_entry (key : String) (s : List Char) (fuel : Nat) :
    readEntries? (fuel + 1) depth (quoted key ++ (style.colon ++ s)) = (do
      let (v, s) ← readValue? fuel depth s
      match skipBlanks s with
      | '\x7d' :: rest => return ([(key, v)], rest)
      | ',' :: s =>
        let (pairs, rest) ← readEntries? fuel depth s
        return ((key, v) :: pairs, rest)
      | _ => none) := by
  obtain ⟨blanks, hcolon, hblanks⟩ := exists_colon style
  have hvalue := readValue?_of_skipBlanks (hblanks s) fuel depth
  rw [hcolon]
  have hquote : ∀ s, skipBlanks ('\x22' :: s) = '\x22' :: s := skipBlanks_cons (by decide)
  have hmark : ∀ s, skipBlanks (':' :: s) = ':' :: s := skipBlanks_cons (by decide)
  simp only [readEntries?, quoted, List.cons_append, List.append_assoc, List.nil_append, hquote, hmark,
    readString?_escape, Option.bind_eq_bind, Option.bind_some]
  exact congrArg (Option.bind · _) hvalue

theorem readEntries?_chars : ∀ {entries : Entries Value} {e : String × Value},
    (∀ d ∈ e :: entries, ReadsBack style d.2) → Value.nestingEntries (e :: entries) ≤ depth →
      ∀ {fuel : Nat}, (quoted e.1 ++ style.colon ++ chars style (indent + 1) e.2 ++
        charsEntries style indent entries).length ≤ fuel → ∀ s,
        readEntries? fuel depth (quoted e.1 ++ (style.colon ++ (chars style (indent + 1) e.2 ++
          (charsEntries style indent entries ++ s)))) = some (e :: entries, s)
  | entries, e, hreads, hdepth, 0, hfuel, s => by simp [quoted] at hfuel
  | [], (k, x), hreads, hdepth, fuel + 1, hfuel, s => by
    have hx : x.nesting ≤ depth := by simpa [Value.nestingEntries] using hdepth
    have hlength : (chars style (indent + 1) x).length ≤ fuel := by
      simp only [quoted, List.length_append, List.length_cons] at hfuel
      omega
    have hread := hreads (k, x) List.mem_cons_self hx hlength
      (endsNumber_charsEntries style indent [] s)
    have hclose : skipBlanks (charsEntries style indent [] ++ s) = '\x7d' :: s := by
      rw [charsEntries, List.append_assoc, skipBlanks_lineBreak]
      exact skipBlanks_cons (by decide) s
    rw [readEntries?_entry, hread]
    simp [hclose]
  | d :: entries, (k, x), hreads, hdepth, fuel + 1, hfuel, s => by
    obtain ⟨hx, hentries⟩ := List.forall_mem_cons.mp hreads
    have hnest : x.nesting ≤ depth ∧ Value.nestingEntries (d :: entries) ≤ depth := by
      rw [Value.nestingEntries] at hdepth
      omega
    have hlength : (chars style (indent + 1) x).length ≤ fuel ∧
        (quoted d.1 ++ style.colon ++ chars style (indent + 1) d.2 ++
          charsEntries style indent entries).length ≤ fuel := by
      simp only [quoted, charsEntries, List.length_append, List.length_cons] at hfuel ⊢
      omega
    have hread := hx hnest.1 hlength.1 (endsNumber_charsEntries style indent (d :: entries) s)
    have hrest := readEntries?_chars hentries hnest.2 hlength.2 s
    have hskip := readEntries?_of_skipBlanks (skipBlanks_lineBreak style (indent + 1)
      (quoted d.1 ++ (style.colon ++ (chars style (indent + 1) d.2 ++
        (charsEntries style indent entries ++ s))))) fuel depth
    have hcomma : charsEntries style indent (d :: entries) ++ s =
        ',' :: (style.lineBreak (indent + 1) ++ (quoted d.1 ++ (style.colon ++
          (chars style (indent + 1) d.2 ++ (charsEntries style indent entries ++ s))))) := by
      simp [charsEntries]
    rw [hcomma] at hread ⊢
    rw [readEntries?_entry, hread]
    simp [skipBlanks_cons, hskip, hrest]

end

/-! ## Whole values -/

section
variable (style : Style)

theorem readsBack_null : ReadsBack style .null := by
  intro fuel depth _ indent hfuel s _
  cases fuel with
  | zero => simp [chars] at hfuel
  | succ fuel =>
    rw [chars, readValue?, ← readWord?_append "null" .null s]
    rfl

theorem readsBack_bool (b : Bool) : ReadsBack style (.bool b) := by
  intro fuel depth _ indent hfuel s _
  cases fuel with
  | zero => cases b <;> simp [chars] at hfuel
  | succ fuel =>
    cases b with
    | false =>
      rw [chars, readValue?, ← readWord?_append "false" (.bool false) s]
      rfl
    | true =>
      rw [chars, readValue?, ← readWord?_append "true" (.bool true) s]
      rfl

theorem readsBack_int (n : Int64) : ReadsBack style (.int n) := by
  intro fuel depth _ indent hfuel s hs
  obtain ⟨c, t, ht, hc⟩ := exists_digits n.toInt
  rw [chars, ht] at hfuel ⊢
  have hread := readNumber?_int n hs
  rw [ht] at hread
  cases fuel with
  | zero => simp at hfuel
  | succ fuel => rw [List.cons_append, readValue?_number hc, ← List.cons_append, hread]

theorem readsBack_string (text : String) : ReadsBack style (.string text) := by
  intro fuel depth _ indent hfuel s _
  cases fuel with
  | zero => simp [chars, quoted] at hfuel
  | succ fuel => simp [chars, quoted, readValue?, skipBlanks_cons, readString?_escape]

variable {style}

theorem readsBack_map {entries : Entries Value} (hsorted : Entries.Sorted entries)
    (hreads : ∀ e ∈ entries, ReadsBack style e.2) : ReadsBack style (.map entries) := by
  intro fuel depth hdepth indent hfuel s _
  cases fuel with
  | zero => cases entries <;> simp [chars] at hfuel
  | succ fuel =>
    cases depth with
    | zero => simp [Value.nesting] at hdepth
    | succ depth =>
      cases entries with
      | nil => simp [chars, readValue?, skipBlanks_cons]
      | cons e entries =>
        have htext : chars style indent (.map (e :: entries)) ++ s =
            '\x7b' :: (style.lineBreak (indent + 1) ++ (quoted e.1 ++ (style.colon ++
              (chars style (indent + 1) e.2 ++ (charsEntries style indent entries ++ s))))) := by
          simp [chars]
        have hlength : (quoted e.1 ++ style.colon ++ chars style (indent + 1) e.2 ++
            charsEntries style indent entries).length ≤ fuel := by
          simp only [chars, List.length_append, List.length_cons] at hfuel ⊢
          omega
        have hnest : Value.nestingEntries (e :: entries) ≤ depth := by
          rw [Value.nesting] at hdepth
          omega
        have hread := readEntries?_chars style indent hreads hnest hlength s
        have hskip : skipBlanks (style.lineBreak (indent + 1) ++ (quoted e.1 ++ (style.colon ++
            (chars style (indent + 1) e.2 ++ (charsEntries style indent entries ++ s))))) =
              quoted e.1 ++ (style.colon ++ (chars style (indent + 1) e.2 ++
                (charsEntries style indent entries ++ s))) := by
          rw [skipBlanks_lineBreak]
          exact skipBlanks_cons (by decide) _
        rw [htext, readValue?_map hskip (by simp [quoted]), hread]
        simp [hsorted.ofList]

theorem readsBack_list {items : List Value} (hfloats : ∀ x ∈ items, x.Floats fun _ => False)
    (hreads : ∀ x ∈ items, ReadsBack style x) : ReadsBack style (.list items) := by
  intro fuel depth hdepth indent hfuel s _
  cases fuel with
  | zero => cases items <;> simp [chars] at hfuel
  | succ fuel =>
    cases depth with
    | zero => simp [Value.nesting] at hdepth
    | succ depth =>
      cases items with
      | nil => simp [chars, readValue?, skipBlanks_cons]
      | cons x items =>
        have htext : chars style indent (.list (x :: items)) ++ s =
            '[' :: (style.lineBreak (indent + 1) ++ (chars style (indent + 1) x ++
              (charsItems style indent items ++ s))) := by
          simp [chars]
        have hlength : (chars style (indent + 1) x ++ charsItems style indent items).length ≤
            fuel := by
          simp only [chars, List.length_append, List.length_cons] at hfuel ⊢
          omega
        have hnest : Value.nestingItems (x :: items) ≤ depth := by
          rw [Value.nesting] at hdepth
          omega
        have hread := readItems?_chars style indent hreads hnest hlength s
        have hx := hfloats x List.mem_cons_self
        have hskip := (skipBlanks_lineBreak style (indent + 1) _).trans
          (skipBlanks_chars style (indent + 1) hx (charsItems style indent items ++ s))
        -- A list with elements does not look like an empty one: no value starts with a bracket that
        -- closes a list.
        obtain ⟨c, t, ht, hc⟩ := exists_opening style (indent + 1) hx
        have hopen : (chars style (indent + 1) x ++ (charsItems style indent items ++ s)).head? ≠
            some ']' := by
          rw [ht, List.cons_append, List.head?_cons]
          rintro ⟨rfl⟩
          cases hc
        rw [htext, readValue?_list hskip hopen, hread, Option.map_some]

theorem readsBack {v : Value} (hfloat : v.Floats fun _ => False) (hsorted : v.WellFormed) :
    ReadsBack style v := by
  induction v using Value.induction with
  | null => exact readsBack_null style
  | bool b => exact readsBack_bool style b
  | int n => exact readsBack_int style n
  | float x => exact absurd (hfloat.of_inside .refl) id
  | string text => exact readsBack_string style text
  | map entries ih =>
    obtain ⟨hsorted, hvalues⟩ := Value.wellFormed_map.mp hsorted
    have hfloats := Value.floats_map.mp hfloat
    apply readsBack_map hsorted
    exact fun e he => ih e he (hfloats e he) (hvalues e he)
  | list items ih =>
    have hitems := Value.wellFormed_list.mp hsorted
    have hfloats := Value.floats_list.mp hfloat
    apply readsBack_list hfloats
    exact fun x hx => ih x hx (hfloats x hx) (hitems x hx)

end

/-- The values that are read back: they have no floats and nest no deeper than is read. -/
structure Readable (v : Value) : Prop where
  floatless : v.Floats fun _ => False
  wellFormed : v.WellFormed
  nesting_le : v.nesting ≤ maxDepth

theorem readable_iff {v : Value} :
    Readable v ↔ v.Floats (fun _ => False) ∧ v.WellFormed ∧ v.nesting ≤ maxDepth :=
  ⟨fun ⟨hf, hw, hn⟩ => ⟨hf, hw, hn⟩, fun ⟨hf, hw, hn⟩ => ⟨hf, hw, hn⟩⟩

instance (v : Value) : Decidable (Readable v) :=
  decidable_of_iff _ readable_iff.symm

theorem endsNumber_of_blanks {blanks : List Char} (h : skipBlanks blanks = []) :
    EndsNumber blanks := by
  intro c hc
  cases blanks with
  | nil => cases hc
  | cons d rest =>
    cases hc
    by_cases hblank : c ∈ [' ', '\n', '\r', '\t']
    · simp only [List.mem_cons, List.not_mem_nil, or_false] at hblank
      rcases hblank with rfl | rfl | rfl | rfl <;> decide
    · rw [skipBlanks_cons hblank] at h
      cases h

theorem Readable.parse? {v : Value} (h : Readable v) (style : Style) {blanks : List Char}
    (hblanks : skipBlanks blanks = []) :
    Json.parse? (String.ofList (chars style 0 v ++ blanks)) = some v := by
  have hfuel : (chars style 0 v).length ≤ 2 * (chars style 0 v ++ blanks).length + 2 := by
    rw [List.length_append]
    omega
  have hread := readsBack h.floatless h.wellFormed h.nesting_le hfuel
    (endsNumber_of_blanks hblanks)
  simp only [Json.parse?, String.toList_ofList, hread, hblanks, List.isEmpty_nil, if_true]

end Json

end Overlay
