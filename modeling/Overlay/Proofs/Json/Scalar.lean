import Overlay.Json.Parser
import Overlay.Json.Printer
import Overlay.Proofs.Text.Numeral

/-!
# Numbers and strings in JSON

Integers and strings are read back from their text, whatever follows it: after an integer nothing
may stand that would go on with the number.
-/

namespace Overlay.Json

/-! ## Integers -/

/-- What follows does not go on with a number. -/
def EndsNumber (s : List Char) : Prop :=
  ∀ c ∈ s.head?, Text.isDigit c = false ∧ c ≠ '.' ∧ c ≠ 'e' ∧ c ≠ 'E'

theorem takeDigits_append {s : List Char} (hs : EndsNumber s) : ∀ {digits : List Char},
    (∀ c ∈ digits, c.isDigit = true) → ∀ n taken, Nat.ofDigitChars 10 digits n < Word.size →
      takeDigits n taken (digits ++ s) =
        (Nat.ofDigitChars 10 digits n, taken + digits.length, s)
  | [], _, n, taken, _ => by
    cases s with
    | nil => simp [takeDigits]
    | cons c s =>
      have hc : Text.isDigit c = false := (hs c rfl).1
      simp [takeDigits, hc]
  | c :: digits, h, n, taken, hsize => by
    obtain ⟨hc, h⟩ := List.forall_mem_cons.mp h
    rw [Nat.ofDigitChars_cons, ← Text.digitValue_of_isDigit hc] at hsize ⊢
    have hgrown : 10 * n + Text.digitValue c < Word.size := by
      rw [Nat.ofDigitChars_eq_ofDigitChars_zero] at hsize
      have hpos : 0 < 10 ^ digits.length := Nat.pow_pos (by decide)
      have hle := Nat.le_mul_of_pos_left (10 * n + Text.digitValue c) hpos
      omega
    rw [List.cons_append, takeDigits, if_pos ⟨Text.isDigit_of_isDigit hc, hgrown⟩,
      takeDigits_append hs h _ _ hsize, List.length_cons]
    congr 2
    omega

theorem readUnsigned?_decimal (negative : Bool) {n : Nat} (hn : n < Word.size) {s : List Char}
    (hs : EndsNumber s) :
    readUnsigned? negative (Text.decimal n ++ s) = some (integer negative n, s) := by
  have hdigits : ∀ c ∈ Text.decimal n, c.isDigit = true := fun c hc => Text.isDigit_of_mem_decimal hc
  have hvalue : Nat.ofDigitChars 10 (Text.decimal n) 0 = n := Nat.ofDigitChars_ten_toDigits
  have htake := takeDigits_append hs hdigits 0 0 (by rw [hvalue]; exact hn)
  rw [hvalue, Nat.zero_add] at htake
  have hplain : ¬((Text.decimal n).length = 0 ∨
      (Text.decimal n ++ s).head? = some '0' ∧ 1 < (Text.decimal n).length) := by
    cases hd : Text.decimal n with
    | nil => exact absurd hd (Text.decimal_ne_nil n)
    | cons d rest =>
      intro h
      obtain ⟨hzero, hlength⟩ := h.resolve_left (by simp)
      have hn : n = 0 := Text.eq_zero_of_head?_decimal (by rw [hd]; exact hzero)
      rw [hn] at hd
      cases hd
      exact absurd hlength (by decide)
  unfold readUnsigned?
  rw [htake]
  dsimp only
  rw [if_neg hplain]
  cases s with
  | nil => simp
  | cons c s =>
    obtain ⟨hc, hpoint, he, hE⟩ := hs c rfl
    simp [hc, hpoint, he, hE]

theorem int_text (n : Int) : (∃ m, (toString n).toList = Text.decimal m) ∨
    ∃ m, (toString n).toList = '-' :: Text.decimal m := by
  rw [Int.toString_eq_repr]
  cases n with
  | ofNat m => exact .inl ⟨m, Nat.toList_repr⟩
  | negSucc m =>
    refine .inr ⟨m + 1, ?_⟩
    show ("-" ++ (m + 1).repr).toList = _
    rw [String.toList_append, Nat.toList_repr]
    rfl

theorem readNumber?_of_ne {c : Char} (h : c ≠ '-') (s : List Char) :
    readNumber? (c :: s) = readUnsigned? false (c :: s) := by
  unfold readNumber?
  split
  · rename_i heq
    exact absurd (List.cons.inj heq).1 h
  · rfl

theorem readNumber?_int (n : Int64) {s : List Char} (hs : EndsNumber s) :
    readNumber? ((toString n.toInt).toList ++ s) = some (.int n, s) := by
  have hlow : -(Word.half : Int) ≤ n.toInt := n.le_toInt
  have hhigh : n.toInt < Word.half := n.toInt_lt
  have hsize : Word.size = 2 * Word.half := Word.size_eq
  have hn : Int64.ofInt n.toInt = n := Int64.ofInt_toInt n
  rw [Int.toString_eq_repr]
  cases h : n.toInt with
  | ofNat m =>
    rw [h] at hhigh hn
    have hm : m < Word.half := Int.ofNat_lt.mp hhigh
    have hread := readUnsigned?_decimal false (by omega : m < Word.size) hs
    have htext : (Int.ofNat m).repr.toList = Text.decimal m := Nat.toList_repr
    cases hd : Text.decimal m with
    | nil => exact absurd hd (Text.decimal_ne_nil m)
    | cons d rest =>
      have hdash : d ≠ '-' := by
        intro h
        have hdigit : d.isDigit = true := Text.isDigit_of_mem_decimal (n := m) (by simp [hd])
        rw [h] at hdigit
        cases hdigit
      rw [hd] at hread htext
      rw [htext, List.cons_append, readNumber?_of_ne hdash, ← List.cons_append, hread]
      simp only [integer, Bool.false_eq_true, if_false, if_pos hm]
      rw [← hn]
      rfl
  | negSucc m =>
    rw [h] at hlow hn
    have hm : m + 1 ≤ Word.half := by omega
    have hread := readUnsigned?_decimal true (by omega : m + 1 < Word.size) hs
    have htext : (Int.negSucc m).repr.toList = '-' :: Text.decimal (m + 1) := by
      show ("-" ++ (m + 1).repr).toList = _
      rw [String.toList_append, Nat.toList_repr]
      rfl
    have hneg : (-((m + 1 : Nat) : Int)) = Int.negSucc m := rfl
    rw [htext, List.cons_append, readNumber?, hread, integer, if_pos rfl,
      if_pos ⟨Nat.succ_ne_zero m, hm⟩, hneg, hn]

/-! ## Strings -/

/-- How a character reads back: a control character without an escape of its own as a unit. -/
def pieceOf (c : Char) : Piece :=
  if c.toNat < 0x20 ∧ c ∉ ['\x08', '\x0c', '\n', '\r', '\t'] then .unit c.toNat else .char c

theorem readNat?_hexOfWidth : ∀ n < 0x20, Text.readNat? 16 (Text.hexOfWidth 4 n) = some n := by
  decide

theorem readPieces?_escape (c : Char) (s : List Char) : readPieces? (escape c ++ s) = (do
    let (pieces, rest) ← readPieces? s
    return (pieceOf c :: pieces, rest)) := by
  by_cases hshort : c ∈ ['\x22', '\\', '\x08', '\x0c', '\n', '\r', '\t']
  · simp only [List.mem_cons, List.not_mem_nil, or_false] at hshort
    rcases hshort with rfl | rfl | rfl | rfl | rfl | rfl | rfl <;>
      simp [escape, readPieces?, unescape?, pieceOf]
  · simp only [List.mem_cons, List.not_mem_nil, or_false, not_or] at hshort
    obtain ⟨hquote, hbackslash, hb, hf, hn, hr, ht⟩ := hshort
    by_cases hcontrol : c.toNat < 0x20
    · have hread := readNat?_hexOfWidth c.toNat hcontrol
      simp only [Text.hexOfWidth, List.nil_append, List.cons_append] at hread
      simp [escape, hquote, hbackslash, hb, hf, hn, hr, ht, hcontrol, Text.hexOfWidth, readPieces?,
        hread, pieceOf]
    · simp [escape, hquote, hbackslash, hb, hf, hn, hr, ht, hcontrol, readPieces?, pieceOf]

theorem joinPieces?_unit {n : Nat} (hn : n < 0x20) (rest : List Piece) :
    joinPieces? (.unit n :: rest) = (joinPieces? rest).map (Char.ofNat n :: ·) := by
  have hhigh : ¬0xD800 ≤ n := by omega
  have hlow : ¬0xDC00 ≤ n := by omega
  cases rest with
  | nil => simp [joinPieces?, hhigh]
  | cons p rest =>
    cases p with
    | char c => simp [joinPieces?, hhigh]
    | unit m => simp [joinPieces?, hhigh, hlow]

theorem joinPieces?_pieceOf : ∀ s : List Char, joinPieces? (s.map pieceOf) = some s
  | [] => rfl
  | c :: s => by
    rw [List.map_cons]
    by_cases hc : c.toNat < 0x20 ∧ c ∉ ['\x08', '\x0c', '\n', '\r', '\t']
    · rw [pieceOf, if_pos hc, joinPieces?_unit hc.1, joinPieces?_pieceOf s, Char.ofNat_toNat]
      rfl
    · rw [pieceOf, if_neg hc, joinPieces?, joinPieces?_pieceOf s]
      rfl

theorem readPieces?_flatMap_escape (s : List Char) : ∀ text : List Char,
    readPieces? (text.flatMap escape ++ '\x22' :: s) = some (text.map pieceOf, s)
  | [] => by simp [readPieces?]
  | c :: text => by
    rw [List.flatMap_cons, List.append_assoc, readPieces?_escape, readPieces?_flatMap_escape s text]
    rfl

theorem readString?_escape (text : String) (s : List Char) :
    readString? (text.toList.flatMap escape ++ '\x22' :: s) = some (text, s) := by
  simp [readString?, readPieces?_flatMap_escape, joinPieces?_pieceOf]

end Overlay.Json
