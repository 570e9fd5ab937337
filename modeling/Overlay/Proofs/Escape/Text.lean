import Overlay.Output
import Overlay.Proofs.Literal.Basic
import Overlay.Proofs.Text.Fields

/-!
# Escaped texts

To escape a text is to double the dollar signs in it. What is escaped is literal and unescapes to what
it was. Doubling keeps the order of texts, goes through their parts one by one, and changes neither
end of a text nor what characters are in it.
-/

namespace Overlay

def doubled : List Char → List Char
  | [] => []
  | c :: s => if c = '$' then '$' :: '$' :: doubled s else c :: doubled s

def escapeText (s : String) : String :=
  String.ofList (doubled s.toList)

theorem unescape_doubled : ∀ s : List Char, Output.unescape (doubled s) = s
  | [] => rfl
  | c :: s => by
    rw [doubled]
    by_cases hc : c = '$'
    · rw [if_pos hc, Output.unescape, unescape_doubled s, hc]
    · have hne : ∀ rest, c :: doubled s ≠ '$' :: '$' :: rest := fun rest h =>
        hc (List.cons.inj h).1
      rw [if_neg hc, Output.unescape, unescape_doubled s]
      exact fun _ h => absurd h hc

theorem doubled_lt : ∀ {s t : List Char}, s < t → doubled s < doubled t
  | s, [], h => absurd h (List.not_lt_nil s)
  | [], d :: t, _ => by
    rw [doubled, doubled]
    split <;> exact List.nil_lt_cons _ _
  | c :: s, d :: t, h => by
    rw [doubled, doubled]
    rcases List.cons_lt_cons_iff.mp h with hcd | ⟨rfl, hst⟩
    -- The first difference decides; of a doubled dollar sign it is in the first one.
    · have hlt : ∀ xs ys, c :: xs < d :: ys := fun _ _ => List.cons_lt_cons_iff.mpr (.inl hcd)
      by_cases hc : c = '$'
      · rw [if_pos hc, if_neg (hc ▸ hcd.ne'), ← hc]
        exact hlt _ _
      · rw [if_neg hc]
        split
        · rename_i hd
          rw [← hd]
          exact hlt _ _
        · exact hlt _ _
    · have ih := doubled_lt hst
      split
      · exact List.cons_lt_cons_iff.mpr
          (.inr ⟨rfl, List.cons_lt_cons_iff.mpr (.inr ⟨rfl, ih⟩)⟩)
      · exact List.cons_lt_cons_iff.mpr (.inr ⟨rfl, ih⟩)

theorem unescapeText_escapeText (s : String) : Output.unescapeText (escapeText s) = s := by
  rw [Output.unescapeText, escapeText, String.toList_ofList, unescape_doubled, String.ofList_toList]

theorem unescape_eq_self : ∀ {s : List Char}, ¬ ['$', '$'] <:+: s → Output.unescape s = s
  | [], _ => rfl
  | c :: s, h => by
    have hs : ¬ ['$', '$'] <:+: s := fun hs => h (hs.trans (List.suffix_cons c s).isInfix)
    rw [Output.unescape, unescape_eq_self hs]
    rintro t rfl rfl
    exact h ⟨[], t, rfl⟩

theorem unescapeText_eq_self {s : String} (h : ¬ ['$', '$'] <:+: s.toList) :
    Output.unescapeText s = s := by
  rw [Output.unescapeText, unescape_eq_self h, String.ofList_toList]

theorem isLiteral_escapeText (s : String) : isLiteral (escapeText s) = true := by
  rw [isLiteral, escapeText, String.toList_ofList]
  cases hs : s.toList with
  | nil => rfl
  | cons c rest =>
    rw [doubled]
    by_cases hc : c = '$'
    · rw [if_pos hc]
      rfl
    · rw [if_neg hc]
      split
      · rename_i h
        exact absurd (List.cons.inj h).1 hc
      · rfl

theorem escapeText_lt {s t : String} (h : s < t) : escapeText s < escapeText t := by
  rw [String.lt_iff, escapeText, escapeText, String.toList_ofList, String.toList_ofList]
  exact doubled_lt (String.lt_iff.mp h)

theorem doubled_eq_self : ∀ {s : List Char}, '$' ∉ s → doubled s = s
  | [], _ => rfl
  | c :: s, h => by
    obtain ⟨hc, hs⟩ := List.ne_and_not_mem_of_not_mem_cons h
    rw [doubled, if_neg hc.symm, doubled_eq_self hs]

theorem escapeText_of_doubled {s : String} (h : doubled s.toList = s.toList) : escapeText s = s := by
  rw [escapeText, h, String.ofList_toList]

theorem escapeText_eq_self {s : String} (h : '$' ∉ s.toList) : escapeText s = s :=
  escapeText_of_doubled (doubled_eq_self h)

theorem escapeText_eq_empty {s : String} : escapeText s = "" ↔ s = "" := by
  constructor
  · intro h
    rw [← unescapeText_escapeText s, h]
    rfl
  · rintro rfl
    rfl

/-! ## Parts of escaped texts -/

theorem doubled_append : ∀ s t : List Char, doubled (s ++ t) = doubled s ++ doubled t
  | [], _ => rfl
  | c :: s, t => by
    rw [List.cons_append, doubled, doubled, doubled_append s t]
    split <;> rfl

theorem doubled_cons_of_ne {c : Char} (h : c ≠ '$') (s : List Char) :
    doubled (c :: s) = c :: doubled s := by
  rw [doubled, if_neg h]

theorem doubled_cons (c : Char) (s : List Char) : doubled (c :: s) = doubled [c] ++ doubled s :=
  doubled_append [c] s

theorem escapeText_append (s t : String) : escapeText (s ++ t) = escapeText s ++ escapeText t := by
  rw [escapeText, String.toList_append, doubled_append, String.ofList_append]
  rfl

theorem toList_escapeText (s : String) : (escapeText s).toList = doubled s.toList := by
  rw [escapeText, String.toList_ofList]

theorem mem_doubled {c : Char} : ∀ {s : List Char}, c ∈ doubled s ↔ c ∈ s
  | [] => Iff.rfl
  | d :: s => by
    rw [doubled]
    by_cases hd : d = '$'
    · simp [hd, mem_doubled]
    · simp [hd, mem_doubled]

theorem any_doubled (p : Char → Bool) (s : List Char) : (doubled s).any p = s.any p := by
  rw [Bool.eq_iff_iff, List.any_eq_true, List.any_eq_true]
  simp only [mem_doubled]

theorem all_doubled (p : Char → Bool) (s : List Char) : (doubled s).all p = s.all p := by
  rw [Bool.eq_iff_iff, List.all_eq_true, List.all_eq_true]
  simp only [mem_doubled]

theorem contains_doubled (c : Char) (s : List Char) : (doubled s).contains c = s.contains c := by
  rw [Bool.eq_iff_iff, List.contains_iff_mem, List.contains_iff_mem, mem_doubled]

theorem head?_doubled (s : List Char) : (doubled s).head? = s.head? := by
  cases s with
  | nil => rfl
  | cons c s =>
    rw [doubled]
    split
    · rename_i hc
      rw [hc]
      rfl
    · rfl

theorem isEmpty_doubled (s : List Char) : (doubled s).isEmpty = s.isEmpty := by
  cases s with
  | nil => rfl
  | cons c s =>
    rw [doubled]
    split <;> rfl

theorem reverse_doubled : ∀ s : List Char, (doubled s).reverse = doubled s.reverse
  | [] => rfl
  | c :: s => by
    have hpair : (doubled [c]).reverse = doubled [c] := by
      by_cases hc : c = '$' <;> simp [doubled, hc]
    rw [doubled_cons, List.reverse_append, reverse_doubled s, hpair, List.reverse_cons, doubled_append]

theorem getLast?_doubled (s : List Char) : (doubled s).getLast? = s.getLast? := by
  rw [List.getLast?_eq_head?_reverse, reverse_doubled, head?_doubled, List.head?_reverse]

theorem doubled_dropLast {s : List Char} (h : s.getLast? ≠ some '$') :
    (doubled s).dropLast = doubled s.dropLast := by
  rcases s.eq_nil_or_concat with rfl | ⟨init, c, rfl⟩
  · rfl
  · have hc : c ≠ '$' := by simpa using h
    rw [List.concat_eq_append, doubled_append, doubled_cons_of_ne hc, doubled,
      List.dropLast_concat, List.dropLast_concat]

/-- What is done to each character goes along with doubling, if it leaves the dollar sign alone and
brings in no other. -/
theorem doubled_flatMap {f : Char → List Char} (hsign : f '$' = ['$'])
    (hf : ∀ c, c ≠ '$' → '$' ∉ f c) : ∀ s : List Char, doubled (s.flatMap f) = (doubled s).flatMap f
  | [] => rfl
  | c :: s => by
    have ih := doubled_flatMap hsign hf s
    rw [List.flatMap_cons, doubled_append, ih, doubled]
    by_cases hc : c = '$'
    · rw [if_pos hc, hc, hsign, List.flatMap_cons, List.flatMap_cons, hsign]
      rfl
    · rw [if_neg hc, List.flatMap_cons, doubled_eq_self (hf c hc)]

theorem doubled_intercalate {separator : List Char} (h : '$' ∉ separator) :
    ∀ parts : List (List Char),
      doubled (separator.intercalate parts) = separator.intercalate (parts.map doubled)
  | [] => rfl
  | [part] => by simp
  | part :: next :: parts => by
    have ih := doubled_intercalate h (next :: parts)
    rw [List.map_cons] at ih
    rw [List.map_cons, List.map_cons, List.intercalate_cons_cons, List.intercalate_cons_cons,
      doubled_append, doubled_append, ih, doubled_eq_self h]

theorem escapeText_joined (separator : String) : ∀ parts : List String,
    escapeText (Text.joined separator parts) =
      Text.joined (escapeText separator) (parts.map escapeText)
  | [] => rfl
  | [part] => by simp [Text.joined]
  | part :: next :: parts => by
    have ih := escapeText_joined separator (next :: parts)
    unfold Text.joined at ih ⊢
    rw [List.map_cons, List.map_cons, String.intercalate_cons_cons, String.intercalate_cons_cons,
      escapeText_append, escapeText_append, ih, List.map_cons]

theorem escapeText_injective {s t : String} (h : escapeText s = escapeText t) : s = t := by
  rw [← unescapeText_escapeText s, h, unescapeText_escapeText]

theorem escapeText_lt_iff {s t : String} : escapeText s < escapeText t ↔ s < t := by
  refine ⟨fun h => ?_, escapeText_lt⟩
  rcases lt_trichotomy s t with hlt | rfl | hgt
  · exact hlt
  · exact absurd h (lt_irrefl _)
  · exact absurd h (lt_asymm (escapeText_lt hgt))

end Overlay
