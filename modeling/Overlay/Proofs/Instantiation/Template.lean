import Overlay.Instantiation.Run
import Overlay.Proofs.Expansion.Completion
import Overlay.Proofs.Result

/-!
# Filling in templates

A template whose texts and expressions have no braces is read as what it was written from. So its
texts stay, each expression gives place to the plain text of its value, whatever that has in it, and
the first expression without a value is the one that is reported.
-/

namespace Overlay

namespace Template

/-- A text, and further texts with something before each. -/
def splice (first : String) : List (String × String) → String
  | [] => first
  | (between, next) :: rest => first ++ between ++ splice next rest

def braced (e : String) : String :=
  "\x7b" ++ e ++ "\x7d"

/-- The inside of a template, from its first text and its expressions with the text after each. -/
def body (first : String) (rest : List (String × String)) : String :=
  splice first (rest.map fun (e, next) => (braced e, next))

def write (first : String) (rest : List (String × String)) : String :=
  "$\x22" ++ body first rest ++ "\x22"

/-- What comes of a template if values are put in place of its expressions. -/
def fill (first : String) (rest : List (String × String)) (values : List Value) : String :=
  splice first (List.zipWith (fun p v => (v.plain, p.2)) rest values)

def Braceless (s : String) : Prop :=
  '\x7b' ∉ s.toList ∧ '\x7d' ∉ s.toList

instance (s : String) : Decidable (Braceless s) :=
  inferInstanceAs (Decidable (_ ∧ _))

def letters (s : String) : List Piece :=
  s.toList.map fun c => .text [c]

theorem scan_text {s : List Char} (hs : '\x7b' ∉ s) (t : List Char) :
    scan none (s ++ t) = s.map (fun c => .text [c]) ++ scan none t := by
  induction s with
  | nil => rfl
  | cons c s ih =>
    have hc : c ≠ '\x7b' := (List.ne_of_not_mem_cons hs).symm
    rw [List.cons_append, scan, if_neg hc, ih (List.not_mem_of_not_mem_cons hs)]
    rfl

theorem scan_expression {e : List Char} (hopen : '\x7b' ∉ e) (hclose : '\x7d' ∉ e)
    (pending t : List Char) :
    scan (some pending) (e ++ '\x7d' :: t) = .expression (pending.reverse ++ e) :: scan none t := by
  induction e generalizing pending with
  | nil => simp [scan]
  | cons c e ih =>
    have hc : c ≠ '\x7b' := (List.ne_of_not_mem_cons hopen).symm
    have hd : c ≠ '\x7d' := (List.ne_of_not_mem_cons hclose).symm
    rw [List.cons_append, scan, if_neg hd, if_neg hc,
      ih (List.not_mem_of_not_mem_cons hopen) (List.not_mem_of_not_mem_cons hclose)]
    simp

theorem pieces_text {s : String} (hs : Braceless s) : pieces s.toList = letters s := by
  have h := scan_text hs.1 []
  rwa [List.append_nil, scan, List.append_nil] at h

theorem pieces_body_cons {first e next : String} {rest : List (String × String)}
    (hfirst : Braceless first) (he : Braceless e) :
    pieces (body first ((e, next) :: rest)).toList =
      letters first ++ .expression e.toList :: pieces (body next rest).toList := by
  have hlist : (body first ((e, next) :: rest)).toList =
      first.toList ++ '\x7b' :: (e.toList ++ '\x7d' :: (body next rest).toList) := by
    simp [body, splice, braced]
  have hscan := scan_expression he.1 he.2 [] (body next rest).toList
  rw [hlist, pieces, scan_text hfirst.1, scan, if_pos rfl, hscan]
  rfl

theorem startsWith_write {d : String} {c : Char} {start : List Char} (hd : d.toList = '$' :: c :: start)
    (hc : c ≠ '\x22') (first : String) (rest : List (String × String)) :
    (write first rest).startsWith d = false := by
  rw [String.startsWith_string_eq_false_iff, hd]
  rintro ⟨t, ht⟩
  simp only [write, String.toList_append] at ht
  exact hc (List.cons.inj (List.cons.inj ht).2).1

theorem body?_write (first : String) (rest : List (String × String)) :
    body? (write first rest) = some (body first rest).toList := by
  have hlist : (write first rest).toList = ['$', '\x22'] ++ ((body first rest).toList ++ ['\x22']) := by
    simp [write]
  rw [body?, hlist, Text.after?_append]
  simp

end Template

namespace Instantiation

open Template (Braceless body fill letters splice write)

/-- The value of an expression of a template. -/
def valueIn (f : Frame) (env : Environment) (e : String) : Result Value :=
  Reference.resolveIn f.site env (String.ofList (Text.trim e.toList))

/-- The values of the expressions of a template, unless one has none. -/
def valuesIn (f : Frame) (env : Environment) (path : String) (rest : List (String × String)) :
    Result (List Value) :=
  rest.mapM fun p => (valueIn f env p.1).mapError (Error.defaultPath path)

variable {f : Frame} {env : Environment} {path : String}

section
variable {rest : List (String × String)}

theorem exists_valuesIn_iff :
    (∃ values, valuesIn f env path rest = .ok values) ↔ ∀ p ∈ rest, ∃ v, valueIn f env p.1 = .ok v := by
  simp only [valuesIn, Result.mapM_ok_iff, Result.mapError_eq_ok]

theorem valuesIn_of_forall₂ {values : List Value}
    (h : List.Forall₂ (fun p v => valueIn f env p.1 = .ok v) rest values) :
    valuesIn f env path rest = .ok values :=
  Result.mapM_of_forall₂ (h.imp fun _ _ hv => Result.mapError_eq_ok.mpr hv)

theorem valuesIn_of_first_error {before after : List (String × String)} {e next : String}
    {error : Error} (hbefore : ∀ p ∈ before, ∃ v, valueIn f env p.1 = .ok v)
    (he : valueIn f env e = .error error) :
    valuesIn f env path (before ++ (e, next) :: after) = .error (error.defaultPath path) := by
  refine Result.mapM_of_first_error (fun p hp => ?_) ?_
  · obtain ⟨v, hv⟩ := hbefore p hp
    exact ⟨v, Result.mapError_eq_ok.mpr hv⟩
  · rw [he]
    rfl

end

theorem mapM_letters (s : String) :
    (letters s).mapM (pieceText f env path) = .ok (s.toList.map String.singleton) := by
  rw [letters, List.mapM_map]
  exact Result.mapM_of_forall fun c _ => by simp [pieceText]

theorem join_letters (s : String) : String.join (s.toList.map String.singleton) = s := by
  apply String.toList_injective
  simp [String.toList_join, List.flatMap_map]

theorem pieceText_expression (e : String) : pieceText f env path (.expression e.toList) =
    Value.plain <$> (valueIn f env e).mapError (Error.defaultPath path) := rfl

theorem fill_cons (first e next : String) (rest : List (String × String)) (v : Value)
    (values : List Value) :
    fill first ((e, next) :: rest) (v :: values) = first ++ v.plain ++ fill next rest values := rfl

/-- What the pieces of a template come to: its texts and the plain texts of the values, one after the
other, unless an expression has no value. -/
theorem join_texts_body {rest : List (String × String)} {first : String} (hfirst : Braceless first)
    (hrest : ∀ p ∈ rest, Braceless p.1 ∧ Braceless p.2) :
    String.join <$> (Template.pieces (body first rest).toList).mapM (pieceText f env path) =
      fill first rest <$> valuesIn f env path rest := by
  induction rest generalizing first with
  | nil =>
    rw [body, List.map_nil, splice, Template.pieces_text hfirst, mapM_letters]
    exact congrArg Except.ok (join_letters first)
  | cons p rest ih =>
    obtain ⟨e, next⟩ := p
    obtain ⟨⟨he, hnext⟩, hrest⟩ := List.forall_mem_cons.mp hrest
    have ih := ih hnext hrest
    rw [Template.pieces_body_cons hfirst he, List.mapM_append, mapM_letters, List.mapM_cons,
      pieceText_expression, valuesIn, List.mapM_cons]
    cases (valueIn f env e).mapError (Error.defaultPath path) with
    | error error => rfl
    | ok v =>
      -- The first text and the first value come in front of what comes of the other groups.
      have ih := congrArg ((first ++ v.plain ++ ·) <$> ·) ih
      simpa [valuesIn, join_letters, fill_cons, String.append_assoc] using ih

theorem isSymbol_write (first : String) (rest : List (String × String)) :
    isSymbol (write first rest) = false := by
  have hover : write first rest ≠ Directive.repeatOver := by
    intro heq
    have hlist := congrArg String.toList heq
    simp [write, Directive.repeatOver] at hlist
  have hrepeat : (write first rest).startsWith Directive.repeatSymbol = false :=
    Template.startsWith_write rfl (by decide) first rest
  have henv : (write first rest).startsWith Directive.envSymbol = false :=
    Template.startsWith_write rfl (by decide) first rest
  simp [isSymbol, hover, hrepeat, henv]

theorem stringValue_write {first : String} {rest : List (String × String)} (hfirst : Braceless first)
    (hrest : ∀ p ∈ rest, Braceless p.1 ∧ Braceless p.2) :
    stringValue f (write first rest) env path =
      (fun values => .string (fill first rest values)) <$> valuesIn f env path rest := by
  have hdouble : (write first rest).startsWith "$$" = false :=
    Template.startsWith_write rfl (by decide) first rest
  calc stringValue f (write first rest) env path
      = Value.string <$> String.join <$>
          (Template.pieces (body first rest).toList).mapM (pieceText f env path) := by
        simp only [stringValue, hdouble, isSymbol_write, Template.body?_write, Bool.false_eq_true,
          if_false]
        simp
    _ = Value.string <$> fill first rest <$> valuesIn f env path rest := by
        rw [join_texts_body hfirst hrest]
    _ = (fun values => .string (fill first rest values)) <$> valuesIn f env path rest := by
        rw [Functor.map_map]

/-- A template is filled in if all its expressions have values, with these as they are, and fails as
the first expression that has none. -/
theorem run_template (f : Frame) (env : Environment) (path : String) {first : String}
    {rest : List (String × String)} (hfirst : Braceless first)
    (hrest : ∀ p ∈ rest, Braceless p.1 ∧ Braceless p.2) :
    ((∃ v, f.run (.string (write first rest)) env path = some (.ok (some v))) ↔
      ∀ p ∈ rest, ∃ v, valueIn f env p.1 = .ok v) ∧
    (∀ values, List.Forall₂ (fun p v => valueIn f env p.1 = .ok v) rest values →
      f.run (.string (write first rest)) env path =
        some (.ok (some (.string (fill first rest values))))) ∧
    (∀ before e next after error, rest = before ++ (e, next) :: after →
      (∀ p ∈ before, ∃ v, valueIn f env p.1 = .ok v) → valueIn f env e = .error error →
      f.run (.string (write first rest)) env path = some (.error (error.defaultPath path))) := by
  have hrun : f.run (.string (write first rest)) env path =
      some ((fun values => some (.string (fill first rest values))) <$> valuesIn f env path rest) := by
    rw [Frame.run, instantiate, stringValue_write hfirst hrest]
    cases valuesIn f env path rest <;> rfl
  rw [hrun]
  refine ⟨?_, fun values hvalues => ?_, fun before e next after error hparts hbefore he => ?_⟩
  · rw [← exists_valuesIn_iff]
    constructor
    · rintro ⟨v, hv⟩
      obtain ⟨values, hvalues, -⟩ := Result.map_eq_ok.mp (Option.some.inj hv)
      exact ⟨values, hvalues⟩
    · rintro ⟨values, hvalues⟩
      rw [hvalues]
      exact ⟨_, rfl⟩
  · rw [valuesIn_of_forall₂ hvalues]
    rfl
  · rw [hparts, valuesIn_of_first_error hbefore he]
    rfl

theorem run_template_of_braces :
    let data : Value := .map [("a", .string "\x7bb\x7d"), ("b", .string "$\x22\x7ba\x7d\x22")]
    let f : Frame := ⟨⟨⟨⟨[⟨"document", data, []⟩]⟩, [0]⟩, 0⟩, 0⟩
    let env : Environment := [("$env:HOME", .string "~")]
    let rest := [("a", ""), (" b ", "é\x22"), ("$env:HOME", "")]
    let failing := [("a", ""), ("c", "é"), ("d", "")]
    (Braceless "" ∧ (∀ p ∈ rest, Braceless p.1 ∧ Braceless p.2) ∧
      ∀ p ∈ failing, Braceless p.1 ∧ Braceless p.2) ∧
    f.run (.string "$\x22\x7ba\x7d\x7b b \x7dé\x22\x7b$env:HOME\x7d\x22") env "k" =
      some (.ok (some (.string "\x7bb\x7d$\x22\x7ba\x7d\x22é\x22~"))) ∧
    f.run (.string "$\x22\x7ba\x7d\x7bc\x7dé\x7bd\x7d\x22") env "k" =
      some (.error (.atKey (.danglingReference "c") "k")) := by
  intro data f env rest failing
  have hfirst : Braceless "" := by decide
  have hrest : ∀ p ∈ rest, Braceless p.1 ∧ Braceless p.2 := by decide
  have hfailing : ∀ p ∈ failing, Braceless p.1 ∧ Braceless p.2 := by decide
  have ha : valueIn f env "a" = .ok (.string "\x7bb\x7d") := by rfl
  have hb : valueIn f env " b " = .ok (.string "$\x22\x7ba\x7d\x22") := by rfl
  have hhome : valueIn f env "$env:HOME" = .ok (.string "~") := by rfl
  have hc : valueIn f env "c" = .error (.of (.danglingReference "c")) := by
    have hname : "c".startsWith "$" = false := by
      rw [String.startsWith_string_eq_false_iff]
      decide
    have hvalue : valueIn f env "c" = if "c".startsWith "$" then
        .error (.of (.unboundVariable "c")) else .error (.of (.danglingReference "c")) := by rfl
    rw [hvalue, hname]
    rfl
  obtain ⟨-, hfilled, -⟩ := run_template f env "k" hfirst hrest
  obtain ⟨-, -, hfails⟩ := run_template f env "k" hfirst hfailing
  refine ⟨⟨hfirst, hrest, hfailing⟩, ?_, ?_⟩
  · exact hfilled _ (.cons ha (.cons hb (.cons hhome .nil)))
  · exact hfails [("a", "")] "c" "é" [("d", "")] _ rfl (by
      intro p hp
      cases List.mem_singleton.mp hp
      exact ⟨_, ha⟩) hc

end Instantiation

end Overlay
