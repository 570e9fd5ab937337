import Overlay.Proofs.Escape.Value
import Overlay.Proofs.Evaluation.Alone
import Overlay.Proofs.Literal.Instantiation
import Overlay.Proofs.Value.Place

/-!
# Variables of the environment

Variables in an otherwise escaped document give place to the texts that they are bound to. These
texts go through the last steps as all texts of the document do: doubled dollar signs become single
ones, and the mark of a required value is refused.
-/

namespace Overlay

namespace Value

/-! ## Escaped keys -/

theorem literalKeys_mapTexts {text : Place → String → String} (v : Value) :
    (v.mapTexts escapeText text).LiteralKeys := by
  induction v using induction generalizing text with
  | map entries ih =>
    rw [mapTexts_map, literalKeys_map, List.forall_mem_map]
    exact fun e he => ⟨isLiteral_escapeText e.1, ih e he⟩
  | list items ih =>
    rw [mapTexts_list, literalKeys_list]
    intro x hx
    obtain ⟨i, hi, rfl⟩ := List.mem_mapIdx.mp hx
    exact ih _ (List.getElem_mem hi)
  | _ => simp [mapTexts, LiteralKeys, everywhere_scalar]

theorem finalize_mapTexts {text : Place → String → String} {v : Value} (hv : v.WellFormed) :
    Output.finalize (v.mapTexts escapeText text) =
      v.mapTexts id fun p s => Output.unescapeText (text p s) := by
  induction v using induction generalizing text with
  | map entries ih =>
    obtain ⟨hs, hv⟩ := wellFormed_map.mp hv
    have hentries : ∀ e ∈ entries, (Output.unescapeText (escapeText e.1),
        Output.finalize (e.2.mapTexts escapeText fun p => text (.key e.1 :: p))) =
          (e.1, e.2.mapTexts id fun p s => Output.unescapeText (text (.key e.1 :: p) s)) := by
      intro e he
      rw [unescapeText_escapeText, ih e he (hv e he)]
    rw [mapTexts_map, mapTexts_map, Output.finalize_map, List.map_map]
    refine congrArg Value.map ((congrArg Entries.ofList (List.map_congr_left hentries)).trans ?_)
    exact Entries.Sorted.ofList (hs.map _ fun _ _ h => h)
  | list items ih =>
    have hv := wellFormed_list.mp hv
    rw [mapTexts_list, mapTexts_list, Output.finalize_list]
    refine congrArg Value.list (List.ext_getElem (by simp) fun i hi _ => ?_)
    rw [List.length_map, List.length_mapIdx] at hi
    rw [List.getElem_map, List.getElem_mapIdx, List.getElem_mapIdx]
    exact ih _ (List.getElem_mem hi) (hv _ (List.getElem_mem hi))
  | _ => rfl

theorem isString_mapTexts {key : String → String} {text : Place → String → String} {v : Value}
    (hv : v.WellFormed) {d : String} (h : ∀ p s, text p s ≠ d) :
    Everywhere (fun u => u.isString d = false) (v.mapTexts key text) := by
  intro u hu
  cases u with
  | string r =>
    obtain ⟨p, s, -, rfl⟩ := exists_textAt? hv hu
    exact beq_false_of_ne (h p s)
  | _ => rfl

/-! ## Documents with variables -/

/-- What stands for the string at a place: a text for the name that is chosen there, if there is one,
or else one for the string itself. -/
def textFor (choice : Place → Option String) (texts rest : String → String) (p : Place)
    (s : String) : String :=
  match choice p with
  | some name => texts name
  | none => rest s

/-- A value as a document in which the strings at the chosen places are variables. -/
def withVariables (choice : Place → Option String) (v : Value) : Value :=
  v.mapTexts escapeText (textFor choice (Directive.envSymbol ++ ·) escapeText)

/-- A value with other texts at the chosen places. -/
def filled (choice : Place → Option String) (texts : String → String) (v : Value) : Value :=
  v.mapTexts id (textFor choice texts id)

/-- A value in the course of an evaluation, with its variables replaced and not unescaped yet. -/
def instantiated (choice : Place → Option String) (texts : String → String) (v : Value) : Value :=
  v.mapTexts escapeText (textFor choice texts escapeText)

/-- A name is chosen at the place of a string inside a value. -/
def Chooses (choice : Place → Option String) (v : Value) (p : Place) (name : String) : Prop :=
  (∃ s, v.textAt? p = some s) ∧ choice p = some name

theorem finalize_instantiated {choice : Place → Option String} {texts : String → String} {v : Value}
    (hv : v.WellFormed) : Output.finalize (v.instantiated choice texts) =
      v.filled choice fun name => Output.unescapeText (texts name) := by
  rw [instantiated, finalize_mapTexts hv]
  refine mapTexts_congr hv fun p s _ => ?_
  unfold textFor
  cases choice p with
  | some name => rfl
  | none => exact unescapeText_escapeText s

theorem filled_unescapeText {choice : Place → Option String} {texts : String → String} {v : Value}
    (hv : v.WellFormed)
    (h : ∀ p name, v.Chooses choice p name → ¬ ['$', '$'] <:+: (texts name).toList) :
    v.filled choice (fun name => Output.unescapeText (texts name)) = v.filled choice texts := by
  refine mapTexts_congr hv fun p s hs => ?_
  unfold textFor
  cases hp : choice p with
  | some name => exact unescapeText_eq_self (h p name ⟨⟨s, hs⟩, hp⟩)
  | none => rfl

/-! ## Variables -/

theorem toList_variable (name : String) :
    (Directive.envSymbol ++ name).toList = '$' :: 'e' :: ("nv:".toList ++ name.toList) := by
  rw [String.toList_append]
  rfl

theorem stringReference?_variable (name : String) :
    Expansion.stringReference? (Directive.envSymbol ++ name) = none := by
  unfold Expansion.stringReference?
  rw [toList_variable]
  rfl

theorem variable_ne {d : String} {c : Char} {rest : List Char} (hd : d.toList = '$' :: c :: rest)
    (hc : c ≠ 'e') (name : String) : Directive.envSymbol ++ name ≠ d := by
  rintro rfl
  rw [toList_variable] at hd
  exact hc (List.cons.inj (List.cons.inj hd).2).1.symm

theorem inert_withVariables {choice : Place → Option String} {v : Value} (hv : v.WellFormed) :
    (v.withVariables choice).Inert := by
  have hne : ∀ {d : String} {c : Char} {rest : List Char}, d.toList = '$' :: c :: rest → c ≠ 'e' →
      isLiteral d = false → ∀ p s,
        textFor choice (Directive.envSymbol ++ ·) escapeText p s ≠ d := by
    intro d c rest hd hc hliteral p s
    unfold textFor
    cases choice p with
    | some name => exact variable_ne hd hc name
    | none => exact ne_of_isLiteral (isLiteral_escapeText s) hliteral
  apply (literalKeys_mapTexts v).inert
  · exact isString_mapTexts hv (hne rfl (by decide) rfl)
  · exact isString_mapTexts hv (hne rfl (by decide) rfl)
  · intro r hr
    obtain ⟨p, s, -, rfl⟩ := exists_textAt? hv hr
    unfold textFor
    cases choice p with
    | some name => exact stringReference?_variable name
    | none => exact Expansion.stringReference?_literal (isLiteral_escapeText s)

end Value

namespace Instantiation

theorem startsWith_variable (name : String) :
    (Directive.envSymbol ++ name).startsWith Directive.envSymbol = true := by
  rw [String.startsWith_string_iff, String.toList_append]
  exact List.prefix_append _ _

theorem stringValue_variable {f : Frame} {env : Environment} {name : String} {v : Value}
    (h : Entries.lookup (Directive.envSymbol ++ name) env = some v) (path : String) :
    stringValue f (Directive.envSymbol ++ name) env path = .ok v := by
  have hdouble : (Directive.envSymbol ++ name).startsWith "$$" = false := by
    rw [String.startsWith_string_eq_false_iff, Value.toList_variable]
    rintro ⟨rest, hrest⟩
    simp at hrest
  have hsymbol : isSymbol (Directive.envSymbol ++ name) = true := by
    rw [isSymbol, startsWith_variable, Bool.or_true]
  simp only [stringValue, hdouble, hsymbol, h, if_true]
  rfl

/-- What a string stands for that is a variable or no directive. -/
def variableValue (env : Environment) (s : String) : Value :=
  if s.startsWith Directive.envSymbol then (Entries.lookup s env).getD (.string s) else .string s

section
variable {choice : Place → Option String} {texts : String → String} {v : Value} {env : Environment}
  (hbound : ∀ p name, v.Chooses choice p name →
    Entries.lookup (Directive.envSymbol ++ name) env = some (.string (texts name)))
include hbound

theorem variableValue_textFor {p : Place} {s : String} (hs : v.textAt? p = some s) :
    variableValue env (Value.textFor choice (Directive.envSymbol ++ ·) escapeText p s) =
      .string (Value.textFor choice texts escapeText p s) := by
  unfold Value.textFor variableValue
  cases hp : choice p with
  | some name =>
    dsimp only
    rw [startsWith_variable, if_pos rfl, hbound p name ⟨⟨s, hs⟩, hp⟩, Option.getD_some]
  | none =>
    have hescaped : (escapeText s).startsWith Directive.envSymbol = false :=
      startsWith_of_isLiteral (isLiteral_escapeText s) (by decide) "nv:".toList rfl
    dsimp only
    rw [hescaped, if_neg Bool.false_ne_true]

theorem stringValue_textFor {p : Place} {s : String} (hs : v.textAt? p = some s) (f : Frame)
    (path : String) :
    stringValue f (Value.textFor choice (Directive.envSymbol ++ ·) escapeText p s) env path =
      .ok (.string (Value.textFor choice texts escapeText p s)) := by
  unfold Value.textFor
  cases hp : choice p with
  | some name => exact stringValue_variable (hbound p name ⟨⟨s, hs⟩, hp⟩) path
  | none => exact stringValue_literal (isLiteral_escapeText s) env path

theorem instantiate_withVariables (hv : v.WellFormed) (f : Frame) (again : Continuation)
    (path : String) : instantiate f again (v.withVariables choice) env path =
      pure (some (v.instantiated choice texts)) := by
  have hσ : ∀ r, Value.Inside (.string r) (v.withVariables choice) → ∀ path,
      stringValue f r env path = .ok (variableValue env r) := by
    intro r hr path
    obtain ⟨p, s, hs, rfl⟩ := Value.exists_textAt? hv hr
    rw [stringValue_textFor hbound hs, variableValue_textFor hbound hs]
  unfold Value.withVariables at hσ ⊢
  rw [instantiate_literalKeys (Value.literalKeys_mapTexts v) hσ, Value.instantiated,
    Value.substitute_mapTexts hv fun p s hs => variableValue_textFor hbound hs]

end

end Instantiation

/-! ## Evaluation -/

namespace Evaluation

section
variable (e : Evaluation) (label : String) {v : Value} (hv : v.WellFormed)
  {choice : Place → Option String} {texts : String → String}
  (hbound : ∀ p name, v.Chooses choice p name →
    Entries.lookup (Directive.envSymbol ++ name) e.environment = some (.string (texts name)))
include hv hbound

theorem evaluate_instantiated : e.evaluate (.alone label (v.withVariables choice)) [0] =
    Course.mapError (Error.defaultDocument label)
      (liftM ((fun out => [out]) <$> e.finish (v.instantiated choice texts))) := by
  rw [evaluate_alone e label (Value.inert_withVariables hv),
    Instantiation.instantiate_withVariables hbound hv, pure_bind, outputsOf_literalKeys]
  exact Value.literalKeys_mapTexts v

omit hv hbound in
theorem required_of_firstRequired {path : String} (hv : v.WellFormed)
    (h : (v.instantiated choice texts).firstRequired "" = some path) :
    ∃ p name, v.Chooses choice p name ∧ texts name = Directive.required ∧
      Place.keyPath escapeText "" p = path := by
  obtain ⟨p, s, hs, htext, hpath⟩ := Value.exists_of_firstRequired hv h
  unfold Value.textFor at htext
  cases hp : choice p with
  | some name =>
    rw [hp] at htext
    exact ⟨p, name, ⟨⟨s, hs⟩, hp⟩, htext, hpath⟩
  | none =>
    rw [hp] at htext
    exact absurd htext (ne_of_isLiteral (isLiteral_escapeText s) rfl)

omit hv hbound in
theorem exists_firstRequired {p : Place} {name : String} (hp : v.Chooses choice p name)
    (hname : texts name = Directive.required) :
    ∃ path, (v.instantiated choice texts).firstRequired "" = some path := by
  obtain ⟨⟨s, hs⟩, hp⟩ := hp
  rw [← Option.isSome_iff_exists, ← Option.ne_none_iff_isSome]
  intro hnone
  have hinside : Value.Inside (.string (Value.textFor choice texts escapeText p s))
      (v.instantiated choice texts) := Value.inside_of_textAt? hs
  have htext : Value.textFor choice texts escapeText p s = Directive.required := by
    rw [Value.textFor, hp]
    exact hname
  have hrequired := Value.firstRequired_eq_none.mp hnone _ hinside
  rw [htext] at hrequired
  cases hrequired

/-- A document in which variables stand at chosen places comes out with their texts there, in which
doubled dollar signs become single ones, so with the texts themselves if there are none in them. If a
text at a chosen place is the mark of a required value, a validation refuses it. -/
theorem evaluate_variables :
    ((e.validates = true → ∀ p name, v.Chooses choice p name → texts name ≠ Directive.required) →
      e.evaluate (.alone label (v.withVariables choice)) [0] =
          pure [v.filled choice fun name => Output.unescapeText (texts name)] ∧
        ((∀ p name, v.Chooses choice p name → ¬ ['$', '$'] <:+: (texts name).toList) →
          e.evaluate (.alone label (v.withVariables choice)) [0] = pure [v.filled choice texts])) ∧
    (e.validates = true → (∃ p name, v.Chooses choice p name ∧ texts name = Directive.required) →
      ∃ p name, v.Chooses choice p name ∧ texts name = Directive.required ∧
        e.evaluate (.alone label (v.withVariables choice)) [0] =
          throw ((Error.atKey .requiredField (Place.keyPath escapeText "" p)).defaultDocument label)) := by
  rw [evaluate_instantiated e label hv hbound]
  constructor
  · intro h
    have hnone : e.validates = true → (v.instantiated choice texts).firstRequired "" = none := by
      intro hvalidates
      rw [Option.eq_none_iff_forall_ne_some]
      intro path hpath
      obtain ⟨p, name, hp, hname, -⟩ := required_of_firstRequired hv hpath
      exact h hvalidates p name hp hname
    rw [finish_of_none e hnone, Value.finalize_instantiated hv]
    refine ⟨rfl, fun hsingle => ?_⟩
    rw [Value.filled_unescapeText hv hsingle]
    rfl
  · rintro hvalidates ⟨p, name, hp, hname⟩
    obtain ⟨path, hpath⟩ := exists_firstRequired hp hname
    obtain ⟨q, other, hq, hother, rfl⟩ := required_of_firstRequired hv hpath
    refine ⟨q, other, hq, hother, ?_⟩
    rw [finish_of_some e hvalidates hpath]
    rfl

end

theorem evaluate_variables_of_directives :
    let e : Evaluation := { environment := .ofVariables [("A", "$merge:x"), ("B", "$$b")] }
    let v : Value := .map [("$a", .list [.string "x", .string "$y", .int 1]), ("b", .string "")]
    let choice : Place → Option String := fun p =>
      if p = [.key "$a", .item 0] then some "A" else if p = [.key "b"] then some "B" else none
    e.evaluate (.alone "document" (v.withVariables choice)) [0] =
      pure [.map [("$a", .list [.string "$merge:x", .string "$y", .int 1]), ("b", .string "$b")]] := by
  intro e v choice
  let texts : String → String := fun name => if name = "A" then "$merge:x" else "$$b"
  have hnames : ∀ p name, choice p = some name → name = "A" ∨ name = "B" := by
    intro p name hp
    simp only [choice] at hp
    split_ifs at hp <;> simp_all
  have hbound : ∀ p name, v.Chooses choice p name →
      Entries.lookup (Directive.envSymbol ++ name) e.environment = some (.string (texts name)) := by
    intro p name h
    rcases hnames p name h.2 with rfl | rfl <;> rfl
  have hrequired : ∀ p name, v.Chooses choice p name → texts name ≠ Directive.required := by
    intro p name h
    rcases hnames p name h.2 with rfl | rfl <;> decide
  have hfilled : v.filled choice (fun name => Output.unescapeText (texts name)) = .map
      [("$a", .list [.string "$merge:x", .string "$y", .int 1]), ("b", .string "$b")] := by
    decide
  rw [((evaluate_variables e "document" (by decide) hbound).1 fun _ => hrequired).1, hfilled]

/-- Texts with doubled dollar signs do not come out as they are. -/
theorem evaluate_variables_of_doubled_sign :
    let e : Evaluation := { environment := .ofVariables [("N", "$$x")] }
    let v : Value := .map [("a", .string "")]
    e.evaluate (.alone "document" (v.withVariables fun _ => some "N")) [0] ≠
      pure [v.filled (fun _ => some "N") fun _ => "$$x"] := by
  intro e v
  have hbound : ∀ p name, v.Chooses (fun _ => some "N") p name →
      Entries.lookup (Directive.envSymbol ++ name) e.environment = some (.string "$$x") := by
    intro p name h
    cases h.2
    rfl
  have heq : e.evaluate (.alone "document" (v.withVariables fun _ => some "N")) [0] =
      pure [.map [("a", .string "$x")]] := by
    rw [evaluate_instantiated e "document" (by decide) hbound]
    rfl
  rw [heq]
  intro h
  have hout := (List.cons.inj (Except.ok.inj (Option.some.inj h))).1
  revert hout
  decide

end Evaluation

end Overlay
