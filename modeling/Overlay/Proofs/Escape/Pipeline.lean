import Overlay.Pipeline
import Overlay.Proofs.Escape.Properties
import Overlay.Proofs.Escape.Toml
import Overlay.Proofs.Escape.Yaml
import Overlay.Proofs.Format.Stream
import Overlay.Proofs.Pipeline
import Overlay.Proofs.Result
import Overlay.Proofs.Text.Lines

/-!
# Pipelines over escaped values

Most stages do to an escaped value what they do to the value, and the outcome is escaped. Digests see
the doubled dollar signs, YAML sees the length of keys, and what stands in an argument is not escaped.
`Clear` leaves these aside, so a clear pipeline goes along with escaping.
-/

namespace Overlay

/-! ## Formats -/

namespace Format

theorem getLast?_closed (text : String) : (closed text).toList.getLast? = some '\n' := by
  unfold closed
  split
  · rename_i h
    exact endsWith_iff.mp h
  · simp

theorem closed_escapeText (text : String) : closed (escapeText text) = escapeText (closed text) := by
  have hends : (escapeText text).endsWith "\n" = text.endsWith "\n" := by
    rw [Bool.eq_iff_iff, endsWith_iff, endsWith_iff, toList_escapeText, getLast?_doubled]
  unfold closed
  rw [hends]
  split
  · rfl
  · rw [escapeText_append]
    rfl

theorem closed_of_encode {format : Format} {v : Value} {text : String}
    (h : format.encode v = .ok text) : ∃ content, text = closed content := by
  unfold encode at h
  dsimp only at h
  split at h
  · cases h
    exact ⟨_, rfl⟩
  · cases h

theorem encode_escape {format : Format} {v : Value} (h : format = yaml → Yaml.KeepsKeys v) :
    format.encode v.escape = escapeText <$> format.encode v := by
  have hsome : ∀ text : String, (Except.ok (closed (escapeText text)) : Result String) =
      escapeText <$> .ok (closed text) := fun text => congrArg _ (closed_escapeText text)
  cases format with
  | yaml => simp only [encode, Yaml.render_escape (h rfl), hsome]
  | json => simp only [encode, Json.compact_escape, hsome]
  | jsonLines => simp only [encode, Json.compact_escape, hsome]
  | jsonPretty => simp only [encode, Json.pretty_escape, hsome]
  | toml =>
    simp only [encode, Toml.render?_escape]
    cases Toml.render? v with
    | none => rfl
    | some text => exact hsome text
  | properties => simp only [encode, Properties.render_escape, hsome]

end Format

/-! ## Clear stages -/

namespace Stage

/-- What must hold of a value for a stage not to tell it from the escaped one. -/
structure Clear (s : Stage) (v : Value) : Prop where
  argument : '$' ∉ (s.argument.getD "").toList
  digest : s.name = "base64" ∨ s.name = "sha256" → '$' ∉ v.plain.toList
  keys : Format.ofName (String.ofList (Text.trim s.text.toList)) = .ok .yaml → Yaml.KeepsKeys v

/-- A stage without a sign in its argument, that is no digest and does not write YAML, is clear for
every value. -/
theorem clear_of_text {s : Stage} (hargument : '$' ∉ (s.argument.getD "").toList)
    (hdigest : ¬ (s.name = "base64" ∨ s.name = "sha256"))
    (hformat : Format.ofName (String.ofList (Text.trim s.text.toList)) ≠ .ok .yaml) (v : Value) :
    s.Clear v :=
  ⟨hargument, fun h => absurd h hdigest, fun h => absurd h hformat⟩

/-! ## Maps and lists -/

theorem bind_entriesOf_escape (s : Stage) (v : Value) {f : Entries Value → Result Value}
    (h : ∀ entries, f (Value.escapeEntries entries) = Value.escape <$> f entries) :
    s.entriesOf v.escape >>= f = Value.escape <$> (s.entriesOf v >>= f) := by
  cases v with
  | map entries => exact h entries
  | _ => rfl

theorem bind_itemsOf_escape (s : Stage) (v : Value) {f : List Value → Result Value}
    (h : ∀ items, f (Value.escapeItems items) = Value.escape <$> f items) :
    s.itemsOf v.escape >>= f = Value.escape <$> (s.itemsOf v >>= f) := by
  cases v with
  | list items => exact h items
  | _ => rfl

theorem spread_escape (v : Value) : spread v.escape = (spread v).map Value.escape := by
  cases v with
  | list items => exact Value.escapeItems_eq items
  | _ => rfl

theorem flags_escape (key : String) (v : Value) :
    flags (escapeText key) v.escape = (flags key v).map Value.escape := by
  have hflag : "--" ++ escapeText key = escapeText ("--" ++ key) := (escapeText_append "--" key).symm
  have hspread : ((spread v.escape).map fun x =>
      Value.string ("--" ++ escapeText key ++ "=" ++ x.plain)) =
        ((spread v).map fun x => Value.string ("--" ++ key ++ "=" ++ x.plain)).map Value.escape := by
    rw [spread_escape, List.map_map, List.map_map]
    refine List.map_congr_left fun x _ => ?_
    rw [Function.comp_apply, Function.comp_apply, Value.plain_escape, hflag, Value.escape,
      escapeText_append ("--" ++ key ++ "="), escapeText_append ("--" ++ key)]
    rfl
  cases v with
  | null => rfl
  | bool b =>
    cases b with
    | false => rfl
    | true => exact congrArg (fun text => [Value.string text]) hflag
  | _ => exact hspread

/-- A key bound to a text by a delimiter. -/
theorem string_escape {delimiter : String} (h : escapeText delimiter = delimiter) (key : String)
    (v : Value) : Value.string (escapeText key ++ delimiter ++ v.escape.plain) =
      (Value.string (key ++ delimiter ++ v.plain)).escape := by
  rw [Value.escape, Value.plain_escape, escapeText_append, escapeText_append, h]

theorem lookup_escape (key : String) : ∀ entries : Entries Value,
    Entries.lookup (escapeText key) (Value.escapeEntries entries) =
      (Entries.lookup key entries).map Value.escape
  | [] => rfl
  | (k, v) :: rest => by
    have hk : escapeText k = escapeText key ↔ k = key := ⟨escapeText_injective, congrArg _⟩
    simp only [Value.escapeEntries, Entries.lookup, hk, lookup_escape key rest]
    split <;> rfl

theorem insert_escape (key : String) (v : Value) : ∀ entries : Entries Value,
    Entries.insert (escapeText key) v.escape (Value.escapeEntries entries) =
      Value.escapeEntries (Entries.insert key v entries)
  | [] => rfl
  | (k, x) :: rest => by
    have hk : escapeText k = escapeText key ↔ k = key := ⟨escapeText_injective, congrArg _⟩
    simp only [Value.escapeEntries, Entries.insert, hk, escapeText_lt_iff, insert_escape key v rest]
    split_ifs <;> rfl

theorem insertAt_escape (v : Value) : ∀ {path : List String}, (∀ key ∈ path, escapeText key = key) →
    ∀ target : Value, insertAt v.escape path target.escape = Value.escape <$> insertAt v path target
  | [], _, _ => rfl
  | [key], h, target => by
    have hkey := h key List.mem_cons_self
    cases target with
    | map entries =>
      have hinsert := insert_escape key v entries
      rw [hkey] at hinsert
      exact congrArg (fun entries => Except.ok (Value.map entries)) hinsert
    | _ => rfl
  | key :: next :: rest, h, target => by
    obtain ⟨hkey, hrest⟩ := List.forall_mem_cons.mp h
    cases target with
    | map entries =>
      have hlookup := lookup_escape key entries
      rw [hkey] at hlookup
      have hinner : ((Entries.lookup key entries).map Value.escape).getD (.map []) =
          ((Entries.lookup key entries).getD (.map [])).escape := by
        cases Entries.lookup key entries <;> rfl
      rw [Value.escape, insertAt, insertAt, hlookup, hinner, insertAt_escape v hrest]
      · cases insertAt v (next :: rest) ((Entries.lookup key entries).getD (.map [])) with
        | error e => rfl
        | ok inner =>
          have hinsert := insert_escape key inner entries
          rw [hkey] at hinsert
          exact congrArg (fun entries => Except.ok (Value.map entries)) hinsert
      · nofun
      · nofun
    | _ => rfl

theorem valueItem_escape {nameKey : Option (List String)} {valueKey : Option String}
    (hname : ∀ path ∈ nameKey, ∀ key ∈ path, escapeText key = key)
    (hvalue : ∀ key ∈ valueKey, escapeText key = key) (key : String) (v : Value) :
    valueItem nameKey valueKey (escapeText key) v.escape =
      Value.escape <$> valueItem nameKey valueKey key v := by
  cases valueKey with
  | none =>
    cases nameKey with
    | none => rfl
    | some path => exact insertAt_escape (.string key) (hname path rfl) v
  | some k =>
    have hitem : Value.map [(k, v.escape)] = (Value.map [(k, v)]).escape := by
      rw [Value.escape, Value.escapeEntries, hvalue k rfl]
      rfl
    cases nameKey with
    | none => exact congrArg Except.ok hitem
    | some path =>
      rw [valueItem, hitem]
      exact insertAt_escape (.string key) (hname path rfl) (.map [(k, v)])

/-- The items that a map is turned into. -/
theorem valueItems_escape {nameKey : Option (List String)} {valueKey : Option String}
    (hname : ∀ path ∈ nameKey, ∀ key ∈ path, escapeText key = key)
    (hvalue : ∀ key ∈ valueKey, escapeText key = key) (entries : Entries Value) :
    ((Value.escapeEntries entries).mapM fun (k, x) => valueItem nameKey valueKey k x) =
      List.map Value.escape <$> entries.mapM fun (k, x) => valueItem nameKey valueKey k x := by
  rw [Value.escapeEntries_eq]
  exact Result.mapM_map (fun e => valueItem_escape hname hvalue e.1 e.2) entries

/-! ## Arguments -/

section
variable {s : Stage} (h : '$' ∉ (s.argument.getD "").toList)
include h

theorem bind_delimiter {f g : String → Result Value}
    (hf : ∀ text, escapeText text = text → f text = Value.escape <$> g text) :
    s.delimiter >>= f = Value.escape <$> (s.delimiter >>= g) := by
  unfold delimiter
  cases hargument : s.argument with
  | none => rfl
  | some argument =>
    rw [hargument] at h
    exact hf argument (escapeText_eq_self h)

theorem escape_separator : escapeText (s.argument.getD ",") = s.argument.getD "," := by
  cases hargument : s.argument with
  | none => rfl
  | some argument =>
    rw [hargument] at h
    exact escapeText_eq_self h

theorem escape_valueKeys : s.Writes fun key => escapeText key = key := by
  obtain ⟨hname, hvalue⟩ := writes_of_not_mem h
  exact ⟨fun path hpath key hkey => escapeText_eq_self (hname path hpath key hkey),
    fun key hkey => escapeText_eq_self (hvalue key hkey)⟩

end

/-! ## Outcomes -/

theorem list_escape (items : List Value) :
    (Value.list items).escape = .list (items.map Value.escape) := by
  rw [Value.escape, Value.escapeItems_eq]

theorem flatMapEntries_escape (f : String → Value → List Value)
    (h : ∀ k x, f (escapeText k) x.escape = (f k x).map Value.escape) (entries : Entries Value) :
    Value.list ((Value.escapeEntries entries).flatMap fun (k, x) => f k x) =
      (Value.list (entries.flatMap fun (k, x) => f k x)).escape := by
  rw [list_escape, Value.escapeEntries_eq, List.flatMap_map, List.map_flatMap]
  simp only [h]

theorem mapEntries_escape (f : String → Value → Value)
    (h : ∀ k x, f (escapeText k) x.escape = (f k x).escape) (entries : Entries Value) :
    Value.list ((Value.escapeEntries entries).map fun (k, x) => f k x) =
      (Value.list (entries.map fun (k, x) => f k x)).escape := by
  rw [list_escape, Value.escapeEntries_eq, List.map_map, List.map_map]
  exact congrArg Value.list (List.map_congr_left fun e _ => h e.1 e.2)

theorem letter_ne (n : Nat) : '$' ≠ Text.Base64.letter n := by
  have hletters : ∀ n < 64, '$' ≠ Text.Base64.letter n := by decide
  have hmod : Text.Base64.letter (n % 64) = Text.Base64.letter n := by
    simp only [Text.Base64.letter, Nat.mod_mod]
  rw [← hmod]
  exact hletters _ (Nat.mod_lt n (by decide))

theorem not_mem_base64 : ∀ bytes : List UInt8, '$' ∉ Text.Base64.encode bytes
  | [] => List.not_mem_nil
  | [a] => by simp [Text.Base64.encode, letter_ne]
  | [a, b] => by simp [Text.Base64.encode, letter_ne]
  | a :: b :: c :: rest => by simp [Text.Base64.encode, letter_ne, not_mem_base64 rest]

theorem not_mem_base64Text (bytes : List UInt8) :
    '$' ∉ (String.ofList (Text.Base64.encode bytes)).toList := by
  rw [String.toList_ofList]
  exact not_mem_base64 bytes

theorem not_mem_hexDigest (bytes : List UInt8) : '$' ∉ (Sha256.hexDigest bytes).toList := by
  rw [Sha256.hexDigest, String.toList_ofList, List.mem_flatMap]
  rintro ⟨w, -, hsign⟩
  exact not_mem_hexOfWidth hsign

theorem digest_escape {digest : List UInt8 → String} (hdigest : ∀ bytes, '$' ∉ (digest bytes).toList)
    {v : Value} (h : '$' ∉ v.plain.toList) :
    Value.string (digest v.escape.plain.toUTF8.toList) =
      (Value.string (digest v.plain.toUTF8.toList)).escape := by
  rw [Value.plain_escape, escapeText_eq_self h, Value.escape, escapeText_eq_self (hdigest _)]

theorem formatted_escape {s : Stage} {v : Value}
    (h : Format.ofName (String.ofList (Text.trim s.text.toList)) = .ok .yaml → Yaml.KeepsKeys v) :
    s.formatted v.escape = Value.escape <$> s.formatted v := by
  unfold formatted
  cases hformat : Format.ofName (String.ofList (Text.trim s.text.toList)) with
  | error e => rfl
  | ok format =>
    have hencode := Format.encode_escape (v := v) fun hyaml => h (hyaml ▸ hformat)
    rw [Result.ok_bind, Result.ok_bind, hencode]
    cases htext : format.encode v with
    | error e => rfl
    | ok text =>
      obtain ⟨content, rfl⟩ := Format.closed_of_encode htext
      have hlast : (Format.closed content).toList.getLast? ≠ some '$' := by
        rw [Format.getLast?_closed]
        decide
      have hline : String.ofList (escapeText (Format.closed content)).toList.dropLast =
          escapeText (String.ofList (Format.closed content).toList.dropLast) := by
        rw [toList_escapeText, doubled_dropLast hlast, escapeText, String.toList_ofList]
      cases format with
      | json | jsonLines => exact congrArg (fun text => Except.ok (Value.string text)) hline
      | _ => rfl

/-- A clear stage makes of an escaped value what it makes of the value, escaped. -/
theorem apply_escape {s : Stage} {v : Value} (h : s.Clear v) :
    s.apply v.escape = Value.escape <$> s.apply v := by
  unfold apply
  split
  case h_1 hname =>
    exact congrArg Except.ok (digest_escape not_mem_base64Text (h.digest (.inl hname)))
  case h_2 hname =>
    exact congrArg Except.ok (digest_escape not_mem_hexDigest (h.digest (.inr hname)))
  case h_3 =>
    refine bind_entriesOf_escape s v fun entries => congrArg Except.ok ?_
    exact flatMapEntries_escape flags flags_escape entries
  case h_4 =>
    refine bind_delimiter h.argument fun text htext =>
      bind_entriesOf_escape s v fun entries => congrArg Except.ok ?_
    exact mapEntries_escape (fun k x => .string (k ++ text ++ x.plain)) (string_escape htext) entries
  case h_5 =>
    refine bind_delimiter h.argument fun text htext =>
      bind_entriesOf_escape s v fun entries => congrArg Except.ok ?_
    refine flatMapEntries_escape
      (fun k x => (spread x).map fun y => .string (k ++ text ++ y.plain)) (fun k x => ?_) entries
    rw [spread_escape, List.map_map, List.map_map]
    exact List.map_congr_left fun y _ => string_escape htext k y
  case h_6 =>
    refine bind_itemsOf_escape s v fun items => congrArg Except.ok ?_
    rw [list_escape, Value.escapeItems_eq, List.flatMap_map, List.map_flatMap]
    simp only [spread_escape]
  case h_7 =>
    refine bind_itemsOf_escape s v fun items => congrArg (fun text => Except.ok (Value.string text)) ?_
    rw [escapeText_joined, escape_separator h.argument, Value.escapeItems_eq, List.map_map, List.map_map]
    exact congrArg _ (List.map_congr_left fun x _ => x.plain_escape)
  case h_8 =>
    obtain ⟨hname, hvalue⟩ := escape_valueKeys h.argument
    refine bind_entriesOf_escape s v fun entries => ?_
    have hitems := valueItems_escape hname hvalue entries
    dsimp only at hitems ⊢
    rw [hitems]
    cases entries.mapM fun e => valueItem s.valueKeys.1 s.valueKeys.2 e.1 e.2 with
    | error e => rfl
    | ok items => exact congrArg Except.ok (list_escape items).symm
  case h_9 => exact formatted_escape h.keys

end Stage

/-! ## Pipelines -/

namespace Pipeline

/-- Each stage is clear for the value that comes to it. -/
def ClearThrough : List Stage → Value → Prop
  | [], _ => True
  | s :: rest, v => s.Clear v ∧ ∀ w, s.apply v = .ok w → ClearThrough rest w

def Clear (pipeline : String) (v : Value) : Prop :=
  ∀ ss, stages pipeline = .ok ss → ClearThrough ss v

theorem clearThrough_of_forall : ∀ {ss : List Stage}, (∀ s ∈ ss, ∀ v, s.Clear v) →
    ∀ v, ClearThrough ss v
  | [], _, _ => trivial
  | _ :: _, h, v =>
    have ⟨hs, hrest⟩ := List.forall_mem_cons.mp h
    ⟨hs v, fun w _ => clearThrough_of_forall hrest w⟩

theorem clear_of_forall {pipeline : String} {ss : List Stage} (hstages : stages pipeline = .ok ss)
    (h : ∀ s ∈ ss, ∀ v, s.Clear v) (v : Value) : Clear pipeline v := by
  intro others hothers
  rw [hstages] at hothers
  cases hothers
  exact clearThrough_of_forall h v

theorem foldlM_escape : ∀ {ss : List Stage} {v : Value}, ClearThrough ss v →
    ss.foldlM (fun v s => s.apply v) v.escape =
      Value.escape <$> ss.foldlM (fun v s => s.apply v) v
  | [], _, _ => rfl
  | s :: rest, v, ⟨hs, hrest⟩ => by
    rw [List.foldlM_cons, List.foldlM_cons, Stage.apply_escape hs]
    cases hw : s.apply v with
    | error e => rfl
    | ok w => exact foldlM_escape (hrest w hw)

/-- So does a clear pipeline. -/
theorem run_escape {pipeline : String} {v : Value} (h : Clear pipeline v) :
    run pipeline v.escape = Value.escape <$> run pipeline v := by
  unfold run
  cases hss : stages pipeline with
  | error e => rfl
  | ok ss => exact foldlM_escape (h ss hss)

end Pipeline

end Overlay
