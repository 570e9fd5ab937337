import Overlay.Pipeline
import Overlay.Proofs.Entries
import Overlay.Proofs.Literal.Basic
import Overlay.Proofs.Result
import Overlay.Proofs.Text.Lines
import Overlay.Proofs.Value.Hereditary
import Overlay.Proofs.Value.WellFormed

/-!
# What pipelines make

Pipelines take values apart and write texts and new maps. `Kept` are the properties that survive this,
such as well-formedness, and what holds of all keys, if it holds of those that stand in the pipeline. A
pipeline that has an outcome starts with the name of a stage or format, so it is no directive.
-/

namespace Overlay

namespace Stage

variable {s : Stage} {v w : Value}

theorem entriesOf_eq_ok {entries : Entries Value} : s.entriesOf v = .ok entries ↔ v = .map entries := by
  cases v <;> simp [entriesOf]

theorem itemsOf_eq_ok {items : List Value} : s.itemsOf v = .ok items ↔ v = .list items := by
  cases v <;> simp [itemsOf]

/-! ## What stages keep -/

/-- A property of values that is kept by stages, if the keys they write have a property too. -/
structure Kept (K : String → Prop) (P : Value → Prop) : Prop where
  string : ∀ text, P (.string text)
  list : ∀ {items : List Value}, P (.list items) ↔ ∀ x ∈ items, P x
  entry : ∀ {entries : Entries Value}, P (.map entries) → ∀ e ∈ entries, P e.2
  empty : P (.map [])
  insert : ∀ {key : String} {v : Value} {entries : Entries Value}, K key → P v →
    P (.map entries) → P (.map (Entries.insert key v entries))

/-- The keys that a stage writes. -/
def Writes (K : String → Prop) (s : Stage) : Prop :=
  (∀ path ∈ s.valueKeys.1, ∀ key ∈ path, K key) ∧ ∀ key ∈ s.valueKeys.2, K key

namespace Kept

variable {K : String → Prop} {P : Value → Prop} (hP : Kept K P)
include hP

theorem spread (hv : P v) : ∀ x ∈ spread v, P x := by
  cases v with
  | list items => exact hP.list.mp hv
  | _ => exact List.forall_mem_singleton.mpr hv

theorem flags {key : String} : ∀ x ∈ flags key v, P x := by
  intro x hx
  unfold Stage.flags at hx
  split at hx
  · cases hx
  · cases hx
  · rw [List.mem_singleton.mp hx]
    exact hP.string _
  · obtain ⟨y, -, rfl⟩ := List.mem_map.mp hx
    exact hP.string _

theorem insertAt (hv : P v) : ∀ {path : List String} {target w : Value}, (∀ key ∈ path, K key) →
    P target → insertAt v path target = .ok w → P w
  | [], _, _, _, ht, h => by
    cases h
    exact ht
  | [key], target, _, hpath, ht, h => by
    cases target with
    | map entries =>
      cases h
      exact hP.insert (hpath key List.mem_cons_self) hv ht
    | _ => cases h
  | key :: next :: rest, target, w, hpath, ht, h => by
    obtain ⟨hkey, hrest⟩ := List.forall_mem_cons.mp hpath
    cases target with
    | map entries =>
      have hinner : P ((Entries.lookup key entries).getD (.map [])) := by
        cases hlookup : Entries.lookup key entries with
        | none => exact hP.empty
        | some x => exact hP.entry ht _ (Entries.mem_of_lookup hlookup)
      obtain ⟨inner, hinsert, hw⟩ := Result.bind_eq_ok.mp h
      cases hw
      exact hP.insert hkey (insertAt hv hrest hinner hinsert) ht
    | _ => cases h

theorem valueItem {nameKey : Option (List String)} {valueKey : Option String} {key : String}
    (hname : ∀ path ∈ nameKey, ∀ key ∈ path, K key) (hvalue : ∀ key ∈ valueKey, K key) (hv : P v)
    (h : valueItem nameKey valueKey key v = .ok w) : P w := by
  cases valueKey with
  | none =>
    cases nameKey with
    | none =>
      cases h
      exact hv
    | some path => exact hP.insertAt (hP.string key) (hname path rfl) hv h
  | some k =>
    have hitem : P (.map [(k, v)]) := hP.insert (hvalue k rfl) hv hP.empty
    cases nameKey with
    | none =>
      cases h
      exact hitem
    | some path => exact hP.insertAt (hP.string key) (hname path rfl) hitem h

/-- A list of what is made of the entries of a map. -/
theorem flatMap {α : Type} {f : α → List Value} {xs : List α} (h : ∀ a ∈ xs, ∀ x ∈ f a, P x) :
    P (.list (xs.flatMap f)) := by
  refine hP.list.mpr fun x hx => ?_
  obtain ⟨a, ha, hx⟩ := List.mem_flatMap.mp hx
  exact h a ha x hx

theorem apply (hkeys : s.Writes K) (hv : P v) (h : s.apply v = .ok w) : P w := by
  unfold Stage.apply at h
  split at h
  case h_1 | h_2 =>
    cases h
    exact hP.string _
  case h_3 =>
    obtain ⟨entries, -, h⟩ := Result.bind_eq_ok.mp h
    cases h
    exact hP.flatMap fun e _ => hP.flags
  case h_4 =>
    obtain ⟨text, -, h⟩ := Result.bind_eq_ok.mp h
    obtain ⟨entries, -, h⟩ := Result.bind_eq_ok.mp h
    cases h
    exact hP.list.mpr (List.forall_mem_map.mpr fun e _ => hP.string _)
  case h_5 =>
    obtain ⟨text, -, h⟩ := Result.bind_eq_ok.mp h
    obtain ⟨entries, -, h⟩ := Result.bind_eq_ok.mp h
    cases h
    exact hP.flatMap fun e _ => List.forall_mem_map.mpr fun y _ => hP.string _
  case h_6 =>
    obtain ⟨items, hitems, h⟩ := Result.bind_eq_ok.mp h
    cases h
    rw [itemsOf_eq_ok.mp hitems, hP.list] at hv
    exact hP.flatMap fun x hx => hP.spread (hv x hx)
  case h_7 =>
    obtain ⟨items, -, h⟩ := Result.bind_eq_ok.mp h
    cases h
    exact hP.string _
  case h_8 =>
    obtain ⟨entries, hentries, h⟩ := Result.bind_eq_ok.mp h
    obtain ⟨items, hitems, h⟩ := Result.bind_eq_ok.mp h
    cases h
    rw [entriesOf_eq_ok.mp hentries] at hv
    refine hP.list.mpr fun x hx => ?_
    obtain ⟨e, he, hx⟩ := Result.exists_of_mem_mapM hitems hx
    exact hP.valueItem hkeys.1 hkeys.2 (hP.entry hv e he) hx
  case h_9 =>
    obtain ⟨format, -, h⟩ := Result.bind_eq_ok.mp h
    obtain ⟨text, -, h⟩ := Result.bind_eq_ok.mp h
    split at h
    all_goals
      cases h
      exact hP.string _

end Kept

theorem kept_wellFormed : Kept (fun _ => True) Value.WellFormed where
  string _ := trivial
  list := Value.wellFormed_list
  entry h := (Value.wellFormed_map.mp h).2
  empty := ⟨.nil, trivial⟩
  insert := by
    intro key v entries _ hv h
    obtain ⟨hsorted, hentries⟩ := Value.wellFormed_map.mp h
    exact Value.wellFormed_map.mpr ⟨hsorted.insert key v, Entries.forall_insert hv hentries⟩

theorem kept_of_hereditary {K : String → Prop} {P : Value → Prop} (hP : Value.Hereditary K P)
    (hstring : ∀ text, P (.string text)) : Kept K P where
  string := hstring
  list := hP.list
  entry h e he := (hP.map.mp h e he).2
  empty := hP.map.mpr (List.forall_mem_nil _)
  insert := hP.insert

/-- The keys that a stage writes are made up of characters of its argument. -/
theorem writes_of_not_mem {c : Char} (h : c ∉ (s.argument.getD "").toList) :
    s.Writes fun key => c ∉ key.toList := by
  obtain ⟨hname, hvalue⟩ : c ∉ ((Text.cut (· = ':') (s.argument.getD "").toList).getD
        ((s.argument.getD "").toList, [])).1 ∧ c ∉ ((Text.cut (· = ':') (s.argument.getD "").toList).getD
        ((s.argument.getD "").toList, [])).2 := by
    cases hcut : Text.cut (· = ':') (s.argument.getD "").toList with
    | none => exact ⟨h, List.not_mem_nil⟩
    | some parts =>
      obtain ⟨name, value⟩ := parts
      obtain ⟨d, hsplit⟩ := Text.eq_append_of_cut hcut
      rw [hsplit, List.mem_append, List.mem_cons, not_or, not_or] at h
      exact ⟨h.1, h.2.2⟩
  unfold Writes valueKeys
  dsimp only
  constructor
  · intro path hpath key hkey
    split at hpath
    · cases hpath
    · cases hpath
      obtain ⟨field, hfield, rfl⟩ := List.mem_map.mp hkey
      rw [String.toList_ofList]
      exact fun hc => hname (Text.mem_of_mem_fields hfield hc)
  · intro key hkey
    split at hkey
    · cases hkey
    · cases hkey
      rwa [String.toList_ofList]

theorem not_mem_argument_ofText {c : Char} {text : List Char} (h : c ∉ text) :
    c ∉ ((ofText text).argument.getD "").toList := by
  unfold ofText
  cases hcut : Text.cut (· = ':') text with
  | none => exact List.not_mem_nil
  | some parts =>
    obtain ⟨name, argument⟩ := parts
    obtain ⟨d, hsplit⟩ := Text.eq_append_of_cut hcut
    rw [hsplit, List.mem_append, List.mem_cons, not_or, not_or] at h
    rw [Option.getD_some, String.toList_ofList]
    exact h.2.2

/-! ## Names -/

theorem trim_sign (s : List Char) : ∃ t, Text.trim ('$' :: s) = '$' :: t :=
  ⟨_, by rw [Text.trim, Text.trimStart_cons (by decide), Text.trimEnd_cons (by decide)]⟩

theorem ofName_sign (s : List Char) : ∃ e, Format.ofName (String.ofList ('$' :: s)) = .error e := by
  have hlower : (String.ofList ('$' :: s)).toLower.toList.head? = some '$' := by
    change (String.map Char.toLower _).toList.head? = some '$'
    rw [String.toList_map, String.toList_ofList]
    rfl
  unfold Format.ofName
  split
  case h_8 => exact ⟨_, rfl⟩
  all_goals
    rename_i hname
    rw [hname] at hlower
    cases hlower

theorem ofText_sign (text : List Char) : ∃ name argument, ofText ('$' :: text) =
    ⟨String.ofList ('$' :: text), String.ofList ('$' :: name), argument⟩ := by
  unfold ofText
  rw [Text.cut, if_neg (by decide)]
  cases Text.cut (· = ':') text with
  | none =>
    obtain ⟨name, hname⟩ := trim_sign text
    exact ⟨name, none, by rw [Option.map_none, hname]⟩
  | some parts =>
    obtain ⟨name, hname⟩ := trim_sign parts.1
    exact ⟨name, some (String.ofList parts.2), by rw [Option.map_some]; dsimp only; rw [hname]⟩

/-- No stage and no format has a name that starts with a dollar sign. -/
theorem apply_ofText_sign (text : List Char) (v : Value) :
    ∃ e, (ofText ('$' :: text)).apply v = .error e := by
  obtain ⟨name, argument, htext⟩ := ofText_sign text
  have hhead : (String.ofList ('$' :: name)).toList.head? = some '$' := by
    rw [String.toList_ofList]
    rfl
  rw [htext]
  unfold apply
  dsimp only
  split
  case h_9 =>
    obtain ⟨t, ht⟩ := trim_sign text
    obtain ⟨e, he⟩ := ofName_sign t
    rw [formatted, String.toList_ofList, ht, he]
    exact ⟨e, rfl⟩
  all_goals
    rename_i hname
    rw [hname] at hhead
    cases hhead

end Stage

namespace Pipeline

/-- The stages of a pipeline have no character in their arguments that is not in the pipeline. -/
theorem not_mem_argument {c : Char} {pipeline : String} (h : c ∉ pipeline.toList) {ss : List Stage}
    (hss : stages pipeline = .ok ss) : ∀ s ∈ ss, c ∉ (s.argument.getD "").toList := by
  unfold stages at hss
  dsimp only at hss
  split at hss
  · cases hss
  · cases hss
    refine List.forall_mem_map.mpr (List.forall_mem_map.mpr fun field hfield => ?_)
    apply Stage.not_mem_argument_ofText
    intro hc
    exact h (Text.mem_of_mem_fields hfield ((List.dropWhile_sublist _).subset hc))

theorem kept_run {K : String → Prop} {P : Value → Prop} (hP : Stage.Kept K P) {pipeline : String}
    (hkeys : ∀ ss, stages pipeline = .ok ss → ∀ s ∈ ss, s.Writes K) {v w : Value} (hv : P v)
    (h : run pipeline v = .ok w) : P w := by
  obtain ⟨ss, hss, h⟩ := Result.bind_eq_ok.mp h
  exact Result.foldlM_keeps (fun _ s hs _ hv h => hP.apply (hkeys ss hss s hs) hv h) hv h

theorem wellFormed_run {pipeline : String} {v w : Value} (hv : v.WellFormed)
    (h : run pipeline v = .ok w) : w.WellFormed :=
  kept_run Stage.kept_wellFormed (fun _ _ _ _ => ⟨fun _ _ _ _ => trivial, fun _ _ => trivial⟩) hv h

/-- No key that a pipeline writes has a character that the pipeline does not have. -/
theorem keyed_run {c : Char} {K : String → Prop} (hK : ∀ key : String, c ∉ key.toList → K key)
    {pipeline : String} (hpipeline : c ∉ pipeline.toList) {v w : Value} (hv : v.Keyed K)
    (h : run pipeline v = .ok w) : w.Keyed K := by
  refine kept_run (Stage.kept_of_hereditary (Value.hereditary_keyed K) Value.keyed_string)
    (fun ss hss s hs => ?_) hv h
  obtain ⟨hname, hvalue⟩ := Stage.writes_of_not_mem (not_mem_argument hpipeline hss s hs)
  exact ⟨fun path hpath key hkey => hK key (hname path hpath key hkey),
    fun key hkey => hK key (hvalue key hkey)⟩

theorem isLiteral_of_run {pipeline : String} {v w : Value} (h : run pipeline v = .ok w) :
    isLiteral pipeline = true := by
  unfold isLiteral
  split
  · rename_i rest hsign
    obtain ⟨field, fields, hfields⟩ : ∃ field fields,
        Text.fields ',' pipeline.toList = ('$' :: field) :: fields := by
      rw [hsign, Text.fields, if_neg (by decide)]
      cases Text.fields ',' rest with
      | nil => exact ⟨[], [], rfl⟩
      | cons field fields => exact ⟨field, fields, rfl⟩
    obtain ⟨ss, hss, hw⟩ := Result.bind_eq_ok.mp h
    unfold stages at hss
    rw [hfields, List.map_cons, Text.trimStart_cons (by decide)] at hss
    dsimp only at hss
    split at hss
    · cases hss
    · cases hss
      obtain ⟨e, he⟩ := Stage.apply_ofText_sign field v
      rw [List.map_cons, List.foldlM_cons, he] at hw
      cases hw
  · rfl

end Pipeline

end Overlay
