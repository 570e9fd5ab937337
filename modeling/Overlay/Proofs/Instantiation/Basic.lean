import Overlay.Instantiation
import Overlay.Proofs.Entries

/-!
# What instantiation reads of maps and lists

Of a map that is copied or encoded, the directive for that is read by its key and left out of the rest.
A list without markers is instantiated element by element, so two lists side by side are instantiated
one after the other.
-/

namespace Overlay

/-- No element of a list is a marker, which is a map with the directive of a list as its only key. -/
def Value.Unmarked (items : List Value) : Prop :=
  ∀ x ∈ items, x.soleArgument? Directive.encode = none ∧ x.soleArgument? Directive.repeatOver = none

instance (items : List Value) : Decidable (Value.Unmarked items) :=
  inferInstanceAs (Decidable (∀ x ∈ items, _ ∧ _))

namespace Instantiation

open Value (Unmarked)

variable {f : Frame} {again : Continuation} {env : Environment} {path : String}

/-! ## Maps -/

/-- What a map comes to, or each of its copies. -/
def content (f : Frame) (again : Continuation) (entries : Entries Value) :
    Environment → String → Course (Option Value) :=
  encoded entries <| contentOf f again entries
    (fun env path => heldValue f again entries env path)
    (fun env path => plainEntries f again entries env path)

theorem instantiate_map (entries : Entries Value) :
    instantiate f again (.map entries) env path =
      if Entries.has Directive.repeatOver entries then do
        let spec ← heldSpec f again entries env path
        return some (.list
          (← copies (content f again entries) path 0 (← environments spec env path)))
      else content f again entries env path := by
  simp only [instantiate, content]

theorem heldValue_eq_lookup : ∀ entries : Entries Value, heldValue f again entries env path =
    match Entries.lookup Directive.value entries with
    | none => pure none
    | some v => instantiate f again v env path
  | [] => by rw [heldValue, Entries.lookup_nil]
  | (k, v) :: rest => by
    rw [heldValue, Entries.lookup, heldValue_eq_lookup rest]
    by_cases hk : k = Directive.value
    · rw [if_pos hk, if_pos hk]
    · rw [if_neg hk, if_neg hk]

theorem heldSpec_eq_lookup : ∀ entries : Entries Value, heldSpec f again entries env path =
    match Entries.lookup Directive.repeatOver entries with
    | none => pure .null
    | some v => specValue f again v env path
  | [] => by rw [heldSpec, Entries.lookup_nil]
  | (k, v) :: rest => by
    rw [heldSpec, Entries.lookup, heldSpec_eq_lookup rest]
    by_cases hk : k = Directive.repeatOver
    · rw [if_pos hk, if_pos hk]
    · rw [if_neg hk, if_neg hk]

theorem plainEntries_insert {key : String} (hkey : key = Directive.repeatOver ∨ key = Directive.encode)
    (x : Value) : ∀ entries : Entries Value,
      plainEntries f again (Entries.insert key x entries) env path =
        plainEntries f again entries env path
  | [] => by simp only [Entries.insert, plainEntries, if_pos hkey]
  | (k, y) :: rest => by
    have ih := plainEntries_insert hkey x rest
    rw [Entries.insert]
    split_ifs with hlt hk
    · rw [plainEntries, if_pos hkey]
    · rw [plainEntries, if_pos hkey, plainEntries, if_pos (hk ▸ hkey)]
    · rw [plainEntries, plainEntries, ih]

/-! ## Lists -/

theorem pipelineNames_unmarked {items : List Value}
    (h : ∀ x ∈ items, x.soleArgument? Directive.encode = none) (path : String) :
    pipelineNames path items = .ok [] := by
  rw [pipelineNames, List.filterMap_eq_nil_iff.mpr h]
  rfl

theorem markedSpec_unmarked {items : List Value}
    (h : ∀ x ∈ items, x.soleArgument? Directive.repeatOver = none) (env : Environment)
    (path : String) : markedSpec f again items env path = pure none := by
  induction items with
  | nil => rw [markedSpec]
  | cons v rest ih =>
    obtain ⟨hv, hrest⟩ := List.forall_mem_cons.mp h
    have ih := ih hrest
    cases v with
    | map entries =>
      cases entries with
      | nil => simpa only [markedSpec] using ih
      | cons e others =>
        cases others with
        | nil =>
          have hk : e.1 ≠ Directive.repeatOver := by
            intro hk
            simp [Value.soleArgument?, hk] at hv
          simpa only [markedSpec, if_neg hk] using ih
        | cons _ _ => simpa only [markedSpec] using ih
    | _ => simpa only [markedSpec] using ih

theorem instantiate_unmarked {items : List Value} (h : Unmarked items) :
    instantiate f again (.list items) env path =
      (fun out => some (.list out)) <$> plainItems f again false 0 items env path := by
  simp only [instantiate, listOf, pipelineNames_unmarked fun x hx => (h x hx).1,
    markedSpec_unmarked fun x hx => (h x hx).2, Course.lift_ok, pure_bind, encodeThrough,
    List.reverse_nil, List.foldlM_nil]
  rw [map_eq_pure_bind, map_eq_pure_bind, bind_assoc]
  exact bind_congr fun out => rfl

theorem plainItems_map {entries : Entries Value}
    (hencode : (Value.map entries).soleArgument? Directive.encode = none) (position : Nat) :
    plainItems f again false position [.map entries] env path =
      if Entries.has Directive.repeatOver entries then do
        let spec ← heldSpec f again entries env (KeyPath.item path position)
        copies (content f again entries) path position
          (← environments spec env (KeyPath.item path position))
      else Option.toList <$> content f again entries env (KeyPath.item path position) := by
  simp only [plainItems, hencode, Option.isSome_none, Bool.false_and, Bool.false_eq_true, if_false,
    pure_bind, List.append_nil, bind_pure, content]

theorem plainItems_cons (v : Value) (position : Nat) (rest : List Value) :
    plainItems f again false position (v :: rest) env path = (do
      let found ← plainItems f again false position [v] env path
      return found ++
        (← plainItems f again false (position + found.length) rest env path)) := by
  cases v with
  | map entries =>
    simp only [plainItems, Bool.false_and, Bool.false_eq_true, if_false]
    by_cases hm : ((Value.map entries).soleArgument? Directive.encode).isSome = true
    · simp [hm]
    · by_cases hr : Entries.has Directive.repeatOver entries = true
      · simp [hm, hr]
      · simp [hm, hr]
  | _ => simp [plainItems]

theorem plainItems_append (ys : List Value) : ∀ (xs : List Value) (position : Nat),
    plainItems f again false position (xs ++ ys) env path = (do
      let before ← plainItems f again false position xs env path
      return before ++
        (← plainItems f again false (position + before.length) ys env path))
  | [], position => by simp [plainItems]
  | x :: xs, position => by
    rw [List.cons_append, plainItems_cons, plainItems_cons x position xs]
    simp only [plainItems_append ys xs, bind_assoc, pure_bind, List.length_append, List.append_assoc,
      Nat.add_assoc]

end Instantiation

end Overlay
