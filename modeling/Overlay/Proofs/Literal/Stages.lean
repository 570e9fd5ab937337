import Overlay.Evaluation
import Overlay.Proofs.Expansion.Expanded
import Overlay.Proofs.Literal.Basic
import Overlay.Proofs.Merge.Markers

/-!
# Literal values keep still

No stage of an evaluation but the last, which unescapes, changes a literal value.
-/

namespace Overlay

/-! ## Merging into nothing -/

namespace Value

theorem isReplaceFlag_literal {k : String} (h : isLiteral k = true) (v : Value) :
    isReplaceFlag k v = false := by
  unfold isReplaceFlag
  split
  · exact beq_false_of_ne (ne_of_isLiteral h rfl)
  · rfl

theorem isInstruction_literalKeys {v : Value} (hk : v.LiteralKeys)
    (hs : v.isString Directive.replace = false) : isInstruction v = false := by
  cases v with
  | string s => exact hs
  | map entries =>
    exact isInstruction_map.mpr
      ⟨hk.has Directive.delete rfl, hk.has Directive.matchOne rfl, hk.has Directive.matchAny rfl⟩
  | _ => rfl

theorem LiteralKeys.markerFree {v : Value} (hk : v.LiteralKeys)
    (hdelete : Everywhere (fun u => u.isString Directive.delete = false) v)
    (hreplace : Everywhere (fun u => u.isString Directive.replace = false) v) : v.MarkerFree := by
  induction v using induction with
  | map entries ih =>
    refine markerFree_map.mpr fun e he => ?_
    obtain ⟨hkey, hv⟩ := literalKeys_map.mp hk e he
    have hdelete := (everywhere_map.mp hdelete).2 e he
    exact ⟨isPlainEntry_iff.mpr ⟨isReplaceFlag_literal hkey e.2, hdelete e.2 .refl⟩,
      ih e he hv hdelete ((everywhere_map.mp hreplace).2 e he)⟩
  | list items ih =>
    refine markerFree_list.mpr fun x hx => ?_
    have hv := literalKeys_list.mp hk x hx
    have hreplace := (everywhere_list.mp hreplace).2 x hx
    exact ⟨isInstruction_literalKeys hv (hreplace x .refl),
      ih x hx hv ((everywhere_list.mp hdelete).2 x hx) hreplace⟩
  | _ => exact markerFree_scalar (by simp) (by simp)

theorem Literal.isString_inside {v : Value} (h : v.Literal) (text : String)
    (ht : isLiteral text = false) : Everywhere (fun u => u.isString text = false) v :=
  fun _ hu => Literal.isString (Everywhere.of_inside h hu) text ht

theorem Literal.markerFree {v : Value} (hl : v.Literal) : v.MarkerFree :=
  hl.keys.markerFree (hl.isString_inside Directive.delete rfl)
    (hl.isString_inside Directive.replace rfl)

theorem normalize_literal {v : Value} (hl : v.Literal) (path : String) :
    v.normalize path = .ok v :=
  hl.markerFree.normalize path

end Value

theorem Assembly.selection_map_literal {entries : Entries Value}
    (h : ∀ e ∈ entries, isLiteral e.1 = true) :
    selection (.map entries) = .ok (.map entries, .lineage) := by
  simp only [selection, Entries.lookup_literal h Directive.matchAny rfl,
    Entries.lookup_literal h Directive.matchOne rfl,
    Entries.without_literal h [Directive.parent, Directive.matchOne, Directive.matchAny] (by decide)]

theorem Assembly.selection_literalKeys {v : Value} (h : v.LiteralKeys) :
    selection v = .ok (v, .lineage) := by
  cases v with
  | map entries => exact selection_map_literal fun e he => (Value.literalKeys_map.mp h e he).1
  | _ => rfl

theorem Assembly.selection_literal {v : Value} (h : v.Literal) :
    selection v = .ok (v, .lineage) :=
  selection_literalKeys h.keys

/-! ## Expansion -/

namespace Expansion

theorem stringReference?_literal {s : String} (h : isLiteral s = true) :
    stringReference? s = none := by
  unfold stringReference?
  rw [show Directive.mergeSymbol.toList = '$' :: 'm' :: "erge:".toList from rfl,
    show Directive.replaceSymbol.toList = '$' :: 'r' :: "eplace:".toList from rfl,
    after?_of_isLiteral h (by decide), after?_of_isLiteral h (by decide)]
  rfl

theorem expanded_of_literalKeys {v : Value} (hk : v.LiteralKeys)
    (hs : ∀ s, Value.Inside (.string s) v → stringReference? s = none) : Expanded v := by
  intro u hu
  have hkeys := hk u hu
  cases u with
  | string s => exact hs s hu
  | map entries =>
    exact ⟨Entries.lookup_eq_none_iff.mpr fun e he => ne_of_isLiteral (hkeys e he) rfl,
      Entries.lookup_eq_none_iff.mpr fun e he => ne_of_isLiteral (hkeys e he) rfl⟩
  | _ => exact trivial

theorem expanded_of_literal {v : Value} (h : v.Literal) : Expanded v :=
  expanded_of_literalKeys h.keys fun _ hs =>
    stringReference?_literal (Value.literal_string.mp (Value.Everywhere.of_inside h hs))

end Expansion

/-! ## Outputs -/

namespace Output

theorem markerIn_literalKeys {items : List Value} (h : (Value.list items).LiteralKeys) :
    markerIn items = none :=
  List.findSome?_eq_none_iff.mpr fun v hv =>
    (Value.literalKeys_list.mp h v hv).soleArgument? Directive.output rfl

theorem siftEntries_literalKeys : ∀ {entries : Entries Value}, (Value.map entries).LiteralKeys →
    (∀ e ∈ entries, ∀ path, sift e.2 path = .ok ⟨some e.2, [], false⟩) → ∀ path,
      siftEntries entries path = .ok ⟨entries, [], false⟩
  | [], _, _, _ => by rw [siftEntries]
  | (k, v) :: rest, hl, h, path => by
    obtain ⟨⟨hk, -⟩, hrest⟩ := List.forall_mem_cons.mp (Value.literalKeys_map.mp hl)
    obtain ⟨hv, h⟩ := List.forall_mem_cons.mp h
    have hk : k ≠ Directive.output := ne_of_isLiteral hk rfl
    simp only [siftEntries, if_neg hk, hv, siftEntries_literalKeys (Value.literalKeys_map.mpr hrest) h]
    rfl

theorem siftItems_literalKeys (marked : Bool) : ∀ {items : List Value},
    (Value.list items).LiteralKeys →
    (∀ v ∈ items, ∀ path, sift v path = .ok ⟨some v, [], false⟩) → ∀ position path,
      siftItems marked position items path = .ok ⟨items, [], false⟩
  | [], _, _, _, _ => by rw [siftItems]
  | v :: rest, hl, h, position, path => by
    obtain ⟨hm, hrest⟩ := List.forall_mem_cons.mp (Value.literalKeys_list.mp hl)
    obtain ⟨hv, h⟩ := List.forall_mem_cons.mp h
    simp only [siftItems, hm.soleArgument? Directive.output rfl, hv,
      siftItems_literalKeys marked (Value.literalKeys_list.mpr hrest) h]
    simp only [Option.isSome_none, Bool.and_false, Bool.false_eq_true, if_false]
    rfl

theorem sift_literalKeys {v : Value} (hl : v.LiteralKeys) (path : String) :
    sift v path = .ok ⟨some v, [], false⟩ := by
  induction v using Value.induction generalizing path with
  | map entries ih =>
    simp only [sift, hl.lookup Directive.output rfl,
      siftEntries_literalKeys hl fun e he => ih e he (Value.literalKeys_map.mp hl e he).2]
    rfl
  | list items ih =>
    simp only [sift, markerIn_literalKeys hl,
      siftItems_literalKeys true hl fun x hx => ih x hx (Value.literalKeys_list.mp hl x hx)]
    rfl
  | _ => simp only [sift]

theorem split_literalKeys {v : Value} (hl : v.LiteralKeys) : split v = .ok [v] := by
  rw [split, sift_literalKeys hl]
  rfl

end Output

/-! ## Required values -/

namespace Value

theorem firstRequiredEntry_eq_none : ∀ {entries : Entries Value} {path : String},
    firstRequiredEntry entries path = none ↔
      ∀ e ∈ entries, firstRequired e.2 (KeyPath.child path e.1) = none
  | [], _ => by simp [firstRequiredEntry]
  | (k, v) :: rest, path => by
    rw [firstRequiredEntry, List.forall_mem_cons, ← firstRequiredEntry_eq_none]
    cases firstRequired v (KeyPath.child path k) <;> simp

theorem firstRequiredItem_eq_none : ∀ {items : List Value} {path : String},
    (∀ x ∈ items, ∀ path, firstRequired x path = none ↔ Everywhere (isRequired · = false) x) →
      ∀ position, firstRequiredItem position items path = none ↔
        ∀ x ∈ items, Everywhere (isRequired · = false) x
  | [], _, _, _ => by simp [firstRequiredItem]
  | v :: rest, path, h, position => by
    obtain ⟨hv, hrest⟩ := List.forall_mem_cons.mp h
    have ih : firstRequiredItem (position + 1) rest path = none ↔
        ∀ x ∈ rest, Everywhere (isRequired · = false) x :=
      firstRequiredItem_eq_none hrest (position + 1)
    rw [firstRequiredItem, List.forall_mem_cons, ← ih, ← hv (KeyPath.item path position)]
    cases firstRequired v (KeyPath.item path position) <;> simp

theorem firstRequired_eq_none {v : Value} {path : String} :
    v.firstRequired path = none ↔ Everywhere (isRequired · = false) v := by
  induction v using induction generalizing path with
  | map entries ih =>
    rw [firstRequired, firstRequiredEntry_eq_none, everywhere_map]
    exact ⟨fun h => ⟨rfl, fun e he => (ih e he).mp (h e he)⟩, fun h e he => (ih e he).mpr (h.2 e he)⟩
  | list items ih =>
    rw [firstRequired, firstRequiredItem_eq_none fun x hx path => ih x hx, everywhere_list]
    exact ⟨fun h => ⟨rfl, h⟩, fun h => h.2⟩
  | _ => simp [firstRequired, everywhere_scalar]

theorem firstRequired_literal {v : Value} (hl : v.Literal) (path : String) :
    v.firstRequired path = none :=
  firstRequired_eq_none.mpr (hl.isString_inside Directive.required rfl)

end Value

namespace Evaluation

variable (e : Evaluation) {v : Value}

theorem finish_of_none (h : e.validates = true → v.firstRequired "" = none) :
    e.finish v = .ok (Output.finalize v) := by
  unfold finish
  cases hv : e.validates with
  | true =>
    rw [Value.validate, h hv]
    rfl
  | false => rfl

theorem finish_of_some (hv : e.validates = true) {path : String}
    (h : v.firstRequired "" = some path) : e.finish v = .error (.atKey .requiredField path) := by
  rw [finish, hv, Value.validate, h]
  rfl

theorem finish_literal (h : v.Literal) : e.finish v = .ok (Output.finalize v) :=
  finish_of_none e fun _ => Value.firstRequired_literal h ""

theorem outputsOf_literalKeys (h : v.LiteralKeys) :
    e.outputsOf (some v) = (fun out => [out]) <$> e.finish v := by
  simp only [outputsOf, Output.split_literalKeys h]
  show List.mapM _ _ = _
  rw [List.mapM_cons]
  rfl

end Evaluation

end Overlay
