import Overlay.Proofs.Instantiation.Basic
import Overlay.Proofs.Literal.Basic
import Overlay.Proofs.Value.Substitution

/-!
# Instantiating literal values

A literal value is instantiated to itself in every environment, whatever embedded documents would
come to: there are none.
-/

namespace Overlay.Instantiation

variable {f : Frame} {again : Continuation}

theorem isSymbol_literal {s : String} (h : isLiteral s = true) : isSymbol s = false := by
  have hr : s ≠ Directive.repeatOver := ne_of_isLiteral h rfl
  have hn : s.startsWith Directive.repeatSymbol = false :=
    startsWith_of_isLiteral h (by decide) "epeat:".toList rfl
  have he : s.startsWith Directive.envSymbol = false :=
    startsWith_of_isLiteral h (by decide) "nv:".toList rfl
  simp [isSymbol, hr, hn, he]

theorem body?_literal {s : String} (h : isLiteral s = true) : Template.body? s = none := by
  rw [Template.body?, after?_of_isLiteral h (by decide)]

theorem stringValue_literal {s : String} (h : isLiteral s = true) (env : Environment)
    (path : String) : stringValue f s env path = .ok (.string s) := by
  simp only [stringValue, isSymbol_literal h, body?_literal h]
  split <;> rfl

theorem isUnknownDirective_literal {k : String} (h : isLiteral k = true) :
    isUnknownDirective k = false := by
  unfold isUnknownDirective
  split
  · rename_i c rest hk
    obtain rfl : c = '$' := by
      rw [isLiteral, hk] at h
      simpa using h
    simp
  · simp

theorem unmarked_literalKeys {items : List Value} (h : (Value.list items).LiteralKeys) :
    Value.Unmarked items := by
  intro x hx
  have hkeys := Value.literalKeys_list.mp h x hx
  exact ⟨hkeys.soleArgument? Directive.encode rfl, hkeys.soleArgument? Directive.repeatOver rfl⟩

theorem plainItems_cons_literalKeys {v : Value} (hl : v.LiteralKeys) (marked : Bool) (position : Nat)
    (rest : List Value) (env : Environment) (path : String) :
    plainItems f again marked position (v :: rest) env path = (do
      let found ← Option.toList <$> instantiate f again v env (KeyPath.item path position)
      return found ++
        (← plainItems f again marked (position + found.length) rest env path)) := by
  cases v with
  | map entries =>
    simp only [plainItems, instantiate, hl.soleArgument? Directive.encode rfl,
      hl.soleArgument? Directive.repeatOver rfl, hl.has Directive.repeatOver rfl]
    simp only [Option.isSome_none, Bool.and_false, Bool.false_eq_true, if_false]
  | _ => simp only [plainItems]

/-- A map without directives among its keys is instantiated entry by entry. -/
theorem instantiate_map_literal {entries : Entries Value} (h : ∀ e ∈ entries, isLiteral e.1 = true)
    (env : Environment) (path : String) : instantiate f again (.map entries) env path = (do
      return some (.map (← plainEntries f again entries env path))) := by
  simp only [instantiate, encoded, contentOf, Entries.has,
    Entries.lookup_literal h Directive.repeatOver rfl, Entries.lookup_literal h Directive.encode rfl,
    Entries.lookup_literal h Directive.decode rfl, Entries.lookup_literal h Directive.value rfl,
    Option.isSome_none, Bool.false_eq_true, if_false]

/-! ## Strings give place to their values -/

section
variable {env : Environment} {σ : String → Value}

theorem plainEntries_literalKeys : ∀ {entries : Entries Value}, (Value.map entries).LiteralKeys →
    (∀ e ∈ entries, ∀ path, instantiate f again e.2 env path = pure (some (e.2.substitute σ))) →
      ∀ path, plainEntries f again entries env path = pure (Value.substituteEntries σ entries)
  | [], _, _, _ => by rw [plainEntries, Value.substituteEntries]
  | (k, v) :: rest, hl, h, path => by
    obtain ⟨⟨hk, -⟩, hrest⟩ := List.forall_mem_cons.mp (Value.literalKeys_map.mp hl)
    obtain ⟨hv, h⟩ := List.forall_mem_cons.mp h
    have hr : k ≠ Directive.repeatOver := ne_of_isLiteral hk rfl
    have he : k ≠ Directive.encode := ne_of_isLiteral hk rfl
    simp only [plainEntries, hr, he, or_self, if_false, isUnknownDirective_literal hk, hv,
      plainEntries_literalKeys (Value.literalKeys_map.mpr hrest) h]
    rfl

theorem plainItems_literalKeys (marked : Bool) : ∀ {items : List Value},
    (Value.list items).LiteralKeys →
    (∀ v ∈ items, ∀ path, instantiate f again v env path = pure (some (v.substitute σ))) →
      ∀ position path, plainItems f again marked position items env path =
        pure (Value.substituteItems σ items)
  | [], _, _, _, _ => by rw [plainItems, Value.substituteItems]
  | v :: rest, hl, h, position, path => by
    obtain ⟨hm, hrest⟩ := List.forall_mem_cons.mp (Value.literalKeys_list.mp hl)
    obtain ⟨hv, h⟩ := List.forall_mem_cons.mp h
    rw [plainItems_cons_literalKeys hm, hv]
    simp only [map_pure, pure_bind, plainItems_literalKeys marked (Value.literalKeys_list.mpr hrest) h]
    rfl

/-- Without directives among its keys, a value is instantiated by its strings alone. -/
theorem instantiate_literalKeys {v : Value} (hl : v.LiteralKeys)
    (hσ : ∀ s, Value.Inside (.string s) v → ∀ path, stringValue f s env path = .ok (σ s))
    (path : String) : instantiate f again v env path = pure (some (v.substitute σ)) := by
  induction v using Value.induction generalizing path with
  | string s =>
    rw [instantiate, hσ s .refl]
    rfl
  | map entries ih =>
    have hentries := plainEntries_literalKeys (σ := σ) hl fun e he =>
      ih e he (Value.literalKeys_map.mp hl e he).2 fun s hs => hσ s (.entry he hs)
    rw [instantiate_map_literal (fun e he => (Value.literalKeys_map.mp hl e he).1), hentries]
    rfl
  | list items ih =>
    have hitems := fun position path => plainItems_literalKeys (σ := σ) false hl (fun x hx =>
      ih x hx (Value.literalKeys_list.mp hl x hx) fun s hs => hσ s (.item hx hs)) position path
    rw [instantiate_unmarked (unmarked_literalKeys hl), hitems]
    rfl
  | _ => simp only [instantiate, Value.substitute]

end

theorem instantiate_literal {v : Value} (hl : v.Literal) (env : Environment) (path : String) :
    instantiate f again v env path = pure (some v) := by
  have hkept : ∀ s, Value.Inside (.string s) v → ∀ path,
      stringValue f s env path = .ok (.string s) := fun s hs path =>
    stringValue_literal (Value.literal_string.mp (Value.Everywhere.of_inside hl hs)) env path
  rw [instantiate_literalKeys hl.keys hkept, Value.substitute_string]

end Overlay.Instantiation
