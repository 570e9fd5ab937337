import Overlay.Proofs.Expansion.Outcome

/-!
# Values without references

What an expansion gives holds no references, and a value without references expands to itself. So to
expand twice is to expand once.
-/

namespace Overlay.Expansion

/-- No string inside a value is a reference, and no map holds one or a flag in its place. -/
def Expanded : Value → Prop :=
  Value.Everywhere fun
    | .string s => stringReference? s = none
    | .map entries =>
      Entries.lookup Directive.replace entries = none ∧ Entries.lookup Directive.merge entries = none
    | _ => True

theorem expanded_string {s : String} : Expanded (.string s) ↔ stringReference? s = none :=
  Value.everywhere_scalar (by simp) (by simp)

theorem expanded_map {entries : Entries Value} :
    Expanded (.map entries) ↔ (Entries.lookup Directive.replace entries = none ∧
      Entries.lookup Directive.merge entries = none) ∧ ∀ e ∈ entries, Expanded e.2 :=
  Value.everywhere_map

theorem expanded_list {items : List Value} :
    Expanded (.list items) ↔ ∀ x ∈ items, Expanded x :=
  Value.everywhere_list.trans (and_iff_right trivial)

variable {site : Site} {next : Value → String → Result Value}

theorem substitute?_eq_none {entries : Entries Value}
    (hr : Entries.lookup Directive.replace entries = none)
    (hm : Entries.lookup Directive.merge entries = none) (path : String) :
    substitute? site entries path = none :=
  substitute?_eq_none_iff.mpr ⟨hm, by simp [hr]⟩

/-! ## Expanding what holds no references -/

theorem Expanded.soleArgument? {v : Value} (h : Expanded v) :
    v.soleArgument? Directive.merge = none := by
  cases hv : v.soleArgument? Directive.merge with
  | none => rfl
  | some r =>
    obtain rfl := Value.soleArgument?_eq_some.mp hv
    exact absurd (expanded_map.mp h).1.2 (by simp [Entries.lookup])

theorem expandEntries_of_expanded : ∀ {entries : Entries Value},
    Entries.lookup Directive.replace entries = none →
    (∀ e ∈ entries, ∀ path, expandWith site next e.2 path = .ok e.2) → ∀ path,
      expandEntries site next entries path = .ok entries
  | [], _, _, _ => by rw [expandEntries]
  | (k, v) :: rest, hr, h, path => by
    obtain ⟨hv, h⟩ := List.forall_mem_cons.mp h
    rw [Entries.lookup] at hr
    split at hr
    · cases hr
    · rename_i hk
      rw [expandEntries_cons, if_neg hk, hv, expandEntries_of_expanded hr h]
      rfl

theorem expandItems_of_expanded : ∀ {items : List Value}, (∀ v ∈ items, Expanded v) →
    (∀ v ∈ items, ∀ path, expandWith site next v path = .ok v) → ∀ position path,
      expandItems site next position items path = .ok items
  | [], _, _, _, _ => by rw [expandItems]
  | v :: rest, he, h, position, path => by
    obtain ⟨hev, he⟩ := List.forall_mem_cons.mp he
    obtain ⟨hv, h⟩ := List.forall_mem_cons.mp h
    rw [expandItems_cons, expandItem, hev.soleArgument?]
    dsimp only
    rw [hv]
    show ((fun others => [v] ++ others) <$> expandItems site next (position + 1) rest path) = _
    rw [expandItems_of_expanded he h]
    rfl

theorem expandWith_of_expanded {v : Value} (h : Expanded v) (path : String) :
    expandWith site next v path = .ok v := by
  induction v using Value.induction generalizing path with
  | string s => simp only [expandWith, expanded_string.mp h]
  | map entries ih =>
    obtain ⟨⟨hr, hm⟩, he⟩ := expanded_map.mp h
    simp only [expandWith, substitute?_eq_none hr hm]
    rw [expandEntries_of_expanded hr fun e he' => ih e he' (he e he')]
    rfl
  | list items ih =>
    have he := expanded_list.mp h
    rw [expandWith, expandItems_of_expanded he fun x hx => ih x hx (he x hx)]
    rfl
  | _ => simp only [expandWith]

/-! ## What an expansion gives -/

theorem yields_expanded (site : Site) : Yields site (fun _ => True) Expanded where
  entry _ _ _ := trivial
  item _ _ := trivial
  target _ _ := trivial
  scalar := by
    intro v hm hl _ hnone
    refine (Value.everywhere_scalar hm hl).mpr ?_
    cases v with
    | string s => exact Option.map_eq_none_iff.mp (hnone "")
    | map entries => exact absurd rfl (hm entries)
    | _ => exact trivial
  map := by
    intro entries out path _ hsub hall
    refine expanded_map.mpr ⟨⟨?_, ?_⟩, fun e he => (hall e he).2.2⟩
    · exact Entries.lookup_eq_none_iff.mpr fun e he => (hall e he).1
    -- A map that is not replaced has no key of a merged reference to begin with.
    · refine Entries.lookup_eq_none_iff.mpr fun e he hk => ?_
      obtain ⟨-, ⟨v, hv⟩, -⟩ := hall e he
      exact Entries.lookup_eq_none_iff.mp (substitute?_eq_none_iff.mp hsub).1 _ hv hk
  list := expanded_list.mpr

/-- No references are left in what an expansion gives. -/
theorem expanded_of_expandWithin {limit : Nat} (budget : Nat) {v w : Value} {path : String}
    (h : expandWithin site limit budget v path = .ok w) : Expanded w :=
  (yields_expanded site).of_expandWithin budget trivial h

end Overlay.Expansion
