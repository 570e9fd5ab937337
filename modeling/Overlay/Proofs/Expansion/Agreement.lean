import Overlay.Proofs.Expansion.Congruence
import Overlay.Proofs.Merge.Path

/-!
# References seen from two documents

A dotted path leads into the document that it stands in, and what a reference stands for is expanded
where the reference stands, so one value may be expanded to different values in two documents.
`Meets` collects the references that are resolved on the way. If these resolve alike, the two
expansions agree, whatever their budgets and key paths are.
-/

namespace Overlay.Expansion

open Result (Congruence SameCause Consistent)

def reference? : Value → Option Value
  | .string s => (stringReference? s).map .string
  | .map entries =>
    match Entries.lookup Directive.replace entries, Entries.lookup Directive.merge entries with
    | none, merged | some (.bool _), merged => merged
    | some replaced, _ => some replaced
  | _ => none

/-- A reference is met when a value is expanded: the value makes it up, or it is met in what the
value gives place to, or inside the value if that makes up none. What is merged onto the target of a
reference is met only as far as it is left in what the value gives place to. -/
inductive Meets (site : Site) (r : Value) : Value → Prop
  | here {v : Value} : reference? v = some r → Meets site r v
  | string {s text : String} {target : Value} : stringReference? s = some text →
    Reference.resolve site (.string text) = .ok target → Meets site r target →
    Meets site r (.string s)
  | map {entries : Entries Value} {path : String} {target : Value} :
    substitute? site entries path = some (.ok target) → Meets site r target →
    Meets site r (.map entries)
  | entry {entries : Entries Value} {e : String × Value} : reference? (.map entries) = none →
    e ∈ entries → Meets site r e.2 → Meets site r (.map entries)
  | item {items : List Value} {v : Value} : v ∈ items → Meets site r v → Meets site r (.list items)

/-- All references met when a value is expanded from one site resolve alike from another. -/
def AgreeOn (s t : Site) (v : Value) : Prop :=
  ∀ r, Meets s r v → Reference.resolve s r = Reference.resolve t r

variable {s t : Site}

theorem resolveAt_sameCause {r : Value} (h : Reference.resolve s r = Reference.resolve t r)
    (p q : String) : SameCause (Reference.resolveAt s r p) (Reference.resolveAt t r q) := by
  rw [Reference.resolveAt, Reference.resolveAt, h]
  cases Reference.resolve t r <;> rfl

theorem resolve_of_resolveAt {r v : Value} {p : String} (h : Reference.resolveAt s r p = .ok v) :
    Reference.resolve s r = .ok v := by
  rw [Reference.resolveAt] at h
  cases hr : Reference.resolve s r with
  | error e => rw [hr] at h; cases h
  | ok u => rw [hr] at h; cases h; rfl

def siblingsOnto (entries : Entries Value) (path : String) (base : Value) : Result Value :=
  match Entries.erase Directive.merge (Entries.erase Directive.replace entries), base with
  | [], base => .ok base
  | siblings, .map entries => (Value.map entries).merge (.map siblings) path
  | _, v => .error (.atKey (.wrongKind Directive.merge
      "a map reference when sibling keys are present" v.kind) path)

theorem siblingsOnto_sameCause (entries : Entries Value) (p q : String) (base : Value) :
    SameCause (siblingsOnto entries p base) (siblingsOnto entries q base) := by
  unfold siblingsOnto
  split
  · rfl
  · exact Value.merge_sameCause _ _ _ _
  · exact .error rfl

theorem substitute?_sameCause {entries : Entries Value}
    (h : ∀ r, reference? (.map entries) = some r → Reference.resolve s r = Reference.resolve t r)
    (p q : String) :
    Option.Rel SameCause (substitute? s entries p) (substitute? t entries q) := by
  have merged {r : Value} (hr : Reference.resolve s r = Reference.resolve t r) :
      SameCause (Reference.resolveAt s r p >>= siblingsOnto entries p)
        (Reference.resolveAt t r q >>= siblingsOnto entries q) :=
    (resolveAt_sameCause hr p q).bind fun base _ => siblingsOnto_sameCause entries p q base
  have replaced {r : Value} (hr : Reference.resolve s r = Reference.resolve t r) (c : Prop)
      [Decidable c] (cause : Cause) :
      SameCause (if c then Reference.resolveAt s r p else .error (.atKey cause p))
        (if c then Reference.resolveAt t r q else .error (.atKey cause q)) := by
    split
    · exact resolveAt_sameCause hr p q
    · exact .error rfl
  unfold substitute?
  cases hr : Entries.lookup Directive.replace entries with
  | none =>
    cases hm : Entries.lookup Directive.merge entries with
    | none => exact .none
    | some r => exact .some (merged (h r (by simp only [reference?, hr, hm])))
  | some x =>
    cases x with
    | bool b =>
      cases hm : Entries.lookup Directive.merge entries with
      | none => exact .none
      | some r => exact .some (merged (h r (by simp only [reference?, hr, hm])))
    | _ => exact .some (replaced (h _ (by simp only [reference?, hr])) _ _)

/-- A map that gives place to no value makes up no reference. -/
theorem reference?_eq_none {entries : Entries Value} {path : String}
    (h : substitute? s entries path = none) : reference? (.map entries) = none := by
  obtain ⟨hm, hr⟩ := substitute?_eq_none_iff.mp h
  cases hreplace : Entries.lookup Directive.replace entries with
  | none => simp only [reference?, hreplace, hm]
  | some v =>
    obtain ⟨b, rfl⟩ := hr v hreplace
    simp only [reference?, hreplace, hm]

/-! ## The two expansions -/

theorem AgreeOn.item {items : List Value} (h : AgreeOn s t (.list items)) {v : Value}
    (hv : v ∈ items) : AgreeOn s t v :=
  fun r hr => h r (.item hv hr)

theorem AgreeOn.entry {entries : Entries Value} (h : AgreeOn s t (.map entries)) {path : String}
    (hnone : substitute? s entries path = none) {e : String × Value} (he : e ∈ entries) :
    AgreeOn s t e.2 :=
  fun r hr => h r (.entry (reference?_eq_none hnone) he hr)

theorem replacement?_sameCause {v : Value} (h : AgreeOn s t v) (p q : String) :
    Option.Rel SameCause (replacement? s v p) (replacement? t v q) := by
  cases v with
  | string text =>
    simp only [replacement?]
    cases ht : stringReference? text with
    | none => exact .none
    | some reference =>
      exact .some (resolveAt_sameCause (h _ (.here (by rw [reference?, ht]; rfl))) p q)
  | map entries => exact substitute?_sameCause (fun r hr => h r (.here hr)) p q
  | _ => exact .none

theorem replacement?_related {C : Congruence}
    (hC : ∀ {α : Type} {x y : Result α}, SameCause x y → C.holds x y) {v : Value} (h : AgreeOn s t v)
    (p q : String) : Option.Rel C.holds (replacement? s v p) (replacement? t v q) := by
  have hsame := replacement?_sameCause h p q
  generalize replacement? s v p = x at hsame ⊢
  generalize replacement? t v q = y at hsame ⊢
  cases hsame with
  | none => exact .none
  | some hsame => exact .some (hC hsame)

/-- What is met in what a value gives place to is met in the value. -/
theorem AgreeOn.target {v target : Value} {p : String} (h : AgreeOn s t v)
    (htarget : replacement? s v p = some (.ok target)) : AgreeOn s t target := by
  intro r hmet
  cases v with
  | string text =>
    obtain ⟨reference, ht, hresolve⟩ := Option.map_eq_some_iff.mp htarget
    exact h r (.string ht (resolve_of_resolveAt hresolve) hmet)
  | map entries => exact h r (.map htarget hmet)
  | _ => cases htarget

theorem AgreeOn.of_map {entries : Entries Value} {reference target : Value}
    (hreference : reference? (.map entries) = some reference)
    (hresolve : Reference.resolve s reference = Reference.resolve t reference)
    (htarget : ∀ path, substitute? s entries path = some (.ok target)) (h : AgreeOn s t target) :
    AgreeOn s t (.map entries) := by
  intro r hmet
  cases hmet with
  | here hr =>
    cases hreference.symm.trans hr
    exact hresolve
  | map hsubstitute hmet =>
    cases (htarget _).symm.trans hsubstitute
    exact h r hmet
  | entry hnone => cases hreference.symm.trans hnone

theorem alike_consistent : Alike .consistent s t (AgreeOn s t) (fun _ _ => True) where
  child _ _ := trivial
  entry h hnone he _ := h.entry hnone he
  item h hv := h.item hv
  target h htarget := h.target htarget
  replacement h _ := replacement?_related (fun hsame => hsame.agree.consistent) h _ _

/-- Where references resolve alike, expansions agree if both succeed. -/
theorem expandWithin_consistent {limit limit' : Nat} : ∀ (m n : Nat) {v : Value},
    AgreeOn s t v → ∀ p q,
      Consistent (expandWithin s limit m v p) (expandWithin t limit' n v q)
  | 0, _, _, _, _, _ => fun _ _ h => by cases h
  | _ + 1, 0, _, _, _, _ => fun _ _ _ h => by cases h
  | m + 1, n + 1, _, h, _, _ =>
    expandWith_congr alike_consistent (fun _ p q hu _ => expandWithin_consistent m n hu p q) h trivial

/-! ## One expansion at two key paths -/

theorem alike_anywhere {C : Congruence}
    (hC : ∀ {α : Type} {x y : Result α}, SameCause x y → C.holds x y) (site : Site) :
    Alike C site site (fun _ => True) (fun _ _ => True) where
  child _ _ := trivial
  entry _ _ _ _ := trivial
  item _ _ := trivial
  target _ _ := trivial
  replacement _ _ := replacement?_related hC (fun _ _ => rfl) _ _

theorem expandWithin_sameCause (site : Site) (limit : Nat) : ∀ (n : Nat) (v : Value) (p q : String),
    SameCause (expandWithin site limit n v p) (expandWithin site limit n v q)
  | 0, _, _, _ => .error rfl
  | n + 1, _, _, _ =>
    expandWith_congr (C := .sameCause) (alike_anywhere id site)
      (fun u p q _ _ => expandWithin_sameCause site limit n u p q) trivial trivial

theorem expand_sameCause (site : Site) (limit : Nat) (v : Value) (p q : String) :
    SameCause (expand site limit v p) (expand site limit v q) :=
  expandWithin_sameCause site limit (limit + 1) v p q

end Overlay.Expansion
