import Overlay.Proofs.Expansion.Items
import Overlay.Proofs.Value.Inside

/-!
# Expansion as a sequence of results

Expansion takes results one after the other: what references lead to, and what that is expanded to. So
what relates these for two expansions of one value, and is kept by sequences, relates the two.
-/

namespace Overlay

namespace Result

/-- A relation of results that holds of a result and itself, and of sequences if it holds of their
parts. -/
structure Congruence where
  holds : {α : Type} → Result α → Result α → Prop
  refl : {α : Type} → (x : Result α) → holds x x
  bind : {α β : Type} → {x y : Result α} → {f g : α → Result β} → holds x y →
    (∀ a, x = .ok a → holds (f a) (g a)) → holds (x >>= f) (y >>= g)

namespace Congruence

variable (C : Congruence) {α β : Type}

theorem map {x y : Result α} (f : α → β) (h : C.holds x y) : C.holds (f <$> x) (f <$> y) :=
  C.bind h fun a _ => C.refl (.ok (f a))

def same : Congruence where
  holds x y := x = y
  refl _ := rfl
  bind := by
    intro α β x y f g h hf
    subst h
    cases x with
    | error e => rfl
    | ok a => exact hf a rfl

/-- Results that succeed together, with one value. -/
def agree : Congruence where
  holds := Agree
  refl := .refl
  bind := by
    intro α β x y f g h hf
    cases x with
    | error e =>
      cases y with
      | error e' => rfl
      | ok b => cases h
    | ok a =>
      cases y with
      | error e' => cases h
      | ok b => cases h; exact hf a rfl

/-- Results that succeed together, with one value, or fail for one cause. -/
def sameCause : Congruence where
  holds := SameCause
  refl := .refl
  bind := .bind

/-- Results that have one value if both succeed. -/
def consistent : Congruence where
  holds := Consistent
  refl := .refl
  bind := .bind

end Congruence

end Result

namespace Expansion

open Result (Congruence)

/-- What a value gives place to, if it refers to one. -/
def replacement? (site : Site) : Value → String → Option (Result Value)
  | .string s, path =>
    (stringReference? s).map fun reference => Reference.resolveAt site (.string reference) path
  | .map entries, path => substitute? site entries path
  | _, _ => none

/-- Two sites at which values give place to related ones. `Met` holds of all values that are
expanded, and `place` of the key paths under which they are. -/
structure Alike (C : Congruence) (s t : Site) (Met : Value → Prop) (place : String → String → Prop) :
    Prop where
  child : ∀ {p q : String} (k : String), place p q → place (KeyPath.child p k) (KeyPath.child q k)
  entry : ∀ {entries : Entries Value} {e : String × Value} {p : String}, Met (.map entries) →
    substitute? s entries p = none → e ∈ entries → e.1 ≠ Directive.replace → Met e.2
  item : ∀ {items : List Value} {v : Value}, Met (.list items) → v ∈ items → Met v
  replacement : ∀ {v : Value} {p q : String}, Met v → place p q →
    Option.Rel C.holds (replacement? s v p) (replacement? t v q)
  target : ∀ {v target : Value} {p : String}, Met v → replacement? s v p = some (.ok target) →
    Met target

variable {C : Congruence} {s t : Site} {Met : Value → Prop} {place : String → String → Prop}
  (h : Alike C s t Met place) {next next' : Value → String → Result Value}

/-- The places of two lists whose elements are placed alike from some positions on. -/
def PlacedFrom (place : String → String → Prop) (i j : Nat) (p q : String) : Prop :=
  ∀ n, place (KeyPath.item p (i + n)) (KeyPath.item q (j + n))

theorem PlacedFrom.head {i j : Nat} {p q : String} (h : PlacedFrom place i j p q) :
    place (KeyPath.item p i) (KeyPath.item q j) :=
  h 0

theorem PlacedFrom.drop {i j : Nat} {p q : String} (h : PlacedFrom place i j p q) (m : Nat) :
    PlacedFrom place (i + m) (j + m) p q := by
  intro n
  rw [Nat.add_assoc, Nat.add_assoc]
  exact h (m + n)

section
variable (hnext : ∀ v p q, Met v → place p q → C.holds (next v p) (next' v q))
include hnext

theorem expandAll_congr {p q : String} : ∀ {values : List Value} {i j : Nat},
    (∀ v ∈ values, Met v) → PlacedFrom place i j p q →
      C.holds (expandAll next p i values) (expandAll next' q j values)
  | [], _, _, _, _ => C.refl _
  | v :: rest, i, j, hmet, hplace => by
    obtain ⟨hv, hrest⟩ := List.forall_mem_cons.mp hmet
    rw [expandAll_cons, expandAll_cons]
    refine C.bind (hnext v _ _ hv hplace.head) fun first _ => ?_
    exact C.map _ (expandAll_congr hrest (hplace.drop 1))

include h

theorem spliced_congr {p q : String} {i j : Nat} {target : Value} (hmet : Met target)
    (hplace : PlacedFrom place i j p q) :
    C.holds (spliced next i p target) (spliced next' j q target) := by
  cases target with
  | list items => exact expandAll_congr hnext (fun v hv => h.item hmet hv) hplace
  | _ => exact C.map _ (hnext _ _ _ hmet hplace.head)

theorem expandItem_congr {v : Value} {p q : String} {i j : Nat} (hmet : Met v)
    (hplace : PlacedFrom place i j p q)
    (hv : ∀ p q, place p q → C.holds (expandWith s next v p) (expandWith t next' v q)) :
    C.holds (expandItem s next i v p) (expandItem t next' j v q) := by
  unfold expandItem
  cases hr : v.soleArgument? Directive.merge with
  | none => exact C.map _ (hv _ _ hplace.head)
  | some reference =>
    obtain rfl := Value.soleArgument?_eq_some.mp hr
    have hresolve := h.replacement hmet hplace.head
    rw [replacement?, replacement?, substitute?_sole, substitute?_sole] at hresolve
    cases hresolve with
    | some hresolve =>
      refine C.bind hresolve fun target htarget => spliced_congr h hnext ?_ hplace
      apply h.target hmet
      rw [replacement?, substitute?_sole, htarget]

end

include h

theorem expandEntries_congr {p q : String} : ∀ {entries : Entries Value}, place p q →
    (∀ e ∈ entries, e.1 ≠ Directive.replace → ∀ p q, place p q →
      C.holds (expandWith s next e.2 p) (expandWith t next' e.2 q)) →
    C.holds (expandEntries s next entries p) (expandEntries t next' entries q)
  | [], _, _ => by
    rw [expandEntries, expandEntries]
    exact C.refl _
  | (k, v) :: rest, hplace, hentries => by
    obtain ⟨hv, hrest⟩ := List.forall_mem_cons.mp hentries
    have ih := expandEntries_congr hplace hrest
    rw [expandEntries_cons, expandEntries_cons]
    by_cases hk : k = Directive.replace
    · rw [if_pos hk, if_pos hk]
      exact ih
    · rw [if_neg hk, if_neg hk]
      exact C.bind (hv hk _ _ (h.child k hplace)) fun _ _ => C.map _ ih

omit h in
theorem expandItems_congr {p q : String} : ∀ {items : List Value} {i j : Nat},
    PlacedFrom place i j p q →
    (∀ v ∈ items, ∀ i j, PlacedFrom place i j p q →
      C.holds (expandItem s next i v p) (expandItem t next' j v q)) →
    C.holds (expandItems s next i items p) (expandItems t next' j items q)
  | [], _, _, _, _ => by
    rw [expandItems, expandItems]
    exact C.refl _
  | v :: rest, i, j, hplace, hitems => by
    obtain ⟨hv, hrest⟩ := List.forall_mem_cons.mp hitems
    rw [expandItems_cons, expandItems_cons]
    refine C.bind (hv i j hplace) fun expanded _ => ?_
    exact C.map _ (expandItems_congr (hplace.drop expanded.length) hrest)

theorem expandWith_congr
    (hnext : ∀ v p q, Met v → place p q → C.holds (next v p) (next' v q)) {v : Value}
    {p q : String} (hmet : Met v) (hplace : place p q) :
    C.holds (expandWith s next v p) (expandWith t next' v q) := by
  induction v using Value.induction generalizing p q with
  | string text =>
    have hreplacement := h.replacement hmet hplace
    have htarget {target : Value} := @h.target (.string text) target p hmet
    simp only [replacement?] at hreplacement htarget
    simp only [expandWith]
    cases hs : stringReference? text with
    | none => exact C.refl _
    | some reference =>
      rw [hs] at hreplacement htarget
      cases hreplacement with
      | some hresolve =>
        exact C.bind hresolve fun target hok => hnext target p q (htarget (congrArg some hok)) hplace
  | map entries ih =>
    have hreplacement := h.replacement hmet hplace
    have htarget {target : Value} := @h.target (.map entries) target p hmet
    simp only [replacement?] at hreplacement htarget
    simp only [expandWith]
    cases hs : substitute? s entries p with
    | none =>
      rw [hs] at hreplacement
      cases hs' : substitute? t entries q with
      | some _ => rw [hs'] at hreplacement; cases hreplacement
      | none =>
        refine C.map _ (expandEntries_congr h hplace fun e he hk p q hplace => ?_)
        exact ih e he (h.entry hmet hs he hk) hplace
    | some replaced =>
      rw [hs] at hreplacement htarget
      cases hs' : substitute? t entries q with
      | none => rw [hs'] at hreplacement; cases hreplacement
      | some replaced' =>
        rw [hs'] at hreplacement
        cases hreplacement with
        | some hresolve =>
          exact C.bind hresolve fun target hok => hnext target p q (htarget (congrArg some hok)) hplace
  | list items ih =>
    have hfrom : PlacedFrom place 0 0 p q := fun n => h.child _ hplace
    simp only [expandWith]
    refine C.map _ (expandItems_congr hfrom fun v hv i j hplace => ?_)
    exact expandItem_congr h hnext (h.item hmet hv) hplace fun p q hp => ih v hv (h.item hmet hv) hp
  | _ => simp only [expandWith]; exact C.refl _

omit h in
/-- Two sites are alike in any way if each value gives place to the same in both. -/
theorem Alike.of_eq (hreplacement : ∀ v path, replacement? s v path = replacement? t v path) :
    Alike C s t (fun _ => True) (· = ·) where
  child k := congrArg fun p => KeyPath.child p k
  entry _ _ _ _ := trivial
  item _ _ := trivial
  target _ _ := trivial
  replacement := by
    intro v p q _ hpq
    rw [hreplacement, hpq]
    cases replacement? t v q with
    | none => exact .none
    | some x => exact .some (C.refl x)

end Expansion

end Overlay
