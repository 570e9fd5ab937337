import Mathlib.Data.List.Forall2
import Mathlib.Data.List.Nodup
import Overlay.Proofs.Repetition.Limit
import Overlay.Proofs.Value.WellFormed

/-!
# Combinations of dimensions

Named dimensions bind their copies to all combinations of their values. The number of a copy, written
in the mixed radix of their lengths, says which value of each dimension it takes: the digits are the
positions of the values, so the last name varies fastest (`bindings_named`).
-/

namespace Overlay.Repetition

open List (Forall₂)

/-! ## Mixed radix -/

/-- The digits of a number below the product of the radices, the most significant one first. -/
def digits : List Nat → Nat → List Nat
  | [], _ => []
  | _ :: rest, k => k / rest.prod :: digits rest (k % rest.prod)

def numeral : List Nat → List Nat → Nat
  | _ :: rest, i :: is => i * rest.prod + numeral rest is
  | _, _ => 0

theorem numeral_lt {is radices : List Nat} (h : Forall₂ (· < ·) is radices) :
    numeral radices is < radices.prod := by
  induction h with
  | nil => exact Nat.zero_lt_one
  | @cons i radix is rest hi _ ih =>
    rw [numeral, List.prod_cons]
    calc i * rest.prod + numeral rest is
        < i * rest.prod + rest.prod := Nat.add_lt_add_left ih _
      _ = (i + 1) * rest.prod := (Nat.succ_mul i rest.prod).symm
      _ ≤ radix * rest.prod := Nat.mul_le_mul_right _ hi

theorem digits_numeral {is radices : List Nat} (h : Forall₂ (· < ·) is radices) :
    digits radices (numeral radices is) = is := by
  induction h with
  | nil => rfl
  | @cons i radix is rest _ hrest ih =>
    have hlt := numeral_lt hrest
    have hpos : 0 < rest.prod := Nat.zero_lt_of_lt hlt
    rw [numeral, digits, Nat.mul_add_mod', Nat.mod_eq_of_lt hlt, ih, Nat.add_comm,
      Nat.add_mul_div_right _ _ hpos, Nat.div_eq_of_lt hlt, Nat.zero_add]

theorem numeral_digits : ∀ {radices : List Nat} {k : Nat}, k < radices.prod →
    numeral radices (digits radices k) = k
  | [], k, h => by
    rw [List.prod_nil, Nat.lt_one_iff] at h
    exact h.symm
  | radix :: rest, k, h => by
    rw [List.prod_cons] at h
    have hpos : 0 < rest.prod := Nat.pos_of_mul_pos_left (Nat.zero_lt_of_lt h)
    rw [digits, numeral, numeral_digits (Nat.mod_lt k hpos), Nat.div_add_mod']

/-- Every choice of digits is that of one number. -/
theorem existsUnique_digits {is radices : List Nat} (h : Forall₂ (· < ·) is radices) :
    ∃! k, k < radices.prod ∧ digits radices k = is := by
  refine ⟨numeral radices is, ⟨numeral_lt h, digits_numeral h⟩, ?_⟩
  rintro k ⟨hk, rfl⟩
  exact (numeral_digits hk).symm

/-! ## Combinations -/

/-- A binding that takes from each dimension the value at a position, under the symbol of the name. -/
inductive Picks : List (String × List Value) → List Nat → Binding → Prop
  | nil : Picks [] [] []
  | cons {name : String} {values : List Value} {i : Nat} {v : Value}
    {dims : List (String × List Value)} {is : List Nat} {b : Binding} : values[i]? = some v →
    Picks dims is b → Picks ((name, values) :: dims) (i :: is) ((Directive.repeatSymbol ++ name, v) :: b)

def radices (dims : List (String × List Value)) : List Nat :=
  dims.map fun d => d.2.length

/-- Bindings run through all combinations of the values of dimensions, in the order of their numbers. -/
structure Enumerates (dims : List (String × List Value)) (found : List Binding) : Prop where
  length : found.length = (radices dims).prod
  picks : ∀ k (hk : k < found.length), Picks dims (digits (radices dims) k) found[k]

/-- All combinations that take their values from dimensions, the first varying slowest. -/
def product : List (String × List Value) → List Binding
  | [] => [[]]
  | (name, values) :: rest =>
    values.flatMap fun v => (product rest).map fun b => (Directive.repeatSymbol ++ name, v) :: b

theorem getElem?_flatMap_of_length {α β : Type} {f : α → List β} {n : Nat}
    (h : ∀ x, (f x).length = n) : ∀ {xs : List α} {i j : Nat} {x : α}, xs[i]? = some x → j < n →
      (xs.flatMap f)[i * n + j]? = (f x)[j]?
  | y :: xs, 0, j, x, hx, hj => by
    cases hx
    rw [Nat.zero_mul, Nat.zero_add, List.flatMap_cons, List.getElem?_append_left (by rwa [h])]
  | y :: xs, i + 1, j, x, hx, hj => by
    have hx : xs[i]? = some x := hx
    have hstep : (i + 1) * n + j = n + (i * n + j) := by rw [Nat.succ_mul]; omega
    rw [hstep, List.flatMap_cons, List.getElem?_append_right (by rw [h]; omega), h,
      Nat.add_sub_cancel_left, getElem?_flatMap_of_length h hx hj]

theorem length_product : ∀ dims : List (String × List Value),
    (product dims).length = (radices dims).prod
  | [] => rfl
  | (name, values) :: rest => by
    simp [product, radices, List.length_flatMap, length_product rest]

theorem exists_picks_product : ∀ (dims : List (String × List Value)) {k : Nat},
    k < (radices dims).prod → ∃ b, (product dims)[k]? = some b ∧ Picks dims (digits (radices dims) k) b
  | [], k, hk => by
    obtain rfl : k = 0 := Nat.lt_one_iff.mp hk
    exact ⟨[], rfl, .nil⟩
  | (name, values) :: rest, k, hk => by
    have hprod : (radices ((name, values) :: rest)).prod = values.length * (radices rest).prod := rfl
    rw [hprod] at hk
    have hpos : 0 < (radices rest).prod := Nat.pos_of_mul_pos_left (Nat.zero_lt_of_lt hk)
    have hmod := Nat.mod_lt k hpos
    obtain ⟨b, hb, hpicks⟩ := exists_picks_product rest hmod
    have hdigit : k / (radices rest).prod < values.length := Nat.div_lt_of_lt_mul (by rwa [Nat.mul_comm])
    have hv := List.getElem?_eq_getElem hdigit
    refine ⟨_, ?_, .cons hv hpicks⟩
    -- The number is cut into the first digit and what the others say.
    have hlength : ∀ v, ((product rest).map fun b => (Directive.repeatSymbol ++ name, v) :: b).length =
        (radices rest).prod := fun v => by rw [List.length_map, length_product]
    rw [product]
    conv_lhs => rw [← Nat.div_add_mod' k (radices rest).prod]
    rw [getElem?_flatMap_of_length hlength hv hmod, List.getElem?_map, hb]
    rfl

theorem enumerates_product (dims : List (String × List Value)) : Enumerates dims (product dims) where
  length := length_product dims
  picks := by
    intro k hk
    obtain ⟨b, hb, hpicks⟩ := exists_picks_product dims (length_product dims ▸ hk)
    obtain ⟨_, rfl⟩ := List.getElem?_eq_some_iff.mp hb
    exact hpicks

theorem Picks.names {dims : List (String × List Value)} {is : List Nat} {b : Binding}
    (h : Picks dims is b) : b.map Prod.fst = (dims.map Prod.fst).map (Directive.repeatSymbol ++ ·) := by
  induction h with
  | nil => rfl
  | cons _ _ ih => rw [List.map_cons, ih]; rfl

/-! ## Named dimensions -/

theorem extend_product (name : String) (values : List Value) (rest : List (String × List Value))
    (bindings : List Binding) :
    ((extend (Directive.repeatSymbol ++ name) values bindings).flatMap fun b =>
        (product rest).map fun c => b ++ c) =
      bindings.flatMap fun b => (product ((name, values) :: rest)).map fun c => b ++ c := by
  simp [extend, product, List.flatMap_assoc, List.flatMap_map, List.map_flatMap, Function.comp_def]

/-- Going through the dimensions extends every binding by every combination of their values. -/
theorem combinations_eq_ok : ∀ {entries : List (String × Value)} {bindings found : List Binding},
    combinations bindings entries = .ok found →
      ∃ dims : List (String × List Value),
        Forall₂ (fun e d => e.1 = d.1 ∧ dimension e.2 = .ok d.2) entries dims ∧
          found = bindings.flatMap fun b => (product dims).map fun c => b ++ c
  | [], bindings, found, h => by
    cases h
    refine ⟨[], .nil, ?_⟩
    simp [product]
  | (name, spec) :: rest, bindings, found, h => by
    simp only [combinations, guarded_eq_ok, Result.bind_eq_ok] at h
    obtain ⟨-, values, hvalues, -, -, h⟩ := h
    obtain ⟨dims, hdims, rfl⟩ := combinations_eq_ok h
    exact ⟨(name, values) :: dims, .cons ⟨rfl, hvalues⟩ hdims, extend_product name values dims bindings⟩

theorem bindings_of_not_isRange {entries : Entries Value} (hrange : isRange entries = false)
    {found : List Binding} (h : bindings (.map entries) = .ok found) :
    combinations [[]] entries = .ok found := by
  cases entries with
  | nil => cases h
  | cons e rest =>
    simp only [bindings, hrange] at h
    exact h

theorem nodup_symbols {entries : Entries Value} (hsorted : Entries.Sorted entries) :
    ((Entries.keys entries).map (Directive.repeatSymbol ++ ·)).Nodup := by
  have hkeys : (Entries.keys entries).Nodup :=
    List.Pairwise.map _ (fun _ _ hab => hab.ne) hsorted
  exact List.Nodup.map (fun _ _ heq => (String.append_right_inj _).mp heq) hkeys

/-- Named dimensions bind their copies to the product of their values: there is a copy for every choice
of a value from each dimension, in the order of the numbers of these choices, and it binds every name
once. -/
theorem bindings_named {entries : Entries Value} (hsorted : Entries.Sorted entries)
    (hrange : isRange entries = false) {found : List Binding}
    (h : bindings (.map entries) = .ok found) :
    ∃ dims : List (String × List Value),
      Forall₂ (fun e d => e.1 = d.1 ∧ dimension e.2 = .ok d.2) entries dims ∧
        Enumerates dims found ∧
        (∀ positions, Forall₂ (· < ·) positions (radices dims) →
          ∃! k, k < found.length ∧ digits (radices dims) k = positions) ∧
        ∀ b ∈ found, b.map Prod.fst = (Entries.keys entries).map (Directive.repeatSymbol ++ ·) ∧
          (b.map Prod.fst).Nodup := by
  obtain ⟨dims, hdims, hfound⟩ := combinations_eq_ok (bindings_of_not_isRange hrange h)
  have hproduct : found = product dims := by
    rw [hfound]
    simp
  have henum : Enumerates dims found := hproduct ▸ enumerates_product dims
  have hnames : Entries.keys entries = dims.map Prod.fst := by
    rw [Entries.keys, ← List.forall₂_eq_eq_eq, List.forall₂_map_left_iff, List.forall₂_map_right_iff]
    exact hdims.imp fun _ _ he => he.1
  refine ⟨dims, hdims, henum, fun positions hpositions => ?_, fun b hb => ?_⟩
  · rw [henum.length]
    exact existsUnique_digits hpositions
  · obtain ⟨k, hk, rfl⟩ := List.mem_iff_getElem.mp hb
    have hbound := (henum.picks k hk).names
    rw [← hnames] at hbound
    exact ⟨hbound, hbound ▸ nodup_symbols hsorted⟩

theorem bindings_named_of_three_dimensions :
    let spec : Entries Value := [("a", .int 2), ("b", .list [.string "x", .string "y", .string "x"]),
      ("c", .map [("$count", .int 2), ("$last", .int 0), ("$step", .int (-5))])]
    let dims : List (String × List Value) := [("a", [.int 0, .int 1]),
      ("b", [.string "x", .string "y", .string "x"]), ("c", [.int 5, .int 0])]
    ∃ found : List Binding,
      (Entries.Sorted spec ∧ isRange spec = false ∧ bindings (.map spec) = .ok found) ∧
        Enumerates dims found ∧ digits (radices dims) 9 = [1, 1, 1] ∧
        found[9]? = some [("$repeat:a", .int 1), ("$repeat:b", .string "y"), ("$repeat:c", .int 0)] := by
  intro spec dims
  have hsorted : Entries.Sorted spec := by decide
  have hrange : isRange spec = false := by decide
  have hfound : bindings (.map spec) = .ok (product dims) := by decide +kernel
  obtain ⟨dims', hdims, henum, -⟩ := bindings_named hsorted hrange hfound
  have hsame : dims' = dims := by
    have hgiven : Forall₂ (fun e d => e.1 = d.1 ∧ dimension e.2 = .ok d.2) spec dims :=
      .cons ⟨rfl, rfl⟩ (.cons ⟨rfl, rfl⟩ (.cons ⟨rfl, by decide +kernel⟩ .nil))
    refine Relator.RightUnique.forall₂ (fun e d d' hd hd' => ?_) hdims hgiven
    exact Prod.ext (hd.1.symm.trans hd'.1) (Except.ok.inj (hd.2.symm.trans hd'.2))
  exact ⟨product dims, ⟨hsorted, hrange, hfound⟩, hsame ▸ henum, by decide, by decide +kernel⟩

end Overlay.Repetition
