import Overlay.Proofs.Intersection.Order
import Overlay.Proofs.Merge.Union

/-!
# What values have in common

Keys lead somewhere in an intersection exactly if they lead somewhere in both values and, on the way,
null never meets anything else (`under?_intersect`). What stands there is what the two have in common
there, so no key that they share is dropped, at any depth, and nothing is added (`intersect_maximal`).
-/

namespace Overlay.Value

/-- At the end of keys, and at each key on the way there, two values are null in both or in neither. -/
def NullsAgree (a b : Value) (keys : List String) : Prop :=
  ∀ above, above ≠ [] → above <+: keys → (a.under? above).map isNull = (b.under? above).map isNull

theorem nullsAgree_nil (a b : Value) : NullsAgree a b [] :=
  fun _ hne habove => absurd (List.prefix_nil.mp habove) hne

theorem nullsAgree_cons {a b x y : Value} {key : String} (hx : a.entry? key = some x)
    (hy : b.entry? key = some y) (keys : List String) :
    NullsAgree a b (key :: keys) ↔ x.isNull = y.isNull ∧ NullsAgree x y keys := by
  have hleft (rest : List String) : a.under? (key :: rest) = x.under? rest := by
    rw [under?, hx, Option.bind_some]
  have hright (rest : List String) : b.under? (key :: rest) = y.under? rest := by
    rw [under?, hy, Option.bind_some]
  constructor
  · intro h
    constructor
    · have hkey := h [key] (List.cons_ne_nil _ _) (by simp)
      rw [hleft, hright] at hkey
      simpa [under?] using hkey
    · intro above _ habove
      have hbelow := h (key :: above) (List.cons_ne_nil _ _) (List.cons_prefix_cons.mpr ⟨rfl, habove⟩)
      rwa [hleft, hright] at hbelow
  · rintro ⟨hnull, h⟩ above hne habove
    cases above with
    | nil => exact absurd rfl hne
    | cons k above =>
      obtain ⟨rfl, hbelow⟩ := List.cons_prefix_cons.mp habove
      rw [hleft, hright]
      by_cases hnil : above = []
      · subst hnil
        simp [under?, hnull]
      · exact h above hnil hbelow

/-! ## Entries in common -/

/-- An entry of an intersection is what the entries of both have in common, unless just one of them is
null. -/
theorem entry?_intersect {a : Value} (ha : a.WellFormed) (b : Value) (key : String) :
    entry? key (a.intersect b) =
      (a.entry? key).bind fun x => (b.entry? key).bind fun y => shared x y := by
  cases a with
  | map xs =>
    cases b with
    | map ys =>
      rw [intersect_maps]
      exact Entries.lookup_filterMap (kept ys) key (wellFormed_map.mp ha).1
    | _ => simp [intersect, entry?, requiredMark]
  | list xs =>
    cases b with
    | list ys => rw [intersect_lists]; rfl
    | _ => rfl
  | _ =>
    rw [intersect_leaf rfl]
    split <;> rfl

theorem shared_eq_some {x y common : Value} :
    shared x y = some common ↔ x.isNull = y.isNull ∧ x.intersect y = common := by
  rw [shared, Option.ite_none_right_eq_some, Option.some_inj]

theorem WellFormed.entry {a x : Value} (ha : a.WellFormed) {key : String}
    (hx : a.entry? key = some x) : x.WellFormed := by
  cases a with
  | map xs => exact (wellFormed_map.mp ha).2 _ (Entries.mem_of_lookup hx)
  | _ => cases hx

/-- What stands under keys in an intersection. -/
theorem under?_intersect {a b : Value} (ha : a.WellFormed) {keys : List String} {common : Value} :
    (a.intersect b).under? keys = some common ↔
      ∃ x y, a.under? keys = some x ∧ b.under? keys = some y ∧ NullsAgree a b keys ∧
        x.intersect y = common := by
  induction keys generalizing a b with
  | nil =>
    simp only [under?, Option.some_inj]
    constructor
    · intro h
      exact ⟨a, b, rfl, rfl, nullsAgree_nil a b, h⟩
    · rintro ⟨x, y, rfl, rfl, -, h⟩
      exact h
  | cons key keys ih =>
    simp only [under?, entry?_intersect ha, Option.bind_eq_some_iff, shared_eq_some]
    constructor
    · rintro ⟨_, ⟨v, hv, w, hw, hnull, rfl⟩, h⟩
      obtain ⟨x, y, hx, hy, hagree, h⟩ := (ih (ha.entry hv)).mp h
      exact ⟨x, y, ⟨v, hv, hx⟩, ⟨w, hw, hy⟩, (nullsAgree_cons hv hw keys).mpr ⟨hnull, hagree⟩, h⟩
    · rintro ⟨x, y, ⟨v, hv, hx⟩, ⟨w, hw, hy⟩, hagree, h⟩
      obtain ⟨hnull, hagree⟩ := (nullsAgree_cons hv hw keys).mp hagree
      have hbelow := (ih (ha.entry hv)).mpr ⟨x, y, hx, hy, hagree, h⟩
      exact ⟨_, ⟨v, hv, w, hw, hnull, rfl⟩, hbelow⟩

/-! ## Leaves and lists in common -/

theorem intersect_eq_leaf {x y : Value} (hleaf : (x.intersect y).isLeaf)
    (hmark : x.intersect y ≠ requiredMark) : x.intersect y = x ∧ x == y := by
  cases x with
  | map xs =>
    cases y with
    | map ys => rw [intersect_maps] at hleaf; cases hleaf
    | _ => exact absurd rfl hmark
  | list xs =>
    cases y with
    | list ys => rw [intersect_lists] at hleaf; cases hleaf
    | _ => exact absurd rfl hmark
  | _ =>
    rw [intersect_leaf rfl] at hmark ⊢
    split
    · rename_i heq
      exact ⟨rfl, heq⟩
    · rename_i heq
      exact absurd (if_neg heq) hmark

theorem intersect_eq_list {x y : Value} {items : List Value} (h : x.intersect y = .list items) :
    ∃ xs ys, x = .list xs ∧ y = .list ys ∧ items = marked (xs.filter ys.contains) := by
  cases x with
  | map xs => cases y <;> cases h
  | list xs =>
    cases y with
    | list ys =>
      rw [intersect_lists] at h
      exact ⟨xs, ys, rfl, rfl, (list.inj h).symm⟩
    | _ => cases h
  | _ =>
    rw [intersect_leaf rfl] at h
    split at h <;> cases h

theorem marked_of_ne {items : List Value} (h : marked items ≠ [requiredMark]) :
    marked items = items := by
  cases items with
  | nil => exact absurd rfl h
  | cons x xs => rfl

/-- The intersection is the largest structure that two values have in common. -/
theorem intersect_maximal {a b : Value} (ha : a.WellFormed) (keys : List String) :
    (((a.intersect b).under? keys).isSome ↔
      (a.under? keys).isSome ∧ (b.under? keys).isSome ∧ NullsAgree a b keys) ∧
    ∀ common, (a.intersect b).under? keys = some common →
      ∃ x y, a.under? keys = some x ∧ b.under? keys = some y ∧
        (common.isLeaf → common ≠ requiredMark → common = x ∧ common == y) ∧
        ∀ items, common = .list items → items ≠ [requiredMark] →
          ∃ xs ys, x = .list xs ∧ y = .list ys ∧ items = xs.filter ys.contains := by
  constructor
  · simp only [Option.isSome_iff_exists, under?_intersect ha]
    constructor
    · rintro ⟨_, x, y, hx, hy, hagree, -⟩
      exact ⟨⟨x, hx⟩, ⟨y, hy⟩, hagree⟩
    · rintro ⟨⟨x, hx⟩, ⟨y, hy⟩, hagree⟩
      exact ⟨_, x, y, hx, hy, hagree, rfl⟩
  · intro common h
    obtain ⟨x, y, hx, hy, -, rfl⟩ := (under?_intersect ha).mp h
    refine ⟨x, y, hx, hy, fun hleaf hmark => ?_, fun items hitems hmark => ?_⟩
    · obtain ⟨hcommon, heq⟩ := intersect_eq_leaf hleaf hmark
      exact ⟨hcommon, by rwa [hcommon]⟩
    · obtain ⟨xs, ys, rfl, rfl, rfl⟩ := intersect_eq_list hitems
      exact ⟨xs, ys, rfl, rfl, marked_of_ne hmark⟩

theorem intersect_maximal_of_services :
    let a : Value := .map [("db", .map [("host", .string "x"), ("old", .null),
      ("tags", .list [.string "p", .string "q", .string "q"])]), ("own", .int 1)]
    let b : Value := .map [("db", .map [("host", .string "x"), ("old", .int 1),
      ("tags", .list [.string "q", .string "r"])])]
    a.WellFormed ∧ (∃ y, b.under? ["db", "host"] = some y ∧ Value.string "x" == y) ∧
      (∃ xs ys, a.under? ["db", "tags"] = some (.list xs) ∧ b.under? ["db", "tags"] = some (.list ys) ∧
        [Value.string "q", .string "q"] = xs.filter ys.contains) ∧
      ¬ ((a.intersect b).under? ["db", "old"]).isSome := by
  intro a b
  have ha : a.WellFormed := by decide
  have hhost : (a.intersect b).under? ["db", "host"] = some (.string "x") := by decide
  have htags : (a.intersect b).under? ["db", "tags"] = some (.list [.string "q", .string "q"]) := by
    decide
  refine ⟨ha, ?_, ?_, fun hold => ?_⟩
  · obtain ⟨x, y, -, hy, hleaf, -⟩ := (intersect_maximal ha ["db", "host"]).2 _ hhost
    exact ⟨y, hy, (hleaf rfl (by decide)).2⟩
  · obtain ⟨x, y, hx, hy, -, hlist⟩ := (intersect_maximal ha ["db", "tags"]).2 _ htags
    obtain ⟨xs, ys, rfl, rfl, hitems⟩ := hlist _ rfl (by decide)
    exact ⟨xs, ys, hx, hy, hitems⟩
  · obtain ⟨-, -, hagree⟩ := (intersect_maximal ha ["db", "old"]).1.mp hold
    have hnull := hagree ["db", "old"] (by simp) (List.prefix_refl _)
    revert hnull
    decide

end Overlay.Value
