import Mathlib.Data.List.Perm.Basic
import Overlay.Intersection
import Overlay.Proofs.Entries
import Overlay.Proofs.Value.Equivalence
import Overlay.Proofs.Value.WellFormed

/-!
# The order of what is intersected

After the first value, the order does not matter at all (`intersect_right_comm`): the first value
says in which order, and how often, elements of lists are kept. `Alike` does not look at that.
Intersections keep it (`Alike.intersect`), and it relates what two values have in common to what they
have in common the other way round (`alike_intersect_comm`). So any number of values have the same in
common in every order (`intersectAll_perm`).
-/

namespace Overlay.Value

/-! ## Alike values -/

/-- Every element of the first list equals one of the second. -/
def Within (xs ys : List Value) : Prop :=
  ∀ x ∈ xs, ∃ y ∈ ys, x == y

mutual
/-- Equality up to the order and the multiplicity of the elements of lists, where maps alone lead to
the list. -/
def Alike : Value → Value → Prop
  | .map xs, .map ys => AlikeEntries xs ys
  | .list xs, .list ys => Within xs ys ∧ Within ys xs
  | a, b => a == b

def AlikeEntries : List (String × Value) → List (String × Value) → Prop
  | [], [] => True
  | (k, x) :: xs, (l, y) :: ys => k = l ∧ Alike x y ∧ AlikeEntries xs ys
  | _, _ => False
end

theorem alike_map {xs : Entries Value} {b : Value} :
    Alike (.map xs) b ↔ ∃ ys, b = .map ys ∧ AlikeEntries xs ys := by
  cases b with
  | map ys => simp [Alike]
  | _ => exact iff_of_false (fun h => by cases h) (by simp)

theorem alike_list {xs : List Value} {b : Value} :
    Alike (.list xs) b ↔ ∃ ys, b = .list ys ∧ Within xs ys ∧ Within ys xs := by
  cases b with
  | list ys => simp [Alike]
  | _ => exact iff_of_false (fun h => by cases h) (by simp)

theorem alike_leaf {a b : Value} (ha : a.isLeaf) : Alike a b ↔ a == b := by
  cases a with
  | map xs => cases ha
  | list xs => cases ha
  | _ => simp [Alike]

theorem alikeEntries_iff : ∀ {xs ys : List (String × Value)},
    AlikeEntries xs ys ↔ List.Forall₂ (fun a b => a.1 = b.1 ∧ Alike a.2 b.2) xs ys
  | [], ys => by cases ys <;> simp [AlikeEntries]
  | x :: xs, [] => by simp [AlikeEntries]
  | x :: xs, y :: ys => by simp [AlikeEntries, @alikeEntries_iff xs ys, and_assoc]

theorem Within.trans {xs ys zs : List Value} (hxy : Within xs ys) (hyz : Within ys zs) :
    Within xs zs := by
  intro x hx
  obtain ⟨y, hy, hxy⟩ := hxy x hx
  obtain ⟨z, hz, hyz⟩ := hyz y hy
  exact ⟨z, hz, PartialEquivBEq.trans hxy hyz⟩

theorem isLeaf_of_equal {a b : Value} (h : equal a b = true) : a.isLeaf = b.isLeaf := by
  cases a <;> cases b <;> first | rfl | cases h

theorem Alike.isLeaf_eq {a b : Value} (h : Alike a b) : a.isLeaf = b.isLeaf := by
  cases a with
  | map xs =>
    obtain ⟨ys, rfl, -⟩ := alike_map.mp h
    rfl
  | list xs =>
    obtain ⟨ys, rfl, -⟩ := alike_list.mp h
    rfl
  | _ => exact isLeaf_of_equal ((alike_leaf rfl).mp h)

theorem Alike.isNull_eq {a b : Value} (h : Alike a b) : a.isNull = b.isNull := by
  cases a with
  | map xs =>
    obtain ⟨ys, rfl, -⟩ := alike_map.mp h
    rfl
  | list xs =>
    obtain ⟨ys, rfl, -⟩ := alike_list.mp h
    rfl
  | _ =>
    have h := (alike_leaf rfl).mp h
    cases b <;> first | rfl | cases h

mutual
theorem Alike.trans : (a : Value) → {b c : Value} → Alike a b → Alike b c → Alike a c
  | .map xs, _, _, hab, hbc => by
    obtain ⟨ys, rfl, hxy⟩ := alike_map.mp hab
    obtain ⟨zs, rfl, hyz⟩ := alike_map.mp hbc
    exact alike_map.mpr ⟨zs, rfl, AlikeEntries.trans xs hxy hyz⟩
  | .list xs, _, _, hab, hbc => by
    obtain ⟨ys, rfl, hxy, hyx⟩ := alike_list.mp hab
    obtain ⟨zs, rfl, hyz, hzy⟩ := alike_list.mp hbc
    exact alike_list.mpr ⟨zs, rfl, hxy.trans hyz, hzy.trans hyx⟩
  | .null, _, _, hab, hbc | .bool _, _, _, hab, hbc | .int _, _, _, hab, hbc
  | .float _, _, _, hab, hbc | .string _, _, _, hab, hbc => by
    have hleaf := hab.isLeaf_eq
    rw [alike_leaf rfl] at hab ⊢
    exact PartialEquivBEq.trans hab ((alike_leaf hleaf.symm).mp hbc)

theorem AlikeEntries.trans : (xs : List (String × Value)) → {ys zs : List (String × Value)} →
    AlikeEntries xs ys → AlikeEntries ys zs → AlikeEntries xs zs
  | [], [], [], _, _ => trivial
  | (k, x) :: xs, (l, y) :: ys, (m, z) :: zs, hxy, hyz => by
    obtain ⟨rfl, hxy, hrest⟩ := hxy
    obtain ⟨rfl, hyz, hrest'⟩ := hyz
    exact ⟨rfl, Alike.trans x hxy hyz, AlikeEntries.trans xs hrest hrest'⟩
end

theorem alike_self (v : Value) (h : v.NaNFree) : Alike v v := by
  induction v using induction with
  | map entries ih =>
    refine alike_map.mpr ⟨entries, rfl, alikeEntries_iff.mpr (List.forall₂_same.mpr fun e he => ?_)⟩
    exact ⟨rfl, ih e he (h.entry he)⟩
  | list items _ =>
    have hself : Within items items := fun x hx => ⟨x, hx, equal_self x (h.item hx)⟩
    exact alike_list.mpr ⟨items, rfl, hself, hself⟩
  | _ => exact (alike_leaf rfl).mpr (equal_self _ h)

/-! ## What an intersection is, shape by shape -/

/-- What two values of one key have in common, unless just one of them is null. -/
def shared (x y : Value) : Option Value :=
  if x.isNull = y.isNull then some (x.intersect y) else none

/-- What is kept of `x` at `key` against a map. -/
def kept (other : Entries Value) (key : String) (x : Value) : Option Value :=
  (Entries.lookup key other).bind (shared x)

/-- Elements that lists have in common. A mark stands for none. -/
def marked : List Value → List Value
  | [] => [requiredMark]
  | items => items

theorem intersect_leaf {a : Value} (ha : a.isLeaf) (b : Value) :
    a.intersect b = if a == b then a else requiredMark := by
  cases a with
  | map xs => cases ha
  | list xs => cases ha
  | _ => rw [intersect] <;> rintro _ ⟨⟩

theorem intersect_leaf_right {a : Value} (ha : a.isLeaf) (b : Value) :
    b.intersect a = if b == a then b else requiredMark := by
  cases b with
  | map xs | list xs => cases a <;> first | rfl | cases ha
  | _ => exact intersect_leaf rfl a

theorem intersect_lists (xs ys : List Value) :
    (Value.list xs).intersect (.list ys) = .list (marked (xs.filter ys.contains)) := by
  rw [intersect]
  cases xs.filter fun v => ys.contains v <;> rfl

theorem eq_null_of_isNull {v : Value} (h : v.isNull = true) : v = .null := by
  cases v <;> first | rfl | cases h

theorem isNull_intersect (a b : Value) : (a.intersect b).isNull = (a.isNull && b.isNull) := by
  cases a with
  | map xs => cases b <;> rfl
  | list xs =>
    cases b with
    | list ys => rw [intersect_lists]; rfl
    | _ => rfl
  | null => cases b <;> rfl
  | _ => rw [intersect_leaf rfl]; split <;> rfl

theorem intersectEntries_cons (key : String) (x : Value) (rest : List (String × Value))
    (other : Entries Value) : intersectEntries ((key, x) :: rest) other =
      match kept other key x with
      | none => intersectEntries rest other
      | some y => (key, y) :: intersectEntries rest other := by
  rw [intersectEntries]
  cases hlookup : Entries.lookup key other with
  | none => simp [kept, hlookup]
  | some y =>
    cases hx : x.isNull <;> cases hy : y.isNull
    case true.true =>
      have hnull : x.intersect y = .null :=
        eq_null_of_isNull (by rw [isNull_intersect, hx, hy]; rfl)
      simp [kept, hlookup, shared, hx, hy, hnull]
    all_goals simp [kept, hlookup, shared, hx, hy]

theorem intersectEntries_eq (other : Entries Value) : ∀ xs : List (String × Value),
    intersectEntries xs other = xs.filterMap fun e => (kept other e.1 e.2).map (e.1, ·)
  | [] => by rw [intersectEntries]; rfl
  | (k, x) :: rest => by
    rw [intersectEntries_cons, List.filterMap_cons, intersectEntries_eq other rest]
    cases kept other k x <;> rfl

theorem intersect_maps (xs ys : Entries Value) : (Value.map xs).intersect (.map ys) =
    .map (xs.filterMap fun e => (kept ys e.1 e.2).map (e.1, ·)) := by
  rw [intersect, intersectEntries_eq]

theorem intersect_required (b : Value) : requiredMark.intersect b = requiredMark := by
  rw [intersect_leaf rfl, ite_self]

/-- Values of different kinds have nothing in common. -/
theorem intersect_of_kind_ne {a b : Value} (h : a.kind ≠ b.kind) :
    a.intersect b = requiredMark := by
  cases a with
  | map xs | list xs => cases b <;> first | rfl | exact absurd rfl h
  | _ => rw [intersect_leaf rfl]; cases b <;> first | rfl | exact absurd rfl h

theorem intersect_eq_or_kind (a b : Value) :
    a.intersect b = requiredMark ∨ (a.intersect b).kind = a.kind := by
  by_cases h : a.kind = b.kind
  · cases a with
    | map xs => cases b <;> first | exact .inr rfl | simp [kind] at h
    | list xs =>
      cases b <;> first | rw [intersect_lists]; exact .inr rfl | simp [kind] at h
    | _ =>
      rw [intersect_leaf rfl]
      split
      · exact .inr rfl
      · exact .inl rfl
  · exact .inl (intersect_of_kind_ne h)

theorem intersect_intersect_of_kind_ne {a b : Value} (h : a.kind ≠ b.kind) (c : Value) :
    (a.intersect c).intersect b = requiredMark := by
  rcases intersect_eq_or_kind a c with heq | hkind
  · rw [heq, intersect_required]
  · exact intersect_of_kind_ne (hkind ▸ h)

/-! ## The order of the later values -/

theorem shared_right_comm {x : Value}
    (h : ∀ y z, (x.intersect y).intersect z = (x.intersect z).intersect y) (y z : Value) :
    ((shared x y).bind fun u => shared u z) = (shared x z).bind fun u => shared u y := by
  by_cases hy : x.isNull = y.isNull <;> by_cases hz : x.isNull = z.isNull
  · simp [shared, isNull_intersect, ← hy, ← hz, h y z]
  · simp [shared, isNull_intersect, ← hy, hz]
  · simp [shared, isNull_intersect, ← hz, hy]
  · simp [shared, hy, hz]

theorem kept_right_comm {x : Value}
    (h : ∀ y z, (x.intersect y).intersect z = (x.intersect z).intersect y)
    (ys zs : Entries Value) (key : String) :
    ((kept ys key x).bind fun u => kept zs key u) =
      (kept zs key x).bind fun u => kept ys key u := by
  cases hy : Entries.lookup key ys with
  | none => cases hz : Entries.lookup key zs <;> simp [kept, hy, hz]
  | some y =>
    cases hz : Entries.lookup key zs with
    | none => simp [kept, hy, hz]
    | some z => simpa [kept, hy, hz] using shared_right_comm h y z

theorem marked_filter (p : Value → Bool) (items : List Value) :
    marked ((marked items).filter p) = marked (items.filter p) := by
  cases items with
  | nil => cases hp : p requiredMark <;> simp [marked, hp]
  | cons x xs => rfl

theorem right_comm_of_kind {a b c : Value}
    (h : a.kind = b.kind → a.kind = c.kind →
      (a.intersect b).intersect c = (a.intersect c).intersect b) :
    (a.intersect b).intersect c = (a.intersect c).intersect b := by
  by_cases hb : a.kind = b.kind
  · by_cases hc : a.kind = c.kind
    · exact h hb hc
    · rw [intersect_intersect_of_kind_ne hc, intersect_of_kind_ne hc, intersect_required]
  · rw [intersect_intersect_of_kind_ne hb, intersect_of_kind_ne hb, intersect_required]

theorem eq_map_of_kind {xs : Entries Value} {b : Value} (h : (Value.map xs).kind = b.kind) :
    ∃ ys, b = .map ys := by
  cases b <;> first | exact ⟨_, rfl⟩ | simp [kind] at h

theorem eq_list_of_kind {xs : List Value} {b : Value} (h : (Value.list xs).kind = b.kind) :
    ∃ ys, b = .list ys := by
  cases b <;> first | exact ⟨_, rfl⟩ | simp [kind] at h

theorem intersect_leaf_right_comm {a : Value} (ha : a.isLeaf) (b c : Value) :
    (a.intersect b).intersect c = (a.intersect c).intersect b := by
  cases hb : a == b <;> cases hc : a == c <;>
    simp [intersect_leaf ha, hb, hc, intersect_required]

theorem intersect_right_comm (a b c : Value) :
    (a.intersect b).intersect c = (a.intersect c).intersect b := by
  induction a using induction generalizing b c with
  | map xs ih =>
    refine right_comm_of_kind fun hb hc => ?_
    obtain ⟨ys, rfl⟩ := eq_map_of_kind hb
    obtain ⟨zs, rfl⟩ := eq_map_of_kind hc
    simp only [intersect_maps, List.filterMap_filterMap]
    congr 1
    refine List.filterMap_congr fun e he => ?_
    have hkept := kept_right_comm (fun y z => ih e he y z) ys zs e.1
    simpa [Option.bind_map, Option.map_bind] using congrArg (Option.map (e.1, ·)) hkept
  | list xs _ =>
    refine right_comm_of_kind fun hb hc => ?_
    obtain ⟨ys, rfl⟩ := eq_list_of_kind hb
    obtain ⟨zs, rfl⟩ := eq_list_of_kind hc
    simp only [intersect_lists, marked_filter, List.filter_filter, Bool.and_comm]
  | _ => exact intersect_leaf_right_comm rfl b c

/-! ## Alike values intersect alike -/

theorem Within.filter {xs ys : List Value} (h : Within xs ys) (zs : List Value) :
    Within (xs.filter zs.contains) (ys.filter zs.contains) := by
  intro x hx
  obtain ⟨hx, hz⟩ := List.mem_filter.mp hx
  obtain ⟨y, hy, hxy⟩ := h x hx
  obtain ⟨z, hz, hxz⟩ := List.contains_iff_exists_mem_beq.mp hz
  have hyz : y == z := PartialEquivBEq.trans (BEq.symm hxy) hxz
  exact ⟨y, List.mem_filter.mpr ⟨hy, List.contains_iff_exists_mem_beq.mpr ⟨z, hz, hyz⟩⟩, hxy⟩

theorem Within.eq_nil {xs : List Value} (h : Within xs []) : xs = [] :=
  List.eq_nil_iff_forall_not_mem.mpr fun x hx => by
    obtain ⟨y, hy, -⟩ := h x hx
    cases hy

/-- Marks do not tell lists apart that have the same elements. -/
theorem alike_marked {xs ys : List Value} (hxy : Within xs ys) (hyx : Within ys xs) :
    Alike (.list (marked xs)) (.list (marked ys)) := by
  cases xs with
  | nil =>
    rw [hyx.eq_nil]
    have hself : Within [requiredMark] [requiredMark] :=
      List.forall_mem_singleton.mpr ⟨_, .head _, rfl⟩
    exact alike_list.mpr ⟨_, rfl, hself, hself⟩
  | cons x xs =>
    cases ys with
    | nil => cases hxy.eq_nil
    | cons y ys => exact alike_list.mpr ⟨_, rfl, hxy, hyx⟩

theorem kept_alike {x y : Value} (h : Alike x y)
    (hxy : ∀ c : Value, Alike (x.intersect c) (y.intersect c)) (other : Entries Value)
    (key : String) : Option.Rel Alike (kept other key x) (kept other key y) := by
  rw [kept, kept]
  cases Entries.lookup key other with
  | none => exact .none
  | some c =>
    simp only [Option.bind_some, shared, h.isNull_eq]
    split
    · exact .some (hxy c)
    · exact .none

mutual
theorem Alike.intersect : (a : Value) → {b : Value} → Alike a b → (c : Value) →
    Alike (a.intersect c) (b.intersect c)
  | .map xs, _, h, c => by
    obtain ⟨ys, rfl, hxy⟩ := alike_map.mp h
    cases c with
    | map zs => exact alike_map.mpr ⟨_, rfl, AlikeEntries.intersect xs hxy zs⟩
    | _ => rfl
  | .list xs, _, h, c => by
    obtain ⟨ys, rfl, hxy, hyx⟩ := alike_list.mp h
    cases c with
    | list zs =>
      rw [intersect_lists, intersect_lists]
      exact alike_marked (hxy.filter zs) (hyx.filter zs)
    | _ => rfl
  | .null, b, h, c | .bool _, b, h, c | .int _, b, h, c | .float _, b, h, c
  | .string _, b, h, c => by
    have hleaf : b.isLeaf := h.isLeaf_eq.symm
    have hab := (alike_leaf rfl).mp h
    rw [intersect_leaf rfl, intersect_leaf hleaf, BEq.congr_left hab]
    split
    · exact h
    · rfl

theorem AlikeEntries.intersect : (xs : List (String × Value)) → {ys : List (String × Value)} →
    AlikeEntries xs ys → (other : Entries Value) →
    AlikeEntries (intersectEntries xs other) (intersectEntries ys other)
  | [], [], _, _ => trivial
  | (k, x) :: xs, (l, y) :: ys, h, other => by
    obtain ⟨rfl, hxy, hrest⟩ := h
    have hkept := kept_alike hxy (Alike.intersect x hxy) other k
    rw [intersectEntries_cons, intersectEntries_cons]
    generalize kept other k x = u, kept other k y = v at hkept ⊢
    cases hkept with
    | none => exact AlikeEntries.intersect xs hrest other
    | some huv => exact ⟨rfl, huv, AlikeEntries.intersect xs hrest other⟩
end

/-! ## Which of two values comes first -/

theorem within_filter_swap (xs ys : List Value) :
    Within (xs.filter ys.contains) (ys.filter xs.contains) := by
  intro x hx
  obtain ⟨hx, hy⟩ := List.mem_filter.mp hx
  obtain ⟨y, hy, hxy⟩ := List.contains_iff_exists_mem_beq.mp hy
  have hmem : xs.contains y := List.contains_iff_exists_mem_beq.mpr ⟨x, hx, BEq.symm hxy⟩
  exact ⟨y, List.mem_filter.mpr ⟨hy, hmem⟩, hxy⟩

theorem kept_swap {xs ys : Entries Value} {key : String}
    (h : ∀ x y, Entries.lookup key xs = some x → Entries.lookup key ys = some y →
      Alike (x.intersect y) (y.intersect x)) :
    Option.Rel Alike ((Entries.lookup key xs).bind (kept ys key))
      ((Entries.lookup key ys).bind (kept xs key)) := by
  cases hx : Entries.lookup key xs with
  | none => cases hy : Entries.lookup key ys <;> simp [kept, hx]
  | some x =>
    cases hy : Entries.lookup key ys with
    | none => simp [kept, hy]
    | some y =>
      by_cases hnull : x.isNull = y.isNull
      · simpa [kept, hx, hy, shared, hnull] using Option.Rel.some (h x y hx hy)
      · simp [kept, hx, hy, shared, hnull, Ne.symm hnull]

theorem alike_intersect_comm {a b : Value} (ha : a.WellFormed) (hb : b.WellFormed) :
    Alike (a.intersect b) (b.intersect a) := by
  induction a using induction generalizing b with
  | map xs ih =>
    cases b with
    | map ys =>
      obtain ⟨hxs, hx⟩ := wellFormed_map.mp ha
      obtain ⟨hys, hy⟩ := wellFormed_map.mp hb
      rw [intersect_maps, intersect_maps]
      refine alike_map.mpr ⟨_, rfl, alikeEntries_iff.mpr <|
        Entries.forall₂_of_lookup (hxs.filterMap _) (hys.filterMap _) fun key => ?_⟩
      rw [Entries.lookup_filterMap _ key hxs, Entries.lookup_filterMap _ key hys]
      refine kept_swap fun x y hxkey hykey => ?_
      have hxmem := Entries.mem_of_lookup hxkey
      exact ih _ hxmem (hx _ hxmem) (hy _ (Entries.mem_of_lookup hykey))
    | _ => rfl
  | list xs _ =>
    cases b with
    | list ys =>
      rw [intersect_lists, intersect_lists]
      exact alike_marked (within_filter_swap xs ys) (within_filter_swap ys xs)
    | _ => rfl
  | _ =>
    rw [intersect_leaf rfl, intersect_leaf_right rfl, BEq.comm]
    split
    · rename_i hba
      exact (alike_leaf rfl).mpr (BEq.symm hba)
    · rfl

/-! ## Any number of values -/

theorem alike_foldl {a b : Value} (h : Alike a b) (rest : List Value) :
    Alike (rest.foldl intersect a) (rest.foldl intersect b) := by
  induction rest generalizing a b with
  | nil => exact h
  | cons c rest ih => exact ih (Alike.intersect a h c)

/-- Values have the same in common in every order, up to the order and the multiplicity of the
elements of lists. -/
theorem intersectAll_perm {values others : List Value} (h : values.Perm others)
    (hsorted : ∀ v ∈ values, v.WellFormed) (hnumber : ∀ v ∈ values, v.NaNFree) :
    Alike (intersectAll values) (intersectAll others) := by
  induction h with
  | nil => rfl
  | cons v hrest _ =>
    have : RightCommutative intersect := ⟨intersect_right_comm⟩
    have hself := alike_foldl (alike_self v (hnumber v List.mem_cons_self))
    simp only [intersectAll]
    rw [← hrest.foldl_eq]
    exact hself _
  | swap v w rest =>
    have hcomm : Alike (w.intersect v) (v.intersect w) :=
      alike_intersect_comm (hsorted w (by simp)) (hsorted v (by simp))
    exact alike_foldl hcomm rest
  | trans h₁ _ ih₁ ih₂ =>
    have hfirst := ih₁ hsorted hnumber
    exact hfirst.trans _ (ih₂ (fun v hv => hsorted v (h₁.mem_iff.mpr hv))
      fun v hv => hnumber v (h₁.mem_iff.mpr hv))

/-- Three documents in two orders. The first one says how often an element is kept. -/
theorem intersectAll_perm_of_lists :
    let a : Value := .map [("hosts", .list [.string "x", .string "y", .string "x"]),
      ("none", .null), ("port", .int 1), ("tags", .list [.string "t"])]
    let b : Value := .map [("hosts", .list [.string "y", .string "x"]), ("none", .null),
      ("port", .float 1), ("tags", .list [.null])]
    let c : Value := .map [("hosts", .list [requiredMark, .string "x"]), ("none", .null),
      ("port", .int 1), ("tags", .list [requiredMark])]
    let common (hosts : List Value) : Value := .map [("hosts", .list hosts), ("none", .null),
      ("port", requiredMark), ("tags", .list [requiredMark])]
    intersectAll [a, b, c] = common [.string "x", .string "x"] ∧
      intersectAll [c, a, b] = common [.string "x"] ∧
        Alike (intersectAll [a, b, c]) (intersectAll [c, a, b]) := by
  intro a b c common
  have hperm : [a, b, c].Perm [c, a, b] := @List.perm_append_comm _ [a, b] [c]
  have hsorted : ∀ v ∈ [a, b, c], v.WellFormed := by decide
  have hnumber : ∀ v ∈ [a, b, c], v.Floats fun x => x.isNaN = false := by decide
  exact ⟨rfl, rfl, intersectAll_perm hperm hsorted fun v hv x => (hnumber v hv).of_inside⟩

end Overlay.Value
