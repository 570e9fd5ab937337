import Overlay.Intersection
import Overlay.Proofs.Value.Place

/-!
# Required values

The places of all required marks, in the order in which they are met, are what the three walks through a
value agree on: the search finds the first of them (`firstRequired_eq`), there is a skeleton if there
are any (`skeleton_eq_none_iff`), and the skeleton has the same marks below the same keys
(`requiredKeys_skeleton`). What is left in a skeleton is marks and the containers that lead to them, so it
is its own skeleton (`skeleton_eq_self`).
-/

namespace Overlay

/-- The keys on the way to a place. Positions in lists are left out. -/
def Place.keys (p : Place) : List String :=
  p.filterMap fun
    | .key k => some k
    | .item _ => none

namespace Value

mutual
/-- The places of the required marks inside a value, those of a container in the order of what it
holds. -/
def requiredPlaces : Value → List Place
  | .map entries => requiredPlacesEntries entries
  | .list items => requiredPlacesItems 0 items
  | v => if v.isRequired then [[]] else []

def requiredPlacesItems (position : Nat) : List Value → List Place
  | [] => []
  | v :: rest =>
    (requiredPlaces v).map (.item position :: ·) ++ requiredPlacesItems (position + 1) rest

def requiredPlacesEntries : List (String × Value) → List Place
  | [] => []
  | (k, v) :: rest => (requiredPlaces v).map (.key k :: ·) ++ requiredPlacesEntries rest
end

theorem isRequired_iff {v : Value} : v.isRequired = true ↔ v = requiredMark := by
  cases v <;> simp [isRequired, isString, requiredMark]

theorem requiredPlacesItems_eq (position : Nat) (items : List Value) :
    requiredPlacesItems position items =
      (items.zipIdx position).flatMap fun e => e.1.requiredPlaces.map (.item e.2 :: ·) := by
  induction items generalizing position with
  | nil => rfl
  | cons v rest ih => rw [requiredPlacesItems, ih, List.zipIdx_cons, List.flatMap_cons]

theorem requiredPlacesEntries_eq (entries : List (String × Value)) :
    requiredPlacesEntries entries =
      entries.flatMap fun e => e.2.requiredPlaces.map (.key e.1 :: ·) := by
  induction entries with
  | nil => rfl
  | cons e rest ih => rw [requiredPlacesEntries, ih, List.flatMap_cons]

theorem mem_requiredPlaces {v : Value} (hv : v.WellFormed) {p : Place} :
    p ∈ v.requiredPlaces ↔ v.textAt? p = some Directive.required := by
  induction v using induction generalizing p with
  | map entries ih =>
    obtain ⟨hs, hv⟩ := wellFormed_map.mp hv
    simp only [requiredPlaces, requiredPlacesEntries_eq, List.mem_flatMap, List.mem_map]
    constructor
    · rintro ⟨e, he, q, hq, rfl⟩
      rw [textAt?_key hs he]
      exact (ih e he (hv e he)).mp hq
    · intro h
      cases p with
      | nil => cases h
      | cons step q =>
        obtain ⟨x, hx, hq⟩ := Option.bind_eq_some_iff.mp h
        cases step with
        | key k =>
          have he := Entries.mem_of_lookup hx
          exact ⟨(k, x), he, q, (ih _ he (hv _ he)).mpr hq, rfl⟩
        | item i => cases hx
  | list items ih =>
    have hv := wellFormed_list.mp hv
    simp only [requiredPlaces, requiredPlacesItems_eq, List.mem_flatMap, List.mem_map,
      List.mem_zipIdx_iff_getElem?]
    constructor
    · rintro ⟨⟨x, i⟩, hx, q, hq, rfl⟩
      have hmem := List.mem_of_getElem? hx
      rw [textAt?, Step.child?, hx]
      exact (ih x hmem (hv x hmem)).mp hq
    · intro h
      cases p with
      | nil => cases h
      | cons step q =>
        obtain ⟨x, hx, hq⟩ := Option.bind_eq_some_iff.mp h
        cases step with
        | key k => cases hx
        | item i =>
          have hmem := List.mem_of_getElem? hx
          exact ⟨(x, i), hx, q, (ih x hmem (hv x hmem)).mpr hq, rfl⟩
  | _ =>
    cases p with
    | nil => simp [requiredPlaces, textAt?, isRequired, isString]
    | cons step q => cases step <;> simp [requiredPlaces, textAt?, Step.child?]

/-! ## The first mark -/

mutual
theorem firstRequired_eq : (v : Value) → (path : String) →
    v.firstRequired path = v.requiredPlaces.head?.map (Place.keyPath id path)
  | .map entries, path => by
    rw [firstRequired, requiredPlaces, firstRequiredEntry_eq entries path]
  | .list items, path => by
    rw [firstRequired, requiredPlaces, firstRequiredItem_eq 0 items path]
  | .null, path | .bool _, path | .int _, path | .float _, path | .string _, path => by
    simp only [firstRequired, requiredPlaces]
    split <;> rfl

theorem firstRequiredItem_eq : (position : Nat) → (items : List Value) → (path : String) →
    firstRequiredItem position items path =
      (requiredPlacesItems position items).head?.map (Place.keyPath id path)
  | _, [], _ => rfl
  | position, v :: rest, path => by
    rw [firstRequiredItem, requiredPlacesItems, firstRequiredItem_eq (position + 1) rest,
      firstRequired_eq v, List.head?_append, List.head?_map, Option.map_or, Option.map_map]
    cases v.requiredPlaces.head? <;> rfl

theorem firstRequiredEntry_eq : (entries : List (String × Value)) → (path : String) →
    firstRequiredEntry entries path =
      (requiredPlacesEntries entries).head?.map (Place.keyPath id path)
  | [], _ => rfl
  | (k, v) :: rest, path => by
    rw [firstRequiredEntry, requiredPlacesEntries, firstRequiredEntry_eq rest, firstRequired_eq v,
      List.head?_append, List.head?_map, Option.map_or, Option.map_map]
    cases v.requiredPlaces.head? <;> rfl
end

theorem requiredPlaces_eq_nil_iff {v : Value} (path : String) :
    v.requiredPlaces = [] ↔ v.firstRequired path = none := by
  rw [firstRequired_eq, Option.map_eq_none_iff, List.head?_eq_none_iff]

theorem validate_eq_ok_iff {v : Value} : v.validate = .ok () ↔ v.requiredPlaces = [] := by
  rw [requiredPlaces_eq_nil_iff "", validate]
  cases v.firstRequired "" <;> simp

/-! ## Skeletons -/

def unlessEmpty (v : Value) : Option Value :=
  if v.isEmptyContainer then none else some v

theorem unlessEmpty_eq_some {v s : Value} :
    v.unlessEmpty = some s ↔ v.isEmptyContainer = false ∧ v = s := by
  unfold unlessEmpty
  cases v.isEmptyContainer <;> simp

theorem skeletonItems_eq (items : List Value) : skeletonItems items = items.filterMap skeleton := by
  induction items with
  | nil => rfl
  | cons v rest ih =>
    rw [skeletonItems, List.filterMap_cons, ih]
    cases v.skeleton <;> rfl

theorem skeletonEntries_eq (entries : List (String × Value)) : skeletonEntries entries =
    entries.filterMap fun e => e.2.skeleton.map fun kept => (e.1, kept) := by
  induction entries with
  | nil => rfl
  | cons e rest ih =>
    rw [skeletonEntries, List.filterMap_cons, ih]
    cases e.2.skeleton <;> rfl

theorem skeleton_map (entries : Entries Value) : (Value.map entries).skeleton =
    (Value.map (entries.filterMap fun e => e.2.skeleton.map fun kept => (e.1, kept))).unlessEmpty := by
  rw [skeleton, ← skeletonEntries_eq]
  cases skeletonEntries entries <;> rfl

theorem skeleton_list (items : List Value) : (Value.list items).skeleton =
    (Value.list (items.filterMap skeleton)).unlessEmpty := by
  rw [skeleton, ← skeletonItems_eq]
  cases skeletonItems items <;> rfl

theorem skeleton_leaf {v : Value} (h : v.isLeaf) :
    v.skeleton = if v.isRequired then some v else none := by
  cases v with
  | map entries => cases h
  | list items => cases h
  | _ => simp only [skeleton]

/-- A required mark, or a container that is not empty. -/
structure IsSkeletal (v : Value) : Prop where
  leaf : v.isLeaf → v = requiredMark
  container : v.isEmptyContainer = false

theorem skeletal_of_skeleton {v s : Value} (h : v.skeleton = some s) : Everywhere IsSkeletal s := by
  induction v using induction generalizing s with
  | map entries ih =>
    rw [skeleton_map, unlessEmpty_eq_some] at h
    obtain ⟨hne, rfl⟩ := h
    refine everywhere_map.mpr ⟨⟨nofun, hne⟩, fun e he => ?_⟩
    obtain ⟨old, hold, heq⟩ := List.mem_filterMap.mp he
    obtain ⟨kept, hkept, rfl⟩ := Option.map_eq_some_iff.mp heq
    exact ih old hold hkept
  | list items ih =>
    rw [skeleton_list, unlessEmpty_eq_some] at h
    obtain ⟨hne, rfl⟩ := h
    refine everywhere_list.mpr ⟨⟨nofun, hne⟩, fun x hx => ?_⟩
    obtain ⟨old, hold, hkept⟩ := List.mem_filterMap.mp hx
    exact ih old hold hkept
  | _ =>
    rw [skeleton_leaf rfl] at h
    obtain ⟨hmark, hs⟩ := Option.ite_none_right_eq_some.mp h
    obtain rfl := Option.some.inj hs
    exact (everywhere_leaf rfl).mpr ⟨fun _ => isRequired_iff.mp hmark, rfl⟩

theorem skeleton_eq_self {v : Value} (h : Everywhere IsSkeletal v) : v.skeleton = some v := by
  induction v using induction with
  | map entries ih =>
    obtain ⟨hne, hentries⟩ := everywhere_map.mp h
    have hself : (entries.filterMap fun e => e.2.skeleton.map fun kept => (e.1, kept)) = entries := by
      refine (List.filterMap_congr fun e he => ?_).trans List.filterMap_some
      rw [ih e he (hentries e he)]
      rfl
    rw [skeleton_map, hself]
    exact unlessEmpty_eq_some.mpr ⟨hne.container, rfl⟩
  | list items ih =>
    obtain ⟨hne, hitems⟩ := everywhere_list.mp h
    have hself : items.filterMap skeleton = items :=
      (List.filterMap_congr fun x hx => ih x hx (hitems x hx)).trans List.filterMap_some
    rw [skeleton_list, hself]
    exact unlessEmpty_eq_some.mpr ⟨hne.container, rfl⟩
  | _ =>
    have hmark := (h _ .refl).leaf rfl
    rw [skeleton_leaf rfl, if_pos (isRequired_iff.mpr hmark)]

/-! ## The marks of a skeleton -/

/-- The keys above each required mark inside a value, in the order in which the marks are met. -/
def requiredKeys (v : Value) : List (List String) :=
  v.requiredPlaces.map Place.keys

theorem requiredKeys_map (entries : Entries Value) : (Value.map entries).requiredKeys =
    entries.flatMap fun e => e.2.requiredKeys.map fun keys => e.1 :: keys := by
  rw [requiredKeys, requiredPlaces, requiredPlacesEntries_eq, List.map_flatMap]
  refine List.flatMap_congr fun e _ => ?_
  rw [requiredKeys, List.map_map, List.map_map]
  rfl

theorem requiredKeys_list (items : List Value) :
    (Value.list items).requiredKeys = items.flatMap requiredKeys := by
  rw [requiredKeys, requiredPlaces, requiredPlacesItems_eq, List.map_flatMap]
  -- A position adds no key, so it does not matter where an element stands.
  have hkeys : ∀ e : Value × Nat, (e.1.requiredPlaces.map (.item e.2 :: ·)).map Place.keys =
      e.1.requiredKeys := fun e => by
    rw [List.map_map]
    rfl
  simp only [hkeys]
  rw [← List.flatMap_map Prod.fst requiredKeys, List.zipIdx_map_fst]

theorem requiredKeys_unlessEmpty (v : Value) :
    v.unlessEmpty.toList.flatMap requiredKeys = v.requiredKeys := by
  unfold unlessEmpty
  split
  · rename_i hempty
    cases v with
    | map entries => rw [List.isEmpty_iff.mp hempty]; rfl
    | list items => rw [List.isEmpty_iff.mp hempty]; rfl
    | _ => cases hempty
  · simp

/-- A skeleton has as many marks as its value, in the same order and below the same keys. -/
theorem requiredKeys_skeleton (v : Value) :
    v.skeleton.toList.flatMap requiredKeys = v.requiredKeys := by
  induction v using induction with
  | map entries ih =>
    rw [skeleton_map, requiredKeys_unlessEmpty, requiredKeys_map, requiredKeys_map,
      List.filterMap_eq_flatMap_toList, List.flatMap_assoc]
    refine List.flatMap_congr fun e he => ?_
    rw [← ih e he]
    cases e.2.skeleton <;> simp
  | list items ih =>
    rw [skeleton_list, requiredKeys_unlessEmpty, requiredKeys_list, requiredKeys_list,
      List.filterMap_eq_flatMap_toList, List.flatMap_assoc]
    exact List.flatMap_congr ih
  | _ =>
    rw [skeleton_leaf rfl]
    split
    · simp
    · rename_i hmark
      simp [requiredKeys, requiredPlaces, hmark]

theorem requiredPlaces_ne_nil {v : Value} (h : Everywhere IsSkeletal v) : v.requiredPlaces ≠ [] := by
  suffices hkeys : v.requiredKeys ≠ [] from fun hnil => hkeys (List.map_eq_nil_iff.mpr hnil)
  induction v using induction with
  | map entries ih =>
    obtain ⟨hne, hentries⟩ := everywhere_map.mp h
    obtain ⟨e, he⟩ := List.exists_mem_of_ne_nil entries (List.isEmpty_eq_false_iff.mp hne.container)
    rw [requiredKeys_map]
    intro hnil
    exact ih e he (hentries e he) (List.map_eq_nil_iff.mp (List.flatMap_eq_nil_iff.mp hnil e he))
  | list items ih =>
    obtain ⟨hne, hitems⟩ := everywhere_list.mp h
    obtain ⟨x, hx⟩ := List.exists_mem_of_ne_nil items (List.isEmpty_eq_false_iff.mp hne.container)
    rw [requiredKeys_list]
    intro hnil
    exact ih x hx (hitems x hx) (List.flatMap_eq_nil_iff.mp hnil x hx)
  | _ =>
    rw [(h _ .refl).leaf rfl]
    exact List.cons_ne_nil _ _

theorem skeleton_eq_none_iff {v : Value} : v.skeleton = none ↔ v.requiredPlaces = [] := by
  have hkeys := requiredKeys_skeleton v
  constructor
  · intro hnone
    rw [hnone] at hkeys
    exact List.map_eq_nil_iff.mp hkeys.symm
  · intro hnil
    cases hs : v.skeleton with
    | none => rfl
    | some s =>
      rw [hs, requiredKeys, hnil, Option.toList_some, List.flatMap_singleton] at hkeys
      exact absurd (List.map_eq_nil_iff.mp hkeys) (requiredPlaces_ne_nil (skeletal_of_skeleton hs))

/-- The skeleton, the check and the search agree on what is required. -/
theorem skeleton_agrees (v : Value) (path : String) :
    (v.skeleton = none ↔ v.validate = .ok ()) ∧ (v.skeleton = none ↔ v.firstRequired path = none) ∧
    ∀ s, v.skeleton = some s →
      (∀ u, Inside u s → u.isLeaf → u = requiredMark) ∧
      (∀ u, Inside u s → u.isEmptyContainer = false) ∧
      s.requiredPlaces.length = v.requiredPlaces.length ∧
      s.skeleton = some s ∧
      ∃ p q, s.requiredPlaces.head? = some p ∧ v.requiredPlaces.head? = some q ∧
        p.keys = q.keys := by
  refine ⟨?_, ?_, fun s hs => ?_⟩
  · rw [skeleton_eq_none_iff, validate_eq_ok_iff]
  · rw [skeleton_eq_none_iff, requiredPlaces_eq_nil_iff]
  · have hskeletal := skeletal_of_skeleton hs
    have hkeys : s.requiredPlaces.map Place.keys = v.requiredPlaces.map Place.keys := by
      have hkeys := requiredKeys_skeleton v
      rwa [hs, Option.toList_some, List.flatMap_singleton] at hkeys
    refine ⟨fun u hu => (hskeletal u hu).leaf, fun u hu => (hskeletal u hu).container, ?_,
      skeleton_eq_self hskeletal, ?_⟩
    · simpa using congrArg List.length hkeys
    · obtain ⟨p, ps, hp⟩ := List.exists_cons_of_ne_nil (requiredPlaces_ne_nil hskeletal)
      rw [hp, List.map_cons] at hkeys
      obtain ⟨q, qs, hq, hkey, -⟩ := List.map_eq_cons_iff.mp hkeys.symm
      exact ⟨p, q, by rw [hp]; rfl, by rw [hq]; rfl, hkey.symm⟩

/-- The first mark moves to another position of its list, but stays below the same keys. -/
theorem skeleton_agrees_of_services :
    let v : Value := .map [("db", .map [("hosts", .list [.string "x", requiredMark]),
      ("options", .map [])]), ("name", .string "web"), ("port", requiredMark)]
    let s : Value := .map [("db", .map [("hosts", .list [requiredMark])]), ("port", requiredMark)]
    v.skeleton = some s ∧ (¬ v.validate = .ok ()) ∧ v.firstRequired "" = some "db.hosts.1" ∧
      (∀ u, Inside u s → u.isLeaf → u = requiredMark) ∧
      s.requiredPlaces.length = v.requiredPlaces.length ∧ s.skeleton = some s ∧
      ∃ p q, s.requiredPlaces.head? = some p ∧ v.requiredPlaces.head? = some q ∧ p ≠ q ∧
        p.keys = q.keys := by
  intro v s
  have hs : v.skeleton = some s := by decide
  obtain ⟨hvalid, -, hskeleton⟩ := skeleton_agrees v ""
  obtain ⟨hleaves, -, hcount, hself, p, q, hp, hq, hkeys⟩ := hskeleton s hs
  have hinvalid : ¬ v.validate = .ok () := fun hok => by
    cases hs.symm.trans (hvalid.mpr hok)
  refine ⟨hs, hinvalid, by decide, hleaves, hcount, hself, p, q, hp, hq, ?_, hkeys⟩
  rintro rfl
  cases hp.trans hq.symm

end Value

end Overlay
