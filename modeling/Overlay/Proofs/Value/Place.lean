import Overlay.KeyPath
import Overlay.Proofs.Value.Inside
import Overlay.Proofs.Value.Substitution
import Overlay.Proofs.Value.WellFormed
import Overlay.Required

/-!
# Places of texts

A place is the way from a value to something inside it: the keys and positions that lead there.
`mapTexts` rewrites all strings inside a value, each according to its place, and all keys.
-/

namespace Overlay

inductive Step where
  | key (k : String)
  | item (position : Nat)
deriving DecidableEq

abbrev Place := List Step

def Step.child? : Step → Value → Option Value
  | .key k, .map entries => Entries.lookup k entries
  | .item i, .list items => items[i]?
  | _, _ => none

/-- The key path of a place below another, of keys that are rewritten. -/
def Place.keyPath (key : String → String) (path : String) : Place → String
  | [] => path
  | .key k :: rest => keyPath key (KeyPath.child path (key k)) rest
  | .item i :: rest => keyPath key (KeyPath.item path i) rest

namespace Value

/-- The string at a place, if one stands there. -/
def textAt? (v : Value) : Place → Option String
  | [] =>
    match v with
    | .string s => some s
    | _ => none
  | step :: rest => (step.child? v).bind fun x => x.textAt? rest

mutual
def mapTexts (key : String → String) (text : Place → String → String) : Value → Value
  | .string s => .string (text [] s)
  | .map entries => .map (mapTextsEntries key text entries)
  | .list items => .list (mapTextsItems key text 0 items)
  | v => v

def mapTextsItems (key : String → String) (text : Place → String → String) (position : Nat) :
    List Value → List Value
  | [] => []
  | v :: rest =>
    mapTexts key (fun p => text (.item position :: p)) v :: mapTextsItems key text (position + 1) rest

def mapTextsEntries (key : String → String) (text : Place → String → String) :
    List (String × Value) → List (String × Value)
  | [] => []
  | (k, v) :: rest => (key k, mapTexts key (fun p => text (.key k :: p)) v) ::
    mapTextsEntries key text rest
end

variable {key : String → String} {text other : Place → String → String}

theorem mapTextsItems_eq : ∀ (position : Nat) (items : List Value),
    mapTextsItems key text position items =
      items.mapIdx fun i x => mapTexts key (fun p => text (.item (position + i) :: p)) x
  | _, [] => rfl
  | position, v :: rest => by
    rw [mapTextsItems, mapTextsItems_eq (position + 1) rest, List.mapIdx_cons]
    simp only [Nat.add_right_comm position 1, Nat.add_assoc, Nat.add_zero]

theorem mapTextsEntries_eq (entries : List (String × Value)) : mapTextsEntries key text entries =
    entries.map fun e => (key e.1, mapTexts key (fun p => text (.key e.1 :: p)) e.2) := by
  induction entries with
  | nil => rfl
  | cons e rest ih => rw [mapTextsEntries, ih, List.map_cons]

theorem mapTexts_map (entries : Entries Value) : mapTexts key text (.map entries) =
    .map (entries.map fun e => (key e.1, mapTexts key (fun p => text (.key e.1 :: p)) e.2)) := by
  rw [mapTexts, mapTextsEntries_eq]

theorem mapTexts_list (items : List Value) : mapTexts key text (.list items) =
    .list (items.mapIdx fun i x => mapTexts key (fun p => text (.item i :: p)) x) := by
  rw [mapTexts, mapTextsItems_eq]
  simp only [Nat.zero_add]

/-! ## Texts below an entry or an element -/

theorem textAt?_key {entries : Entries Value} (hs : Entries.Sorted entries) {e : String × Value}
    (he : e ∈ entries) (p : Place) : (Value.map entries).textAt? (.key e.1 :: p) = e.2.textAt? p := by
  rw [textAt?, Step.child?, Entries.lookup_of_mem hs he]
  rfl

theorem textAt?_item {items : List Value} {i : Nat} (h : i < items.length) (p : Place) :
    (Value.list items).textAt? (.item i :: p) = items[i].textAt? p := by
  rw [textAt?, Step.child?, List.getElem?_eq_getElem h]
  rfl

theorem mapTexts_congr {v : Value} (hv : v.WellFormed)
    (h : ∀ p s, v.textAt? p = some s → text p s = other p s) :
    v.mapTexts key text = v.mapTexts key other := by
  induction v using induction generalizing text other with
  | string s => rw [mapTexts, mapTexts, h [] s rfl]
  | map entries ih =>
    obtain ⟨hs, hv⟩ := wellFormed_map.mp hv
    rw [mapTexts_map, mapTexts_map]
    refine congrArg Value.map (List.map_congr_left fun e he => ?_)
    rw [ih e he (hv e he) fun p s hp => h (.key e.1 :: p) s (by rwa [textAt?_key hs he])]
  | list items ih =>
    have hv := wellFormed_list.mp hv
    rw [mapTexts_list, mapTexts_list]
    refine congrArg Value.list (List.ext_getElem (by simp) fun i hi _ => ?_)
    rw [List.length_mapIdx] at hi
    rw [List.getElem_mapIdx, List.getElem_mapIdx]
    have hmem := List.getElem_mem hi
    exact ih _ hmem (hv _ hmem) fun p s hp => h (.item i :: p) s (by rwa [textAt?_item hi])
  | _ => rfl

/-- A substitution that does to the strings what a rewriting does takes their place in it. -/
theorem substitute_mapTexts {σ : String → Value} {v : Value} (hv : v.WellFormed)
    (h : ∀ p s, v.textAt? p = some s → σ (text p s) = .string (other p s)) :
    (v.mapTexts key text).substitute σ = v.mapTexts key other := by
  induction v using induction generalizing text other with
  | string s => rw [mapTexts, substitute, mapTexts, h [] s rfl]
  | map entries ih =>
    obtain ⟨hs, hv⟩ := wellFormed_map.mp hv
    rw [mapTexts_map, mapTexts_map, substitute, substituteEntries_eq, List.map_map]
    refine congrArg Value.map (List.map_congr_left fun e he => ?_)
    rw [Function.comp_apply,
      ih e he (hv e he) fun p s hp => h (.key e.1 :: p) s (by rwa [textAt?_key hs he])]
  | list items ih =>
    have hv := wellFormed_list.mp hv
    rw [mapTexts_list, mapTexts_list, substitute, substituteItems_eq]
    refine congrArg Value.list (List.ext_getElem (by simp) fun i hi _ => ?_)
    rw [List.length_map, List.length_mapIdx] at hi
    rw [List.getElem_map, List.getElem_mapIdx, List.getElem_mapIdx]
    have hmem := List.getElem_mem hi
    exact ih _ hmem (hv _ hmem) fun p s hp => h (.item i :: p) s (by rwa [textAt?_item hi])
  | _ => rfl

/-! ## Strings inside -/

theorem exists_textAt? {v : Value} (hv : v.WellFormed) {r : String}
    (h : Inside (.string r) (v.mapTexts key text)) : ∃ p s, v.textAt? p = some s ∧ text p s = r := by
  induction v using induction generalizing text with
  | string s =>
    cases h
    exact ⟨[], s, rfl, rfl⟩
  | map entries ih =>
    obtain ⟨hs, hv⟩ := wellFormed_map.mp hv
    rw [mapTexts_map] at h
    rcases inside_map.mp h with h | ⟨_, hmem, h⟩
    · cases h
    · obtain ⟨e, he, rfl⟩ := List.mem_map.mp hmem
      obtain ⟨p, s, hp, htext⟩ := ih e he (hv e he) h
      exact ⟨.key e.1 :: p, s, (textAt?_key hs he p).trans hp, htext⟩
  | list items ih =>
    have hv := wellFormed_list.mp hv
    rw [mapTexts_list] at h
    rcases inside_list.mp h with h | ⟨_, hmem, h⟩
    · cases h
    · obtain ⟨i, hi, rfl⟩ := List.mem_mapIdx.mp hmem
      have hx := List.getElem_mem hi
      obtain ⟨p, s, hp, htext⟩ := ih _ hx (hv _ hx) h
      exact ⟨.item i :: p, s, (textAt?_item hi p).trans hp, htext⟩
  | _ =>
    simp only [mapTexts] at h
    cases h

theorem inside_of_textAt? {p : Place} {v : Value} {s : String} (h : v.textAt? p = some s) :
    Inside (.string (text p s)) (v.mapTexts key text) := by
  induction p generalizing v text with
  | nil =>
    cases v with
    | string s' =>
      cases h
      exact .refl
    | _ => cases h
  | cons step p ih =>
    obtain ⟨x, hx, hp⟩ := Option.bind_eq_some_iff.mp h
    cases step with
    | key k =>
      cases v with
      | map entries =>
        rw [mapTexts_map]
        have hmem := List.mem_map_of_mem
          (f := fun e => (key e.1, mapTexts key (fun p => text (.key e.1 :: p)) e.2))
          (Entries.mem_of_lookup hx)
        exact .entry hmem (@ih (fun p => text (.key k :: p)) x hp)
      | _ => cases hx
    | item i =>
      cases v with
      | list items =>
        obtain ⟨hi, rfl⟩ := List.getElem?_eq_some_iff.mp hx
        rw [mapTexts_list]
        exact .item (List.mem_mapIdx.mpr ⟨i, hi, rfl⟩) (@ih (fun p => text (.item i :: p)) _ hp)
      | _ => cases hx

/-! ## Required values -/

theorem exists_of_firstRequiredEntry {found : String} : ∀ {entries : Entries Value} {path : String},
    firstRequiredEntry entries path = some found →
      ∃ e ∈ entries, e.2.firstRequired (KeyPath.child path e.1) = some found
  | [], _, h => by cases h
  | (k, v) :: rest, path, h => by
    rw [firstRequiredEntry] at h
    cases hv : v.firstRequired (KeyPath.child path k) with
    | some other =>
      rw [hv] at h
      exact ⟨(k, v), List.mem_cons_self, hv.trans h⟩
    | none =>
      rw [hv] at h
      obtain ⟨e, he, hfound⟩ := exists_of_firstRequiredEntry h
      exact ⟨e, List.mem_cons_of_mem _ he, hfound⟩

theorem exists_of_firstRequiredItem {found : String} :
    ∀ {items : List Value} {position : Nat} {path : String},
      firstRequiredItem position items path = some found → ∃ i, ∃ hi : i < items.length,
        items[i].firstRequired (KeyPath.item path (position + i)) = some found
  | [], _, _, h => by cases h
  | v :: rest, position, path, h => by
    rw [firstRequiredItem] at h
    cases hv : v.firstRequired (KeyPath.item path position) with
    | some other =>
      rw [hv] at h
      exact ⟨0, Nat.succ_pos _, hv.trans h⟩
    | none =>
      rw [hv] at h
      obtain ⟨i, hi, hfound⟩ := exists_of_firstRequiredItem h
      refine ⟨i + 1, Nat.succ_lt_succ hi, ?_⟩
      have hplace : position + (i + 1) = position + 1 + i := by omega
      rw [hplace]
      exact hfound

theorem exists_of_firstRequired {v : Value} (hv : v.WellFormed) {path found : String}
    (h : (v.mapTexts key text).firstRequired path = some found) :
    ∃ p s, v.textAt? p = some s ∧ text p s = Directive.required ∧
      Place.keyPath key path p = found := by
  induction v using induction generalizing text path with
  | string s =>
    simp only [mapTexts, firstRequired] at h
    obtain ⟨hrequired, hfound⟩ := Option.ite_none_right_eq_some.mp h
    exact ⟨[], s, rfl, eq_of_beq hrequired, Option.some.inj hfound⟩
  | map entries ih =>
    obtain ⟨hs, hv⟩ := wellFormed_map.mp hv
    rw [mapTexts_map, firstRequired] at h
    obtain ⟨_, hmem, h⟩ := exists_of_firstRequiredEntry h
    obtain ⟨e, he, rfl⟩ := List.mem_map.mp hmem
    obtain ⟨p, s, hp, htext, hpath⟩ := ih e he (hv e he) h
    exact ⟨.key e.1 :: p, s, (textAt?_key hs he p).trans hp, htext, hpath⟩
  | list items ih =>
    have hv := wellFormed_list.mp hv
    rw [mapTexts_list, firstRequired] at h
    obtain ⟨i, hi, h⟩ := exists_of_firstRequiredItem h
    rw [List.length_mapIdx] at hi
    rw [List.getElem_mapIdx, Nat.zero_add] at h
    have hx := List.getElem_mem hi
    obtain ⟨p, s, hp, htext, hpath⟩ := ih _ hx (hv _ hx) h
    exact ⟨.item i :: p, s, (textAt?_item hi p).trans hp, htext, hpath⟩
  | _ => simp [mapTexts, firstRequired, isRequired, isString] at h

end Value

end Overlay
