import Overlay.Diff
import Overlay.Proofs.Entries

/-!
# What a patch between two maps holds

`lookup_mapPatch` gives the entry of the patch under each key from what the two maps hold there.
-/

namespace Overlay.Value

def mapPatch (a b : Entries Value) : Entries Value :=
  (a.filter fun (k, _) => !Entries.has k b).foldl
    (fun patch (k, _) => Entries.insert k (.string Directive.delete) patch) (diffEntries a b)

theorem diff_map (a b : Entries Value) : diff (.map a) (.map b) = .map (mapPatch a b) := rfl

/-- The entry of a patch under a key, from what the two maps hold under it. -/
def patchEntry : Option Value → Option Value → Option Value
  | _, none => none
  | none, some new => some new
  | some old, some new => if old == new then none else some (diff old new)

theorem diffEntries_cons (a : Entries Value) (k : String) (v : Value)
    (rest : List (String × Value)) :
    diffEntries a ((k, v) :: rest) =
      ((patchEntry (Entries.lookup k a) (some v)).map fun p => (k, p)).toList
        ++ diffEntries a rest := by
  rw [diffEntries]
  cases Entries.lookup k a with
  | none => rfl
  | some old =>
    simp only [patchEntry]
    split <;> rfl

theorem key_of_mem_diffEntries {a : Entries Value} {e : String × Value} :
    ∀ {b : List (String × Value)}, e ∈ diffEntries a b → ∃ e' ∈ b, e'.1 = e.1
  | [], h => by cases h
  | (k, v) :: rest, h => by
    rw [diffEntries_cons, List.mem_append] at h
    rcases h with h | h
    · cases hp : patchEntry (Entries.lookup k a) (some v) with
      | none => simp [hp] at h
      | some p =>
        simp only [hp, Option.map_some, Option.toList_some, List.mem_singleton] at h
        exact ⟨(k, v), List.mem_cons_self, by rw [h]⟩
    · obtain ⟨e', he', hk⟩ := key_of_mem_diffEntries h
      exact ⟨e', List.mem_cons_of_mem _ he', hk⟩

theorem sorted_diffEntries {a : Entries Value} :
    ∀ {b : Entries Value}, Entries.Sorted b → Entries.Sorted (diffEntries a b)
  | [], _ => Entries.sorted_nil
  | (k, v) :: rest, hb => by
    obtain ⟨hlt, hrest⟩ := Entries.sorted_cons.mp hb
    rw [diffEntries_cons]
    cases patchEntry (Entries.lookup k a) (some v) with
    | none => exact sorted_diffEntries hrest
    | some p =>
      refine Entries.sorted_cons.mpr ⟨fun e he => ?_, sorted_diffEntries hrest⟩
      obtain ⟨e', he', hk⟩ := key_of_mem_diffEntries he
      exact hk ▸ hlt e' he'

theorem lookup_diffEntries {a : Entries Value} (key : String) :
    ∀ {b : Entries Value}, Entries.Sorted b →
      Entries.lookup key (diffEntries a b) =
        patchEntry (Entries.lookup key a) (Entries.lookup key b)
  | [], _ => by cases Entries.lookup key a <;> rfl
  | (k, v) :: rest, hb => by
    obtain ⟨hlt, hrest⟩ := Entries.sorted_cons.mp hb
    have ih := lookup_diffEntries (a := a) key hrest
    rw [diffEntries_cons, Entries.lookup]
    by_cases hk : k = key
    · subst hk
      -- Keys increase, so this one does not come again in the rest.
      have habsent : Entries.lookup k (diffEntries a rest) = none :=
        Entries.lookup_eq_none_iff.mpr fun e he => by
          obtain ⟨e', he', hk'⟩ := key_of_mem_diffEntries he
          exact hk' ▸ (hlt e' he').ne'
      rw [if_pos rfl]
      cases patchEntry (Entries.lookup k a) (some v) with
      | none => exact habsent
      | some p => simp [Entries.lookup]
    · rw [if_neg hk, ← ih]
      cases patchEntry (Entries.lookup k a) (some v) with
      | none => rfl
      | some p => simp [Entries.lookup, hk]

theorem sorted_foldl_insert (x : Value) :
    ∀ (keys : Entries Value) {patch : Entries Value}, Entries.Sorted patch →
      Entries.Sorted (keys.foldl (fun patch (k, _) => Entries.insert k x patch) patch)
  | [], _, h => h
  | (k, _) :: keys, _, h => sorted_foldl_insert x keys (h.insert k x)

theorem lookup_foldl_insert (x : Value) (key : String) :
    ∀ (keys patch : Entries Value),
      Entries.lookup key (keys.foldl (fun patch (k, _) => Entries.insert k x patch) patch) =
        if Entries.has key keys then some x else Entries.lookup key patch
  | [], _ => rfl
  | (k, v) :: keys, patch => by
    rw [List.foldl_cons, lookup_foldl_insert x key keys, Entries.lookup_insert]
    unfold Entries.has
    rw [Entries.lookup]
    by_cases hk : k = key
    · simp [hk]
    · simp [hk, Ne.symm hk]

theorem sorted_mapPatch {a b : Entries Value} (hb : Entries.Sorted b) :
    Entries.Sorted (mapPatch a b) :=
  sorted_foldl_insert _ _ (sorted_diffEntries hb)

theorem lookup_mapPatch {a b : Entries Value} (hb : Entries.Sorted b) (key : String) :
    Entries.lookup key (mapPatch a b) =
      match Entries.lookup key a, Entries.lookup key b with
      | some _, none => some (.string Directive.delete)
      | old, new => patchEntry old new := by
  rw [mapPatch, lookup_foldl_insert, lookup_diffEntries key hb]
  have removed : Entries.has key (a.filter fun (k, _) => !Entries.has k b) =
      (!Entries.has key b && Entries.has key a) := by
    rw [Entries.has, Entries.lookup_filter_keys fun k => !Entries.has k b]
    cases Entries.has key b <;> rfl
  rw [removed]
  unfold Entries.has
  cases Entries.lookup key a <;> cases Entries.lookup key b <;> rfl

/-- An entry of a patch deletes a key that only the first map has, is a new entry of the second, or
turns what the first holds under a key into what the second does. -/
theorem mapPatch_cases {a b : Entries Value} (hb : Entries.Sorted b) {key : String} {p : Value}
    (h : Entries.lookup key (mapPatch a b) = some p) :
    (∃ old, Entries.lookup key a = some old ∧ Entries.lookup key b = none ∧
      p = .string Directive.delete) ∨
    (Entries.lookup key a = none ∧ Entries.lookup key b = some p) ∨
    (∃ old new, Entries.lookup key a = some old ∧ Entries.lookup key b = some new ∧
      (old == new) = false ∧ p = diff old new) := by
  rw [lookup_mapPatch hb] at h
  cases ha : Entries.lookup key a with
  | none =>
    cases hb : Entries.lookup key b with
    | none => rw [ha, hb] at h; cases h
    | some new =>
      rw [ha, hb] at h
      exact .inr (.inl ⟨rfl, h⟩)
  | some old =>
    cases hb : Entries.lookup key b with
    | none =>
      rw [ha, hb] at h
      cases h
      exact .inl ⟨old, rfl, rfl, rfl⟩
    | some new =>
      rw [ha, hb] at h
      simp only [patchEntry] at h
      split at h
      · cases h
      · rename_i hne
        cases h
        exact .inr (.inr ⟨old, new, rfl, rfl, by simpa using hne, rfl⟩)

theorem rel_of_mapPatch_eq_none {a b : Entries Value} (hb : Entries.Sorted b) {key : String}
    (h : Entries.lookup key (mapPatch a b) = none) :
    Option.Rel (fun x y => equal x y = true) (Entries.lookup key a) (Entries.lookup key b) := by
  rw [lookup_mapPatch hb] at h
  cases ha : Entries.lookup key a with
  | none =>
    cases hb : Entries.lookup key b with
    | none => exact .none
    | some new => rw [ha, hb] at h; cases h
  | some old =>
    cases hb : Entries.lookup key b with
    | none => rw [ha, hb] at h; cases h
    | some new =>
      rw [ha, hb] at h
      simp only [patchEntry] at h
      split at h
      · rename_i he
        exact .some he
      · cases h

theorem isString_diff (text : String) (a b : Value) : (diff a b).isString text = b.isString text := by
  cases b with
  | map _ => cases a <;> rfl
  | list _ => cases a <;> rfl
  | _ => rfl

theorem isReplaceFlag_diff (key : String) (a b : Value) :
    isReplaceFlag key (diff a b) = isReplaceFlag key b := by
  cases b with
  | map _ => cases a <;> rfl
  | list _ => cases a <;> rfl
  | _ => rfl

end Overlay.Value
