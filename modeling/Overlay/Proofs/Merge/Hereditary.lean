import Overlay.Proofs.Merge.Items
import Overlay.Proofs.Result
import Overlay.Proofs.Value.Hereditary

/-!
# Merging makes up nothing

All that stands inside a merged value stands inside the base or inside the patch, so what is hereditary
and holds of both holds of the outcome.
-/

namespace Overlay.Value

variable {K : String → Prop} {P : Value → Prop}

namespace Hereditary

mutual
theorem of_merge (hP : Hereditary K P) {base : Value} (hb : P base) :
    ∀ {patch v : Value} {path : String}, P patch → base.merge patch path = .ok v → P v
  | .map patch, v, path, hp, h => by
    simp only [merge] at h
    split at h
    · obtain ⟨r, hr, rfl⟩ := Result.map_eq_ok.mp h
      exact hP.map.mpr (hP.of_mergeEntries (hP.map.mp hb) (hP.map.mp hp) hr)
    · obtain ⟨r, hr, rfl⟩ := Result.map_eq_ok.mp h
      exact hP.map.mpr (hP.of_freshEntries (hP.map.mp hp) hr)
  | .list patch, v, path, hp, h => by
    simp only [merge] at h
    split at h
    · obtain ⟨r, hr, rfl⟩ := Result.map_eq_ok.mp h
      refine hP.list.mpr (hP.of_mergeItems ?_ (hP.list.mp hp) hr)
      split
      · exact List.forall_mem_nil _
      · exact fun x hx => hP.list.mp hb x ((dropRequired_sublist _).subset hx)
    · obtain ⟨r, hr, rfl⟩ := Result.map_eq_ok.mp h
      exact hP.list.mpr (hP.of_mergeItems (List.forall_mem_nil _) (hP.list.mp hp) hr)
  | .null, v, path, hp, h | .bool _, v, path, hp, h | .int _, v, path, hp, h
  | .float _, v, path, hp, h | .string _, v, path, hp, h => by
    simp only [merge] at h
    split at h
    · cases h
    · cases h
      exact hp
termination_by structural patch => patch

theorem of_normalize (hP : Hereditary K P) : ∀ {patch v : Value} {path : String},
    P patch → patch.normalize path = .ok v → P v
  | .map patch, v, path, hp, h => by
    rw [normalize] at h
    obtain ⟨r, hr, rfl⟩ := Result.map_eq_ok.mp h
    exact hP.map.mpr (hP.of_freshEntries (hP.map.mp hp) hr)
  | .list patch, v, path, hp, h => by
    rw [normalize] at h
    obtain ⟨r, hr, rfl⟩ := Result.map_eq_ok.mp h
    exact hP.list.mpr (hP.of_mergeItems (List.forall_mem_nil _) (hP.list.mp hp) hr)
  | .null, v, path, hp, h | .bool _, v, path, hp, h | .int _, v, path, hp, h
  | .float _, v, path, hp, h | .string _, v, path, hp, h => by
    simp only [normalize] at h
    cases h
    exact hp
termination_by structural patch => patch

theorem of_mergeEntries (hP : Hereditary K P) {dropped : List String} : ∀ {base : Entries Value}
    {patch : List (String × Value)} {path : String} {r : Entries Value},
    (∀ e ∈ base, K e.1 ∧ P e.2) → (∀ e ∈ patch, K e.1 ∧ P e.2) →
      mergeEntries dropped base patch path = .ok r → ∀ e ∈ r, K e.1 ∧ P e.2
  | base, [], path, r, hb, _, h => by
    rw [mergeEntries] at h
    cases h
    exact hb
  | base, (k, v) :: rest, path, r, hb, hp, h => by
    obtain ⟨hv, hrest⟩ := List.forall_mem_cons.mp hp
    simp only [mergeEntries] at h
    split at h
    · exact hP.of_mergeEntries hb hrest h
    · split at h
      · split at h
        · exact hP.of_mergeEntries
            (fun e he => hb e ((Entries.erase_sublist k base).subset he)) hrest h
        · cases h
      · split at h
        · rename_i existing hexisting
          obtain ⟨merged, hmerged, h⟩ := Result.bind_eq_ok.mp h
          have hx := hb _ (Entries.mem_of_lookup hexisting)
          exact hP.of_mergeEntries (Entries.forall_insert ⟨hv.1, hP.of_merge hx.2 hv.2 hmerged⟩ hb) hrest h
        · obtain ⟨fresh, hfresh, h⟩ := Result.bind_eq_ok.mp h
          exact hP.of_mergeEntries (Entries.forall_insert ⟨hv.1, hP.of_normalize hv.2 hfresh⟩ hb) hrest h
termination_by structural _ patch => patch

theorem of_freshEntries (hP : Hereditary K P) {dropped : List String} :
    ∀ {patch : List (String × Value)} {path : String} {r : Entries Value}, (∀ e ∈ patch, K e.1 ∧ P e.2) →
      freshEntries dropped patch path = .ok r → ∀ e ∈ r, K e.1 ∧ P e.2
  | [], path, r, _, h => by
    rw [freshEntries] at h
    cases h
    exact nofun
  | (k, v) :: rest, path, r, hp, h => by
    obtain ⟨hv, hrest⟩ := List.forall_mem_cons.mp hp
    simp only [freshEntries] at h
    split at h
    · exact hP.of_freshEntries hrest h
    · split at h
      · cases h
      · obtain ⟨fresh, hfresh, h⟩ := Result.bind_eq_ok.mp h
        obtain ⟨others, hothers, h⟩ := Result.bind_eq_ok.mp h
        cases h
        exact List.forall_mem_cons.mpr ⟨⟨hv.1, hP.of_normalize hv.2 hfresh⟩, hP.of_freshEntries hrest hothers⟩
termination_by structural patch => patch

theorem of_mergeItems (hP : Hereditary K P) :
    ∀ {items patch : List Value} {path : String} {r : List Value},
    (∀ x ∈ items, P x) → (∀ x ∈ patch, P x) →
      mergeItems items patch path = .ok r → ∀ x ∈ r, P x
  | items, [], path, r, hitems, _, h => by
    rw [mergeItems] at h
    cases h
    exact hitems
  | items, .map patch :: rest, path, r, hitems, hp, h => by
    obtain ⟨hv, hrest⟩ := List.forall_mem_cons.mp hp
    have hv := hP.map.mp hv
    obtain ⟨next, hacts, h⟩ := exists_acts h
    refine hP.of_mergeItems ?_ hrest h
    cases hacts with
    | marks _ => exact hitems
    | deletes _ _ hsublist => exact fun x hx => hitems x (hsublist.subset hx)
    | updates _ _ _ hupdated =>
      refine forall_updateAt hP.null (fun x p w hx hw => ?_) hupdated hitems
      rcases mergeSelected_cases hw with ⟨-, hw⟩ | ⟨-, r, rfl, hr | ⟨entries, rfl, hr⟩⟩
      · exact hP.of_mergeNamed hx hv hw
      · exact hP.map.mpr (hP.of_freshEntries hv hr)
      · exact hP.map.mpr (hP.of_mergeEntries (hP.map.mp hx) hv hr)
    | appends _ _ _ hfresh =>
      refine List.forall_mem_append.mpr ⟨hitems, ?_⟩
      exact List.forall_mem_singleton.mpr (hP.map.mpr (hP.of_freshEntries hv hfresh))
  | items, .null :: rest, path, r, hitems, hp, h | items, .bool _ :: rest, path, r, hitems, hp, h
  | items, .int _ :: rest, path, r, hitems, hp, h | items, .float _ :: rest, path, r, hitems, hp, h
  | items, .string _ :: rest, path, r, hitems, hp, h
  | items, .list _ :: rest, path, r, hitems, hp, h => by
    obtain ⟨hv, hrest⟩ := List.forall_mem_cons.mp hp
    rcases exists_normalize h fun _ => nofun with ⟨-, h⟩ | ⟨-, fresh, hfresh, h⟩
    · exact hP.of_mergeItems hitems hrest h
    · refine hP.of_mergeItems (List.forall_mem_append.mpr ⟨hitems, ?_⟩) hrest h
      exact List.forall_mem_singleton.mpr (hP.of_normalize hv hfresh)
termination_by structural _ patch => patch

theorem of_mergeNamed (hP : Hereditary K P) {base : Value} (hb : P base) :
    ∀ {directive : List (String × Value)} {path : String} {v : Value},
      (∀ e ∈ directive, K e.1 ∧ P e.2) → mergeNamed base directive path = .ok v → P v
  | [], path, v, _, h => by
    rw [mergeNamed] at h
    cases h
    exact hb
  | (k, x) :: rest, path, v, hd, h => by
    obtain ⟨hx, hrest⟩ := List.forall_mem_cons.mp hd
    simp only [mergeNamed] at h
    split at h
    · exact hP.of_merge hb hx.2 h
    · exact hP.of_mergeNamed hb hrest h
termination_by structural directive => directive
end

end Hereditary

end Overlay.Value
