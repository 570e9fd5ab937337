import Overlay.Proofs.Diff.Patch
import Overlay.Proofs.Merge.Entries
import Overlay.Proofs.Merge.Items
import Overlay.Proofs.Merge.Settled
import Overlay.Proofs.Value.Equality
import Overlay.Proofs.Value.WellFormed

/-!
# Differences merge back

Merging the difference of two values into the first gives the second. The second is settled, as a
value is that no later layer is to read directives from, and free of NaN, which equals nothing. Of
scalars the difference cannot say that they are equal: merging an equal one is an error.
-/

namespace Overlay.Value

def Reached (b : Value) : Prop :=
  ∀ (a : Value) (path : String), a.WellFormed → ¬(a.isScalar ∧ a == b) →
    ∃ v, a.merge (a.diff b) path = .ok v ∧ v == b

theorem merge_of_not_map {a : Value} (ha : ∀ entries, a ≠ .map entries) (b : Entries Value)
    (path : String) : a.merge (.map b) path = (Value.map b).normalize path := by
  cases a with
  | map entries => exact absurd rfl (ha entries)
  | _ => simp only [merge, normalize]

theorem merge_of_not_list {a : Value} (ha : ∀ items, a ≠ .list items) (b : List Value)
    (path : String) : a.merge (.list b) path = (Value.list b).normalize path := by
  cases a with
  | list items => exact absurd rfl (ha items)
  | _ => simp only [merge, normalize]

/-! ## Lists -/

theorem merge_replacement (a b : List Value) (hb : (Value.list b).Settled) (path : String) :
    (Value.list a).merge (.list (b ++ [replaceMarker])) path = .ok (.list b) := by
  have hmarked : (b ++ [replaceMarker]).any isReplaceMarker = true := by
    rw [List.any_append]
    simp [replaceMarker, isReplaceMarker]
  simp only [merge, hmarked, if_true]
  rw [mergeItems_append, hb.items path]
  simp [replaceMarker, isReplaceMarker, mergeItems, bind, Except.bind, Functor.map, Except.map]

theorem merge_diffLists {a b : List Value} (hb : (Value.list b).Settled)
    (hn : (Value.list b).NaNFree) (path : String) :
    ∃ v, (Value.list a).merge (.list (diffLists a b)) path = .ok v ∧ v == .list b := by
  have replaced := merge_replacement a b hb path
  unfold diffLists
  dsimp only
  split
  · rename_i items hm
    split
    · rename_i h
      -- The steps are tried out before they are taken for the patch.
      obtain ⟨-, hitems⟩ := Bool.and_eq_true_iff.mp h
      rw [beq_items] at hitems
      exact ⟨.list items, merge_ok_anywhere hm path, hitems⟩
    · exact ⟨.list b, replaced, equal_self _ hn⟩
  · rw [Bool.and_false, if_neg Bool.false_ne_true]
    exact ⟨.list b, replaced, equal_self _ hn⟩

/-! ## Maps -/

section
variable {a b : Entries Value} (hb : Entries.Sorted b) (hs : (Value.map b).Settled)
include hb hs

theorem mapPatch_not_skipped : ∀ e ∈ mapPatch a b, isSkipped [] e = false := by
  rintro ⟨k, p⟩ he
  have hp := Entries.lookup_of_mem (sorted_mapPatch hb) he
  simp only [isSkipped, List.contains_nil, Bool.false_or]
  rcases mapPatch_cases hb hp with ⟨_, _, _, rfl⟩ | ⟨_, hnew⟩ | ⟨old, new, _, hnew, _, rfl⟩
  · rfl
  · exact (hs.entries _ (Entries.mem_of_lookup hnew)).1
  · rw [isReplaceFlag_diff]
    exact (hs.entries _ (Entries.mem_of_lookup hnew)).1

theorem mergeEntry_mapPatch (ha : ∀ e ∈ a, e.2.WellFormed) (hn : (Value.map b).NaNFree)
    (ih : ∀ e ∈ b, e.2.Reached) {key : String} {p : Value}
    (hp : Entries.lookup key (mapPatch a b) = some p) (path : String) :
    ∃ o, mergeEntry (Entries.lookup key a) p path = .ok o ∧
      Option.Rel (fun x y => equal x y = true) o (Entries.lookup key b) := by
  rcases mapPatch_cases hb hp with ⟨old, hold, hnew, rfl⟩ | ⟨hold, hnew⟩ |
    ⟨old, new, hold, hnew, hne, rfl⟩
  · rw [hold, hnew]
    exact ⟨none, by simp [mergeEntry, isString], .none⟩
  · have hmem := Entries.mem_of_lookup hnew
    obtain ⟨-, hdelete, hsettled⟩ := hs.entries _ hmem
    rw [hold, hnew]
    refine ⟨some p, ?_, .some (equal_self p (hn.entry hmem))⟩
    simp [mergeEntry, hdelete, normalize_ok_anywhere hsettled path, Functor.map, Except.map]
  · have hmem := Entries.mem_of_lookup hnew
    obtain ⟨-, hdelete, -⟩ := hs.entries _ hmem
    obtain ⟨v, hv, hvn⟩ := ih _ hmem old path (ha _ (Entries.mem_of_lookup hold))
      (by simp [hne])
    rw [hold, hnew]
    refine ⟨some v, ?_, .some hvn⟩
    simp [mergeEntry, isString_diff, hdelete, hv, Functor.map, Except.map]

theorem merge_mapPatch (ha : (Value.map a).WellFormed) (hn : (Value.map b).NaNFree)
    (ih : ∀ e ∈ b, e.2.Reached) (path : String) :
    ∃ v, (Value.map a).merge (.map (mapPatch a b)) path = .ok v ∧ v == .map b := by
  obtain ⟨hsorted, ha⟩ := wellFormed_map.mp ha
  have hpatch := sorted_mapPatch (a := a) hb
  have hstep {key : String} {p : Value} (hp : Entries.lookup key (mapPatch a b) = some p) :=
    mergeEntry_mapPatch hb hs ha hn ih hp (KeyPath.child path key)
  have hmerges : ∀ e ∈ mapPatch a b,
      ∃ o, mergeEntry (Entries.lookup e.1 a) e.2 (KeyPath.child path e.1) = .ok o := by
    intro e he
    obtain ⟨o, ho, -⟩ := hstep (Entries.lookup_of_mem hpatch he)
    exact ⟨o, ho⟩
  obtain ⟨r, hr, hrs, hlookup⟩ :=
    exists_merge_map hpatch hsorted (mapPatch_not_skipped hb hs) hmerges
  refine ⟨.map r, hr, equal_map_of_lookup hrs hb fun key => ?_⟩
  have hkey := hlookup key
  cases hp : Entries.lookup key (mapPatch a b) with
  | none =>
    rw [hp] at hkey
    rw [hkey]
    exact rel_of_mapPatch_eq_none hb hp
  | some p =>
    rw [hp] at hkey
    obtain ⟨o, ho, hrel⟩ := hstep hp
    cases ho.symm.trans hkey
    exact hrel

end

/-! ## All values -/

theorem reached (b : Value) (hb : b.WellFormed) (hn : b.NaNFree) (hs : b.Settled) : b.Reached := by
  induction b using induction with
  | map entries ih =>
    obtain ⟨hsorted, hwf⟩ := wellFormed_map.mp hb
    intro a path ha _
    cases a with
    | map olds =>
      rw [diff_map]
      exact merge_mapPatch hsorted hs ha hn (fun e he =>
        ih e he (hwf e he) (hn.entry he) (hs.entries e he).2.2) path
    | _ =>
      refine ⟨.map entries, ?_, equal_self _ hn⟩
      -- Onto what is no map the patch is merged as new content.
      simp only [diff]
      rw [merge_of_not_map (by simp)]
      exact normalize_ok_anywhere hs path
  | list items ih =>
    intro a path ha _
    cases a with
    | list olds => exact merge_diffLists hs hn path
    | _ =>
      refine ⟨.list items, ?_, equal_self _ hn⟩
      simp only [diff]
      rw [merge_of_not_list (by simp)]
      exact normalize_ok_anywhere hs path
  | _ =>
    -- A scalar is its own patch, which is refused only by an equal one.
    intro a path ha hne
    refine ⟨_, ?_, equal_self _ hn⟩
    simp only [diff, merge]
    rw [if_neg (by simpa using hne)]

/-- Merging the difference of two values into the first gives the second. -/
theorem merge_diff (src dst : Value) (path : String) (hsrc : src.WellFormed)
    (hdst : dst.WellFormed) (hnan : dst.NaNFree) (hsettled : dst.normalize "" = .ok dst)
    (hne : ¬(src.isScalar ∧ src == dst)) :
    ∃ v, src.merge (src.diff dst) path = .ok v ∧ v == dst :=
  reached dst hdst hnan hsettled src path hsrc hne

theorem merge_diff_of_directives :
    let src : Value := .map [("$replace", .bool true), ("list", .list [.string "$required", .int 1]),
      ("old", .null)]
    let dst : Value := .map [("list", .list [.int 1, .int 1]), ("new", .map [("x", .float 1.5)])]
    (src.WellFormed ∧ dst.WellFormed ∧ dst.NaNFree ∧ dst.normalize "" = .ok dst ∧
      ¬(src.isScalar ∧ src == dst)) ∧
    ∃ v, src.merge (src.diff dst) "key" = .ok v ∧ v == dst := by
  intro src dst
  have hsrc : src.WellFormed := by decide
  have hdst : dst.WellFormed := by decide
  have hnan : dst.NaNFree := by
    intro x hx
    simp only [dst, inside_map, inside_list, List.mem_cons, List.not_mem_nil, or_false,
      exists_eq_or_imp, exists_eq_left] at hx
    simp [inside_scalar] at hx
    subst hx
    decide
  have hsettled : dst.normalize "" = .ok dst := by rfl
  have hne : ¬(src.isScalar ∧ src == dst) := by decide
  exact ⟨⟨hsrc, hdst, hnan, hsettled, hne⟩, merge_diff src dst "key" hsrc hdst hnan hsettled hne⟩

end Overlay.Value
