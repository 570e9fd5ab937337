import Overlay.Proofs.Merge.Entries
import Overlay.Proofs.Merge.Markers

/-!
# Markers are consumed

No marker of a patch is left in what it is merged into: what is merged into a value without markers
gives another one. The exception is an element of a list that names its patch by a key, for what
stands under that key takes the place of a list element as it is.
-/

namespace Overlay.Value

/-- Whether an element of a list names by a key the patch for the elements that it selects. -/
def namesPatch : Value → Bool
  | .map entries =>
    (Entries.has Directive.matchOne entries || Entries.has Directive.matchAny entries) &&
      Entries.has Directive.value entries
  | _ => false

def HoldsNoNamed : Value → Prop
  | .list items => ∀ x ∈ items, namesPatch x = false
  | _ => True

instance : DecidablePred HoldsNoNamed
  | .list items => inferInstanceAs (Decidable (∀ x ∈ items, namesPatch x = false))
  | .null | .bool _ | .int _ | .float _ | .string _ | .map _ => isTrue trivial

/-- At every depth no element of a list names its patch by a key. -/
def Unnamed : Value → Prop :=
  Everywhere HoldsNoNamed

instance (v : Value) : Decidable v.Unnamed :=
  inferInstanceAs (Decidable (Everywhere _ v))

theorem unnamed_map {entries : Entries Value} :
    (Value.map entries).Unnamed ↔ ∀ e ∈ entries, e.2.Unnamed :=
  everywhere_map.trans (and_iff_right trivial)

theorem unnamed_list {items : List Value} : (Value.list items).Unnamed ↔
    ∀ x ∈ items, namesPatch x = false ∧ x.Unnamed :=
  everywhere_list.trans forall₂_and.symm

/-! ## Keys and kinds of merged values -/

theorem key_of_mem_freshEntries {dropped : List String} {path : String} :
    ∀ {patch r : Entries Value}, freshEntries dropped patch path = .ok r →
      ∀ e ∈ r, e.1 ∉ dropped ∧ ∃ v, (e.1, v) ∈ patch
  | [], r, h => by
    rw [freshEntries] at h
    cases h
    exact List.forall_mem_nil _
  | (k, v) :: rest, r, h => by
    have later {r : Entries Value} (h : freshEntries dropped rest path = .ok r) :
        ∀ e ∈ r, e.1 ∉ dropped ∧ ∃ u, (e.1, u) ∈ (k, v) :: rest := fun e he => by
      obtain ⟨hdropped, u, hu⟩ := key_of_mem_freshEntries h e he
      exact ⟨hdropped, u, List.mem_cons_of_mem _ hu⟩
    rw [freshEntries_cons] at h
    split at h
    · exact later h
    · rename_i hskip
      split at h
      · cases h
      · obtain ⟨fresh, -, h⟩ := Result.bind_eq_ok.mp h
        obtain ⟨others, hothers, rfl⟩ := Result.map_eq_ok.mp h
        refine List.forall_mem_cons.mpr ⟨⟨?_, v, List.mem_cons_self⟩, later hothers⟩
        simp only [Bool.or_eq_true, List.contains_iff_mem, not_or] at hskip
        exact hskip.1

theorem key_of_mem_mergeEntries {dropped : List String} {path : String} :
    ∀ {patch base r : Entries Value}, mergeEntries dropped base patch path = .ok r →
      ∀ e ∈ r, (∃ v, (e.1, v) ∈ base) ∨ e.1 ∉ dropped ∧ ∃ v, (e.1, v) ∈ patch
  | [], base, r, h => by
    rw [mergeEntries] at h
    cases h
    exact fun e he => .inl ⟨e.2, he⟩
  | (k, v) :: rest, base, r, h => by
    rw [mergeEntries_cons] at h
    intro e he
    split at h
    · refine (key_of_mem_mergeEntries h e he).imp_right fun ⟨hdropped, u, hu⟩ => ?_
      exact ⟨hdropped, u, List.mem_cons_of_mem _ hu⟩
    · rename_i hskip
      obtain ⟨o, -, h⟩ := Result.bind_eq_ok.mp h
      rcases key_of_mem_mergeEntries h e he with ⟨u, hu⟩ | ⟨hdropped, u, hu⟩
      · rcases Entries.mem_put hu with ⟨x, rfl, heq⟩ | hu
        · cases heq
          simp only [isSkipped, Bool.or_eq_true, List.contains_iff_mem, not_or] at hskip
          exact .inr ⟨hskip.1, v, List.mem_cons_self⟩
        · exact .inl ⟨u, hu⟩
      · exact .inr ⟨hdropped, u, List.mem_cons_of_mem _ hu⟩

/-- What becomes of a patch is the patch itself or a container. -/
theorem merge_kind {base patch v : Value} {path : String} (h : base.merge patch path = .ok v) :
    v = patch ∨ (∃ entries, v = .map entries) ∨ ∃ items, v = .list items := by
  cases patch with
  | map entries =>
    simp only [merge] at h
    split at h
    · obtain ⟨r, -, rfl⟩ := Result.map_eq_ok.mp h
      exact .inr (.inl ⟨r, rfl⟩)
    · obtain ⟨r, -, rfl⟩ := Result.map_eq_ok.mp h
      exact .inr (.inl ⟨r, rfl⟩)
  | list items =>
    simp only [merge] at h
    split at h
    · obtain ⟨r, -, rfl⟩ := Result.map_eq_ok.mp h
      exact .inr (.inr ⟨r, rfl⟩)
    · obtain ⟨r, -, rfl⟩ := Result.map_eq_ok.mp h
      exact .inr (.inr ⟨r, rfl⟩)
  | _ =>
    simp only [merge] at h
    split at h
    · cases h
    · cases h
      exact .inl rfl

theorem merge_null (v : Value) (path : String) : merge .null v path = v.normalize path := by
  cases v <;> simp only [merge, normalize, isScalar, Bool.false_and, Bool.false_eq_true, if_false]

theorem isPlainEntry_of_not_skipped {dropped : List String} {k : String} {v : Value}
    (hskip : ¬ (dropped.contains k || isReplaceFlag k v) = true)
    (hdelete : ¬ v.isString Directive.delete = true) : isPlainEntry (k, v) = true := by
  simp only [Bool.or_eq_true, not_or, Bool.not_eq_true] at hskip hdelete
  exact isPlainEntry_iff.mpr ⟨hskip.2, hdelete⟩

theorem isPlainEntry_of_merge {k : String} {base patch v : Value} {path : String}
    (hp : isPlainEntry (k, patch) = true) (h : base.merge patch path = .ok v) :
    isPlainEntry (k, v) = true := by
  rcases merge_kind h with rfl | ⟨entries, rfl⟩ | ⟨items, rfl⟩
  · exact hp
  · rfl
  · rfl

theorem isPlainEntry_of_normalize {k : String} {v w : Value} {path : String}
    (hv : isPlainEntry (k, v) = true) (h : v.normalize path = .ok w) : isPlainEntry (k, w) = true :=
  isPlainEntry_of_merge hv ((merge_null v path).trans h)

theorem isInstruction_of_freshEntries {dropped : List String} {patch r : Entries Value}
    {path : String} (hp : ∀ e ∈ patch, e.1 ∈ instructionKeys → e.1 ∈ dropped)
    (h : freshEntries dropped patch path = .ok r) : isInstruction (.map r) = false := by
  refine isInstruction_map_iff_keys.mpr fun e he hk => ?_
  obtain ⟨hdropped, v, hv⟩ := key_of_mem_freshEntries h e he
  exact hdropped (hp (e.1, v) hv hk)

theorem isInstruction_of_mergeEntries {dropped : List String} {base patch r : Entries Value}
    {path : String} (hb : isInstruction (.map base) = false)
    (hp : ∀ e ∈ patch, e.1 ∈ instructionKeys → e.1 ∈ dropped)
    (h : mergeEntries dropped base patch path = .ok r) : isInstruction (.map r) = false := by
  refine isInstruction_map_iff_keys.mpr fun e he hk => ?_
  rcases key_of_mem_mergeEntries h e he with ⟨v, hv⟩ | ⟨hdropped, v, hv⟩
  · exact isInstruction_map_iff_keys.mp hb (e.1, v) hv hk
  · exact hdropped (hp (e.1, v) hv hk)

theorem isInstruction_of_normalize {v w : Value} {path : String} (hv : isInstruction v = false)
    (h : v.normalize path = .ok w) : isInstruction w = false := by
  cases v with
  | map entries =>
    rw [normalize] at h
    obtain ⟨r, hr, rfl⟩ := Result.map_eq_ok.mp h
    refine isInstruction_of_freshEntries (fun e he hk => ?_) hr
    exact absurd hk (isInstruction_map_iff_keys.mp hv e he)
  | list items =>
    rw [normalize] at h
    obtain ⟨r, -, rfl⟩ := Result.map_eq_ok.mp h
    rfl
  | _ =>
    simp only [normalize] at h
    cases h
    exact hv

/-! ## Merged values -/

mutual
theorem markerFree_merge {base : Value} (hb : base.MarkerFree) : ∀ {patch v : Value} {path : String},
    patch.Unnamed → base.merge patch path = .ok v → v.MarkerFree
  | .map patch, v, path, hp, h => by
    simp only [merge] at h
    split at h
    · obtain ⟨r, hr, rfl⟩ := Result.map_eq_ok.mp h
      exact markerFree_map.mpr (markerFree_mergeEntries (markerFree_map.mp hb) (unnamed_map.mp hp) hr)
    · obtain ⟨r, hr, rfl⟩ := Result.map_eq_ok.mp h
      exact markerFree_map.mpr (markerFree_freshEntries (unnamed_map.mp hp) hr)
  | .list patch, v, path, hp, h => by
    simp only [merge] at h
    split at h
    · obtain ⟨r, hr, rfl⟩ := Result.map_eq_ok.mp h
      refine markerFree_list.mpr (markerFree_mergeItems ?_ (unnamed_list.mp hp) hr)
      split
      · exact List.forall_mem_nil _
      · exact fun x hx => markerFree_list.mp hb x ((dropRequired_sublist _).subset hx)
    · obtain ⟨r, hr, rfl⟩ := Result.map_eq_ok.mp h
      exact markerFree_list.mpr
        (markerFree_mergeItems (List.forall_mem_nil _) (unnamed_list.mp hp) hr)
  | .null, v, path, _, h | .bool _, v, path, _, h | .int _, v, path, _, h
  | .float _, v, path, _, h | .string _, v, path, _, h => by
    simp only [merge] at h
    split at h
    · cases h
    · cases h
      exact markerFree_scalar (fun _ => nofun) (fun _ => nofun)
termination_by structural patch => patch

theorem markerFree_normalize : ∀ {patch v : Value} {path : String},
    patch.Unnamed → patch.normalize path = .ok v → v.MarkerFree
  | .map patch, v, path, hp, h => by
    rw [normalize] at h
    obtain ⟨r, hr, rfl⟩ := Result.map_eq_ok.mp h
    exact markerFree_map.mpr (markerFree_freshEntries (unnamed_map.mp hp) hr)
  | .list patch, v, path, hp, h => by
    rw [normalize] at h
    obtain ⟨r, hr, rfl⟩ := Result.map_eq_ok.mp h
    exact markerFree_list.mpr (markerFree_mergeItems (List.forall_mem_nil _) (unnamed_list.mp hp) hr)
  | .null, v, path, _, h | .bool _, v, path, _, h | .int _, v, path, _, h
  | .float _, v, path, _, h | .string _, v, path, _, h => by
    simp only [normalize] at h
    cases h
    exact markerFree_scalar (fun _ => nofun) (fun _ => nofun)
termination_by structural patch => patch

theorem markerFree_mergeEntries {dropped : List String} : ∀ {base : Entries Value}
    {patch : List (String × Value)} {path : String} {r : Entries Value},
    (∀ e ∈ base, isPlainEntry e = true ∧ e.2.MarkerFree) → (∀ e ∈ patch, e.2.Unnamed) →
      mergeEntries dropped base patch path = .ok r →
        ∀ e ∈ r, isPlainEntry e = true ∧ e.2.MarkerFree
  | base, [], path, r, hb, _, h => by
    rw [mergeEntries] at h
    cases h
    exact hb
  | base, (k, v) :: rest, path, r, hb, hp, h => by
    obtain ⟨hv, hrest⟩ := List.forall_mem_cons.mp hp
    have inserted {w : Value} (hplain : isPlainEntry (k, w) = true) (hw : w.MarkerFree) :
        ∀ e ∈ Entries.insert k w base, isPlainEntry e = true ∧ e.2.MarkerFree := fun e he => by
      rcases Entries.mem_insert he with rfl | he
      · exact ⟨hplain, hw⟩
      · exact hb e he
    simp only [mergeEntries] at h
    split at h
    · exact markerFree_mergeEntries hb hrest h
    · rename_i hskip
      split at h
      · split at h
        · exact markerFree_mergeEntries
            (fun e he => hb e ((Entries.erase_sublist k base).subset he)) hrest h
        · cases h
      · rename_i hdelete
        have hplain := isPlainEntry_of_not_skipped hskip hdelete
        split at h
        · rename_i existing hexisting
          obtain ⟨merged, hmerged, h⟩ := Result.bind_eq_ok.mp h
          have hx := (hb _ (Entries.mem_of_lookup hexisting)).2
          exact markerFree_mergeEntries (inserted (isPlainEntry_of_merge hplain hmerged)
            (markerFree_merge hx hv hmerged)) hrest h
        · obtain ⟨fresh, hfresh, h⟩ := Result.bind_eq_ok.mp h
          exact markerFree_mergeEntries (inserted (isPlainEntry_of_normalize hplain hfresh)
            (markerFree_normalize hv hfresh)) hrest h
termination_by structural _ patch => patch

theorem markerFree_freshEntries {dropped : List String} : ∀ {patch : List (String × Value)}
    {path : String} {r : Entries Value}, (∀ e ∈ patch, e.2.Unnamed) →
      freshEntries dropped patch path = .ok r → ∀ e ∈ r, isPlainEntry e = true ∧ e.2.MarkerFree
  | [], path, r, _, h => by
    rw [freshEntries] at h
    cases h
    exact nofun
  | (k, v) :: rest, path, r, hp, h => by
    obtain ⟨hv, hrest⟩ := List.forall_mem_cons.mp hp
    simp only [freshEntries] at h
    split at h
    · exact markerFree_freshEntries hrest h
    · rename_i hskip
      split at h
      · cases h
      · rename_i hdelete
        have hplain := isPlainEntry_of_not_skipped hskip hdelete
        obtain ⟨fresh, hfresh, h⟩ := Result.bind_eq_ok.mp h
        obtain ⟨others, hothers, h⟩ := Result.bind_eq_ok.mp h
        cases h
        exact List.forall_mem_cons.mpr ⟨⟨isPlainEntry_of_normalize hplain hfresh,
          markerFree_normalize hv hfresh⟩, markerFree_freshEntries hrest hothers⟩
termination_by structural patch => patch

theorem markerFree_mergeItems : ∀ {items patch : List Value} {path : String} {r : List Value},
    (∀ x ∈ items, isInstruction x = false ∧ x.MarkerFree) →
      (∀ x ∈ patch, namesPatch x = false ∧ x.Unnamed) → mergeItems items patch path = .ok r →
        ∀ x ∈ r, isInstruction x = false ∧ x.MarkerFree
  | items, [], path, r, hitems, _, h => by
    rw [mergeItems] at h
    cases h
    exact hitems
  | items, .map patch :: rest, path, r, hitems, hp, h => by
    obtain ⟨⟨hnamed, hv⟩, hrest⟩ := List.forall_mem_cons.mp hp
    have hv := unnamed_map.mp hv
    obtain ⟨next, hacts, h⟩ := exists_acts h
    refine markerFree_mergeItems ?_ hrest h
    cases hacts with
    | marks _ => exact hitems
    | deletes _ _ hsublist => exact fun x hx => hitems x (hsublist.subset hx)
    | updates _ hdelete hselect hupdated =>
      have hvalue : Entries.has Directive.value patch = false := by
        rwa [namesPatch, ← isSelecting, hselect, Bool.true_and] at hnamed
      -- What is left of the directive deletes nothing and selects nothing.
      have hkeys : ∀ e ∈ patch, e.1 ∈ instructionKeys →
          e.1 ∈ [Directive.matchOne, Directive.matchAny] := fun e he hk =>
        (List.mem_cons.mp hk).resolve_left (Entries.has_eq_false_iff.mp hdelete e he)
      have hnull : isInstruction .null = false ∧ Value.null.MarkerFree :=
        ⟨rfl, markerFree_scalar (fun _ => nofun) (fun _ => nofun)⟩
      refine forall_updateAt hnull (fun x p w hx hw => ?_) hupdated hitems
      rcases mergeSelected_cases hw with ⟨hnamed, -⟩ | ⟨-, r, rfl, hr | ⟨entries, rfl, hr⟩⟩
      · rw [hvalue] at hnamed
        cases hnamed
      · exact ⟨isInstruction_of_freshEntries hkeys hr, markerFree_map.mpr (markerFree_freshEntries hv hr)⟩
      · exact ⟨isInstruction_of_mergeEntries hx.1 hkeys hr,
          markerFree_map.mpr (markerFree_mergeEntries (markerFree_map.mp hx.2) hv hr)⟩
    | appends _ hdelete hselect hfresh =>
      have hplain : isInstruction (.map patch) = false :=
        isInstruction_map.mpr ⟨hdelete, Bool.or_eq_false_iff.mp hselect⟩
      refine List.forall_mem_append.mpr ⟨hitems, List.forall_mem_singleton.mpr
        ⟨isInstruction_of_freshEntries (fun e he hk => ?_) hfresh,
          markerFree_map.mpr (markerFree_freshEntries hv hfresh)⟩⟩
      exact absurd hk (isInstruction_map_iff_keys.mp hplain e he)
  | items, .null :: rest, path, r, hitems, hp, h | items, .bool _ :: rest, path, r, hitems, hp, h
  | items, .int _ :: rest, path, r, hitems, hp, h | items, .float _ :: rest, path, r, hitems, hp, h
  | items, .string _ :: rest, path, r, hitems, hp, h
  | items, .list _ :: rest, path, r, hitems, hp, h => by
    obtain ⟨⟨-, hv⟩, hrest⟩ := List.forall_mem_cons.mp hp
    rcases exists_normalize h fun _ => nofun with ⟨-, h⟩ | ⟨hmarker, fresh, hfresh, h⟩
    · exact markerFree_mergeItems hitems hrest h
    · refine markerFree_mergeItems (List.forall_mem_append.mpr ⟨hitems, ?_⟩) hrest h
      have hplain := isInstruction_of_not_map hmarker fun _ => nofun
      exact List.forall_mem_singleton.mpr
        ⟨isInstruction_of_normalize hplain hfresh, markerFree_normalize hv hfresh⟩
termination_by structural _ patch => patch
end

theorem markerFree_foldlM_merge : ∀ {patches : List Value} {base v : Value}, base.MarkerFree →
    (∀ patch ∈ patches, patch.Unnamed) →
      patches.foldlM (fun merged patch => merged.merge patch "") base = .ok v → v.MarkerFree
  | [], base, v, hb, _, h => by
    cases h
    exact hb
  | patch :: rest, base, v, hb, hp, h => by
    obtain ⟨hpatch, hrest⟩ := List.forall_mem_cons.mp hp
    rw [List.foldlM_cons] at h
    obtain ⟨merged, hmerged, h⟩ := Result.bind_eq_ok.mp h
    exact markerFree_foldlM_merge (markerFree_merge hb hpatch hmerged) hrest h

/-- The values that stay as they are when they are merged into nothing are those without markers.
Where no element of a list names its patch by a key, what is merged into one of them is one again, so
that a prepared patch stays as it is, and so does all that is accumulated from merges in sequence. -/
theorem merge_consumes_markers :
    (∀ (v : Value) (path : String), v.normalize path = .ok v ↔ v.MarkerFree) ∧
    (∀ (base patch v : Value) (path : String), base.MarkerFree → patch.Unnamed →
      base.merge patch path = .ok v → v.MarkerFree) ∧
    (∀ (patch v : Value) (path path' : String), patch.Unnamed → patch.normalize path = .ok v →
      v.normalize path' = .ok v) ∧
    ∀ (base v : Value) (patches : List Value), base.MarkerFree → (∀ patch ∈ patches, patch.Unnamed) →
      patches.foldlM (fun merged patch => merged.merge patch "") base = .ok v →
        v.MarkerFree ∧ ∀ path, v.normalize path = .ok v := by
  refine ⟨fun v path => ⟨fun h => ?_, fun h => h.normalize path⟩, ?_, ?_, ?_⟩
  · exact Settled.markerFree (normalize_ok_anywhere h "")
  · exact fun base patch v path hb hp h => markerFree_merge hb hp h
  · exact fun patch v path path' hp h => (markerFree_normalize hp h).normalize path'
  · intro base v patches hb hp h
    have hv := markerFree_foldlM_merge hb hp h
    exact ⟨hv, hv.normalize⟩

theorem merge_consumes_markers_of_every_kind :
    let base : Value := .map [("items", .list [.string "$required", .map [("n", .string "a")],
      .map [("n", .string "b"), ("x", .map [("y", .int 1)])]]), ("old", .null)]
    let patch : Value := .map [("$replace", .bool false), ("items", .list [
        .map [("$delete", .map [("n", .string "a")])],
        .map [("$match", .map [("n", .string "b")]), ("x", .map [("$replace", .bool true)])],
        .list [.int 1, .string "$replace"]]),
      ("new", .map [("$replace", .bool true), ("k", .string "v")]), ("old", .string "$delete")]
    let merged : Value := .map [("items", .list [
        .map [("n", .string "b"), ("x", .map [])], .list [.int 1]]), ("new", .map [("k", .string "v")])]
    (base.MarkerFree ∧ patch.Unnamed ∧ base.merge patch "" = .ok merged) ∧
      merged.MarkerFree ∧ merged.normalize "" = .ok merged := by
  intro base patch merged
  have hb : base.MarkerFree := by decide
  have hp : patch.Unnamed := by decide
  have hm : base.merge patch "" = .ok merged := by rfl
  have hmerged := merge_consumes_markers.2.1 base patch merged "" hb hp hm
  exact ⟨⟨hb, hp, hm⟩, hmerged, (merge_consumes_markers.1 merged "").mpr hmerged⟩

/-- What a list element names by a key may be a marker itself, which it leaves behind. -/
example : (Value.list [.int 1]).merge
    (.list [.map [("$match", .int 1), ("$value", .string "$replace")]]) "" =
      .ok (.list [.string "$replace"]) := by rfl

end Overlay.Value
