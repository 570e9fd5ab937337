import Overlay.Proofs.Assembly.Step
import Overlay.Proofs.Diff.Patch
import Overlay.Proofs.Literal.Basic

/-!
# What the patch between two documents selects

The patch between two documents that are maps has a pattern that every map fits whose own keys are
no directives. So it is merged into the whole outcome, if its ancestors are all of the outcome or
none of it.
-/

namespace Overlay

/-! ## The patch between two documents -/

namespace Value

variable {a b : Entries Value}

theorem isLiteral_of_mem_mapPatch (ha : (Value.map a).Literal) (hb : (Value.map b).Literal)
    (hsorted : Entries.Sorted b) : ∀ e ∈ mapPatch a b, isLiteral e.1 = true := by
  intro e he
  have hp := Entries.lookup_of_mem (sorted_mapPatch hsorted) he
  rcases mapPatch_cases hsorted hp with ⟨_, hold, _⟩ | ⟨_, hnew⟩ | ⟨_, _, hold, _⟩
  · exact (literal_map.mp ha _ (Entries.mem_of_lookup hold)).1
  · exact (literal_map.mp hb _ (Entries.mem_of_lookup hnew)).1
  · exact (literal_map.mp ha _ (Entries.mem_of_lookup hold)).1

theorem selection_diffDocument (ha : (Value.map a).Literal) (hb : (Value.map b).Literal)
    (hsorted : Entries.Sorted b) : Assembly.selection (diffDocument (.map a) (.map b)) =
      .ok (diff (.map a) (.map b), .patterns [.map []]) := by
  have hkeys := isLiteral_of_mem_mapPatch ha hb hsorted
  have hone : Entries.lookup Directive.matchOne
      (Entries.insert Directive.matchOne (.map []) (mapPatch a b)) = some (.map []) :=
    Entries.lookup_insert_self _ _ _
  have hany : Entries.lookup Directive.matchAny
      (Entries.insert Directive.matchOne (.map []) (mapPatch a b)) = none := by
    rw [Entries.lookup_insert_ne (by decide), Entries.lookup_eq_none_iff]
    exact fun e he => ne_of_isLiteral (hkeys e he) rfl
  have hwithout : Entries.without [Directive.parent, Directive.matchOne, Directive.matchAny]
      (Entries.insert Directive.matchOne (.map []) (mapPatch a b)) = mapPatch a b := by
    rw [Entries.without_insert (by decide)]
    refine List.filter_eq_self.mpr fun e he => ?_
    have hparent : e.1 ≠ Directive.parent := ne_of_isLiteral (hkeys e he) rfl
    have hmatch : e.1 ≠ Directive.matchOne := ne_of_isLiteral (hkeys e he) rfl
    have hmatches : e.1 ≠ Directive.matchAny := ne_of_isLiteral (hkeys e he) rfl
    simp [hparent, hmatch, hmatches]
  simp only [diffDocument, diff_map, Assembly.selection, hone, hany, hwithout]

/-- A record is a map none of whose own keys is a directive. -/
def IsRecord (v : Value) : Prop :=
  ∃ entries, v = .map entries ∧ ∀ e ∈ entries, isLiteral e.1 = true

theorem Literal.isRecord {v : Value} (h : v.Literal) (hmap : v.isMap) : v.IsRecord := by
  cases v with
  | map entries => exact ⟨entries, rfl, fun e he => (literal_map.mp h e he).1⟩
  | _ => cases hmap

theorem IsRecord.fits {v : Value} (h : v.IsRecord) : v.fits (.map []) = true := by
  obtain ⟨entries, rfl, hkeys⟩ := h
  have hdirective : (Value.map entries).isDirective = false := by
    unfold isDirective
    split
    · rename_i k _ heq
      cases heq
      have hk := hkeys _ List.mem_cons_self
      have hmerge : k ≠ Directive.merge := ne_of_isLiteral hk rfl
      have hreplace : k ≠ Directive.replace := ne_of_isLiteral hk rfl
      have hencode : k ≠ Directive.encode := ne_of_isLiteral hk rfl
      simp [hmerge, hreplace, hencode]
    · rfl
  simp only [Value.fits, hdirective]
  rfl

end Value

/-! ## Merging into the whole outcome -/

namespace Assembly

theorem preferring_singleton (near : List Nat) (id : Nat) : preferring near [id] = [id] := by
  unfold preferring
  by_cases h : id ∈ near <;> simp [h]

theorem preferring_of_forall_mem {near ids : List Nat} (h : ∀ id ∈ ids, id ∈ near) :
    preferring near ids = ids := by
  have hall : ids.filter near.contains = ids :=
    List.filter_eq_self.mpr fun id hid => List.contains_iff_mem.mpr (h id hid)
  simp [preferring, hall]

theorem foldl_append_of_nodup : ∀ {ids found : List Nat}, (found ++ ids).Nodup →
    ids.foldl (fun found id => if found.contains id then found else found ++ [id]) found =
      found ++ ids
  | [], found, _ => by simp
  | id :: ids, found, h => by
    have hfresh : id ∉ found := fun hmem =>
      (List.nodup_append.mp h).2.2 id hmem id List.mem_cons_self rfl
    have hnot : ¬ found.contains id = true := by simpa using hfresh
    rw [List.foldl_cons, if_neg hnot, foldl_append_of_nodup (by simpa using h),
      List.append_assoc, List.singleton_append]

/-- A patch is to be merged into the whole outcome. -/
structure Broadcast (a : Assembly) (patch : Nat) (data : Value) : Prop where
  selects : selection (a.corpus.data patch) = .ok (data, .patterns [.map []])
  nodup : a.result.Nodup
  ne_nil : a.result ≠ []
  lt : ∀ id ∈ a.result, id < a.corpus.size
  fresh : patch ∉ a.result
  fits : ∀ id ∈ a.result, (a.corpus.data id).fits (.map []) = true
  preferred : preferring (a.corpus.ancestors patch) a.result = a.result

section
variable {a : Assembly} {patch : Nat} {data : Value} (h : Broadcast a patch data)
include h

theorem Broadcast.targets :
    Assembly.targets ⟨a.corpus.setData patch .null, a.result⟩ patch (.patterns [.map []]) =
      .ok a.result := by
  have hfitting : fitting ⟨a.corpus.setData patch .null, a.result⟩ (.map []) = a.result := by
    refine List.filter_eq_self.mpr fun id hid => ?_
    have hne : id ≠ patch := fun heq => h.fresh (heq ▸ hid)
    rw [Corpus.data_setData_ne hne]
    exact h.fits id hid
  have hsearch : search ⟨a.corpus.setData patch .null, a.result⟩ patch (.map []) = a.result := by
    rw [search, hfitting, Corpus.ancestors_setData, h.preferred]
  have hnodup : ([] ++ a.result).Nodup := h.nodup
  have hfound := foldl_append_of_nodup hnodup
  simp only [Assembly.targets, List.foldlM_cons, List.foldlM_nil, hsearch, bind_pure]
  split
  · rename_i hnil
    exact absurd hnil h.ne_nil
  · rw [hfound, List.nil_append]

theorem Broadcast.absorbed {b : Assembly} (hb : a.add patch = .ok b) :
    Absorbed patch data a.result a b :=
  absorbed_of_takeIn h.selects h.targets h.ne_nil h.nodup h.lt h.fresh (add_eq_ok.mp hb)

theorem Broadcast.exists_add
    (hmerge : ∀ id ∈ a.result, ∃ v, (a.corpus.data id).merge data "" = .ok v) :
    ∃ b, a.add patch = .ok b := by
  obtain ⟨b, hb⟩ := exists_takeIn h.selects h.targets h.ne_nil h.nodup h.fresh hmerge
  exact ⟨b, add_eq_ok.mpr hb⟩

end

end Assembly

end Overlay
