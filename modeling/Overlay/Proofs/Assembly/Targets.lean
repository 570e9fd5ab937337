import Mathlib.Data.List.Nodup
import Overlay.Proofs.Assembly.Step

/-!
# What a patch is merged into

Whatever a patch selects by, its targets are documents of the outcome, each of them once
(`targets_of_result`). So taking in a document that is no part of the outcome does one of two things
(`takeIn_cases`): the document joins the outcome, or its targets absorb it, and no other document
changes.
-/

namespace Overlay

namespace Corpus

theorem documents_setData_ne {id other : Nat} (h : other ≠ id) (c : Corpus) (v : Value) :
    (c.setData id v).documents[other]? = c.documents[other]? := by
  simp [setData, Ne.symm h]

theorem documents_addParent_ne {id other : Nat} (h : other ≠ id) (c : Corpus) (parent : Nat) :
    (c.addParent id parent).documents[other]? = c.documents[other]? := by
  simp [addParent, Ne.symm h]

end Corpus

namespace Assembly

/-! ## Targets -/

/-- What was found before and what was hit, each once. -/
def gathered (found hits : List Nat) : List Nat :=
  hits.foldl (fun found id => if found.contains id then found else found ++ [id]) found

theorem gathered_cons (found : List Nat) (hit : Nat) (hits : List Nat) :
    gathered found (hit :: hits) =
      gathered (if found.contains hit then found else found ++ [hit]) hits := rfl

theorem mem_gathered {id : Nat} : ∀ {hits found : List Nat},
    id ∈ gathered found hits ↔ id ∈ found ∨ id ∈ hits
  | [], found => by simp [gathered]
  | hit :: hits, found => by
    rw [gathered_cons, mem_gathered, List.mem_cons]
    split
    · rename_i hcontains
      have hhit : hit ∈ found := List.contains_iff_mem.mp hcontains
      constructor
      · exact Or.imp_right .inr
      · rintro (h | rfl | h)
        · exact .inl h
        · exact .inl hhit
        · exact .inr h
    · rw [List.mem_append, List.mem_singleton, or_assoc]

theorem nodup_gathered : ∀ {hits found : List Nat}, found.Nodup → (gathered found hits).Nodup
  | [], _, h => h
  | hit :: hits, found, h => by
    rw [gathered_cons]
    apply nodup_gathered
    split
    · exact h
    · rename_i hcontains
      have hfresh : hit ∉ found := fun hmem => hcontains (List.contains_iff_mem.mpr hmem)
      exact h.append (List.nodup_singleton hit) (by simpa using hfresh)

theorem mem_result_of_search {a : Assembly} {patch id : Nat} {pattern : Value}
    (h : id ∈ a.search patch pattern) : id ∈ a.result := by
  have hfitting : id ∈ a.fitting pattern := by
    rw [search, preferring] at h
    split at h
    · exact h
    · exact List.mem_of_mem_filter h
  exact List.mem_of_mem_filter hfitting

theorem targets_of_result {a : Assembly} (hresult : a.result.Nodup) {patch : Nat}
    {selector : Selector} {targets : List Nat} (h : a.targets patch selector = .ok targets) :
    targets.Nodup ∧ ∀ id ∈ targets, id ∈ a.result := by
  cases selector with
  | none =>
    cases h
    exact ⟨List.nodup_nil, nofun⟩
  | lineage =>
    cases h
    exact ⟨hresult.filter _, fun id hid => List.mem_of_mem_filter hid⟩
  | patterns patterns =>
    refine Result.foldlM_keeps (P := fun found => found.Nodup ∧ ∀ id ∈ found, id ∈ a.result) ?_
      ⟨List.nodup_nil, fun _ hid => absurd hid List.not_mem_nil⟩ h
    intro found pattern _ next ⟨hnodup, hmem⟩ hnext
    split at hnext
    · cases hnext
    · cases hnext
      refine ⟨nodup_gathered hnodup, fun id hid => ?_⟩
      rcases mem_gathered.mp hid with hid | hid
      · exact hmem id hid
      · exact mem_result_of_search hid

/-! ## Taking in -/

theorem documents_of_foldlM {patch other : Nat} {data : Value} {targets : List Nat} {c d : Corpus}
    (hother : other ∉ targets) (h : targets.foldlM (mergeInto patch data) c = .ok d) :
    d.documents[other]? = c.documents[other]? := by
  induction targets generalizing c with
  | nil => cases h; rfl
  | cons target rest ih =>
    obtain ⟨hne, hother⟩ := List.ne_and_not_mem_of_not_mem_cons hother
    rw [List.foldlM_cons, mergeInto_eq] at h
    obtain ⟨e, he, h⟩ := Result.bind_eq_ok.mp h
    obtain ⟨v, -, rfl⟩ := Result.map_eq_ok.mp he
    rw [ih hother h, Corpus.documents_addParent_ne hne, Corpus.documents_setData_ne hne]

variable {a b : Assembly} {patch : Nat}

/-- A document that is no part of the outcome joins it, or its targets absorb it. -/
theorem takeIn_cases (hresult : a.result.Nodup) (hlt : ∀ id ∈ a.result, id < a.corpus.size)
    (hpatch : patch ∉ a.result) (h : a.takeIn patch = .ok b) :
    (∃ data selector fresh, selection (a.corpus.data patch) = .ok (data, selector) ∧
      targets ⟨a.corpus.setData patch .null, a.result⟩ patch selector = .ok [] ∧
      data.normalize "" = .ok fresh ∧
      b = ⟨a.corpus.setData patch fresh, a.result ++ [patch]⟩) ∨
    ∃ data selector targets, selection (a.corpus.data patch) = .ok (data, selector) ∧
      Assembly.targets ⟨a.corpus.setData patch .null, a.result⟩ patch selector = .ok targets ∧
      targets ≠ [] ∧ (∀ id ∈ targets, id ∈ a.result) ∧ Absorbed patch data targets a b ∧
      ∀ id, id ∉ targets → id ≠ patch →
        b.corpus.documents[id]? = a.corpus.documents[id]? := by
  have hselected := h
  unfold takeIn at hselected
  obtain ⟨⟨data, selector⟩, hselection, hselected⟩ := Result.bind_eq_ok.mp hselected
  obtain ⟨targets, htargets, -⟩ := Result.bind_eq_ok.mp hselected
  have hfound : targets.Nodup ∧ ∀ id ∈ targets, id ∈ a.result :=
    targets_of_result (a := ⟨a.corpus.setData patch .null, a.result⟩) hresult htargets
  clear hselected
  by_cases hne : targets = []
  · subst hne
    rw [takeIn_of_nil hselection htargets] at h
    obtain ⟨fresh, hfresh, rfl⟩ := Result.map_eq_ok.mp h
    exact .inl ⟨data, selector, fresh, hselection, htargets, hfresh, rfl⟩
  · have habsorbed : Absorbed patch data targets a b :=
      absorbed_of_takeIn hselection htargets hne hfound.1
        (fun id hid => hlt id (hfound.2 id hid)) (fun hid => hpatch (hfound.2 patch hid)) h
    refine .inr ⟨data, selector, targets, hselection, htargets, hne, hfound.2, habsorbed, ?_⟩
    rw [takeIn_of_ne_nil hselection htargets hne] at h
    obtain ⟨merged, hmerged, rfl⟩ := Result.map_eq_ok.mp h
    intro id hid hother
    rw [Corpus.documents_setData_ne hother, documents_of_foldlM hid hmerged,
      Corpus.documents_setData_ne hother]

end Assembly

end Overlay
