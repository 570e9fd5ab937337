import Overlay.Proofs.Assembly.Targets

/-!
# Where every document goes

A document that is taken in joins the outcome or becomes a parent of a document of the outcome, and
stays there whatever is taken in later. So an assembly accounts for all documents of its order, and
leaves alone all others.
-/

namespace Overlay.Assembly

/-- What an assembly keeps of a corpus of which some documents have been taken in. -/
structure Accounts (c : Corpus) (taken : List Nat) (a : Assembly) : Prop where
  size : a.corpus.size = c.size
  result : a.result.Sublist taken
  merged : ∀ id ∈ taken, id ∉ a.result → ∃ target ∈ a.result, id ∈ a.corpus.parents target
  parents : ∀ id, ∀ parent ∈ c.parents id, parent ∈ a.corpus.parents id
  untouched : ∀ id, id ∉ taken → a.corpus.documents[id]? = c.documents[id]?

theorem accounts_nil (c : Corpus) : Accounts c [] ⟨c, []⟩ where
  size := rfl
  result := .slnil
  merged := nofun
  parents _ _ h := h
  untouched _ _ := rfl

variable {c : Corpus} {a b : Assembly} {patch : Nat}

theorem Accounts.step {taken : List Nat} (h : Accounts c taken a)
    (hnodup : (taken ++ [patch]).Nodup) (hlt : ∀ id ∈ taken ++ [patch], id < c.size)
    (hb : a.takeIn patch = .ok b) : Accounts c (taken ++ [patch]) b := by
  have hpatch : patch ∉ taken := fun hmem =>
    (List.nodup_append.mp hnodup).2.2 patch hmem patch (List.mem_singleton_self patch) rfl
  have hresult : a.result.Nodup := h.result.nodup (List.nodup_append.mp hnodup).1
  have hbounded : ∀ id ∈ a.result, id < a.corpus.size := by
    intro id hid
    rw [h.size]
    exact hlt id (List.mem_append_left _ (h.result.subset hid))
  have hfresh : patch ∉ a.result := fun hmem => hpatch (h.result.subset hmem)
  have hother {id : Nat} (hid : id ∉ taken ++ [patch]) : id ∉ taken ∧ id ≠ patch := by
    simpa [not_or] using hid
  rcases takeIn_cases hresult hbounded hfresh hb with
    ⟨data, selector, fresh, -, -, -, rfl⟩ |
    ⟨data, selector, targets, -, -, hne, htargets, habsorbed, hkept⟩
  · refine ⟨?_, h.result.append (List.Sublist.refl _), fun id hid hout => ?_,
      fun id parent hp => ?_, fun id hid => ?_⟩
    · rw [Corpus.size_setData, h.size]
    · have hnot : id ∉ a.result ∧ id ≠ patch := by simpa [not_or] using hout
      have hid : id ∈ taken := by simpa [hnot.2] using hid
      obtain ⟨target, htarget, hp⟩ := h.merged id hid hnot.1
      refine ⟨target, List.mem_append_left _ htarget, ?_⟩
      rwa [Corpus.parents_setData]
    · rw [Corpus.parents_setData]
      exact h.parents id parent hp
    · rw [Corpus.documents_setData_ne (hother hid).2, h.untouched id (hother hid).1]
  · refine ⟨habsorbed.size.trans h.size, ?_, fun id hid hout => ?_, fun id parent hp => ?_,
      fun id hid => ?_⟩
    · rw [habsorbed.result]
      exact h.result.trans (List.sublist_append_left _ _)
    · rw [habsorbed.result] at hout ⊢
      rcases List.mem_append.mp hid with hid | hid
      · obtain ⟨target, htarget, hp⟩ := h.merged id hid hout
        exact ⟨target, htarget, (habsorbed.parents target id).mpr (.inl hp)⟩
      · obtain ⟨target, htarget⟩ := List.exists_mem_of_ne_nil _ hne
        exact ⟨target, htargets target htarget, (habsorbed.parents target id).mpr
          (.inr ⟨htarget, List.mem_singleton.mp hid⟩)⟩
    · exact (habsorbed.parents id parent).mpr (.inl (h.parents id parent hp))
    · have hid' : id ∉ targets := fun hmem =>
        (hother hid).1 (h.result.subset (htargets id hmem))
      rw [hkept id hid' (hother hid).2, h.untouched id (hother hid).1]

theorem Accounts.run : ∀ {order taken : List Nat} {a : Assembly}, Accounts c taken a →
    (taken ++ order).Nodup → (∀ id ∈ taken ++ order, id < c.size) → order.foldlM add a = .ok b →
      Accounts c (taken ++ order) b
  | [], taken, a, h, _, _, hb => by
    cases hb
    rwa [List.append_nil]
  | patch :: order, taken, a, h, hnodup, hlt, hb => by
    rw [List.foldlM_cons, Result.bind_eq_ok] at hb
    obtain ⟨next, hnext, hb⟩ := hb
    rw [List.append_cons] at hnodup hlt ⊢
    have hstep : Accounts c (taken ++ [patch]) next :=
      h.step hnodup.of_append_left (fun id hid => hlt id (List.mem_append_left _ hid))
        (add_eq_ok.mp hnext)
    exact hstep.run hnodup hlt hb

/-- An assembly has some of the documents of its order, in that order, each once. All others of the
order have become parents of these. No document loses a parent, and what is not in the order stays
as it is. -/
theorem ofCorpus_accounts {order : List Nat} (hnodup : order.Nodup)
    (hlt : ∀ id ∈ order, id < c.size) (h : ofCorpus c order = .ok a) :
    a.result.Sublist order ∧ a.result.Nodup ∧
      (∀ id ∈ order, id ∉ a.result → ∃ target ∈ a.result, id ∈ a.corpus.parents target) ∧
      (∀ id, ∀ parent ∈ c.parents id, parent ∈ a.corpus.parents id) ∧
      ∀ id, id ∉ order → a.corpus.data id = c.data id ∧ a.corpus.parents id = c.parents id := by
  have haccounts : Accounts c order a := (accounts_nil c).run hnodup hlt h
  refine ⟨haccounts.result, haccounts.result.nodup hnodup, haccounts.merged, haccounts.parents,
    fun id hid => ?_⟩
  rw [Corpus.data, Corpus.parents, haccounts.untouched id hid]
  exact ⟨rfl, rfl⟩

/-- Documents in a circle, a patch for all that fit one of two patterns, one that selects nothing and
one that stays out. -/
theorem ofCorpus_accounts_of_circle :
    ∃ (c : Corpus) (a : Assembly), ofCorpus c [3, 0, 1, 4] = .ok a ∧ c.parents 0 = [1] ∧
      c.parents 1 = [0] ∧ a.result = [3, 0] ∧ (∃ target ∈ a.result, 4 ∈ a.corpus.parents target) ∧
      a.corpus.data 2 = c.data 2 := by
  let c : Corpus := ⟨[⟨"0", .map [("a", .int 1)], [1]⟩, ⟨"1", .map [("b", .int 1)], [0]⟩,
    ⟨"2", .map [("c", .int 1)], [0]⟩, ⟨"3", .map [("d", .int 1)], []⟩,
    ⟨"4", .map [("$matches", .list [.map [("b", .int 1)], .map []]), ("e", .int 1)], []⟩]⟩
  let a : Assembly := ⟨⟨[⟨"0", .map [("a", .int 1), ("b", .int 1), ("e", .int 1)], [1, 4]⟩,
    ⟨"1", .map [("b", .int 1)], [0]⟩, ⟨"2", .map [("c", .int 1)], [0]⟩,
    ⟨"3", .map [("d", .int 1), ("e", .int 1)], [4]⟩, ⟨"4", .map [("e", .int 1)], []⟩]⟩, [3, 0]⟩
  have hrun : ofCorpus c [3, 0, 1, 4] = .ok a := by cbv
  obtain ⟨-, -, hmerged, -, hkept⟩ := ofCorpus_accounts (by decide) (by decide) hrun
  exact ⟨c, a, hrun, rfl, rfl, rfl, hmerged 4 (by decide) (by decide), (hkept 2 (by decide)).1⟩

end Overlay.Assembly
