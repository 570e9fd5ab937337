import Overlay.Evaluation
import Overlay.Proofs.Corpus
import Overlay.Proofs.Expansion.Outcome
import Overlay.Proofs.Merge.Hereditary

/-!
# What documents keep until they are instantiated

References lead to what stands inside documents, and documents are merged and expanded. So what is
hereditary and holds of all documents holds of them after they are assembled and expanded.
-/

namespace Overlay

open Value (Hereditary)

variable {K : String → Prop} {P : Value → Prop} (hP : Hereditary K P)

namespace Corpus

/-- All data of a corpus has a property. -/
def Each (P : Value → Prop) (c : Corpus) : Prop :=
  ∀ id, P (c.data id)

variable {c : Corpus}

theorem Each.setData (h : c.Each P) (id : Nat) {v : Value} (hv : P v) : (c.setData id v).Each P := by
  intro other
  by_cases ho : other = id
  · subst ho
    rcases c.data_setData_self other v with hd | ⟨hnull, hd⟩
    · rw [hd]
      exact hv
    · rw [hd, ← hnull]
      exact h other
  · rw [data_setData_ne ho]
    exact h other

theorem Each.addParent (h : c.Each P) (id parent : Nat) : (c.addParent id parent).Each P := by
  intro other
  rw [data_addParent]
  exact h other

end Corpus

/-! ## References -/

namespace Reference

include hP

theorem of_child? {segment : String} {v w : Value} (hv : P v) (h : child? segment v = some w) : P w := by
  cases v with
  | map entries => exact (hP.lookup hv h).2
  | list items =>
    obtain ⟨i, -, hi⟩ := Option.bind_eq_some_iff.mp h
    exact hP.list.mp hv w (List.mem_of_getElem? hi)
  | _ => cases h

theorem of_follow? : ∀ {path : List String} {v w : Value}, P v → follow? v path = some w → P w
  | [], _, _, hv, h => by
    cases h
    exact hv
  | segment :: rest, v, w, hv, h => by
    obtain ⟨x, hx, h⟩ := Option.bind_eq_some_iff.mp h
    exact of_follow? (of_child? hP hv hx) h

variable {site : Site} (hsite : site.assembly.corpus.Each P)
include hsite

theorem of_walk {id : Nat} {path : List String} {reference : String} {v : Value}
    (h : walk site.assembly.corpus id path reference = .ok v) : P v := by
  unfold walk at h
  split at h
  · rename_i hfollow
    cases h
    exact of_follow? hP (hsite id) hfollow
  · cases h

theorem of_resolveList {items : List Value} {v : Value} (h : resolveList site items = .ok v) : P v := by
  simp only [resolveList] at h
  split at h
  · obtain ⟨target, -, h⟩ := Result.bind_eq_ok.mp h
    obtain ⟨path, -, h⟩ := Result.bind_eq_ok.mp h
    obtain ⟨segments, -, h⟩ := Result.bind_eq_ok.mp h
    exact of_walk hP hsite h
  · obtain ⟨path, -, h⟩ := Result.bind_eq_ok.mp h
    obtain ⟨segments, -, h⟩ := Result.bind_eq_ok.mp h
    exact of_walk hP hsite h

theorem of_resolveMap {entries : Entries Value} {v : Value} (h : resolveMap site entries = .ok v) :
    P v := by
  unfold resolveMap at h
  split at h
  · obtain ⟨target, -, h⟩ := Result.bind_eq_ok.mp h
    dsimp only at h
    split at h
    all_goals
      obtain ⟨path, -, h⟩ := Result.bind_eq_ok.mp h
      exact of_walk hP hsite h
  · cases h

/-- References lead to what stands inside documents. -/
theorem of_resolve {reference v : Value} (h : resolve site reference = .ok v) : P v := by
  cases reference with
  | string s =>
    simp only [resolve] at h
    split at h
    · exact of_resolveList hP hsite h
    · exact of_resolveMap hP hsite h
    · exact of_walk hP hsite h
  | list items => exact of_resolveList hP hsite h
  | map entries => exact of_resolveMap hP hsite h
  | _ => cases h

theorem of_resolveAt {reference v : Value} {path : String}
    (h : resolveAt site reference path = .ok v) : P v :=
  of_resolve hP hsite (Result.mapError_eq_ok.mp h)

end Reference

/-! ## Expansion -/

namespace Expansion

variable {site : Site} (hsite : site.assembly.corpus.Each P)
include hP hsite

theorem of_substitute? {entries : Entries Value} {path : String} {target : Value} (h : P (.map entries))
    (hsub : substitute? site entries path = some (.ok target)) : P target := by
  have hsiblings := hP.erase (hP.erase h Directive.replace) Directive.merge
  unfold substitute? at hsub
  dsimp only at hsub
  split at hsub
  · cases hsub
  · cases hsub
  -- A map is merged in the same way with and without the flag of wholesale replacement.
  iterate 2
    obtain ⟨base, hbase, hsub⟩ := Result.bind_eq_ok.mp (Option.some.inj hsub)
    have hbase := Reference.of_resolveAt hP hsite hbase
    split at hsub
    · cases hsub
      exact hbase
    · exact hP.of_merge hbase hsiblings hsub
    · cases hsub
  · have hsub := Option.some.inj hsub
    split at hsub
    · exact Reference.of_resolveAt hP hsite hsub
    · cases hsub

theorem yields_hereditary : Yields site P P where
  entry h he _ := (hP.map.mp h _ he).2
  item h hv := hP.list.mp h _ hv
  target := by
    intro v target path hv htarget
    cases v with
    | string s =>
      obtain ⟨reference, -, hresolve⟩ := Option.map_eq_some_iff.mp htarget
      exact Reference.of_resolveAt hP hsite hresolve
    | map entries => exact of_substitute? hP hsite hv htarget
    | _ => cases htarget
  scalar _ _ hv _ := hv
  map := by
    intro entries out path h _ hall
    refine hP.map.mpr fun e he => ?_
    obtain ⟨-, ⟨v, hv⟩, hw⟩ := hall e he
    exact ⟨(hP.map.mp h _ hv).1, hw⟩
  list := hP.list.mpr

end Expansion

/-! ## Assemblies -/

namespace Assembly

include hP

theorem of_selection {v data : Value} {selector : Selector} (hv : P v)
    (h : selection v = .ok (data, selector)) : P data := by
  cases v with
  | map entries =>
    simp only [selection] at h
    have hdata := hP.without hv [Directive.parent, Directive.matchOne, Directive.matchAny]
    split at h
    all_goals
      cases h
      try exact hdata
  | _ =>
    cases h
    exact hv

theorem of_takeIn {a b : Assembly} {patch : Nat} (ha : a.corpus.Each P)
    (h : a.takeIn patch = .ok b) : b.corpus.Each P := by
  unfold takeIn at h
  obtain ⟨⟨data, selector⟩, hselection, h⟩ := Result.bind_eq_ok.mp h
  have hdata := of_selection hP (ha patch) hselection
  have hemptied : (a.corpus.setData patch .null).Each P := ha.setData patch hP.null
  obtain ⟨targets, -, h⟩ := Result.bind_eq_ok.mp h
  split at h
  · obtain ⟨fresh, hfresh, h⟩ := Result.bind_eq_ok.mp h
    cases h
    exact hemptied.setData patch (hP.of_normalize hdata hfresh)
  · obtain ⟨merged, hmerged, h⟩ := Result.bind_eq_ok.mp h
    cases h
    refine Corpus.Each.setData (Result.foldlM_keeps ?_ hemptied hmerged) patch hdata
    intro c target _ d hc hd
    obtain ⟨v, hv, hd⟩ := Result.bind_eq_ok.mp hd
    cases hd
    exact (hc.setData target (hP.of_merge (hc target) hdata hv)).addParent target patch

theorem of_ofCorpus {c : Corpus} {order : List Nat} {a : Assembly} (hc : c.Each P)
    (h : ofCorpus c order = .ok a) : a.corpus.Each P := by
  refine Result.foldlM_keeps (P := fun a : Assembly => a.corpus.Each P) ?_ hc h
  intro a patch _ b ha hb
  exact of_takeIn hP ha (Result.mapError_eq_ok.mp hb)

end Assembly

namespace Evaluation

variable {e : Evaluation}
include hP

theorem of_expandAll {a b : Assembly} (ha : a.corpus.Each P) (h : e.expandAll a = .ok b) :
    b.corpus.Each P := by
  obtain ⟨corpus, hcorpus, h⟩ := Result.bind_eq_ok.mp h
  cases h
  refine Result.foldlM_keeps (P := Corpus.Each P) ?_ ha hcorpus
  intro c id _ d hc hd
  obtain ⟨w, hw, hd⟩ := Result.bind_eq_ok.mp hd
  cases hd
  have hw := Result.mapError_eq_ok.mp hw
  exact hc.setData id ((Expansion.yields_hereditary hP ha).of_expand (hc id) hw)

theorem of_takeSpecs : ∀ {ids : List Nat} {c : Corpus}, c.Each P →
    (takeSpecs c ids).1.Each P ∧ ∀ spec ∈ (takeSpecs c ids).2, ∀ v ∈ spec, P v
  | [], _, hc => ⟨hc, List.forall_mem_nil _⟩
  | id :: rest, c, hc => by
    unfold takeSpecs
    have hdata := hc id
    cases hd : c.data id with
    | map entries =>
      rw [hd] at hdata
      obtain ⟨hfinal, hspecs⟩ := @of_takeSpecs rest _ (hc.setData id (hP.erase hdata Directive.repeatOver))
      refine ⟨hfinal, List.forall_mem_cons.mpr ⟨fun v hv => ?_, hspecs⟩⟩
      exact (hP.lookup hdata hv).2
    | _ =>
      obtain ⟨hfinal, hspecs⟩ := @of_takeSpecs rest _ hc
      refine ⟨hfinal, List.forall_mem_cons.mpr ⟨fun v hv => ?_, hspecs⟩⟩
      cases hv

end Evaluation

end Overlay
