import Overlay.Proofs.Diff.Exact
import Overlay.Proofs.Diff.Selection
import Overlay.Proofs.Literal.Evaluation

/-!
# Replaying a history

The patch between two documents selects whatever is assembled. So a first document and the patches
from each version of it to the next evaluate to its last version.
-/

namespace Overlay

open Value (Data)

namespace Assembly

/-- The patches from each version of a document to the next. -/
def history (v : Value) : List Value → List Value
  | [] => []
  | w :: rest => v.diffDocument w :: history w rest

theorem length_history : ∀ (v : Value) (rest : List Value), (history v rest).length = rest.length
  | _, [] => rfl
  | _, w :: rest => by rw [history, List.length_cons, List.length_cons, length_history w rest]

/-- A document is ready to be patched if it alone makes up the outcome. -/
structure Ready (v : Value) (a : Assembly) : Prop where
  result : a.result = [0]
  first : a.corpus.data 0 = v
  data : v.Data
  map : v.isMap

theorem Ready.step {v w : Value} {a : Assembly} (h : Ready v a) (hw : w.Data) (hmap : w.isMap)
    {patch : Nat} (hpatch : a.corpus.data patch = v.diffDocument w) (hpos : 0 < patch)
    (hsize : 0 < a.corpus.size) :
    ∃ b, a.add patch = .ok b ∧ Ready w b ∧ b.corpus.size = a.corpus.size ∧
      ∀ id, patch < id → b.corpus.data id = a.corpus.data id := by
  obtain ⟨c, taken⟩ := a
  obtain ⟨hresult, hfirst, hv, hvmap⟩ := h
  obtain rfl : taken = [0] := hresult
  cases v with
  | map olds =>
    cases w with
    | map news =>
      have hl := hv.dollarFree.literal
      have hselection := Value.selection_diffDocument hl hw.dollarFree.literal
        (Value.wellFormed_map.mp hw.wellFormed).1
      have hfits : (c.data 0).fits (.map []) = true := by
        rw [hfirst]
        exact (hl.isRecord rfl).fits
      have hbroadcast : Broadcast ⟨c, [0]⟩ patch (Value.diff (.map olds) (.map news)) :=
        ⟨hpatch ▸ hselection, List.nodup_singleton 0, List.cons_ne_nil _ _,
          List.forall_mem_singleton.mpr hsize, by simpa using hpos.ne',
          List.forall_mem_singleton.mpr hfits, preferring_singleton _ 0⟩
      have hmerge : (c.data 0).merge (Value.diff (.map olds) (.map news)) "" =
          .ok (.map news) := by
        rw [hfirst]
        exact hv.merge_diff_data hw (by simp [Value.isScalar]) ""
      obtain ⟨b, hb⟩ := hbroadcast.exists_add (List.forall_mem_singleton.mpr ⟨_, hmerge⟩)
      have habsorbed := hbroadcast.absorbed hb
      have hmerged := habsorbed.merged 0 List.mem_cons_self
      rw [hmerge] at hmerged
      refine ⟨b, hb, ⟨habsorbed.result, (Except.ok.inj hmerged).symm, hw, rfl⟩, habsorbed.size,
        fun id hid => habsorbed.kept id ?_ hid.ne'⟩
      simpa using (hpos.trans hid).ne'
    | _ => cases hmap
  | _ => cases hvmap

theorem Ready.run : ∀ {rest : List Value} {v : Value} {a : Assembly} {k : Nat}, Ready v a →
    (∀ w ∈ rest, w.Data ∧ w.isMap) → 0 < k → 0 < a.corpus.size →
      (List.range' k rest.length).map a.corpus.data = history v rest →
        ∃ b, (List.range' k rest.length).foldlM add a = .ok b ∧ Ready (rest.getLastD v) b
  | [], v, a, k, h, _, _, _, _ => ⟨a, rfl, h⟩
  | w :: rest, v, a, k, h, hrest, hk, hsize, hdata => by
    obtain ⟨⟨hw, hmap⟩, hrest⟩ := List.forall_mem_cons.mp hrest
    rw [List.length_cons, List.range'_succ, List.map_cons, history] at hdata
    obtain ⟨hpatch, hdata⟩ := List.cons.inj hdata
    obtain ⟨b, hb, hready, hbsize, hkept⟩ := h.step hw hmap hpatch hk hsize
    have hdata : (List.range' (k + 1) rest.length).map b.corpus.data = history w rest := by
      rw [← hdata]
      refine List.map_congr_left fun id hid => hkept id ?_
      exact (List.mem_range'_1.mp hid).1
    obtain ⟨last, hlast, hready⟩ := hready.run hrest (Nat.succ_pos k) (hbsize ▸ hsize) hdata
    refine ⟨last, ?_, ?_⟩
    · rw [List.length_cons, List.range'_succ, List.foldlM_cons, hb]
      exact hlast
    · rwa [List.getLastD_cons]

theorem add_first {c : Corpus} (h : (c.data 0).Data) : add ⟨c, []⟩ 0 = .ok ⟨c, [0]⟩ := by
  have hl := h.dollarFree.literal
  have hfresh := takeIn_of_nil (a := ⟨c, []⟩) (selection_literal hl) (targets_lineage ⟨c, []⟩ 0)
  rw [Value.normalize_literal hl] at hfresh
  rw [add_eq_ok, hfresh]
  simp only [Functor.map, Except.map, Corpus.setData_data, List.nil_append]

end Assembly

/-- A document and the patches from each version of it to the next evaluate to its last version, in
every environment, with every limit, and whatever their parents. -/
theorem Evaluation.evaluate_history (e : Evaluation) (c : Corpus) (first : Value)
    (rest : List Value) (hdocuments : ∀ v ∈ first :: rest, v.Data ∧ v.isMap)
    (hdata : c.documents.map Document.data = first :: Assembly.history first rest) :
    e.evaluate c (List.range c.size) = pure [rest.getLastD first] := by
  obtain ⟨⟨hfirst, hmap⟩, hrest⟩ := List.forall_mem_cons.mp hdocuments
  have hsize : c.size = rest.length + 1 := by
    have hlength := congrArg List.length hdata
    rwa [List.length_map, List.length_cons, Assembly.length_history] at hlength
  have hzero : c.data 0 = first := by
    rw [Corpus.data_eq, hdata]
    rfl
  have hpatches : (List.range' 1 rest.length).map c.data = Assembly.history first rest := by
    have hall := c.map_data_range' 1
    rwa [hsize, hdata] at hall
  have hready : Assembly.Ready first ⟨c, [0]⟩ := ⟨rfl, hzero, hfirst, hmap⟩
  obtain ⟨b, hb, hlast⟩ := hready.run hrest Nat.one_pos (by rw [hsize]; exact Nat.succ_pos _)
    hpatches
  have hrun : Assembly.ofCorpus c (List.range c.size) = .ok b := by
    rw [Assembly.ofCorpus, hsize, List.range_eq_range', List.range'_succ, List.foldlM_cons,
      Assembly.add_first (hzero ▸ hfirst)]
    exact hb
  have hliteral : ∀ id ∈ b.result, (b.corpus.data id).Literal := by
    rw [hlast.result, List.forall_mem_singleton, hlast.first]
    exact hlast.data.dollarFree.literal
  rw [e.evaluate_literal hrun hliteral, hlast.result, List.map_singleton, hlast.first,
    hlast.data.finalize]

theorem Evaluation.evaluate_history_of_three_versions :
    let first : Value := .map [("list", .list [.int 1, .int 2]), ("old", .map [("x", .float 1.5)])]
    let second : Value := .map [("list", .list [.int 1]), ("new", .map [("x", .null)])]
    let third : Value := .map [("list", .list [.int 1, .string "s"]), ("old", .map [])]
    evaluate { limit := 0 }
      ⟨[⟨"0", first, []⟩, ⟨"1", first.diffDocument second, [0]⟩,
        ⟨"2", second.diffDocument third, [1]⟩]⟩ (List.range 3) = pure [third] := by
  intro first second third
  exact evaluate_history _ _ first [second, third] (by decide) rfl

end Overlay
