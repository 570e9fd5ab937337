import Overlay.CommandLine.Run
import Overlay.Proofs.Assembly
import Overlay.Proofs.Assembly.Layers
import Overlay.Proofs.Diff.Exact
import Overlay.Proofs.Diff.Selection
import Overlay.Proofs.Merge.Consumption

/-!
# Streams of patches

Two streams of documents differ by a stream of patches, one for each pair of documents. If it is
layered over the first stream, each patch is merged into every document of it and not only into the
one that it was made for. So the second stream is the outcome exactly if merging all patches into
each document of the first gives the one of the second in its place.
-/

namespace Overlay

/-! ## Patches between maps of data -/

namespace Value

theorem IsRecord.merge {base patch v : Value} {path : String} (hb : base.IsRecord)
    (hp : patch.IsRecord) (h : base.merge patch path = .ok v) : v.IsRecord := by
  obtain ⟨olds, rfl, hb⟩ := hb
  obtain ⟨news, rfl, hp⟩ := hp
  have hreplaces : replaces news = false := by
    have hnone : Entries.lookup Directive.replace news = none :=
      Entries.lookup_eq_none_iff.mpr fun e he => ne_of_isLiteral (hp e he) rfl
    rw [replaces, hnone]
  simp only [Value.merge, hreplaces] at h
  obtain ⟨r, hr, rfl⟩ := Result.map_eq_ok.mp h
  refine ⟨r, rfl, fun e he => ?_⟩
  rcases key_of_mem_mergeEntries hr e he with ⟨u, hu⟩ | ⟨-, u, hu⟩
  · exact hb (e.1, u) hu
  · exact hp (e.1, u) hu

/-- A map that is no more than data. -/
def DataMap (v : Value) : Prop :=
  v.Data ∧ v.isMap

theorem DataMap.isRecord {v : Value} (h : v.DataMap) : v.IsRecord :=
  h.1.dollarFree.literal.isRecord h.2

section
variable {v w : Value} (hv : v.DataMap) (hw : w.DataMap)
include hv hw

theorem DataMap.diff : (v.diff w).IsRecord ∧
    Assembly.selection (v.diffDocument w) = .ok (v.diff w, .patterns [.map []]) := by
  obtain ⟨hv, hvmap⟩ := hv
  obtain ⟨hw, hwmap⟩ := hw
  have hvl := hv.dollarFree.literal
  have hwl := hw.dollarFree.literal
  cases v with
  | map olds =>
    cases w with
    | map news =>
      have hsorted := (wellFormed_map.mp hw.wellFormed).1
      exact ⟨⟨_, diff_map olds news, isLiteral_of_mem_mapPatch hvl hwl hsorted⟩,
        selection_diffDocument hvl hwl hsorted⟩
    | _ => cases hwmap
  | _ => cases hvmap

theorem merge_diff_of_dataMap : v.merge (v.diff w) "" = .ok w := by
  refine hv.1.merge_diff_data hw.1 (fun ⟨hscalar, _⟩ => ?_) ""
  obtain ⟨entries, rfl, -⟩ := hv.isRecord
  cases hscalar

end

/-- A value after the patch of each pair of documents is merged into it, in turn. -/
def replay (pairs : List (Value × Value)) (v : Value) : Result Value :=
  pairs.foldlM (fun merged (a, b) => merged.merge (a.diff b) "") v

theorem replay_cons (v w : Value) (rest : List (Value × Value)) (base : Value) :
    replay ((v, w) :: rest) base = base.merge (v.diff w) "" >>= replay rest :=
  List.foldlM_cons

end Value

/-! ## One patch -/

namespace Assembly

open Value (DataMap IsRecord replay)

/-- The first `n` documents are the outcome, and those from `k` on are patches that inherit from each
of them. -/
structure Spread (n k : Nat) (pairs : List (Value × Value)) (a : Assembly) : Prop where
  result : a.result = List.range n
  le : n ≤ k
  pos : pairs ≠ [] → 0 < n
  size : a.corpus.size = k + pairs.length
  records : ∀ id < n, (a.corpus.data id).IsRecord
  parents : ∀ patch, k ≤ patch → patch < a.corpus.size → ∀ id < n, id ∈ a.corpus.parents patch
  maps : ∀ p ∈ pairs, p.1.DataMap ∧ p.2.DataMap
  patches : (List.range' k pairs.length).map a.corpus.data =
    pairs.map fun (v, w) => v.diffDocument w

section
variable {n k : Nat} {v w : Value} {rest : List (Value × Value)} {a : Assembly}
  (h : Spread n k ((v, w) :: rest) a)
include h

theorem Spread.patches_cons : a.corpus.data k = v.diffDocument w ∧
    (List.range' (k + 1) rest.length).map a.corpus.data =
      rest.map fun (v, w) => v.diffDocument w := by
  have hpatches := h.patches
  rw [List.length_cons, List.range'_succ, List.map_cons, List.map_cons] at hpatches
  exact List.cons.inj hpatches

theorem Spread.broadcast : Broadcast a k (v.diff w) := by
  have hmem : ∀ id ∈ a.result, id < n := fun id hid => by
    rw [h.result] at hid
    exact List.mem_range.mp hid
  have hsize : k < a.corpus.size := by
    rw [h.size, List.length_cons]
    omega
  obtain ⟨hv, hw⟩ := h.maps _ List.mem_cons_self
  refine ⟨?_, ?_, ?_, fun id hid => ?_, fun hk => ?_, fun id hid => ?_, ?_⟩
  · rw [h.patches_cons.1]
    exact (hv.diff hw).2
  · rw [h.result]
    exact List.nodup_range
  · rw [h.result]
    simpa using (h.pos (List.cons_ne_nil _ _)).ne'
  · exact (hmem id hid).trans_le (h.le.trans hsize.le)
  · exact (hmem k hk).not_ge h.le
  · exact (h.records id (hmem id hid)).fits
  -- All of the outcome are ancestors, so preferring these singles out none.
  · refine preferring_of_forall_mem fun id hid => ?_
    have hparent := h.parents k le_rfl hsize id (hmem id hid)
    have hlt := (hmem id hid).trans_le h.le
    exact Corpus.mem_ancestors_of_inherits (.single hparent) (hlt.trans hsize) hlt.ne

/-- Documents of the outcome change, but stay maps that every patch selects. -/
theorem Spread.step {b : Assembly} (hb : a.add k = .ok b) : Spread n (k + 1) rest b := by
  have habsorbed := h.broadcast.absorbed hb
  obtain ⟨hv, hw⟩ := h.maps _ List.mem_cons_self
  have hresult : ∀ {id}, id ∈ a.result ↔ id < n := by
    rw [h.result]
    exact List.mem_range
  refine ⟨habsorbed.result.trans h.result, h.le.trans (Nat.le_succ k),
    fun _ => h.pos (List.cons_ne_nil _ _), ?_, fun id hid => ?_, fun patch hk hlt id hid => ?_,
    fun p hp => h.maps p (List.mem_cons_of_mem _ hp), ?_⟩
  · rw [habsorbed.size, h.size, List.length_cons]
    omega
  · exact (h.records id hid).merge (hv.diff hw).1 (habsorbed.merged id (hresult.mpr hid))
  · rw [habsorbed.parents]
    exact .inl (h.parents patch (Nat.le_of_succ_le hk) (habsorbed.size ▸ hlt) id hid)
  · rw [← h.patches_cons.2]
    refine List.map_congr_left fun id hid => habsorbed.kept id (fun hmem => ?_) ?_
    · have := h.le
      have := hresult.mp hmem
      have := (List.mem_range'_1.mp hid).1
      omega
    · exact (Nat.lt_of_succ_le (List.mem_range'_1.mp hid).1).ne'

end

/-! ## All patches -/

theorem Spread.replayed {n : Nat} : ∀ {pairs : List (Value × Value)} {k : Nat} {a b : Assembly},
    Spread n k pairs a → (List.range' k pairs.length).foldlM add a = .ok b →
      b.result = List.range n ∧
        ∀ id < n, replay pairs (a.corpus.data id) = .ok (b.corpus.data id)
  | [], k, a, b, h, hb => by
    cases hb
    exact ⟨h.result, fun _ _ => rfl⟩
  | (v, w) :: rest, k, a, b, h, hb => by
    rw [List.length_cons, List.range'_succ, List.foldlM_cons] at hb
    obtain ⟨next, hnext, hb⟩ := Result.bind_eq_ok.mp hb
    obtain ⟨hresult, hreplay⟩ := (h.step hnext).replayed hb
    refine ⟨hresult, fun id hid => ?_⟩
    have hmerged := (h.broadcast.absorbed hnext).merged id (h.result ▸ List.mem_range.mpr hid)
    rw [Value.replay_cons, hmerged]
    exact hreplay id hid

theorem Spread.exists_run {n : Nat} : ∀ {pairs : List (Value × Value)} {k : Nat} {a : Assembly},
    Spread n k pairs a → (∀ id < n, ∃ v, replay pairs (a.corpus.data id) = .ok v) →
      ∃ b, (List.range' k pairs.length).foldlM add a = .ok b
  | [], k, a, _, _ => ⟨a, rfl⟩
  | (v, w) :: rest, k, a, h, hreplay => by
    have hmerge : ∀ id ∈ a.result, ∃ merged, (a.corpus.data id).merge (v.diff w) "" = .ok merged ∧
        ∃ u, replay rest merged = .ok u := by
      intro id hid
      rw [h.result] at hid
      obtain ⟨u, hu⟩ := hreplay id (List.mem_range.mp hid)
      rw [Value.replay_cons] at hu
      obtain ⟨merged, hmerged, hu⟩ := Result.bind_eq_ok.mp hu
      exact ⟨merged, hmerged, u, hu⟩
    obtain ⟨next, hnext⟩ := h.broadcast.exists_add fun id hid =>
      (hmerge id hid).imp fun _ hmerged => hmerged.1
    have habsorbed := h.broadcast.absorbed hnext
    obtain ⟨b, hb⟩ := (h.step hnext).exists_run fun id hid => by
      have hid : id ∈ a.result := h.result ▸ List.mem_range.mpr hid
      obtain ⟨merged, hmerged, hu⟩ := hmerge id hid
      rw [habsorbed.merged id hid] at hmerged
      rwa [Except.ok.inj hmerged]
    refine ⟨b, ?_⟩
    rw [List.length_cons, List.range'_succ, List.foldlM_cons, hnext]
    exact hb

/-! ## Streams -/

section
variable (label : Nat → Nat → String) (base later : List Value)

theorem data_stack_pair :
    (Evaluation.stack label {} 0 [] [base, later]).documents.map Document.data = base ++ later := by
  have hdata := Evaluation.data_stack label [base, later] {} 0 []
  simpa using hdata

theorem mem_parents_stack_pair {patch id : Nat} :
    id ∈ (Evaluation.stack label {} 0 [] [base, later]).parents patch ↔
      base.length ≤ patch ∧ patch < base.length + later.length ∧ id < base.length := by
  have hsize : (Evaluation.addLayer {} (label 0) [] base).size = base.length := by
    rw [Evaluation.size_addLayer]
    exact Nat.zero_add _
  have hempty : (if base.isEmpty then [] else List.range' 0 base.length) = List.range' 0 base.length := by
    split
    · rename_i hnil
      rw [List.isEmpty_iff.mp hnil]
      rfl
    · rfl
  have hstack : Evaluation.stack label {} 0 [] [base, later] =
      Evaluation.addLayer (Evaluation.addLayer {} (label 0) [] base) (label 1)
        (List.range' 0 base.length) later := by
    rw [← hempty]
    rfl
  rw [hstack, Evaluation.mem_parents_addLayer, Evaluation.mem_parents_addLayer, hsize]
  simp [Corpus.parents]

end

/-- A stream of documents, and layered over it the patches to another stream. -/
def patchedStream (label : Nat → Nat → String) (sources targets : List Value) : Corpus :=
  Evaluation.stack label {} 0 []
    [sources, (sources.zip targets).map fun (v, w) => v.diffDocument w]

section
variable (label : Nat → Nat → String) (sources targets : List Value)

theorem data_patchedStream : (patchedStream label sources targets).documents.map Document.data =
    sources ++ (sources.zip targets).map fun (v, w) => v.diffDocument w :=
  data_stack_pair ..

theorem size_patchedStream : (patchedStream label sources targets).size =
    sources.length + (sources.zip targets).length := by
  have hlength := congrArg List.length (data_patchedStream label sources targets)
  rwa [List.length_map, List.length_append, List.length_map] at hlength

end

section
variable (label : Nat → Nat → String) {sources targets : List Value}

theorem data_patchedStream_source {id : Nat} (hid : id < sources.length) :
    (patchedStream label sources targets).data id = sources[id] := by
  rw [Corpus.data_eq, data_patchedStream, List.getElem?_append_left hid,
    List.getElem?_eq_getElem hid]
  rfl

variable (h : ∀ v ∈ sources ++ targets, v.DataMap)
include h

theorem spread_patchedStream : Spread sources.length sources.length (sources.zip targets)
    ⟨patchedStream label sources targets, List.range sources.length⟩ := by
  refine ⟨rfl, le_rfl, fun hne => ?_, size_patchedStream label _ _, fun id hid => ?_,
    fun patch hle hlt id hid => ?_, fun p hp => ?_, ?_⟩
  · rw [List.length_pos_iff]
    rintro rfl
    exact hne rfl
  · rw [data_patchedStream_source label hid]
    exact (h _ (List.mem_append_left _ (List.getElem_mem hid))).isRecord
  · rw [size_patchedStream] at hlt
    exact (mem_parents_stack_pair ..).mpr ⟨hle, by simpa using hlt, hid⟩
  · obtain ⟨hv, hw⟩ := List.of_mem_zip hp
    exact ⟨h _ (List.mem_append_left _ hv), h _ (List.mem_append_right _ hw)⟩
  · have hall := (patchedStream label sources targets).map_data_range' sources.length
    rwa [size_patchedStream, Nat.add_sub_cancel_left, data_patchedStream, List.drop_left] at hall

theorem ofCorpus_patchedStream :
    ofCorpus (patchedStream label sources targets)
      (List.range (patchedStream label sources targets).size) =
    (List.range' sources.length (sources.zip targets).length).foldlM add
      ⟨patchedStream label sources targets, List.range sources.length⟩ := by
  have hsources : (List.range sources.length).foldlM add
      ⟨patchedStream label sources targets, []⟩ =
        .ok ⟨patchedStream label sources targets, List.range sources.length⟩ := by
    refine foldlM_add (fun id hid taken => ?_) []
    have hid := List.mem_range.mp hid
    have hmap : ((patchedStream label sources targets).data id).DataMap := by
      rw [data_patchedStream_source label hid]
      exact h _ (List.mem_append_left _ (List.getElem_mem hid))
    have hl := hmap.1.dollarFree.literal
    refine takeIn_of_parentless ?_ (selection_literal hl) (Value.normalize_literal hl "") taken
    rw [List.eq_nil_iff_forall_not_mem]
    intro p hp
    exact ((mem_parents_stack_pair ..).mp hp).1.not_gt hid
  have hrange := List.range'_append_1 (s := 0) (m := sources.length) (n := (sources.zip targets).length)
  rw [Nat.zero_add, ← List.range_eq_range', ← List.range_eq_range'] at hrange
  rw [ofCorpus, size_patchedStream, ← hrange, List.foldlM_append, hsources]
  rfl

theorem replayed_of_patchedStream {a : Assembly}
    (ha : ofCorpus (patchedStream label sources targets)
      (List.range (patchedStream label sources targets).size) = .ok a) :
    a.result = List.range sources.length ∧
      sources.map (replay (sources.zip targets)) =
        a.result.map fun id => .ok (a.corpus.data id) := by
  rw [ofCorpus_patchedStream label h] at ha
  obtain ⟨hresult, hreplay⟩ := (spread_patchedStream label h).replayed ha
  refine ⟨hresult, ?_⟩
  rw [hresult]
  refine List.ext_getElem (by simp) fun id hid _ => ?_
  rw [List.length_map] at hid
  rw [List.getElem_map, List.getElem_map, List.getElem_range, ← hreplay id hid,
    data_patchedStream_source label hid]

theorem exists_patchedStream_iff :
    (∃ a, ofCorpus (patchedStream label sources targets)
      (List.range (patchedStream label sources targets).size) = .ok a) ↔
    ∀ v ∈ sources, ∃ w, replay (sources.zip targets) v = .ok w := by
  constructor
  · rintro ⟨a, ha⟩ v hv
    have hmem := List.mem_map_of_mem (f := replay (sources.zip targets)) hv
    rw [(replayed_of_patchedStream label h ha).2] at hmem
    obtain ⟨id, -, hid⟩ := List.mem_map.mp hmem
    exact ⟨_, hid.symm⟩
  · intro hall
    rw [ofCorpus_patchedStream label h]
    refine (spread_patchedStream label h).exists_run fun id hid => ?_
    rw [data_patchedStream_source label hid]
    exact hall _ (List.getElem_mem hid)

end

/-- The patches between two streams of documents, layered over the first stream, are taken in exactly
if they all can be merged into each document of it. These documents then are the outcome, with all
patches merged into each of them. So the outcome is the second stream exactly if this gives each
document of it from the one in its place, as it does for one document and one patch. -/
theorem ofCorpus_patches (sources targets : List Value)
    (hmaps : ∀ v ∈ sources ++ targets, v.Data ∧ v.isMap) (first second : String) (raw : Bool)
    (label : Nat → Nat → String) :
    let patches := (CommandLine.Command.diff first second raw).documents [sources, targets]
    let c := Evaluation.stack label {} 0 [] [sources, patches]
    let replayed := replay (sources.zip targets)
    ((∃ a, ofCorpus c (List.range c.size) = .ok a) ↔ ∀ v ∈ sources, ∃ w, replayed v = .ok w) ∧
    (∀ a, ofCorpus c (List.range c.size) = .ok a → a.result = List.range sources.length ∧
      sources.map replayed = a.result.map fun id => .ok (a.corpus.data id)) ∧
    ((∃ a, ofCorpus c (List.range c.size) = .ok a ∧ a.result = List.range sources.length ∧
      a.result.map a.corpus.data = targets) ↔ sources.map replayed = targets.map .ok) ∧
    (∀ source target, sources = [source] → targets = [target] →
      sources.map replayed = targets.map .ok) := by
  intro patches c replayed
  have hsucceeds : (∃ a, ofCorpus c (List.range c.size) = .ok a) ↔
      ∀ v ∈ sources, ∃ w, replayed v = .ok w := exists_patchedStream_iff label hmaps
  have hholds : ∀ a, ofCorpus c (List.range c.size) = .ok a →
      a.result = List.range sources.length ∧
        sources.map replayed = a.result.map fun id => .ok (a.corpus.data id) :=
    fun a ha => replayed_of_patchedStream label hmaps ha
  refine ⟨hsucceeds, hholds, ⟨?_, fun heq => ?_⟩, ?_⟩
  · rintro ⟨a, ha, hresult, rfl⟩
    rw [(hholds a ha).2, List.map_map]
    rfl
  · obtain ⟨a, ha⟩ := hsucceeds.mpr fun v hv => by
      have hmem : replayed v ∈ targets.map Except.ok := heq ▸ List.mem_map_of_mem hv
      obtain ⟨w, -, hw⟩ := List.mem_map.mp hmem
      exact ⟨w, hw.symm⟩
    obtain ⟨hresult, hreplay⟩ := hholds a ha
    refine ⟨a, ha, hresult, ?_⟩
    have hmap : (a.result.map a.corpus.data).map Except.ok = targets.map (Except.ok (ε := Error)) := by
      rw [List.map_map, ← heq, hreplay]
      rfl
    exact List.map_injective_iff.mpr (fun _ _ => Except.ok.inj) hmap
  · rintro source target rfl rfl
    have hmerged := Value.merge_diff_of_dataMap (hmaps source (by simp)) (hmaps target (by simp))
    simp [replayed, replay, hmerged]

theorem ofCorpus_patches_of_common_change :
    let sources : List Value := [.map [("id", .int 1)], .map [("id", .int 2), ("name", .string "x")]]
    let labels : Value := .map [("tags", .list [])]
    let targets : List Value :=
      [.map [("id", .int 1), ("labels", labels)],
        .map [("id", .int 2), ("labels", labels), ("name", .string "x")]]
    let patches := (CommandLine.Command.diff "a" "b" false).documents [sources, targets]
    let c := Evaluation.stack Evaluation.layerLabel {} 0 [] [sources, patches]
    ∃ a, ofCorpus c (List.range c.size) = .ok a ∧ a.result = [0, 1] ∧
      a.result.map a.corpus.data = targets := by
  intro sources labels targets patches c
  obtain ⟨-, -, houtcome, -⟩ :=
    ofCorpus_patches sources targets (by decide) "a" "b" false Evaluation.layerLabel
  exact houtcome.mpr (by cbv)

/-- Of two documents each gets the patch for the other too. -/
theorem ofCorpus_patches_of_two_documents :
    let sources : List Value := [.map [("a", .int 1)], .map [("b", .int 1)]]
    let targets : List Value := [.map [("a", .int 2)], .map [("b", .int 2)]]
    let patches := (CommandLine.Command.diff "a" "b" false).documents [sources, targets]
    let c := Evaluation.stack Evaluation.layerLabel {} 0 [] [sources, patches]
    let both : Value := .map [("a", .int 2), ("b", .int 2)]
    (∀ v ∈ sources ++ targets, v.Data ∧ v.isMap) ∧
      (∃ a, ofCorpus c (List.range c.size) = .ok a ∧ a.result = [0, 1] ∧
        a.result.map a.corpus.data = [both, both]) ∧
      ¬ ∃ a, ofCorpus c (List.range c.size) = .ok a ∧ a.result = [0, 1] ∧
        a.result.map a.corpus.data = targets := by
  intro sources targets patches c both
  obtain ⟨a, ha, hresult, hboth⟩ : ∃ a, ofCorpus c (List.range c.size) = .ok a ∧
      a.result = [0, 1] ∧ a.result.map a.corpus.data = [both, both] := ⟨_, by cbv, rfl, by cbv⟩
  refine ⟨by decide, ⟨a, ha, hresult, hboth⟩, ?_⟩
  rintro ⟨b, hb, -, htargets⟩
  obtain rfl : b = a := Except.ok.inj (hb.symm.trans ha)
  exact absurd (htargets.symm.trans hboth) (by decide)

end Assembly

end Overlay
