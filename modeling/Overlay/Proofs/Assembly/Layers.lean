import Mathlib.Data.List.Nodup
import Overlay.Evaluation
import Overlay.Proofs.Assembly.Folds

/-!
# Stacked layers

Layers of documents are stacked so that each document inherits from all of the layer before, and so
from all of the first layer. If no document has a selector, every later one is merged into each of
the first layer.
-/

namespace Overlay

namespace Evaluation

/-- The corpus of layers, each inheriting from the one before it that is not empty. The layers are
counted from a number, and `parents` are the documents before them. -/
def stack (label : Nat → Nat → String) (c : Corpus) (number : Nat) (parents : List Nat) :
    List (List Value) → Corpus
  | [] => c
  | values :: rest =>
    stack label (addLayer c (label number) parents values) (number + 1)
      (if values.isEmpty then parents else List.range' c.size values.length) rest

def layerLabel (number i : Nat) : String :=
  "layer" ++ toString number ++ "#" ++ toString i

theorem layerCorpus_eq (format : Format) (c : Corpus) (number : Nat) (parents : List Nat)
    (texts : List String) : layerCorpus format c number parents texts =
      stack layerLabel c number parents <$> texts.mapM format.decodeStream := by
  induction texts generalizing c number parents with
  | nil => rfl
  | cons text rest ih =>
    rw [layerCorpus, List.mapM_cons]
    cases format.decodeStream text with
    | error e => rfl
    | ok values =>
      simp only [Result.ok_bind, ih]
      cases List.mapM format.decodeStream rest <;> rfl

/-! ## One layer -/

section
variable (c : Corpus) (label : Nat → String) (parents : List Nat) (values : List Value)

theorem documents_addLayer : (addLayer c label parents values).documents =
    c.documents ++ values.zipIdx.map fun (v, i) =>
      ⟨label i, v, parents.foldl (fun ids id => insertId id ids) []⟩ := by
  have hfold : ∀ (pairs : List (Value × Nat)) (c : Corpus),
      (pairs.foldl (fun c (v, i) => c.add (label i) v parents) c).documents =
        c.documents ++ pairs.map fun (v, i) =>
          ⟨label i, v, parents.foldl (fun ids id => insertId id ids) []⟩ := by
    intro pairs
    induction pairs with
    | nil => simp
    | cons pair pairs ih =>
      intro c
      rw [List.foldl_cons, ih]
      exact List.append_assoc ..
  exact hfold _ c

theorem size_addLayer : (addLayer c label parents values).size = c.size + values.length := by
  simp [Corpus.size, documents_addLayer]

theorem data_addLayer : (addLayer c label parents values).documents.map Document.data =
    c.documents.map Document.data ++ values := by
  rw [documents_addLayer, List.map_append, List.map_map]
  congr 1
  exact values.zipIdx_map_fst 0

theorem mem_parents_addLayer {id p : Nat} : p ∈ (addLayer c label parents values).parents id ↔
    p ∈ c.parents id ∨ c.size ≤ id ∧ id < c.size + values.length ∧ p ∈ parents := by
  by_cases hid : id < c.size
  · have hold : (addLayer c label parents values).parents id = c.parents id := by
      rw [Corpus.parents, documents_addLayer, List.getElem?_append_left hid]
      rfl
    rw [hold]
    have hnot : ¬ c.size ≤ id := by omega
    simp [hnot]
  · have hle : c.size ≤ id := by omega
    rw [Corpus.parents_of_size_le hle, Corpus.parents, documents_addLayer,
      List.getElem?_append_right hle, List.getElem?_map, List.getElem?_zipIdx]
    change p ∈ ((Option.map _ (Option.map _ (values[id - c.size]?))).map Document.parents).getD [] ↔ _
    by_cases hlt : id - c.size < values.length
    · have hlt' : id < c.size + values.length := by omega
      rw [List.getElem?_eq_getElem hlt]
      simp [mem_foldl_insertId, hle, hlt']
    · have hnot : ¬ id < c.size + values.length := by omega
      rw [List.getElem?_eq_none (by omega)]
      simp [hnot]

end

/-! ## Stacks -/

theorem data_stack (label : Nat → Nat → String) : ∀ (layers : List (List Value)) (c : Corpus)
    (number : Nat) (parents : List Nat),
    (stack label c number parents layers).documents.map Document.data =
      c.documents.map Document.data ++ layers.flatten
  | [], c, _, _ => by simp [stack]
  | values :: rest, c, number, parents => by
    rw [stack, data_stack label rest, data_addLayer, List.append_assoc, List.flatten_cons]

/-- The first documents of a corpus have no parents, and every other inherits from all of them, as
will one that gets the parents given. -/
structure Stacked (b : Nat) (c : Corpus) (parents : List Nat) : Prop where
  le : b ≤ c.size
  ordered : c.Ordered
  roots : ∀ id < b, c.parents id = []
  inherits : ∀ id, b ≤ id → id < c.size → ∀ root < b, c.Inherits id root
  bounded : ∀ p ∈ parents, p < c.size
  reach : ∀ root < b, ∃ p ∈ parents, p = root ∨ c.Inherits p root

theorem stacked_base (label : Nat → String) (values : List Value) :
    Stacked values.length (addLayer {} label [] values) (List.range' 0 values.length) := by
  have hsize : (addLayer {} label [] values).size = values.length := by
    rw [size_addLayer]
    exact Nat.zero_add _
  have hparents : ∀ id, (addLayer {} label [] values).parents id = [] := by
    intro id
    rw [List.eq_nil_iff_forall_not_mem]
    intro p hp
    rcases (mem_parents_addLayer {} label [] values).mp hp with hp | ⟨-, -, hp⟩ <;> cases hp
  refine ⟨hsize.ge, ?_, fun id _ => hparents id, ?_, ?_, fun root hroot => ⟨root, ?_, .inl rfl⟩⟩
  · intro id p hp
    rw [hparents] at hp
    cases hp
  · intro id hle hlt
    omega
  · intro p hp
    rw [hsize]
    simpa using hp
  · simpa using hroot

theorem Stacked.addLayer {b : Nat} {c : Corpus} {parents : List Nat} (h : Stacked b c parents)
    (label : Nat → String) {values : List Value} (hne : values ≠ []) :
    Stacked b (addLayer c label parents values) (List.range' c.size values.length) := by
  have hmem {id p : Nat} : p ∈ (Evaluation.addLayer c label parents values).parents id ↔
      p ∈ c.parents id ∨ c.size ≤ id ∧ id < c.size + values.length ∧ p ∈ parents :=
    mem_parents_addLayer c label parents values
  have hsize := size_addLayer c label parents values
  have hmono : ∀ {id root : Nat}, c.Inherits id root →
      (Evaluation.addLayer c label parents values).Inherits id root :=
    Corpus.Inherits.mono fun id p hp => hmem.mpr (.inl hp)
  have hnew : ∀ id, c.size ≤ id → id < c.size + values.length → ∀ root < b,
      (Evaluation.addLayer c label parents values).Inherits id root := by
    intro id hle hlt root hroot
    obtain ⟨p, hp, hpr⟩ := h.reach root hroot
    have hparent := hmem.mpr (.inr ⟨hle, hlt, hp⟩)
    rcases hpr with rfl | hpr
    · exact .single hparent
    · exact .head hparent (hmono hpr)
  refine ⟨?_, ?_, ?_, ?_, ?_, ?_⟩
  · rw [hsize]
    exact h.le.trans (Nat.le_add_right _ _)
  · intro id p hp
    rcases hmem.mp hp with hp | ⟨hle, -, hp⟩
    · exact h.ordered id p hp
    · exact (h.bounded p hp).trans_le hle
  · intro id hid
    rw [List.eq_nil_iff_forall_not_mem]
    intro p hp
    rcases hmem.mp hp with hp | ⟨hle, -, -⟩
    · rw [h.roots id hid] at hp
      cases hp
    · have := h.le
      omega
  · intro id hle hlt root hroot
    by_cases hid : id < c.size
    · exact hmono (h.inherits id hle hid root hroot)
    · exact hnew id (Nat.le_of_not_lt hid) (hsize ▸ hlt) root hroot
  · intro p hp
    rw [hsize]
    exact (List.mem_range'_1.mp hp).2
  · intro root hroot
    have hpos := List.length_pos_of_ne_nil hne
    exact ⟨c.size, List.mem_range'_1.mpr ⟨le_rfl, Nat.lt_add_of_pos_right hpos⟩,
      .inr (hnew c.size le_rfl (Nat.lt_add_of_pos_right hpos) root hroot)⟩

theorem Stacked.stack (label : Nat → Nat → String) {b : Nat} : ∀ {layers : List (List Value)}
    {c : Corpus} {number : Nat} {parents : List Nat}, Stacked b c parents →
      (∀ values ∈ layers, values ≠ []) → ∃ last, Stacked b (stack label c number parents layers) last
  | [], _, _, parents, h, _ => ⟨parents, h⟩
  | values :: rest, c, number, parents, h, hne => by
    obtain ⟨hvalues, hne⟩ := List.forall_mem_cons.mp hne
    rw [Evaluation.stack, if_neg (by simpa using hvalues)]
    exact Stacked.stack label (h.addLayer (label number) hvalues) hne

end Evaluation

namespace Assembly

open Evaluation

section
variable {b : Nat} {c : Corpus} {parents : List Nat} (h : Stacked b c parents)
include h

theorem linked_iff_of_stacked {id root : Nat} (hroot : root < b) :
    c.Linked id root ↔ b ≤ id ∧ id < c.size := by
  constructor
  · intro hlinked
    have hne := hlinked.parents_ne_nil h.ordered
    refine ⟨Nat.le_of_not_lt fun hlt => hne (h.roots id hlt), Nat.lt_of_not_le fun hle => ?_⟩
    exact hne (Corpus.parents_of_size_le hle)
  · rintro ⟨hle, hlt⟩
    exact (h.inherits id hle hlt root hroot).linked

theorem range_of_stacked : List.range c.size = List.range b ++ List.range' b (c.size - b) := by
  have happend := List.range'_append_1 (s := 0) (m := b) (n := c.size - b)
  rw [List.range_eq_range', List.range_eq_range', ← Nat.add_sub_of_le h.le]
  simpa using happend.symm

theorem roots_of_stacked (hb : 0 < b) :
    ((List.range c.size).filter fun id => (c.parents id).isEmpty) = List.range b := by
  have hlow : ((List.range b).filter fun id => (c.parents id).isEmpty) = List.range b := by
    rw [List.filter_eq_self]
    intro id hid
    rw [h.roots id (List.mem_range.mp hid)]
    rfl
  have hhigh : ((List.range' b (c.size - b)).filter fun id => (c.parents id).isEmpty) = [] := by
    rw [List.filter_eq_nil_iff]
    intro id hid
    obtain ⟨hle, hlt⟩ := List.mem_range'_1.mp hid
    have hne := (h.inherits id hle (by omega) 0 hb).parents_ne_nil
    simpa using hne
  rw [range_of_stacked h, List.filter_append, hlow, hhigh, List.append_nil]

theorem layersOf_of_stacked {root : Nat} (hroot : root < b) : layersOf c c.size root =
    withoutParent (c.data root) ::
      ((c.documents.map Document.data).drop b).map withoutParent := by
  have hlinked : ∀ n < c.size, n = root ∨ c.Linked n root ↔
      (n == root || decide (b ≤ n)) = true := by
    intro n hn
    rw [linked_iff_of_stacked h hroot, and_iff_left hn]
    simp
  have hlow : (List.range b).filter (fun n => n == root || decide (b ≤ n)) = [root] := by
    have honly : ∀ n ∈ List.range b, (n == root || decide (b ≤ n)) = (n == root) := by
      intro n hn
      have hlt := List.mem_range.mp hn
      simp [hlt]
    rw [List.filter_congr honly, List.filter_beq, List.count_eq_one_of_mem List.nodup_range
      (List.mem_range.mpr hroot)]
    rfl
  have hhigh : (List.range' b (c.size - b)).filter (fun n => n == root || decide (b ≤ n)) =
      List.range' b (c.size - b) := by
    rw [List.filter_eq_self]
    intro n hn
    simp [(List.mem_range'_1.mp hn).1]
  rw [layersOf_eq hlinked, range_of_stacked h, List.filter_append, hlow, hhigh,
    ← c.map_data_range', List.map_append, List.map_map]
  rfl

end

/-- Layers of documents without selectors are assembled exactly if each document of the first layer
can be merged with all later ones, in order and without what they say of their parents, and the
outcome then is what these folds come to. -/
theorem ofCorpus_stack (base : List Value) (rest : List (List Value)) (hbase : base ≠ [])
    (hrest : ∀ values ∈ rest, values ≠ [])
    (hselect : ∀ values ∈ base :: rest, ∀ v ∈ values, Unselecting v) :
    let c := stack layerLabel {} 0 [] (base :: rest)
    let fold (v : Value) := Value.mergeAll (withoutParent v :: rest.flatten.map withoutParent)
    (∀ (format : Format) (texts : List String),
      texts.mapM format.decodeStream = .ok (base :: rest) →
        layerCorpus format {} 0 [] texts = .ok c) ∧
    ((∃ a, ofCorpus c (List.range c.size) = .ok a) ↔ ∀ v ∈ base, ∃ merged, fold v = .ok merged) ∧
    ∀ a, ofCorpus c (List.range c.size) = .ok a → a.result = List.range base.length ∧
      base.map fold = a.result.map fun id => .ok (a.corpus.data id) := by
  intro c fold
  obtain ⟨last, h⟩ : ∃ last, Stacked base.length c last := by
    have hstack : ∃ last, Stacked base.length (stack layerLabel (addLayer {} (layerLabel 0) [] base) 1
        (List.range' 0 base.length) rest) last :=
      (stacked_base (layerLabel 0) base).stack layerLabel hrest
    rwa [show c = stack layerLabel _ 1 _ rest from rfl, if_neg (by simpa using hbase)]
  have hb : 0 < base.length := List.length_pos_of_ne_nil hbase
  have hdata : c.documents.map Document.data = base ++ rest.flatten :=
    data_stack layerLabel (base :: rest) {} 0 []
  have hunselecting : ∀ id, Unselecting (c.data id) := by
    refine Corpus.forall_data (fun d hd => ?_) ⟨rfl, rfl⟩
    have hmem : d.data ∈ (base :: rest).flatten := by
      rw [List.flatten_cons, ← hdata]
      exact List.mem_map_of_mem hd
    obtain ⟨values, hvalues, hv⟩ := List.mem_flatten.mp hmem
    exact hselect values hvalues d.data hv
  have hfold : ∀ id, (hid : id < base.length) →
      Value.mergeAll (layersOf c c.size id) = fold base[id] := by
    intro id hid
    have hbaseId : c.data id = base[id] := by
      rw [Corpus.data_eq, hdata, List.getElem?_append_left hid, List.getElem?_eq_getElem hid]
      rfl
    rw [layersOf_of_stacked h hid, hdata, List.drop_left, hbaseId]
  have hsucceeds : (∃ a, ofCorpus c (List.range c.size) = .ok a) ↔
      ∀ v ∈ base, ∃ merged, fold v = .ok merged := by
    rw [exists_ofCorpus_iff h.ordered hunselecting]
    constructor
    · intro hall v hv
      obtain ⟨id, hid, rfl⟩ := List.getElem_of_mem hv
      rw [← hfold id hid]
      exact hall id (hid.trans_le h.le) (h.roots id hid)
    · intro hall id hsize hnil
      have hid : id < base.length := by
        refine Nat.lt_of_not_le fun hle => ?_
        exact (h.inherits id hle hsize 0 hb).parents_ne_nil hnil
      rw [hfold id hid]
      exact hall _ (List.getElem_mem hid)
  refine ⟨?_, hsucceeds, ?_⟩
  · intro format texts htexts
    rw [layerCorpus_eq, htexts]
    rfl
  · intro a ha
    have hfolded := folded_of_foldlM h.ordered hunselecting le_rfl ha
    have hresult : a.result = List.range base.length := by
      rw [hfolded.upto.result, roots_of_stacked h hb]
    refine ⟨hresult, ?_⟩
    rw [hresult]
    refine List.ext_getElem (by simp) fun id hid _ => ?_
    rw [List.length_map] at hid
    rw [List.getElem_map, List.getElem_map, List.getElem_range, ← hfold id hid]
    exact hfolded.folds id (hresult ▸ List.mem_range.mpr hid)

theorem ofCorpus_stack_of_three_layers :
    let base : List Value := [.map [("a", .int 1)], .map [("b", .int 1)]]
    let rest : List (List Value) :=
      [[.map [("$parent", .null), ("a", .int 2)]], [.map [("b", .int 3)], .map [("b", .string "x")]]]
    ∃ a, ofCorpus (stack layerLabel {} 0 [] (base :: rest)) (List.range 5) = .ok a ∧
      (a.result.map fun id => (.ok (a.corpus.data id) : Result Value)) =
        [.ok (.map [("a", .int 2), ("b", .string "x")]),
          .ok (.map [("a", .int 2), ("b", .string "x")])] := by
  intro base rest
  obtain ⟨-, hsucceeds, hfolds⟩ :=
    ofCorpus_stack base rest (by decide) (by decide) (by decide)
  obtain ⟨a, ha⟩ := hsucceeds.mpr fun v hv => by
    rcases List.mem_cons.mp hv with rfl | hv
    · exact ⟨_, rfl⟩
    · rw [List.mem_singleton.mp hv]
      exact ⟨_, rfl⟩
  exact ⟨a, ha, (hfolds a ha).2.symm⟩

end Assembly

end Overlay
