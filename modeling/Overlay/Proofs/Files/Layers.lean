import Mathlib
import Overlay.Files.Evaluation
import Overlay.Proofs.Files.Chain
import Overlay.Proofs.Literal.Evaluation
import Overlay.Proofs.Result
import Overlay.Proofs.Unlabelled.Evaluation

/-!
# Files as layers

The last of a chain of files is evaluated as the layers that their texts are, if no file without
documents stands between two that have some. A file after an empty one inherits from nothing.
-/

namespace Overlay

/-- The files of a chain are entries of their own in the tree that has them. -/
theorem FileChain.In.length_le {c : FileChain} {t : FileTree} {extensions : List String}
    (h : c.In t extensions) : c.texts.length ≤ t.nodes.length := by
  have hnodup : ((List.range c.texts.length).map fun k =>
      t.here ++ (c.directory ++ [c.name k])).Nodup := by
    refine List.nodup_range.map_on fun j hj k hk heq => ?_
    have hname : c.name j = c.name k := by simpa using heq
    exact h.name_injective (List.mem_range.mp hj) (List.mem_range.mp hk) hname
  have hsubset : ((List.range c.texts.length).map fun k => t.here ++ (c.directory ++ [c.name k])) ⊆
      t.nodes.map Prod.fst := by
    intro p hp
    obtain ⟨k, hk, rfl⟩ := List.mem_map.mp hp
    have hfile := h.files k (List.mem_range.mp hk)
    rw [FileTree.nodeIn?_eq_lookup] at hfile
    exact List.mem_map_of_mem (mem_of_lookup hfile)
  simpa using (List.subperm_of_subset hnodup hsubset).length_le

theorem FileChain.Holds.mapM_decodeStream {c : FileChain} {format : Format}
    {layers : List (List Value)} (h : c.Holds format layers) :
    c.texts.mapM format.decodeStream = .ok layers :=
  Result.mapM_of_forall₂ h.decoded

namespace Evaluation

variable (e : Evaluation) {t : FileTree} {extensions : List String} {c : FileChain}
  {format : Format} {layers : List (List Value)} {bound n : Nat}

/-- Each file inherits from the one right before it. -/
theorem evaluateFile_path (h : c.In t extensions) (hholds : c.Holds format layers)
    (hbound : t.nodes.length ≤ bound) (hlast : c.texts.length = n + 1) :
    e.evaluateFile (FileTree.store bound).toFileReader extensions (c.path n) t =
      (e.evaluate (chain c.label {} 0 [] layers) (List.range layers.flatten.length), t) := by
  have hn : layers.length = n + 1 := hholds.decoded.length_eq ▸ hlast
  have hdepth : n < bound + 1 := by
    have hle := h.length_le
    omega
  obtain ⟨l, hload, hl⟩ : ∃ l, Loader.load (FileTree.store bound).toFileReader (c.path n)
      { extensions } t = ((.ok (lastIds 0 [] (layers.take (n + 1))), l), t) ∧
        Loader.LoadedTo c layers (n + 1) l :=
    Loader.loadWithin_path h hholds bound (hn ▸ Nat.lt_succ_self n) hdepth
      fun _ _ => List.not_mem_nil
  have hcorpus : l.corpus = chain c.label {} 0 [] layers := by
    rw [hl.corpus, List.take_of_length_le hn.le]
  have horder : l.order = List.range layers.flatten.length := by
    rw [hl.order, hcorpus, size_chain]
    exact congrArg List.range (Nat.zero_add _)
  rw [evaluateFile, run_bind hload]
  simp only [hcorpus, horder]
  rfl

theorem evaluateLayers_texts (hholds : c.Holds format layers) :
    e.evaluateLayers format c.texts =
      e.evaluate (stack layerLabel {} 0 [] layers) (List.range layers.flatten.length) := by
  have hsize : (stack layerLabel {} 0 [] layers).size = layers.flatten.length := by
    have hdata := congrArg List.length (data_stack layerLabel layers {} 0 [])
    simpa [Corpus.size] using hdata
  rw [evaluateLayers, layerCorpus_eq, hholds.mapM_decodeStream, ← hsize]
  rfl

/-- The last of a chain of files is evaluated with each file inheriting from the one right before it.
If no file without documents stands between two that have some, that comes to what the texts come to
as layers: the same outputs, or the same error but for the document that it names. -/
theorem evaluateFile_chain (h : c.In t extensions) (hholds : c.Holds format layers)
    (hbound : t.nodes.length ≤ bound) (hlast : c.texts.length = n + 1) :
    ∃ x, e.evaluateFile (FileTree.store bound).toFileReader extensions (c.path n) t = (x, t) ∧
      x = e.evaluate (chain c.label {} 0 [] layers) (List.range layers.flatten.length) ∧
      (Gapless layers →
        Course.anonymous x = Course.anonymous (e.evaluateLayers format c.texts)) := by
  refine ⟨_, evaluateFile_path e h hholds hbound hlast, rfl, fun hgapless => ?_⟩
  rw [chain_eq_stack c.label hgapless, evaluateLayers_texts e hholds, ← evaluate_unlabelled,
    stack_unlabelled, ← evaluate_unlabelled (c := stack layerLabel {} 0 [] layers),
    stack_unlabelled]

theorem evaluateFile_chain_of_three_files :
    let c : FileChain :=
      ⟨["conf"], ["app", "dev", "local"], "properties", ["# no documents", "a=1\n---\nb=2", "c=3"]⟩
    ∃ x, evaluateFile {} (FileTree.store 4).toFileReader Format.defaultExtensions
        "conf/app.dev.local.properties" (c.tree "/home") = (x, c.tree "/home") ∧
      Course.anonymous x = Course.anonymous (evaluateLayers {} .properties c.texts) := by
  intro c
  have hnamed : c.Named Format.defaultExtensions :=
    .of_dotless rfl (by decide) (by decide) (by decide) (by decide)
  have hholds : c.Holds .properties
      [[], [.map [("a", .string "1")], .map [("b", .string "2")]], [.map [("c", .string "3")]]] := by
    refine ⟨by cbv, ?_, by decide⟩
    exact .cons (by cbv) (.cons (by cbv) (.cons (by cbv) .nil))
  have hgapless : Gapless
      [[], [.map [("a", .string "1")], .map [("b", .string "2")]], [.map [("c", .string "3")]]] := by
    rintro (_ | ⟨_, _ | ⟨_, _ | ⟨_, before⟩⟩⟩) after heq <;> simp at heq ⊢
  have hbound : (c.tree "/home").nodes.length ≤ 4 := by decide
  obtain ⟨x, hfile, -, hlayers⟩ :=
    evaluateFile_chain {} (n := 2) (hnamed.in_tree "/home" (by decide)) hholds hbound rfl
  exact ⟨x, hfile, hlayers hgapless⟩

/-- A file after an empty one inherits from nothing, though as a layer it inherits from the one
before that. -/
theorem evaluateFile_after_empty_file :
    let c : FileChain := ⟨[], ["app", "dev", "local"], "properties", ["a=1", "", "b=2"]⟩
    c.In (c.tree "/home") Format.defaultExtensions ∧
    c.Holds .properties [[.map [("a", .string "1")]], [], [.map [("b", .string "2")]]] ∧
    evaluateFile {} (FileTree.store 3).toFileReader Format.defaultExtensions
        "app.dev.local.properties" (c.tree "/home") =
      (pure [.map [("a", .string "1")], .map [("b", .string "2")]], c.tree "/home") ∧
    evaluateLayers {} .properties c.texts =
      pure [.map [("a", .string "1"), ("b", .string "2")]] := by
  intro c
  have hnamed : c.Named Format.defaultExtensions :=
    .of_dotless rfl (by decide) (by decide) (by decide) (by decide)
  have hin := hnamed.in_tree "/home" (by decide)
  have hholds : c.Holds .properties
      [[.map [("a", .string "1")]], [], [.map [("b", .string "2")]]] := by
    refine ⟨by cbv, ?_, by decide⟩
    exact .cons (by cbv) (.cons (by cbv) (.cons (by cbv) .nil))
  refine ⟨hin, hholds, ?_, ?_⟩
  · have hbound : (c.tree "/home").nodes.length ≤ 3 := by decide
    have hassembled : Assembly.ofCorpus (chain c.label {} 0 []
        [[.map [("a", .string "1")]], [], [.map [("b", .string "2")]]]) [0, 1] =
          .ok ⟨⟨[⟨"app.properties#0", .map [("a", .string "1")], []⟩,
            ⟨"app.dev.local.properties#0", .map [("b", .string "2")], []⟩]⟩, [0, 1]⟩ := by cbv
    have houtputs := evaluate_literal {} hassembled (by decide)
    have hfile := evaluateFile_path {} (n := 2) hin hholds hbound rfl
    exact hfile.trans (congrArg (·, c.tree "/home") houtputs)
  · have hassembled : Assembly.ofCorpus (stack layerLabel {} 0 []
        [[.map [("a", .string "1")]], [], [.map [("b", .string "2")]]]) [0, 1] =
          .ok ⟨⟨[⟨"layer0#0", .map [("a", .string "1"), ("b", .string "2")], [1]⟩,
            ⟨"layer2#0", .map [("b", .string "2")], [0]⟩]⟩, [0]⟩ := by cbv
    have houtputs := evaluate_literal {} hassembled (by decide)
    rw [evaluateLayers_texts {} hholds]
    exact houtputs

end Evaluation

end Overlay
