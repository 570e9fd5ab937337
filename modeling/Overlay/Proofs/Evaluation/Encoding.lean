import Overlay.Proofs.Escape.Pipeline
import Overlay.Proofs.Evaluation.Alone
import Overlay.Proofs.Literal.Instantiation
import Overlay.Proofs.Pipeline

/-!
# Pipelines in documents

A pipeline in an otherwise escaped document runs on the escaped data, and what it makes goes through
the last steps as all that is in the document does. A clear pipeline so has the outcome that it has
on the data itself.
-/

namespace Overlay

namespace Value

/-- A map or list as a document with a pipeline for it. Other values have no place for one. -/
def withPipeline (pipeline : String) : Value → Value
  | .map entries =>
    .map (Entries.insert Directive.encode (.string pipeline) (escapeEntries entries))
  | .list items => .list (.map [(Directive.encode, .string pipeline)] :: escapeItems items)
  | v => v.escape

def isContainer : Value → Bool
  | .map _ | .list _ => true
  | _ => false

/-! ## The document is inert -/

section
variable {pipeline : String} (hp : isLiteral pipeline = true)
include hp

theorem markerFree_insertPipeline {entries : Entries Value} (h : (Value.map entries).MarkerFree) :
    (Value.map (Entries.insert Directive.encode (.string pipeline) entries)).MarkerFree := by
  refine markerFree_map.mpr fun e he => ?_
  rcases Entries.mem_insert he with rfl | he
  · exact ⟨isPlainEntry_iff.mpr ⟨rfl, beq_false_of_ne (ne_of_isLiteral hp rfl)⟩,
      markerFree_scalar (fun _ => nofun) (fun _ => nofun)⟩
  · exact markerFree_map.mp h e he

theorem expanded_insertPipeline {entries : Entries Value}
    (h : Expansion.Expanded (.map entries)) : Expansion.Expanded
      (.map (Entries.insert Directive.encode (.string pipeline) entries)) := by
  obtain ⟨⟨hreplace, hmerge⟩, hentries⟩ := Expansion.expanded_map.mp h
  refine Expansion.expanded_map.mpr ⟨⟨?_, ?_⟩, fun e he => ?_⟩
  · rw [Entries.lookup_insert_ne (by decide), hreplace]
  · rw [Entries.lookup_insert_ne (by decide), hmerge]
  · rcases Entries.mem_insert he with rfl | he
    · exact Expansion.expanded_string.mpr (Expansion.stringReference?_literal hp)
    · exact hentries e he

theorem markerFree_withPipeline (v : Value) : (v.withPipeline pipeline).MarkerFree := by
  have hv := (literal_escape v).markerFree
  cases v with
  | map entries => exact markerFree_insertPipeline hp hv
  | list items =>
    have hmarker := markerFree_insertPipeline hp (markerFree_map.mpr (List.forall_mem_nil _))
    exact markerFree_list.mpr (List.forall_mem_cons.mpr ⟨⟨rfl, hmarker⟩, markerFree_list.mp hv⟩)
  | _ => exact hv

theorem expanded_withPipeline (v : Value) : Expansion.Expanded (v.withPipeline pipeline) := by
  have hv := Expansion.expanded_of_literal (literal_escape v)
  cases v with
  | map entries => exact expanded_insertPipeline hp hv
  | list items =>
    have hmarker := expanded_insertPipeline hp
      (Expansion.expanded_map.mpr ⟨⟨rfl, rfl⟩, List.forall_mem_nil _⟩)
    exact Expansion.expanded_list.mpr
      (List.forall_mem_cons.mpr ⟨hmarker, Expansion.expanded_list.mp hv⟩)
  | _ => exact hv

theorem inert_withPipeline {key : String} (hkey : isLiteral key = true) (v : Value) :
    (Value.map [(key, v.withPipeline pipeline)]).Inert := by
  have hkeys : ∀ e ∈ [(key, v.withPipeline pipeline)], isLiteral e.1 = true :=
    List.forall_mem_singleton.mpr hkey
  have hdelete : (v.withPipeline pipeline).isString Directive.delete = false := by
    cases v with
    | string s => exact (literal_escape (.string s)).isString _ rfl
    | _ => rfl
  constructor
  · exact Assembly.selection_map_literal hkeys
  · exact markerFree_map.mpr (List.forall_mem_singleton.mpr ⟨isPlainEntry_iff.mpr
      ⟨isReplaceFlag_literal hkey _, hdelete⟩, markerFree_withPipeline hp v⟩)
  · exact Expansion.expanded_map.mpr ⟨⟨Entries.lookup_literal hkeys _ rfl,
      Entries.lookup_literal hkeys _ rfl⟩, List.forall_mem_singleton.mpr (expanded_withPipeline hp v)⟩
  · exact Entries.lookup_literal hkeys _ rfl

end

end Value

namespace Instantiation

variable {f : Frame} {again : Continuation} {env : Environment} {path : String}

/-! ## The pipeline runs on escaped data -/

theorem plainEntries_literal {entries : Entries Value} (hl : (Value.map entries).Literal) :
    plainEntries f again entries env path = pure entries := by
  have hkept : Value.substituteEntries .string entries = entries :=
    Value.map.inj (Value.substitute_string (.map entries))
  rw [plainEntries_literalKeys hl.keys (σ := .string) fun e he path => ?_, hkept]
  rw [instantiate_literal (Value.literal_map.mp hl e he).2, Value.substitute_string]

theorem plainItems_literal {items : List Value} (hl : (Value.list items).Literal) (marked : Bool)
    (position : Nat) : plainItems f again marked position items env path = pure items := by
  have hkept : Value.substituteItems .string items = items :=
    Value.list.inj (Value.substitute_string (.list items))
  rw [plainItems_literalKeys marked hl.keys (σ := .string) fun x hx path => ?_, hkept]
  rw [instantiate_literal (Value.literal_list.mp hl x hx), Value.substitute_string]

theorem encodeAt_literal {v : Value} (hl : v.Literal) (path pipeline : String) :
    encodeAt path v pipeline = (Pipeline.run pipeline v).mapError (Error.withPath path) := by
  rw [encodeAt, Value.firstRequired_literal hl]

theorem instantiate_insert_encode {entries : Entries Value} (hl : (Value.map entries).Literal)
    (pipeline : String) :
    instantiate f again (.map (Entries.insert Directive.encode (.string pipeline) entries)) env path =
      liftM (some <$> (Pipeline.run pipeline (.map entries)).mapError (Error.withPath path)) := by
  have hnone : ∀ d, isLiteral d = false → d ≠ Directive.encode →
      Entries.lookup d (Entries.insert Directive.encode (.string pipeline) entries) = none := by
    intro d hd hne
    rw [Entries.lookup_insert_ne hne]
    exact hl.keys.lookup d hd
  simp only [instantiate, encoded, contentOf, Entries.has,
    hnone Directive.repeatOver rfl (by decide), hnone Directive.decode rfl (by decide),
    hnone Directive.value rfl (by decide), Entries.lookup_insert_self, plainEntries_insert (.inr rfl),
    plainEntries_literal hl]
  simp only [pipelineName, Option.isSome_none, Bool.false_eq_true, if_false, Course.lift_ok,
    pure_bind, encodeAt_literal hl]
  cases (Pipeline.run pipeline (.map entries)).mapError (Error.withPath path) <;> rfl

section
variable {items : List Value} (hl : (Value.list items).Literal) (pipeline : String)
include hl

theorem pipelineNames_cons_encode :
    pipelineNames path (.map [(Directive.encode, .string pipeline)] :: items) = .ok [pipeline] := by
  have hrest := pipelineNames_unmarked (fun x hx => (unmarked_literalKeys hl.keys x hx).1) path
  have hmarker : (Value.map [(Directive.encode, .string pipeline)]).soleArgument? Directive.encode =
      some (.string pipeline) :=
    Value.soleArgument?_eq_some.mpr rfl
  unfold pipelineNames at hrest ⊢
  rw [List.filterMap_cons_some hmarker, List.mapM_cons, hrest]
  rfl

theorem instantiate_cons_encode :
    instantiate f again (.list (.map [(Directive.encode, .string pipeline)] :: items)) env path =
      liftM (some <$> (Pipeline.run pipeline (.list items)).mapError (Error.withPath path)) := by
  have hspec : markedSpec f again (.map [(Directive.encode, .string pipeline)] :: items) env path =
      pure none := by
    rw [markedSpec, if_neg (by decide),
      markedSpec_unmarked fun x hx => (unmarked_literalKeys hl.keys x hx).2]
  have hitems : plainItems f again false 0 (.map [(Directive.encode, .string pipeline)] :: items) env
      path = pure items := by
    simp only [plainItems, Value.soleArgument?, if_true, Option.isSome_some, plainItems_literal hl]
  have hrun : encodeThrough path [pipeline].reverse (.list items) =
      (Pipeline.run pipeline (.list items)).mapError (Error.withPath path) := by
    rw [encodeThrough, List.reverse_singleton, List.foldlM_cons, encodeAt_literal hl]
    exact Result.bind_ok _
  simp only [instantiate, listOf, pipelineNames_cons_encode hl, hspec, hitems, hrun, Course.lift_ok,
    pure_bind]
  cases (Pipeline.run pipeline (.list items)).mapError (Error.withPath path) <;> rfl

end

theorem instantiate_withPipeline {v : Value} (hv : v.isContainer = true) (pipeline : String) :
    instantiate f again (v.withPipeline pipeline) env path =
      liftM (some <$> (Pipeline.run pipeline v.escape).mapError (Error.withPath path)) := by
  have hl := Value.literal_escape v
  cases v with
  | map entries => exact instantiate_insert_encode hl pipeline
  | list items => exact instantiate_cons_encode hl pipeline
  | _ => cases hv

theorem instantiate_singleton {key : String} (hkey : isLiteral key = true) (v : Value) :
    instantiate f again (.map [(key, v)]) env path = (do
      let held ← instantiate f again v env (KeyPath.child path key)
      return some (.map (held.map fun x => (key, x)).toList)) := by
  have hrepeat : key ≠ Directive.repeatOver := ne_of_isLiteral hkey rfl
  have hencode : key ≠ Directive.encode := ne_of_isLiteral hkey rfl
  rw [instantiate_map_literal (List.forall_mem_singleton.mpr hkey)]
  simp only [plainEntries, hrepeat, hencode, isUnknownDirective_literal hkey, or_self,
    Bool.false_eq_true, if_false, pure_bind, bind_assoc, List.append_nil]

end Instantiation

namespace Evaluation

variable (e : Evaluation) (label : String) {key pipeline : String} {v : Value}

theorem evaluate_withPipeline (hkey : isLiteral key = true) (hp : isLiteral pipeline = true)
    (hv : v.isContainer = true) :
    e.evaluate (.alone label (.map [(key, v.withPipeline pipeline)])) [0] =
      Course.mapError (Error.defaultDocument label) (liftM do
        let encoded ← (Pipeline.run pipeline v.escape).mapError (Error.withPath key)
        e.outputsOf (some (.map [(key, encoded)]))) := by
  have hpath : KeyPath.child "" key = key := if_pos rfl
  rw [evaluate_alone e label (Value.inert_withPipeline hp hkey v),
    Instantiation.instantiate_singleton hkey, Instantiation.instantiate_withPipeline hv, hpath]
  cases (Pipeline.run pipeline v.escape).mapError (Error.withPath key) <;> rfl

theorem outputsOf_escape (hkey : isLiteral key = true) {w : Value} (hw : w.WellFormed) :
    e.outputsOf (some (.map [(key, w.escape)])) = .ok [.map [(Output.unescapeText key, w)]] := by
  have hl : (Value.map [(key, w.escape)]).Literal :=
    Value.literal_map.mpr (List.forall_mem_singleton.mpr ⟨hkey, Value.literal_escape w⟩)
  rw [outputsOf_literalKeys e hl.keys, finish_literal e hl, Output.finalize, Output.finalizeEntries,
    Value.finalize_escape hw]
  rfl

/-- A pipeline in an otherwise escaped document runs on the escaped data. If it is clear for the data,
its outcome comes out as it is for the data itself. -/
theorem evaluate_encoded (hkey : isLiteral key = true) (hcontainer : v.isContainer = true)
    (hv : v.WellFormed) {w : Value} (hw : Pipeline.run pipeline v = .ok w) :
    e.evaluate (.alone label (.map [(key, v.withPipeline pipeline)])) [0] =
        Course.mapError (Error.defaultDocument label) (liftM do
          let encoded ← (Pipeline.run pipeline v.escape).mapError (Error.withPath key)
          e.outputsOf (some (.map [(key, encoded)]))) ∧
      (Pipeline.Clear pipeline v →
        e.evaluate (.alone label (.map [(key, v.withPipeline pipeline)])) [0] =
          pure [.map [(Output.unescapeText key, w)]]) := by
  have hrun := evaluate_withPipeline e label hkey (Pipeline.isLiteral_of_run hw) hcontainer
  refine ⟨hrun, fun hclear => ?_⟩
  rw [hrun, Pipeline.run_escape hclear, hw]
  exact congrArg (fun r => Course.mapError (Error.defaultDocument label) (liftM r))
    (outputsOf_escape e hkey (Pipeline.wellFormed_run hv hw))

theorem evaluate_encoded_of_flags :
    let e : Evaluation := {}
    let v : Value := .map [("a$", .bool true), ("b", .list [.string "$$", .int 1])]
    e.evaluate (.alone "document" (.map [("$$k", v.withPipeline "flags, join:;")])) [0] =
      pure [.map [("$k", .string "--a$;--b=$$;--b=1")]] := by
  intro e v
  have hstages : Pipeline.stages "flags, join:;" =
      .ok [⟨"flags", "flags", none⟩, ⟨"join:;", "join", some ";"⟩] := by rfl
  have hclear : Pipeline.Clear "flags, join:;" v := by
    refine Pipeline.clear_of_forall hstages (List.forall_mem_cons.mpr ⟨?_, List.forall_mem_singleton.mpr ?_⟩) v
    · exact Stage.clear_of_text (by decide) (by decide) (by decide +kernel)
    · exact Stage.clear_of_text (by decide) (by decide) (by decide +kernel)
  have hw : Pipeline.run "flags, join:;" v = .ok (.string "--a$;--b=$$;--b=1") := by
    decide +kernel
  exact (evaluate_encoded e "document" (by decide) rfl (by decide) hw).2 hclear

/-- Digests see doubled dollar signs. -/
theorem evaluate_encoded_of_digest :
    let e : Evaluation := {}
    let v : Value := .list [.string "$"]
    Pipeline.run "join,base64" v = .ok (.string "JA==") ∧
      e.evaluate (.alone "document" (.map [("k", v.withPipeline "join,base64")])) [0] ≠
        pure [.map [("k", .string "JA==")]] := by
  intro e v
  have hescaped : Pipeline.run "join,base64" v.escape = .ok (.string "JCQ=") := by decide +kernel
  have hout : e.evaluate (.alone "document" (.map [("k", v.withPipeline "join,base64")])) [0] =
      pure [.map [("k", .string "JCQ=")]] := by
    rw [evaluate_withPipeline e "document" (by decide) (by decide) rfl, hescaped]
    rfl
  refine ⟨by decide +kernel, fun h => ?_⟩
  rw [hout] at h
  have hvalue := (List.cons.inj (Except.ok.inj (Option.some.inj h))).1
  revert hvalue
  decide

end Evaluation

end Overlay
