import Overlay.Proofs.Evaluation.Congruence
import Overlay.Proofs.Evaluation.Termination
import Overlay.Proofs.Expansion.Limit

/-!
# Evaluation within a higher limit

The limit is looked at in every expansion, of the documents and of what is embedded in their texts. A
higher limit changes nothing, unless the lower one was exceeded.
-/

namespace Overlay

namespace Course.Congruence

/-- Two courses are the same, unless the first ends because a limit was exceeded. -/
def sameWithin (limit : Nat) : Congruence Bool where
  holds x := x false = x true ∨ ∃ e, x false = some (.error e) ∧ e.cause = .recursionLimit limit
  const _ := .inl rfl
  bind := by
    intro α β x f hx hf
    dsimp only
    rcases hx with hx | ⟨e, hx, he⟩
    · rw [hx]
      match x true with
      | none => exact .inl rfl
      | some (.error _) => exact .inl rfl
      | some (.ok a) => exact hf a
    · exact .inr ⟨e, by rw [hx]; rfl, he⟩
  mapError := by
    intro α x change hchange hx
    dsimp only
    rcases hx with hx | ⟨e, hx, he⟩
    · exact .inl (by rw [hx])
    · exact .inr ⟨change e, by rw [hx]; rfl, (hchange e).trans he⟩

theorem sameWithin_lift {α : Type} {limit : Nat} {x : Bool → Result α}
    (h : Result.SameWithin limit (x false) (x true)) :
    (sameWithin limit).holds fun b => (liftM (x b) : Course α) := by
  rcases h with h | ⟨e, h, he⟩
  · exact .inl (congrArg liftM h)
  · exact .inr ⟨e, congrArg liftM h, he⟩

end Course.Congruence

open Course.Congruence (sameWithin sameWithin_lift)
open Result (SameWithin)

/-- Two limits, to compare what happens within one and within the other. -/
def limitsOf (limit limit' : Nat) (b : Bool) : Nat :=
  bif b then limit' else limit

namespace Instantiation

section
variable (site : Site) {limit limit' : Nat} (h : limit ≤ limit')
include h

theorem uniform_limits : Uniform (sameWithin limit) fun b => ⟨site, limitsOf limit limit' b⟩ := by
  refine ⟨fun s env path => .inl rfl, fun format text path => sameWithin_lift ?_⟩
  simp only [embedded]
  -- Whatever the text is, only what it is decoded to is expanded.
  split <;>
  · refine (SameWithin.refl _).bind fun source _ => (SameWithin.refl _).bind fun decoded _ => ?_
    exact (SameWithin.refl _).bind fun fresh _ => Expansion.expand_sameWithin site h fresh path

theorem respects_limits : ∀ depth, Respects (sameWithin limit) fun b =>
    within ⟨site, limitsOf limit limit' b⟩ depth
  | 0 => fun _ _ _ => .inl rfl
  | depth + 1 => fun v env path =>
    instantiate_uniform _ (uniform_limits site h) (respects_limits depth) v env path

end

end Instantiation

namespace Evaluation

open Instantiation (Frame embedding instantiate_embedding)

variable (e : Evaluation) {limit : Nat}

theorem expandAll_sameWithin (h : e.limit ≤ limit) (a : Assembly) :
    SameWithin e.limit (e.expandAll a) (({ e with limit } : Evaluation).expandAll a) := by
  refine SameWithin.bind (SameWithin.foldlM (fun c id => ?_) _ _) fun corpus _ => .refl _
  refine SameWithin.bind (SameWithin.mapError (fun _ => rfl) ?_) fun expanded _ => .refl _
  exact Expansion.expand_sameWithin _ h _ _

theorem evaluateWith_sameWithin (h : e.limit ≤ limit) (depth : Nat) (c : Corpus)
    (order : List Nat) : (sameWithin e.limit).holds fun b =>
      ({ e with limit := limitsOf e.limit limit b } : Evaluation).evaluateWith
        (fun f => Instantiation.within f depth) c order :=
  evaluateWith_uniform _ e (fun a => sameWithin_lift (expandAll_sameWithin e h a))
    (fun site => Instantiation.uniform_limits site h)
    (fun site => Instantiation.respects_limits site h depth) c order

/-- An evaluation whose limit is not exceeded comes to the same within every higher limit: to the same
outputs or the same error, or it goes on for ever within both. -/
theorem evaluate_of_limit_le (h : e.limit ≤ limit) (c : Corpus) (order : List Nat)
    (hwithin : ∀ err, e.evaluate c order = some (.error err) →
      err.cause ≠ .recursionLimit e.limit) :
    ({ e with limit } : Evaluation).evaluate c order = e.evaluate c order := by
  refine Option.ext fun outcome => ?_
  rw [evaluate_eq_some_iff, evaluate_eq_some_iff]
  refine exists_congr fun depth => ?_
  rcases evaluateWith_sameWithin e h depth c order with hsame | ⟨err, herr, hcause⟩
  · exact (Eq.congr_left hsame).symm
  · exact absurd hcause (hwithin err ((evaluate_eq_some_iff e c order _).mpr ⟨depth, herr⟩))

theorem evaluate_of_limit_le_of_embedding :
    let text := "\x7b\"x\":\"$merge:t\"\x7d"
    let c : Corpus := ⟨[⟨"document", .map [("a", embedding text), ("t", .string "$merge:u"),
      ("u", .int 1)], []⟩]⟩
    let outputs : Value := .map [("a", .map [("x", .int 1)]), ("t", .int 1), ("u", .int 1)]
    evaluate { limit := 1 } c [0] = some (.ok [outputs]) ∧
      evaluate { limit := 1000 } c [0] = some (.ok [outputs]) := by
  intro text c outputs
  let d : Corpus := ⟨[⟨"document", .map [("a", embedding text), ("t", .int 1), ("u", .int 1)], []⟩]⟩
  let f : Frame := ⟨⟨⟨d, [0]⟩, 0⟩, 1⟩
  have hassembled : Assembly.ofCorpus c [0] = .ok ⟨c, [0]⟩ :=
    Assembly.ofCorpus_of_takeIn fun patch hp => by
      obtain rfl := List.mem_singleton.mp hp
      exact Assembly.takeIn_of_parentless rfl rfl rfl
  have hexpanded : expandAll { limit := 1 } ⟨c, [0]⟩ = .ok ⟨d, [0]⟩ := by cbv
  have hembedded : Instantiation.embedded f "json" (some (.string text)) (KeyPath.child "" "a") =
      .ok (.map [("x", .int 1)]) := by cbv
  have hentry : Instantiation.instantiate f (Instantiation.within f 1) (embedding text) []
      (KeyPath.child "" "a") = some (.ok (some (.map [("x", .int 1)]))) := by
    rw [instantiate_embedding _ (show isLiteral text = true by decide), hembedded]
    rfl
  have hunknown : ∀ k ∈ ["a", "t", "u"], Instantiation.isUnknownDirective k = false := by decide
  have hinstantiated : Instantiation.instantiate f (Instantiation.within f 1) (d.data 0) [] "" =
      some (.ok (some outputs)) := by
    have hdata : d.data 0 = .map [("a", embedding text), ("t", .int 1), ("u", .int 1)] := rfl
    rw [hdata]
    simp [Instantiation.instantiate, Instantiation.encoded, Instantiation.contentOf,
      Instantiation.plainEntries, Entries.has, Entries.lookup, Directive.repeatOver,
      Directive.encode, Directive.decode, Directive.value, hentry, hunknown]
    rfl
  have hrun : evaluate { limit := 1 } c [0] = some (.ok [outputs]) := by
    refine (evaluate_eq_some_iff _ _ _ _).mpr ⟨1, ?_⟩
    have hspecs : takeSpecs d [0] = (d, [none]) := rfl
    simp only [evaluateWith, hassembled, hexpanded, Course.lift_ok, pure_bind, Evaluation.outputs, hspecs]
    rw [List.zip_cons_cons, List.flatMapM_cons, outputsAt, fanOut]
    simp only [pure_bind, List.flatMapM_cons]
    rw [show Instantiation.instantiate _ _ _ _ _ = _ from hinstantiated]
    rfl
  have hsame : evaluate { limit := 1000 } c [0] = evaluate { limit := 1 } c [0] :=
    @evaluate_of_limit_le { limit := 1 } 1000 (by decide) c [0] fun err herr => by
      cases hrun.symm.trans herr
  exact ⟨hrun, hsame.trans hrun⟩
end Evaluation

end Overlay
