import Mathlib
import Overlay.Proofs.Instantiation.Place
import Overlay.Proofs.Literal.Instantiation
import Overlay.Value.Identity

/-!
# Documents embedded in one another

Instantiation starts anew on each document that is embedded in a text. It ends exactly if no chain of
documents, each embedded in the one before, goes on for ever. Such chains there are: a text may refer
to itself in the document that holds it.
-/

namespace Overlay.Instantiation

structure Input where
  value : Value
  env : Environment
  path : String
deriving DecidableEq

/-- Instantiates inputs other than a given one, which goes on for ever. Others that do so leave
nothing instead. -/
def runBut (f : Frame) (skipped : Option Input) : Continuation := fun v env path =>
  if skipped = some ⟨v, env, path⟩ then none
  else
    match f.run v env path with
    | some r => some r
    | none => pure none

/-- An input embeds another: instantiating it has to instantiate the other, for it goes on for ever if
the other alone does. -/
def Embeds (f : Frame) (x y : Input) : Prop :=
  instantiate f (runBut f (some y)) x.value x.env x.path = none

variable {f : Frame}

theorem runBut_of_run {skipped : Option Input}
    (hs : ∀ y ∈ skipped, f.run y.value y.env y.path = none) {v : Value} {env : Environment}
    {path : String} {r : Result (Option Value)} (hr : f.run v env path = some r) :
    runBut f skipped v env path = some r := by
  unfold runBut
  split
  · rename_i h
    cases (hs _ h).symm.trans hr
  · rw [hr]

theorem run_blames : Respects (.blames fun y => f.run y.value y.env y.path = none) fun
    | none => f.run
    | some y => runBut f (some y) := by
  intro v env path
  refine ⟨fun y hy r hr => runBut_of_run ?_ hr, fun h => ⟨⟨v, env, path⟩, h, if_pos rfl⟩⟩
  intro z hz
  cases hz
  exact hy

/-- What goes on for ever embeds something that does. -/
theorem exists_embeds {x : Input} (h : f.run x.value x.env x.path = none) :
    ∃ y, Embeds f x y ∧ f.run y.value y.env y.path = none := by
  rw [Frame.run] at h
  obtain ⟨y, hy, hx⟩ := (instantiate_congr _ f run_blames x.value x.env x.path).2 h
  exact ⟨y, hx, hy⟩

theorem within_of_embeds {x y : Input} (hxy : Embeds f x y) {depth : Nat}
    {r : Result (Option Value)} (hx : within f (depth + 1) x.value x.env x.path = some r) :
    ∃ s, within f depth y.value y.env y.path = some s := by
  cases hy : within f depth y.value y.env y.path with
  | some s => exact ⟨s, rfl⟩
  | none =>
    -- With `y` too deep for the bound, the bounded run ends on nothing that the run without `y`
    -- does not end on.
    have hbelow : Respects .below fun b => bif b then runBut f (some y) else within f depth := by
      intro v env path
      show within f depth v env path = none ∨ within f depth v env path = runBut f (some y) v env path
      cases hv : within f depth v env path with
      | none => exact .inl rfl
      | some s =>
        have hne : some y ≠ some ⟨v, env, path⟩ := by
          rintro h
          cases h
          cases hv.symm.trans hy
        refine .inr ?_
        rw [runBut, if_neg hne, run_of_within f hv]
    rcases instantiate_congr .below f hbelow x.value x.env x.path with h | h
    · cases h.symm.trans hx
    · cases (h.symm.trans hx).symm.trans hxy

theorem acc_of_within : ∀ (depth : Nat) {x : Input} {r : Result (Option Value)},
    within f depth x.value x.env x.path = some r → Acc (fun y x => Embeds f x y) x
  | 0, _, _, h => by cases h
  | depth + 1, _, _, h => by
    refine .intro _ fun y hxy => ?_
    obtain ⟨s, hs⟩ := within_of_embeds hxy h
    exact acc_of_within depth hs

/-- Instantiation ends exactly on what no endless chain of embedded documents starts from. -/
theorem run_ends_iff (x : Input) :
    (∃ r, f.run x.value x.env x.path = some r) ↔ Acc (fun y x => Embeds f x y) x := by
  constructor
  · rintro ⟨r, hr⟩
    obtain ⟨depth, hdepth⟩ := (run_reaches f x.value x.env x.path).2 r hr
    exact acc_of_within depth hdepth
  · intro h
    induction h with
    | intro x _ ih =>
      cases hx : f.run x.value x.env x.path with
      | some r => exact ⟨r, rfl⟩
      | none =>
        -- What it embeds goes on for ever as well, against the induction hypothesis.
        obtain ⟨y, hxy, hy⟩ := exists_embeds hx
        obtain ⟨r, hr⟩ := ih y hxy
        cases hy.symm.trans hr

/-! ## A text without end -/

def embedding (text : String) : Value :=
  .map [("$decode", .string "json"), ("$value", .string text)]

def selfText : String :=
  "\x7b\"$decode\":\"json\",\"$value\":\"$merge:t\"\x7d"

/-- A document that holds its text and is read from it. -/
def selfEmbedding (text : String) : Corpus :=
  ⟨[⟨"doc0", .map [("a", embedding text), ("t", .string selfText)], []⟩]⟩

theorem instantiate_embedding (again : Continuation) {text : String} (ht : isLiteral text = true)
    (env : Environment) (path : String) : instantiate f again (embedding text) env path =
      liftM (embedded f "json" (some (.string text)) path) >>= fun v => again v env path := by
  simp [embedding, instantiate, encoded, contentOf, heldValue, stringValue_literal ht, Entries.has,
    Entries.lookup, Entries.without, Directive.repeatOver, Directive.encode, Directive.decode,
    Directive.value]

section
variable (hf : f = ⟨⟨⟨selfEmbedding selfText, [0]⟩, 0⟩, 1000⟩)
include hf

theorem embedded_selfText (path : String) :
    embedded f "json" (some (.string selfText)) path = .ok (embedding selfText) := by
  refine ((embedded_sameCause f _ _ "" path).agree.ok_iff _).mp ?_
  subst hf
  cbv

theorem within_selfEmbedding : ∀ (depth : Nat) (env : Environment) (path : String),
    within f depth (embedding selfText) env path = none
  | 0, _, _ => rfl
  | depth + 1, env, path => by
    rw [within, instantiate_embedding _ rfl, embedded_selfText hf]
    exact within_selfEmbedding depth env path

theorem run_selfEmbedding (env : Environment) (path : String) :
    f.run (embedding selfText) env path = none := by
  cases h : f.run (embedding selfText) env path with
  | none => rfl
  | some r =>
    obtain ⟨depth, hdepth⟩ := (run_reaches f _ env path).2 r h
    cases (within_selfEmbedding hf depth env path).symm.trans hdepth

end

end Overlay.Instantiation
