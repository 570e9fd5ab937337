import Overlay.Proofs.Expansion.Agreement
import Overlay.Proofs.Instantiation.Depth
import Overlay.Proofs.Instantiation.Simulation
import Overlay.Proofs.Literal.Stages

/-!
# Instantiation does not depend on the key path

The path under which a value is instantiated shows in the paths of errors alone. So a value comes to
the same wherever it stands, or it fails there for the same cause (`run_sameCause`).
-/

namespace Overlay.Instantiation

open Course (Related Same)
open Result (SameCause)

variable (f : Frame)

theorem pieceText_sameCause (env : Environment) (p q : String) (piece : Template.Piece) :
    SameCause (pieceText f env p piece) (pieceText f env q piece) := by
  cases piece with
  | text s => exact .refl _
  | expression s =>
    refine SameCause.bind ?_ fun v _ => .refl _
    exact .mapError (fun _ => rfl) (fun _ => rfl) (.refl _)

theorem stringValue_sameCause (s : String) (env : Environment) (p q : String) :
    SameCause (stringValue f s env p) (stringValue f s env q) := by
  unfold stringValue
  split
  · exact .refl _
  · split
    · split
      · exact .refl _
      · exact .error rfl
    · split
      · exact (SameCause.mapM (pieceText_sameCause f env p q) _).bind fun _ _ => .refl _
      · exact .refl _

theorem encodeAt_sameCause (v : Value) (name p q : String) :
    SameCause (encodeAt p v name) (encodeAt q v name) := by
  have hnone {p q : String} (h : v.firstRequired p = none) : v.firstRequired q = none :=
    Value.firstRequired_eq_none.mpr (Value.firstRequired_eq_none.mp h)
  unfold encodeAt
  cases hp : v.firstRequired p with
  | none =>
    rw [hnone hp]
    exact .mapError (fun _ => rfl) (fun _ => rfl) (.refl _)
  | some missing =>
    cases hq : v.firstRequired q with
    | none => cases hp.symm.trans (hnone hq)
    | some other => exact .error rfl

theorem embedded_sameCause (format : String) (text : Option Value) (p q : String) :
    SameCause (embedded f format text p) (embedded f format text q) := by
  cases text with
  | none => exact .error rfl
  | some v =>
    cases v with
    | string source =>
      simp only [embedded, pure_bind]
      refine SameCause.bind (.mapError (fun _ => rfl) (fun _ => rfl) (.refl _)) fun decoded _ => ?_
      refine (Value.normalize_sameCause decoded p q).bind fun fresh _ => ?_
      exact Expansion.expand_sameCause f.site f.limit fresh p q
    | _ => exact .error rfl

/-- One value is instantiated at two places. -/
def anywhere {again : Continuation}
    (hagain : ∀ v env p q, Course.SameCause (again v env p) (again v env q)) :
    Simulation f f again again where
  good _ := True
  key _ := True
  sees := (· = ·)
  place _ _ := True
  err e e' := e.cause = e'.cause
  child _ _ := trivial
  atKey _ _ := rfl
  withPath _ _ := rfl
  plain _ := trivial
  bind h _ := congrArg _ h
  string := by
    intro s env env' _ _ _ henv _
    subst henv
    exact (Course.sameCause_lift (stringValue_sameCause f s env _ _)).imp_same fun v _ => v.keyed_true
  encode := by
    intro _ name v _ _ _ _ _ _
    exact (Course.sameCause_lift (encodeAt_sameCause v name _ _)).imp_same fun w _ => w.keyed_true
  embedded := by
    intro _ format text env env' p q _ _ _ henv _
    subst henv
    refine (Course.sameCause_lift (embedded_sameCause f format text p q)).bind_same fun v _ => ?_
    exact (hagain v env p q).imp_same fun o _ v _ => v.keyed_true

theorem within_sameCause : ∀ (depth : Nat) (v : Value) (env : Environment) (p q : String),
    Course.SameCause (within f depth v env p) (within f depth v env q)
  | 0, _, _, _, _ => .forever
  | depth + 1, v, env, _, _ =>
    (Simulation.instantiate_related (S := anywhere f (within_sameCause depth)) v (fun _ _ => trivial)
      (rfl : env = env) trivial).imp_same fun _ _ => trivial

theorem run_sameCause (v : Value) (env : Environment) (p q : String) :
    Course.SameCause (f.run v env p) (f.run v env q) := by
  -- What one run ends in it ends in at some depth, and there the other ends alike.
  have hends {p q : String} {r : Result (Option Value)} (hr : f.run v env p = some r) :
      Course.SameCause (f.run v env p) (f.run v env q) := by
    obtain ⟨depth, hdepth⟩ := (run_reaches f v env p).2 r hr
    have hsame := within_sameCause f depth v env p q
    dsimp only at hdepth
    rw [hdepth] at hsame
    rw [hr]
    cases hq : within f depth v env q with
    | none => rw [hq] at hsame; cases hsame
    | some r' => rwa [hq, ← run_of_within f hq] at hsame
  cases hp : f.run v env p with
  | some r => exact hp ▸ hends hp
  | none =>
    cases hq : f.run v env q with
    | none => exact .forever
    | some r =>
      have hsame := (hends (q := p) hq).symm
      rwa [hp, hq] at hsame

end Overlay.Instantiation
