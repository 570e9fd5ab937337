import Overlay.Instantiation.Run
import Overlay.Proofs.Course

/-!
# How deep documents are embedded

Instantiation ends exactly if it ends with a bound on the depth to which documents are embedded in
one another, and a higher bound changes nothing then.
-/

namespace Overlay.Instantiation

variable (f : Frame)

theorem within_succ_below : ∀ depth : Nat,
    Respects .below fun b => bif b then within f (depth + 1) else within f depth
  | 0 => fun _ _ _ => .inl rfl
  | depth + 1 => fun v env path => instantiate_congr .below f (within_succ_below depth) v env path

theorem within_mono {m n : Nat} (h : m ≤ n) {v : Value} {env : Environment} {path : String}
    {r : Result (Option Value)} (hr : within f m v env path = some r) :
    within f n v env path = some r := by
  induction h with
  | refl => exact hr
  | @step n _ ih =>
    rcases within_succ_below f n v env path with h | h
    · exact absurd (h.symm.trans ih) nofun
    · exact h.symm.trans ih

theorem within_below_run : ∀ depth : Nat,
    Respects .below fun b => bif b then f.run else within f depth
  | 0 => fun _ _ _ => .inl rfl
  | depth + 1 => fun v env path => by
    have h := instantiate_congr .below f (within_below_run depth) v env path
    show within f (depth + 1) v env path = none ∨
      within f (depth + 1) v env path = f.run v env path
    rw [Frame.run]
    exact h

theorem run_of_within {depth : Nat} {v : Value} {env : Environment} {path : String}
    {r : Result (Option Value)} (h : within f depth v env path = some r) :
    f.run v env path = some r := by
  rcases within_below_run f depth v env path with hb | hb
  · exact absurd (hb.symm.trans h) nofun
  · exact hb.symm.trans h

theorem run_reaches : Respects .reaches fun
    | none => f.run
    | some depth => within f depth := by
  intro v env path
  refine ⟨fun m n h r hr => within_mono f h hr, fun r hr => ?_⟩
  -- Induction over the fixpoint: what a continuation returns is returned at some depth, and
  -- instantiation with it returns at one more.
  refine Frame.run.partial_correctness f (fun v env path r => ∃ depth, within f depth v env path = some r)
    ?_ v env path r hr
  intro again hagain v env path r hr
  have hk : Respects .reaches fun
      | none => again
      | some depth => within f depth :=
    fun v env path => ⟨fun m n h r => within_mono f h, hagain v env path⟩
  obtain ⟨depth, hdepth⟩ := (instantiate_congr .reaches f hk v env path).2 r hr
  exact ⟨depth + 1, hdepth⟩

end Overlay.Instantiation
