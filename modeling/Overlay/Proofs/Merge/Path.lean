import Overlay.Merge
import Overlay.Proofs.Result

/-!
# Merging does not depend on the key path

The path under which a patch is merged shows in where errors arise alone: anywhere it is merged to the
same value, or fails for the same cause.
-/

namespace Overlay.Value

open Result (SameCause)

theorem deleteElements_sameCause (items : List Value) (directive : Entries Value) (p q : String) :
    SameCause (deleteElements items directive p) (deleteElements items directive q) := by
  unfold deleteElements
  dsimp only
  split
  · split
    · exact .error rfl
    · exact .refl _
  · exact .error rfl

theorem elementPatterns_sameCause (directive : Entries Value) (p q : String) :
    SameCause (elementPatterns directive p) (elementPatterns directive q) := by
  unfold elementPatterns
  dsimp only
  split
  · exact .refl _
  · exact .refl _
  · exact .error rfl

theorem checkElementPatch_sameCause (directive : Entries Value) (p q : String) :
    SameCause (checkElementPatch directive p) (checkElementPatch directive q) := by
  unfold checkElementPatch
  split
  · split
    · exact .refl _
    · exact .error rfl
  · exact .refl _

theorem selected_sameCause (items patterns : List Value) (p q : String) :
    SameCause (selected items p patterns) (selected items q patterns) := by
  refine SameCause.foldlM (fun found pattern => ?_) patterns []
  split
  · exact .error rfl
  · exact .refl _

theorem updateAt_sameCause {update : Value → String → Result Value}
    (h : ∀ v p q, SameCause (update v p) (update v q)) (p q : String) (items : List Value)
    (places : List Nat) : SameCause (updateAt update p items places) (updateAt update q items places) :=
  SameCause.foldlM (fun _ _ => (h _ _ _).bind fun _ _ => .refl _) places items

mutual
theorem merge_sameCause (base : Value) : ∀ (patch : Value) (p q : String),
    SameCause (base.merge patch p) (base.merge patch q)
  | .map patch, p, q => by
    simp only [merge]
    split
    · exact (mergeEntries_sameCause [] _ patch p q).map _
    · exact (freshEntries_sameCause [] patch p q).map _
  | .list patch, p, q => by
    simp only [merge]
    split
    · exact (mergeItems_sameCause _ patch p q).map _
    · exact (mergeItems_sameCause [] patch p q).map _
  | .null, p, q | .bool _, p, q | .int _, p, q | .float _, p, q | .string _, p, q => by
    simp only [merge]
    split
    · exact .error rfl
    · exact .refl _
termination_by structural patch => patch

theorem normalize_sameCause : ∀ (patch : Value) (p q : String),
    SameCause (patch.normalize p) (patch.normalize q)
  | .map patch, p, q => by
    simp only [normalize]
    exact (freshEntries_sameCause [] patch p q).map _
  | .list patch, p, q => by
    simp only [normalize]
    exact (mergeItems_sameCause [] patch p q).map _
  | .null, _, _ | .bool _, _, _ | .int _, _, _ | .float _, _, _ | .string _, _, _ => by
    simp only [normalize]
    exact .refl _
termination_by structural patch => patch

theorem mergeEntries_sameCause (dropped : List String) (base : Entries Value) :
    ∀ (patch : List (String × Value)) (p q : String),
      SameCause (mergeEntries dropped base patch p) (mergeEntries dropped base patch q)
  | [], _, _ => by simp only [mergeEntries]; exact .refl _
  | (k, v) :: rest, p, q => by
    simp only [mergeEntries]
    split
    · exact mergeEntries_sameCause dropped base rest p q
    · split
      · split
        · exact mergeEntries_sameCause dropped _ rest p q
        · exact .error rfl
      · split
        · exact (merge_sameCause _ v _ _).bind fun _ _ => mergeEntries_sameCause dropped _ rest p q
        · exact (normalize_sameCause v _ _).bind fun _ _ => mergeEntries_sameCause dropped _ rest p q
termination_by structural patch => patch

theorem freshEntries_sameCause (dropped : List String) :
    ∀ (patch : List (String × Value)) (p q : String),
      SameCause (freshEntries dropped patch p) (freshEntries dropped patch q)
  | [], _, _ => by simp only [freshEntries]; exact .refl _
  | (k, v) :: rest, p, q => by
    simp only [freshEntries]
    split
    · exact freshEntries_sameCause dropped rest p q
    · split
      · exact .error rfl
      · exact (normalize_sameCause v _ _).bind fun _ _ =>
          (freshEntries_sameCause dropped rest p q).bind fun _ _ => .refl _
termination_by structural patch => patch

theorem mergeItems_sameCause (items : List Value) : ∀ (patch : List Value) (p q : String),
    SameCause (mergeItems items patch p) (mergeItems items patch q)
  | [], _, _ => by simp only [mergeItems]; exact .refl _
  | .map patch :: rest, p, q => by
    simp only [mergeItems]
    split
    · exact mergeItems_sameCause items rest p q
    · split
      · exact (deleteElements_sameCause items patch _ _).bind fun _ _ => mergeItems_sameCause _ rest p q
      · split
        · refine (elementPatterns_sameCause patch p q).bind fun patterns _ => ?_
          refine (checkElementPatch_sameCause patch p q).bind fun _ _ => ?_
          refine (selected_sameCause items patterns p q).bind fun places _ => ?_
          refine (updateAt_sameCause (fun v p q => ?_) p q items places).bind fun _ _ =>
            mergeItems_sameCause _ rest p q
          split
          · exact mergeNamed_sameCause _ patch p q
          · exact (mergeEntries_sameCause _ _ patch p q).map _
          · exact (freshEntries_sameCause _ patch p q).map _
        · exact (freshEntries_sameCause [] patch _ _).bind fun _ _ => mergeItems_sameCause _ rest p q
  | .null :: rest, p, q | .bool _ :: rest, p, q | .int _ :: rest, p, q
  | .float _ :: rest, p, q | .string _ :: rest, p, q | .list _ :: rest, p, q => by
    simp only [mergeItems]
    split
    · exact mergeItems_sameCause items rest p q
    · exact (normalize_sameCause _ _ _).bind fun _ _ => mergeItems_sameCause _ rest p q
termination_by structural patch => patch

theorem mergeNamed_sameCause (base : Value) : ∀ (directive : List (String × Value)) (p q : String),
    SameCause (mergeNamed base directive p) (mergeNamed base directive q)
  | [], _, _ => by simp only [mergeNamed]; exact .refl _
  | (k, v) :: rest, p, q => by
    simp only [mergeNamed]
    split
    · exact merge_sameCause base v p q
    · exact mergeNamed_sameCause base rest p q
termination_by structural directive => directive
end

theorem merge_ok_anywhere {base patch v : Value} {p : String} (h : base.merge patch p = .ok v)
    (q : String) : base.merge patch q = .ok v :=
  ((merge_sameCause base patch p q).agree.ok_iff v).mp h

theorem normalize_ok_anywhere {patch v : Value} {p : String} (h : patch.normalize p = .ok v)
    (q : String) : patch.normalize q = .ok v :=
  ((normalize_sameCause patch p q).agree.ok_iff v).mp h

end Overlay.Value
