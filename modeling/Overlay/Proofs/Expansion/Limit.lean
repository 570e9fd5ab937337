import Overlay.Proofs.Expansion.Congruence

/-!
# Expansion within a higher limit

A limit only stops an expansion. Within a higher limit the same references are followed in the same
order, so what an expansion comes to stays the same unless the lower limit was exceeded.
-/

namespace Overlay

namespace Result

variable {α β : Type} {limit : Nat}

/-- Two results are the same, unless the first is that a limit was exceeded. -/
def SameWithin (limit : Nat) (x y : Result α) : Prop :=
  x = y ∨ ∃ e, x = .error e ∧ e.cause = .recursionLimit limit

theorem SameWithin.refl (x : Result α) : SameWithin limit x x := .inl rfl

theorem SameWithin.bind {x y : Result α} {f g : α → Result β} (h : SameWithin limit x y)
    (hf : ∀ a, x = .ok a → SameWithin limit (f a) (g a)) : SameWithin limit (x >>= f) (y >>= g) := by
  rcases h with rfl | ⟨e, rfl, he⟩
  · cases x with
    | error e => exact .refl _
    | ok a => exact hf a rfl
  · exact .inr ⟨e, rfl, he⟩

theorem SameWithin.map {x y : Result α} (f : α → β) (h : SameWithin limit x y) :
    SameWithin limit (f <$> x) (f <$> y) := by
  rcases h with rfl | ⟨e, rfl, he⟩
  · exact .refl _
  · exact .inr ⟨e, rfl, he⟩

theorem SameWithin.mapError {x y : Result α} {change : Error → Error}
    (hchange : ∀ e, (change e).cause = e.cause) (h : SameWithin limit x y) :
    SameWithin limit (x.mapError change) (y.mapError change) := by
  rcases h with rfl | ⟨e, rfl, he⟩
  · exact .refl _
  · exact .inr ⟨change e, rfl, (hchange e).trans he⟩

theorem SameWithin.foldlM {f g : β → α → Result β} (h : ∀ b a, SameWithin limit (f b a) (g b a)) :
    ∀ (xs : List α) (b : β), SameWithin limit (xs.foldlM f b) (xs.foldlM g b)
  | [], _ => .refl _
  | x :: xs, b => by
    rw [List.foldlM_cons, List.foldlM_cons]
    exact (h b x).bind fun b' _ => SameWithin.foldlM h xs b'

def Congruence.sameWithin (limit : Nat) : Congruence where
  holds := SameWithin limit
  refl := .refl
  bind := .bind

end Result

namespace Expansion

open Result (SameWithin)

/-- The budget runs out no sooner if it is greater, whichever limit it comes from. -/
theorem expandWithin_sameWithin (site : Site) (limit limit' : Nat) : ∀ {m n : Nat}, m ≤ n →
    ∀ v path, SameWithin limit (expandWithin site limit m v path) (expandWithin site limit' n v path)
  | 0, _, _, _, path => .inr ⟨.atKey (.recursionLimit limit) path, by rw [expandWithin], rfl⟩
  | m + 1, n + 1, h, v, path => by
    rw [expandWithin, expandWithin]
    refine expandWith_congr (C := .sameWithin limit) (.of_eq fun _ _ => rfl) ?_ trivial rfl
    intro u p q _ hpq
    rw [hpq]
    exact expandWithin_sameWithin site limit limit' (Nat.le_of_succ_le_succ h) u q

theorem expand_sameWithin (site : Site) {limit limit' : Nat} (h : limit ≤ limit') (v : Value)
    (path : String) : SameWithin limit (expand site limit v path) (expand site limit' v path) :=
  expandWithin_sameWithin site limit limit' (Nat.succ_le_succ h) v path

end Expansion

end Overlay
