import Overlay.Error

/-!
# Courses

A course ends in a value or an error, or it goes on for ever. Documents are read from texts that
other documents hold, and nothing bounds how often one is read from the text of another, so what
reads them is a course and no result.
-/

namespace Overlay

/-- What an evaluation comes to: a value or an error, or none if it goes on for ever. -/
abbrev Course (α : Type) := ExceptT Error Option α

namespace Course

variable {α β ι : Type}

def mapError (change : Error → Error) (x : Course α) : Course α :=
  x.adapt change

@[simp] theorem lift_ok (a : α) : (liftM (Except.ok a : Result α) : Course α) = pure a := rfl

@[simp] theorem lift_error (e : Error) :
    (liftM (Except.error e : Result α) : Course α) = throw e := rfl

@[simp] theorem mapError_pure (change : Error → Error) (a : α) :
    mapError change (pure a) = pure a := rfl

/-- What holds of families of courses that are made up from one another: of every result, which does
not depend on the index, of courses in sequence if it holds of each, and of a course whose errors are
told where they arise. -/
structure Congruence (ι : Type) where
  holds : {α : Type} → (ι → Course α) → Prop
  const : {α : Type} → (x : Result α) → holds fun _ => (liftM x : Course α)
  bind : {α β : Type} → {x : ι → Course α} → {f : ι → α → Course β} → holds x →
    (∀ a, holds fun i => f i a) → holds fun i => x i >>= f i
  mapError : {α : Type} → {x : ι → Course α} → {change : Error → Error} →
    (∀ e, (change e).cause = e.cause) → holds x → holds fun i => (x i).mapError change

namespace Congruence

variable (C : Congruence ι)

theorem map {x : ι → Course α} (g : α → β) (h : C.holds x) : C.holds fun i => g <$> x i :=
  C.bind h fun a => C.const (.ok (g a))

theorem ite {x y : ι → Course α} (p : Prop) [Decidable p] (hx : C.holds x) (hy : C.holds y) :
    C.holds fun i => if p then x i else y i := by
  split
  · exact hx
  · exact hy

/-- Of two courses the first is as the second, unless it goes on for ever. -/
def below : Congruence Bool where
  holds x := x false = none ∨ x false = x true
  const _ := .inr rfl
  bind := by
    intro α β x f hx hf
    dsimp only
    rcases hx with hx | hx
    · exact .inl (by rw [hx]; rfl)
    · rw [hx]
      match x true with
      | none => exact .inr rfl
      | some (.error _) => exact .inr rfl
      | some (.ok a) => exact hf a
  mapError := by
    intro α x change _ hx
    dsimp only
    rcases hx with hx | hx
    · exact .inl (by rw [hx]; rfl)
    · exact .inr (by rw [hx])

end Congruence

end Course

end Overlay
