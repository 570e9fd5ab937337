import Mathlib.Data.List.Forall2
import Overlay.Course
import Overlay.Proofs.Result

/-!
# Two courses that run alike

Two courses are related if both go on for ever, if they fail with related errors, or if they come to
related values. Sequences of related courses are related, so two runs are compared step by step.
-/

namespace Overlay.Course

open List (Forall₂)

variable {α β γ δ : Type} {err : Error → Error → Prop} {R : α → β → Prop} {S : γ → δ → Prop}
  {P : α → Prop}

instance [DecidableEq α] : DecidableEq (Course α) :=
  inferInstanceAs (DecidableEq (Option (Result α)))

theorem lift_bind (x : Result α) (f : α → Result γ) :
    (liftM (x >>= f) : Course γ) = liftM x >>= fun a => liftM (f a) := by
  cases x <;> rfl

inductive Related (err : Error → Error → Prop) (R : α → β → Prop) : Course α → Course β → Prop
  | forever : Related err R none none
  | error {e e' : Error} : err e e' → Related err R (some (.error e)) (some (.error e'))
  | value {a : α} {b : β} : R a b → Related err R (some (.ok a)) (some (.ok b))

/-- One value, of which something holds. -/
def Same (P : α → Prop) (a b : α) : Prop :=
  a = b ∧ P a

theorem Related.pure {a : α} {b : β} (h : R a b) : Related err R (pure a) (pure b) :=
  .value h

theorem Related.throw {e e' : Error} (h : err e e') :
    Related err R (throw e : Course α) (throw e' : Course β) :=
  .error h

theorem Related.bind {x : Course α} {y : Course β} {f : α → Course γ} {g : β → Course δ}
    (h : Related err R x y) (hf : ∀ a b, R a b → Related err S (f a) (g b)) :
    Related err S (x >>= f) (y >>= g) := by
  cases h with
  | forever => exact .forever
  | error he => exact .error he
  | value hab => exact hf _ _ hab

theorem Related.map {x : Course α} {y : Course β} {f : α → γ} {g : β → δ} (h : Related err R x y)
    (hf : ∀ a b, R a b → S (f a) (g b)) : Related err S (f <$> x) (g <$> y) :=
  h.bind fun a b hab => .pure (hf a b hab)

theorem Related.bind_same {x y : Course α} {f : α → Course γ} {g : α → Course δ}
    (h : Related err (Same P) x y) (hf : ∀ a, P a → Related err S (f a) (g a)) :
    Related err S (x >>= f) (y >>= g) := by
  refine h.bind fun a b hab => ?_
  obtain ⟨rfl, ha⟩ := hab
  exact hf a ha

theorem Related.map_same {Q : γ → Prop} {x y : Course α} {f : α → γ} (h : Related err (Same P) x y)
    (hf : ∀ a, P a → Q (f a)) : Related err (Same Q) (f <$> x) (f <$> y) :=
  h.bind_same fun a ha => .pure ⟨rfl, hf a ha⟩

theorem Related.imp_same {Q : α → Prop} {x y : Course α} (h : Related err (Same P) x y)
    (hPQ : ∀ a, P a → Q a) : Related err (Same Q) x y := by
  rw [← id_map x, ← id_map y]
  exact h.map_same hPQ

theorem Related.pure_same {a : α} (h : P a) : Related err (Same P) (Pure.pure a) (Pure.pure a) :=
  .pure ⟨rfl, h⟩

theorem Related.mapError {err' : Error → Error → Prop} {x : Course α} {y : Course β}
    {change change' : Error → Error} (h : Related err R x y)
    (herr : ∀ e e', err e e' → err' (change e) (change' e')) :
    Related err' R (x.mapError change) (y.mapError change') := by
  cases h with
  | forever => exact .forever
  | error he => exact .error (herr _ _ he)
  | value hab => exact .value hab

/-- Courses that come to one value or fail with one error are the same course. -/
theorem related_same_iff {x y : Course α} :
    Related (· = ·) (Same P) x y ↔ x = y ∧ ∀ a, x = some (.ok a) → P a := by
  constructor
  · intro h
    cases h with
    | forever => exact ⟨rfl, nofun⟩
    | error he =>
      subst he
      exact ⟨rfl, nofun⟩
    | value hab =>
      obtain ⟨rfl, ha⟩ := hab
      refine ⟨rfl, fun a h => ?_⟩
      cases h
      exact ha
  · intro h
    obtain ⟨rfl, ha⟩ := h
    match x with
    | none => exact .forever
    | some (.error e) => exact .error rfl
    | some (.ok a) => exact .value ⟨rfl, ha a rfl⟩

theorem related_lift {x : Result α} (h : ∀ a, x = .ok a → P a) :
    Related (· = ·) (Same P) (liftM x : Course α) (liftM x) := by
  cases x with
  | error e => exact .error rfl
  | ok a => exact .value ⟨rfl, h a rfl⟩

theorem Related.bind_eq {x : Course α} {y : Course β} {f : α → Course γ} {g : β → Course γ}
    (h : Related (· = ·) R x y) (hf : ∀ a b, R a b → f a = g b) : x >>= f = y >>= g := by
  cases h with
  | forever => rfl
  | error he =>
    subst he
    rfl
  | value hab => exact hf _ _ hab

theorem flatMapM_congr {f : α → Course (List γ)} {g : β → Course (List γ)}
    (hf : ∀ a b, R a b → f a = g b) {xs : List α} {ys : List β} (h : Forall₂ R xs ys) :
    xs.flatMapM f = ys.flatMapM g := by
  induction h with
  | nil => rfl
  | cons hxy _ ih => rw [List.flatMapM_cons, List.flatMapM_cons, hf _ _ hxy, ih]

/-- Courses that come to one value, fail for one cause, or both go on for ever. -/
def SameCause : Course α → Course α → Prop :=
  Related (fun e e' => e.cause = e'.cause) (Same fun _ => True)

theorem sameCause_lift {x y : Result α} (h : x.SameCause y) :
    SameCause (liftM x : Course α) (liftM y) := by
  cases x with
  | error e =>
    cases y with
    | error e' => exact .error (Except.error.inj h)
    | ok b => cases h
  | ok a =>
    cases y with
    | error e' => cases h
    | ok b => cases h; exact .pure_same trivial

theorem SameCause.symm {x y : Course α} (h : SameCause x y) : SameCause y x := by
  cases h with
  | forever => exact .forever
  | error he => exact .error he.symm
  | value hab => exact .value ⟨hab.1.symm, trivial⟩

theorem SameCause.eq_none {x : Course α} (h : SameCause none x) : x = none := by
  cases h
  rfl

theorem SameCause.exists_error {e : Error} {x : Course α} (h : SameCause (some (.error e)) x) :
    ∃ e', x = some (.error e') ∧ e'.cause = e.cause := by
  cases h with
  | error he => exact ⟨_, rfl, he.symm⟩

theorem SameCause.ok_iff {x y : Course α} (h : SameCause x y) (a : α) :
    x = some (.ok a) ↔ y = some (.ok a) := by
  cases h with
  | forever => exact Iff.rfl
  | error _ => exact iff_of_false nofun nofun
  | value hab => rw [hab.1]

end Overlay.Course
