import Overlay.Course

/-!
# Courses and their approximations

A course is reached by numbered courses if these end as those before them do, and one of them ends
as it does. Sequences of courses that are reached are reached.
-/

namespace Overlay.Course

variable {α β : Type}

theorem bind_eq_some {x : Course α} {f : α → Course β} {r : Result β} :
    x >>= f = some r ↔
      (∃ e, x = some (.error e) ∧ .error e = r) ∨ ∃ a, x = some (.ok a) ∧ f a = some r := by
  cases x with
  | none =>
    constructor
    · intro h; cases h
    · rintro (⟨_, h, _⟩ | ⟨_, h, _⟩) <;> cases h
  | some s =>
    cases s with
    | error e =>
      constructor
      · exact fun h => .inl ⟨e, rfl, Option.some.inj h⟩
      · rintro (⟨e', h, rfl⟩ | ⟨a, h, _⟩)
        · cases h; rfl
        · cases h
    | ok a =>
      constructor
      · exact fun h => .inr ⟨a, rfl, h⟩
      · rintro (⟨e', h, _⟩ | ⟨a', h, hf⟩)
        · cases h
        · cases h; exact hf

theorem bind_eq_ok {x : Course α} {f : α → Course β} {b : β} :
    x >>= f = some (.ok b) ↔ ∃ a, x = some (.ok a) ∧ f a = some (.ok b) := by
  rw [bind_eq_some]
  constructor
  · rintro (⟨_, _, ⟨⟩⟩ | h)
    exact h
  · exact .inr

theorem map_eq_ok {x : Course α} {f : α → β} {b : β} :
    f <$> x = some (.ok b) ↔ ∃ a, x = some (.ok a) ∧ f a = b := by
  rw [map_eq_pure_bind, bind_eq_ok]
  refine exists_congr fun a => and_congr_right fun _ => ?_
  exact ⟨fun h => Except.ok.inj (Option.some.inj h), fun h => h ▸ rfl⟩

theorem mapError_eq_some {change : Error → Error} {x : Course α} {r : Result α} :
    x.mapError change = some r ↔ ∃ s, x = some s ∧ s.mapError change = r := by
  cases x with
  | none =>
    constructor
    · intro h; cases h
    · rintro ⟨_, h, _⟩; cases h
  | some s =>
    constructor
    · exact fun h => ⟨s, rfl, Option.some.inj h⟩
    · rintro ⟨_, h, hr⟩; cases h; cases hr; rfl

namespace Congruence

theorem flatMapM {ι : Type} (C : Congruence ι) {g : ι → α → Course (List β)}
    (h : ∀ a, C.holds fun i => g i a) : ∀ xs : List α, C.holds fun i => xs.flatMapM (g i)
  | [] => C.const _
  | x :: xs => by
    simp only [List.flatMapM_cons]
    exact C.bind (h x) fun _ => C.bind (flatMapM C h xs) fun _ => C.const _

/-- A course that goes on for ever does so because of one of some causes: it still does if that is
the only one left. A course that ends does not depend on them. -/
def blames {ι : Type} (isCause : ι → Prop) : Congruence (Option ι) where
  holds x := (∀ i, isCause i → ∀ r, x none = some r → x (some i) = some r) ∧
    (x none = none → ∃ i, isCause i ∧ x (some i) = none)
  const _ := ⟨fun _ _ _ h => h, nofun⟩
  bind := by
    intro α β x g ⟨hends, hblames⟩ hg
    dsimp only
    refine ⟨fun i hi r h => ?_, fun h => ?_⟩
    · rcases bind_eq_some.mp h with ⟨e, h, hr⟩ | ⟨a, h, hr⟩
      · exact bind_eq_some.mpr (.inl ⟨e, hends i hi _ h, hr⟩)
      · exact bind_eq_some.mpr (.inr ⟨a, hends i hi _ h, (hg a).1 i hi r hr⟩)
    -- Either the first part goes on for ever, or it ends in a value from which the second part does.
    · match hx : x none with
      | none =>
        obtain ⟨i, hi, h⟩ := hblames hx
        exact ⟨i, hi, by rw [h]; rfl⟩
      | some (.error e) => rw [hx] at h; cases h
      | some (.ok a) =>
        rw [hx] at h
        obtain ⟨i, hi, h⟩ := (hg a).2 h
        exact ⟨i, hi, by rw [hends i hi _ hx]; exact h⟩
  mapError := by
    intro α x change _ ⟨hends, hblames⟩
    dsimp only
    refine ⟨fun i hi r h => ?_, fun h => ?_⟩
    · obtain ⟨s, h, hr⟩ := mapError_eq_some.mp h
      exact mapError_eq_some.mpr ⟨s, hends i hi s h, hr⟩
    · match hx : x none with
      | none =>
        obtain ⟨i, hi, h⟩ := hblames hx
        exact ⟨i, hi, by rw [h]; rfl⟩
      | some r => rw [hx] at h; cases h

/-- Two courses are the same. -/
def same : Congruence Bool where
  holds x := x false = x true
  const _ := rfl
  bind := by
    intro α β x g hx hg
    dsimp only
    rw [hx]
    exact bind_congr hg
  mapError := by
    intro α x change _ hx
    dsimp only
    rw [hx]

/-- A course ends. -/
def ends : Congruence Unit where
  holds x := ∃ r, x () = some r
  const x := ⟨x, rfl⟩
  bind := by
    intro α β x g ⟨r, hr⟩ hg
    cases r with
    | error e => exact ⟨.error e, bind_eq_some.mpr (.inl ⟨e, hr, rfl⟩)⟩
    | ok a =>
      obtain ⟨r, hr'⟩ := hg a
      exact ⟨r, bind_eq_some.mpr (.inr ⟨a, hr, hr'⟩)⟩
  mapError := by
    intro α x change _ ⟨r, hr⟩
    exact ⟨r.mapError change, mapError_eq_some.mpr ⟨r, hr, rfl⟩⟩

/-- The courses at the numbers reach all that the one without a number ends in. -/
def reaches : Congruence (Option Nat) where
  holds x := (∀ m n, m ≤ n → ∀ r, x (some m) = some r → x (some n) = some r) ∧
    ∀ r, x none = some r → ∃ n, x (some n) = some r
  const x := ⟨fun _ _ _ _ h => h, fun _ h => ⟨0, h⟩⟩
  bind := by
    intro α β x g ⟨hmono, hx⟩ hg
    simp only [bind_eq_some]
    refine ⟨fun m n hmn r h => ?_, fun r h => ?_⟩
    · rcases h with ⟨e, h, hr⟩ | ⟨a, h, hr⟩
      · exact .inl ⟨e, hmono m n hmn _ h, hr⟩
      · exact .inr ⟨a, hmono m n hmn _ h, (hg a).1 m n hmn _ hr⟩
    · rcases h with ⟨e, h, hr⟩ | ⟨a, h, hr⟩
      · obtain ⟨n, hn⟩ := hx _ h
        exact ⟨n, .inl ⟨e, hn, hr⟩⟩
      -- Each part is reached at some number, so both are at the greater one.
      · obtain ⟨m, hm⟩ := hx _ h
        obtain ⟨n, hn⟩ := (hg a).2 r hr
        exact ⟨max m n, .inr ⟨a, hmono m _ (Nat.le_max_left m n) _ hm,
          (hg a).1 n _ (Nat.le_max_right m n) _ hn⟩⟩
  mapError := by
    intro α x change _ ⟨hmono, hx⟩
    simp only [mapError_eq_some]
    refine ⟨fun m n hmn r ⟨s, h, hr⟩ => ⟨s, hmono m n hmn s h, hr⟩, ?_⟩
    rintro r ⟨s, h, hr⟩
    obtain ⟨n, hn⟩ := hx s h
    exact ⟨n, s, hn, hr⟩

end Congruence

end Overlay.Course
