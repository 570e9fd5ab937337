import Mathlib.Data.List.Forall2
import Overlay.Error

/-!
# Results

`Agree` relates results that succeed together and with one value; if they fail, their errors may
differ. `SameCause` asks these to differ in where they arise alone, as they do for runs that differ in
the key paths handed to them. `Consistent` relates results that have one value if both succeed.
-/

namespace Overlay.Result

variable {α β : Type}

@[simp] theorem ok_bind (a : α) (f : α → Result β) : (Except.ok a : Result α) >>= f = f a := rfl

@[simp] theorem error_bind (e : Error) (f : α → Result β) :
    (Except.error e : Result α) >>= f = .error e := rfl

@[simp] theorem bind_ok (x : Result α) : x >>= Except.ok = x := by
  cases x <;> rfl

theorem bind_eq_ok {x : Result α} {f : α → Result β} {b : β} :
    x >>= f = .ok b ↔ ∃ a, x = .ok a ∧ f a = .ok b := by
  cases x <;> simp

theorem mapError_eq_ok {x : Result α} {change : Error → Error} {a : α} :
    x.mapError change = .ok a ↔ x = .ok a := by
  cases x with
  | error e => exact iff_of_false (fun h => by cases h) (fun h => by cases h)
  | ok b => rfl

/-- What every step of a fold keeps, the fold keeps. -/
theorem foldlM_keeps {f : β → α → Result β} {P : β → Prop} : ∀ {xs : List α} {b c : β},
    (∀ b, ∀ a ∈ xs, ∀ c, P b → f b a = .ok c → P c) → P b → xs.foldlM f b = .ok c → P c
  | [], b, c, _, hb, hc => by
    cases hc
    exact hb
  | x :: xs, b, c, h, hb, hc => by
    rw [List.foldlM_cons, bind_eq_ok] at hc
    obtain ⟨d, hd, hc⟩ := hc
    exact foldlM_keeps (fun b a ha => h b a (List.mem_cons_of_mem x ha))
      (h b x List.mem_cons_self d hb hd) hc

theorem mapM_of_forall {f : α → Result β} {g : α → β} : ∀ {xs : List α},
    (∀ x ∈ xs, f x = .ok (g x)) → xs.mapM f = .ok (xs.map g)
  | [], _ => rfl
  | x :: xs, h => by
    obtain ⟨hx, hxs⟩ := List.forall_mem_cons.mp h
    rw [List.mapM_cons, hx, mapM_of_forall hxs]
    rfl

theorem mapM_congr {f g : α → Result β} : ∀ {xs : List α}, (∀ x ∈ xs, f x = g x) →
    xs.mapM f = xs.mapM g
  | [], _ => rfl
  | x :: xs, h => by
    obtain ⟨hx, hxs⟩ := List.forall_mem_cons.mp h
    rw [List.mapM_cons, List.mapM_cons, hx, mapM_congr hxs]

/-- Steps that succeed under a condition each do so in sequence if all conditions hold. -/
theorem mapM_eq_ok {f : α → Result β} {P : α → Prop} {g : α → β}
    (h : ∀ x y, f x = .ok y ↔ P x ∧ g x = y) : ∀ {xs : List α} {ys : List β},
      xs.mapM f = .ok ys ↔ (∀ x ∈ xs, P x) ∧ xs.map g = ys
  | [], ys => by
    rw [List.mapM_nil]
    exact ⟨fun hys => ⟨List.forall_mem_nil _, Except.ok.inj hys⟩, fun hys => congrArg _ hys.2⟩
  | x :: xs, ys => by
    rw [List.mapM_cons, List.forall_mem_cons, List.map_cons]
    simp only [bind_eq_ok, h, mapM_eq_ok h]
    constructor
    · rintro ⟨_, ⟨hx, rfl⟩, _, ⟨hxs, rfl⟩, hys⟩
      exact ⟨⟨hx, hxs⟩, Except.ok.inj hys⟩
    · rintro ⟨⟨hx, hxs⟩, rfl⟩
      exact ⟨_, ⟨hx, rfl⟩, _, ⟨hxs, rfl⟩, rfl⟩

theorem mapM_of_forall₂ {f : α → Result β} {xs : List α} {ys : List β}
    (h : List.Forall₂ (fun x y => f x = .ok y) xs ys) : xs.mapM f = .ok ys := by
  induction h with
  | nil => rfl
  | cons hx _ ih =>
    rw [List.mapM_cons, hx, ih]
    rfl

theorem mapM_ok_iff {f : α → Result β} : ∀ {xs : List α},
    (∃ ys, xs.mapM f = .ok ys) ↔ ∀ x ∈ xs, ∃ y, f x = .ok y
  | [] => iff_of_true ⟨[], rfl⟩ (List.forall_mem_nil _)
  | x :: xs => by
    rw [List.forall_mem_cons, ← mapM_ok_iff, List.mapM_cons]
    constructor
    · rintro ⟨_, h⟩
      obtain ⟨y, hy, h⟩ := bind_eq_ok.mp h
      obtain ⟨ys, hys, -⟩ := bind_eq_ok.mp h
      exact ⟨⟨y, hy⟩, ys, hys⟩
    · rintro ⟨⟨y, hy⟩, ys, hys⟩
      rw [hy, hys]
      exact ⟨_, rfl⟩

/-- Steps in sequence fail as the first that fails. -/
theorem mapM_of_first_error {f : α → Result β} {before after : List α} {x : α} {e : Error}
    (hbefore : ∀ x ∈ before, ∃ y, f x = .ok y) (hx : f x = .error e) :
    (before ++ x :: after).mapM f = .error e := by
  obtain ⟨ys, hys⟩ := mapM_ok_iff.mpr hbefore
  rw [List.mapM_append, hys, List.mapM_cons, hx]
  rfl

theorem exists_of_mem_mapM {f : α → Result β} : ∀ {xs : List α} {ys : List β} {y : β},
    xs.mapM f = .ok ys → y ∈ ys → ∃ x ∈ xs, f x = .ok y
  | [], _, _, h, hy => by
    cases h
    cases hy
  | x :: xs, _, _, h, hy => by
    rw [List.mapM_cons] at h
    obtain ⟨z, hz, h⟩ := bind_eq_ok.mp h
    obtain ⟨zs, hzs, h⟩ := bind_eq_ok.mp h
    cases h
    rcases List.mem_cons.mp hy with rfl | hy
    · exact ⟨x, List.mem_cons_self, hz⟩
    · obtain ⟨a, ha, hfa⟩ := exists_of_mem_mapM hzs hy
      exact ⟨a, List.mem_cons_of_mem x ha, hfa⟩

/-- Steps that go along with a change of what they are given and of what they come to do so in
sequence. -/
theorem mapM_map {γ δ : Type} {f : α → Result β} {g : γ → Result δ} {change : α → γ} {after : β → δ}
    (h : ∀ x, g (change x) = after <$> f x) :
    ∀ xs : List α, (xs.map change).mapM g = List.map after <$> xs.mapM f
  | [] => rfl
  | x :: xs => by
    rw [List.map_cons, List.mapM_cons, List.mapM_cons, h, mapM_map h xs]
    cases f x with
    | error e => rfl
    | ok b => cases xs.mapM f <;> rfl

theorem map_eq_ok {x : Result α} {f : α → β} {b : β} :
    f <$> x = .ok b ↔ ∃ a, x = .ok a ∧ f a = b := by
  cases x <;> simp [Functor.map, Except.map]

def Agree (x y : Result α) : Prop :=
  x.toOption = y.toOption

theorem Agree.refl (x : Result α) : Agree x x := rfl

theorem Agree.error (e e' : Error) : Agree (.error e : Result α) (.error e') := rfl

theorem Agree.ok_iff {x y : Result α} (h : Agree x y) (a : α) : x = .ok a ↔ y = .ok a := by
  cases x <;> cases y <;> simp_all [Agree, Except.toOption]

theorem agree_of_ok_iff {x y : Result α} (h : ∀ a, x = .ok a ↔ y = .ok a) : Agree x y := by
  cases x with
  | ok a => rw [(h a).mp rfl]
            exact .refl _
  | error e =>
    cases y with
    | error e' => rfl
    | ok b => cases (h b).mpr rfl

/-- Results that succeed together and with one value, or fail for one cause. -/
def SameCause (x y : Result α) : Prop :=
  x.mapError Error.cause = y.mapError Error.cause

theorem SameCause.refl (x : Result α) : SameCause x x := rfl

theorem SameCause.error {e e' : Error} (h : e.cause = e'.cause) :
    SameCause (.error e : Result α) (.error e') :=
  congrArg Except.error h

theorem SameCause.agree {x y : Result α} (h : SameCause x y) : Agree x y := by
  cases x with
  | error e =>
    cases y with
    | error e' => rfl
    | ok b => cases h
  | ok a =>
    cases y with
    | error e' => cases h
    | ok b => cases h; rfl

theorem SameCause.bind {x y : Result α} {f g : α → Result β} (h : SameCause x y)
    (hf : ∀ a, x = .ok a → SameCause (f a) (g a)) : SameCause (x >>= f) (y >>= g) := by
  cases x with
  | error e =>
    cases y with
    | error e' => exact .error (Except.error.inj h)
    | ok b => cases h
  | ok a =>
    cases y with
    | error e' => cases h
    | ok b => cases h; exact hf a rfl

theorem SameCause.map {x y : Result α} (f : α → β) (h : SameCause x y) :
    SameCause (f <$> x) (f <$> y) :=
  h.bind fun a _ => .refl (.ok (f a))

theorem SameCause.foldlM {f g : β → α → Result β} (h : ∀ b a, SameCause (f b a) (g b a)) :
    ∀ (xs : List α) (b : β), SameCause (xs.foldlM f b) (xs.foldlM g b)
  | [], _ => rfl
  | x :: xs, b => by
    rw [List.foldlM_cons, List.foldlM_cons]
    exact (h b x).bind fun b' _ => SameCause.foldlM h xs b'

theorem SameCause.mapM {f g : α → Result β} (h : ∀ a, SameCause (f a) (g a)) :
    ∀ xs : List α, SameCause (xs.mapM f) (xs.mapM g)
  | [] => rfl
  | x :: xs => by
    rw [List.mapM_cons, List.mapM_cons]
    exact (h x).bind fun _ _ => (SameCause.mapM h xs).bind fun _ _ => .refl _

/-- Where an error arises may be told in two ways. -/
theorem SameCause.mapError {x y : Result α} {change change' : Error → Error}
    (hchange : ∀ e, (change e).cause = e.cause) (hchange' : ∀ e, (change' e).cause = e.cause)
    (h : SameCause x y) : SameCause (x.mapError change) (y.mapError change') := by
  cases x with
  | error e =>
    cases y with
    | error e' => exact .error ((hchange e).trans ((Except.error.inj h).trans (hchange' e').symm))
    | ok b => cases h
  | ok a =>
    cases y with
    | error e' => cases h
    | ok b => exact h

def Consistent (x y : Result α) : Prop :=
  ∀ a b, x = .ok a → y = .ok b → a = b

theorem Consistent.refl (x : Result α) : Consistent x x :=
  fun a b ha hb => by cases ha.symm.trans hb; rfl

theorem Agree.consistent {x y : Result α} (h : Agree x y) : Consistent x y :=
  fun a b ha hb => by cases ((h.ok_iff a).mp ha).symm.trans hb; rfl

theorem Consistent.bind {x y : Result α} {f g : α → Result β} (h : Consistent x y)
    (hf : ∀ a, x = .ok a → Consistent (f a) (g a)) : Consistent (x >>= f) (y >>= g) := by
  intro b c hb hc
  cases x with
  | error e => cases hb
  | ok a =>
    cases y with
    | error e => cases hc
    | ok a' =>
      obtain rfl := h a a' rfl rfl
      exact hf a rfl b c hb hc

theorem Consistent.map {x y : Result α} (f : α → β) (h : Consistent x y) :
    Consistent (f <$> x) (f <$> y) :=
  h.bind fun a _ => .refl (.ok (f a))

end Overlay.Result
