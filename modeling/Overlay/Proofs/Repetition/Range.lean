import Mathlib.Algebra.Order.Ring.Int
import Overlay.Proofs.Entries
import Overlay.Proofs.Repetition.Fault
import Overlay.Proofs.Result

/-!
# Ranges

Two of three numbers and a step describe a progression (`Describes`), within 64 bits and the limit of
copies. A range binds its copies to the numbers of that progression, in order, and is refused if there
is none; so it does not matter which two of the numbers are given (`bindings_range`).
-/

namespace Overlay.Repetition

open Word (Fits)

/-! ## Checked numbers -/

theorem fits_toInt (n : Int64) : Fits n.toInt :=
  ⟨n.le_toInt, n.toInt_lt⟩

theorem toInt_ofInt {n : Int} (h : Fits n) : (Int64.ofInt n).toInt = n :=
  Int64.toInt_ofInt_of_le h.1 h.2

theorem guarded_eq_ok {α : Type} {p : Prop} [Decidable p] {f : RepeatFault} {x : Result α} {v : α} :
    (if p then fault f else x) = .ok v ↔ ¬ p ∧ x = .ok v := by
  split
  · rename_i h
    exact iff_of_false nofun fun hv => hv.1 h
  · rename_i h
    rw [and_iff_right h]

theorem fitting_eq_ok {n m : Int} : fitting n = .ok m ↔ Fits n ∧ n = m := by
  unfold fitting
  split
  · rename_i h
    rw [and_iff_right h, Except.ok.injEq]
  · rename_i h
    exact iff_of_false nofun fun hm => h hm.1

theorem checkCopies_eq_ok {copies : Int} {u : Unit} :
    checkCopies copies = .ok u ↔ copies ≤ copyLimit := by
  rw [checkCopies, guarded_eq_ok, not_lt]
  exact and_iff_left rfl

theorem numberAt_eq_ok {a step : Int} {position : Nat} {v : Value} :
    numberAt a step position = .ok v ↔
      (Fits (position * step) ∧ Fits (a + position * step)) ∧
        Value.int (Int64.ofInt (a + position * step)) = v := by
  unfold numberAt
  simp only [Result.bind_eq_ok, fitting_eq_ok]
  constructor
  · rintro ⟨_, ⟨hoffset, rfl⟩, _, ⟨hn, rfl⟩, hv⟩
    cases hv
    exact ⟨⟨hoffset, hn⟩, rfl⟩
  · rintro ⟨⟨hoffset, hn⟩, rfl⟩
    exact ⟨_, ⟨hoffset, rfl⟩, _, ⟨hn, rfl⟩, rfl⟩

/-- A progression stays within 64 bits if it starts and ends there. -/
theorem fits_progression {a n step : Int} (ha : Fits a) (hn : 1 ≤ n) :
    (∀ i ∈ List.range n.toNat, Fits (i * step) ∧ Fits (a + i * step)) ↔
      Fits ((n - 1) * step) ∧ Fits (a + (n - 1) * step) := by
  constructor
  · intro h
    have hlast := h (n.toNat - 1) (List.mem_range.mpr (by omega))
    rwa [show ((n.toNat - 1 : Nat) : Int) = n - 1 by omega] at hlast
  · rintro ⟨hoffset, hlast⟩ i hi
    have hi : (i : Int) ≤ n - 1 := by
      have := List.mem_range.mp hi
      omega
    -- An offset lies between zero and the last one, on one side or the other.
    rcases le_total 0 step with hstep | hstep
    · have hle : (i : Int) * step ≤ (n - 1) * step := mul_le_mul_of_nonneg_right hi hstep
      have hpos : 0 ≤ (i : Int) * step := mul_nonneg (Int.natCast_nonneg i) hstep
      unfold Fits at *
      omega
    · have hle : (n - 1) * step ≤ (i : Int) * step := mul_le_mul_of_nonpos_right hi hstep
      have hneg : (i : Int) * step ≤ 0 := mul_nonpos_of_nonneg_of_nonpos (Int.natCast_nonneg i) hstep
      unfold Fits at *
      omega

/-! ## What a range spells -/

/-- The numbers from a first one on, each a step after the one before it. -/
def progression (a step : Int) (n : Nat) : List Int :=
  (List.range n).map fun i : Nat => a + i * step

/-- Copies that are bound to numbers. -/
def numbered (ns : List Int64) : List Binding :=
  ns.map fun n => [(Directive.repeatOver, .int n)]

/-- The number that a map has under a key. -/
def number? (entries : Entries Value) (key : String) : Option Int :=
  match Entries.lookup key entries with
  | some (.int n) => some n.toInt
  | _ => none

/-- A map of numbers under the keys of a range. The step is one unless it is given. -/
structure Spells (entries : Entries Value) (first last count : Option Int) (step : Int) : Prop where
  numbers : ∀ e ∈ entries, e.1 ∈ rangeKeys ∧ ∃ n, e.2 = .int n
  first : number? entries Directive.first = first
  last : number? entries Directive.last = last
  count : number? entries Directive.count = count
  step : (number? entries Directive.step).getD 1 = step

/-- The first number and the length of the progression that two of three numbers describe. -/
inductive Describes (step : Int) : (first last count : Option Int) → (a n : Int) → Prop
  | ends {a b : Int} : Fits (b - a) → step ∣ b - a → 0 ≤ (b - a) / step →
    (b - a) / step + 1 ≤ copyLimit → Describes step (some a) (some b) none a ((b - a) / step + 1)
  | start {a n : Int} : 1 ≤ n → n ≤ copyLimit → Fits ((n - 1) * step) →
    Fits (a + (n - 1) * step) → Describes step (some a) none (some n) a n
  | stop {b n : Int} : 1 ≤ n → n ≤ copyLimit → Fits ((n - 1) * step) →
    Fits (b - (n - 1) * step) → Describes step none (some b) (some n) (b - (n - 1) * step) n

theorem fits_number? {entries : Entries Value} {key : String} {n : Int}
    (h : number? entries key = some n) : Fits n := by
  unfold number? at h
  split at h <;> cases h
  exact fits_toInt _

/-! ## From two numbers to a progression -/

theorem extent_ends_eq_ok {a b step c n : Int} :
    extent (some a) (some b) none step = .ok (c, n) ↔
      Fits (b - a) ∧ Fits ((b - a) / step) ∧ (step ∣ b - a ∧ 0 ≤ (b - a) / step) ∧
        Fits ((b - a) / step + 1) ∧ a = c ∧ (b - a) / step + 1 = n := by
  simp only [extent, Result.bind_eq_ok, fitting_eq_ok, guarded_eq_ok, ne_eq, not_or, not_not, not_lt,
    ← Int.dvd_iff_tmod_eq_zero]
  constructor
  · rintro ⟨_, ⟨hspan, rfl⟩, _, ⟨hsteps, rfl⟩, ⟨hdvd, hpos⟩, _, ⟨hlength, rfl⟩, h⟩
    rw [Int.tdiv_eq_ediv_of_dvd hdvd] at hsteps hpos hlength h
    cases h
    exact ⟨hspan, hsteps, ⟨hdvd, hpos⟩, hlength, rfl, rfl⟩
  · rintro ⟨hspan, hsteps, ⟨hdvd, hpos⟩, hlength, rfl, rfl⟩
    rw [← Int.tdiv_eq_ediv_of_dvd hdvd] at hsteps hpos hlength ⊢
    exact ⟨_, ⟨hspan, rfl⟩, _, ⟨hsteps, rfl⟩, ⟨hdvd, hpos⟩, _, ⟨hlength, rfl⟩, rfl⟩

theorem extent_stop_eq_ok {b count step a n : Int} :
    extent none (some b) (some count) step = .ok (a, n) ↔
      Fits (count - 1) ∧ Fits ((count - 1) * step) ∧ Fits (b - (count - 1) * step) ∧
        b - (count - 1) * step = a ∧ count = n := by
  simp only [extent, Result.bind_eq_ok, fitting_eq_ok]
  constructor
  · rintro ⟨_, ⟨hbefore, rfl⟩, _, ⟨hoffset, rfl⟩, _, ⟨hfirst, rfl⟩, h⟩
    cases h
    exact ⟨hbefore, hoffset, hfirst, rfl, rfl⟩
  · rintro ⟨hbefore, hoffset, hfirst, rfl, rfl⟩
    exact ⟨_, ⟨hbefore, rfl⟩, _, ⟨hoffset, rfl⟩, _, ⟨hfirst, rfl⟩, rfl⟩

theorem fits_of_le_copyLimit {n : Int} (hpos : 0 ≤ n) (hlimit : n ≤ copyLimit) : Fits n := by
  unfold copyLimit at hlimit
  unfold Fits Word.half
  omega

/-- The numbers of a range are those of the progression that it describes. -/
theorem extent_iff_describes {first last count : Option Int} {step a n : Int}
    (hfirst : ∀ a, first = some a → Fits a) (hlast : ∀ b, last = some b → Fits b) :
    (extent first last count step = .ok (a, n) ∧ (1 ≤ n ∧ n ≤ copyLimit) ∧
        ∀ i ∈ List.range n.toNat, Fits (i * step) ∧ Fits (a + i * step)) ↔
      Describes step first last count a n := by
  match first, last, count with
  | some first, some last, none =>
    have hfirst : Fits first := hfirst first rfl
    have hlast : Fits last := hlast last rfl
    rw [extent_ends_eq_ok]
    constructor
    · rintro ⟨⟨hspan, -, ⟨hdvd, hpos⟩, -, rfl, rfl⟩, ⟨-, hlimit⟩, -⟩
      exact .ends hspan hdvd hpos hlimit
    · rintro ⟨hspan, hdvd, hpos, hlimit⟩
      have hn : 1 ≤ (last - a) / step + 1 := by omega
      have hoffset : ((last - a) / step + 1 - 1) * step = last - a := by
        rw [add_sub_cancel_right, Int.ediv_mul_cancel hdvd]
      have hsteps : Fits ((last - a) / step) := fits_of_le_copyLimit hpos (by omega)
      have hlength : Fits ((last - a) / step + 1) := fits_of_le_copyLimit (by omega) hlimit
      refine ⟨⟨hspan, hsteps, ⟨hdvd, hpos⟩, hlength, rfl, rfl⟩, ⟨hn, hlimit⟩, ?_⟩
      rw [fits_progression hfirst hn, hoffset, add_sub_cancel]
      exact ⟨hspan, hlast⟩
  | some first, none, some count =>
    have hfirst : Fits first := hfirst first rfl
    constructor
    · rintro ⟨⟨⟩, ⟨hn, hlimit⟩, hfits⟩
      obtain ⟨hoffset, hlast⟩ := (fits_progression hfirst hn).mp hfits
      exact .start hn hlimit hoffset hlast
    · intro h
      cases h with
      | start hn hlimit hoffset hlast =>
        exact ⟨rfl, ⟨hn, hlimit⟩, (fits_progression hfirst hn).mpr ⟨hoffset, hlast⟩⟩
  | none, some last, some count =>
    have hlast : Fits last := hlast last rfl
    rw [extent_stop_eq_ok]
    constructor
    · rintro ⟨⟨-, hoffset, hfirst, rfl, rfl⟩, ⟨hn, hlimit⟩, -⟩
      exact .stop hn hlimit hoffset hfirst
    · intro h
      cases h with
      | stop hn hlimit hoffset hfirst =>
        have hbefore : Fits (n - 1) := fits_of_le_copyLimit (by omega) (by omega)
        refine ⟨⟨hbefore, hoffset, hfirst, rfl, rfl⟩, ⟨hn, hlimit⟩, ?_⟩
        rw [fits_progression hfirst hn, sub_add_cancel]
        exact ⟨hoffset, hlast⟩
  | none, none, _ | none, some _, none | some _, none, none | some _, some _, some _ =>
    exact iff_of_false (fun h => by cases h.1) nofun

section
variable {entries : Entries Value} {first last count : Option Int} {step : Int}
  (h : Spells entries first last count step)
include h

theorem Spells.fits_first (a : Int) (ha : first = some a) : Fits a :=
  fits_number? (h.first.trans ha)

theorem Spells.fits_last (b : Int) (hb : last = some b) : Fits b :=
  fits_number? (h.last.trans hb)

theorem Spells.range_eq : range entries =
    if step = 0 then fault .zeroStep
    else extent first last count step >>= fun (a, n) =>
      if n ≤ 0 then fault (.emptyRange n)
      else checkCopies n >>= fun _ => (List.range n.toNat).mapM (numberAt a step) := by
  have hkeys : (Entries.keys entries).find? (fun k => !rangeKeys.contains k) = none := by
    rw [List.find?_eq_none]
    intro k hk
    obtain ⟨e, he, rfl⟩ := List.mem_map.mp hk
    simpa using (h.numbers e he).1
  have hbound : ∀ key, bound? entries key = .ok (number? entries key) := by
    intro key
    unfold bound? number?
    cases hv : Entries.lookup key entries with
    | none => rfl
    | some v =>
      obtain ⟨n, rfl⟩ := (h.numbers _ (Entries.mem_of_lookup hv)).2
      rfl
  simp only [range, hkeys, hbound, Result.ok_bind, h.first, h.last, h.count, h.step]

theorem Spells.range_eq_ok {values : List Value} : range entries = .ok values ↔
    step ≠ 0 ∧ ∃ a n, Describes step first last count a n ∧
      (List.range n.toNat).map (fun i : Nat => Value.int (Int64.ofInt (a + i * step))) = values := by
  simp only [h.range_eq, ← extent_iff_describes h.fits_first h.fits_last, guarded_eq_ok,
    Result.bind_eq_ok, checkCopies_eq_ok, Result.mapM_eq_ok fun _ _ => numberAt_eq_ok, Prod.exists,
    exists_const, not_le, and_assoc, ne_eq]
  exact Iff.rfl

theorem Spells.bindings_eq : bindings (.map entries) =
    if entries = [] then fault .noDimension
    else (range entries).map fun values => values.map fun v => [(Directive.repeatOver, v)] := by
  cases entries with
  | nil => rfl
  | cons e rest =>
    have hhas : Entries.has e.1 (e :: rest) = true := by simp [Entries.has, Entries.lookup]
    have hrange : isRange (e :: rest) = true :=
      List.any_eq_true.mpr ⟨e.1, (h.numbers e List.mem_cons_self).1, hhas⟩
    simp [bindings, dimension, hrange]

theorem Spells.bindings_eq_ok {found : List Binding} : bindings (.map entries) = .ok found ↔
    step ≠ 0 ∧ ∃ a n, Describes step first last count a n ∧
      numbered ((progression a step n.toNat).map Int64.ofInt) = found := by
  have hempty : ∀ {a n}, Describes step first last count a n → entries ≠ [] := by
    rintro a n hdescribes rfl
    obtain ⟨-, rfl, rfl, rfl, -⟩ := h
    cases hdescribes
  rw [h.bindings_eq, guarded_eq_ok]
  constructor
  · rintro ⟨-, hfound⟩
    obtain ⟨values, hvalues, rfl⟩ := Result.map_eq_ok.mp hfound
    obtain ⟨hstep, a, n, hdescribes, rfl⟩ := h.range_eq_ok.mp hvalues
    refine ⟨hstep, a, n, hdescribes, ?_⟩
    simp only [numbered, progression, List.map_map, Function.comp_def]
  · rintro ⟨hstep, a, n, hdescribes, rfl⟩
    have hvalues := h.range_eq_ok.mpr ⟨hstep, a, n, hdescribes, rfl⟩
    refine ⟨hempty hdescribes, Result.map_eq_ok.mpr ⟨_, hvalues, ?_⟩⟩
    simp only [numbered, progression, List.map_map, Function.comp_def]

/-- No number of a progression that a range describes is cut. -/
theorem Spells.toInt_progression {a n : Int} (hdescribes : Describes step first last count a n) :
    ((progression a step n.toNat).map Int64.ofInt).map Int64.toInt = progression a step n.toNat := by
  obtain ⟨-, -, hfits⟩ := (extent_iff_describes h.fits_first h.fits_last).mpr hdescribes
  rw [progression, List.map_map, List.map_map]
  exact List.map_congr_left fun i hi => toInt_ofInt (hfits i hi).2

end

/-! ## Three spellings of one progression -/

section
variable {a b c n m step : Int} (hb : b = a + (n - 1) * step)
include hb

theorem describes_ends_iff (hlast : Fits b) (hstep : step ≠ 0) :
    Describes step (some a) (some b) none c m ↔ Describes step (some a) none (some n) c m := by
  have hspan : b - a = (n - 1) * step := by omega
  have hsteps : (b - a) / step + 1 = n := by
    rw [hspan, Int.mul_ediv_cancel _ hstep, sub_add_cancel]
  constructor
  · intro h
    cases h with
    | ends hoffset _ hpos hlimit =>
      rw [hsteps] at hlimit ⊢
      exact .start (by omega) hlimit (hspan ▸ hoffset) (hb ▸ hlast)
  · intro h
    cases h with
    | start hn hlimit hoffset _ =>
      have hdvd : step ∣ b - a := hspan ▸ Int.dvd_mul_left _ _
      have hends : Describes step (some a) (some b) none a ((b - a) / step + 1) :=
        .ends (hspan ▸ hoffset) hdvd (by omega) (by omega)
      rwa [hsteps] at hends

theorem describes_stop_iff (hfirst : Fits a) (hlast : Fits b) :
    Describes step none (some b) (some n) c m ↔ Describes step (some a) none (some n) c m := by
  have hback : b - (n - 1) * step = a := by omega
  constructor
  · intro h
    cases h with
    | stop hn hlimit hoffset _ =>
      rw [hback]
      exact .start hn hlimit hoffset (hb ▸ hlast)
  · intro h
    cases h with
    | start hn hlimit hoffset _ =>
      have hstop : Describes step none (some b) (some n) (b - (n - 1) * step) n :=
        .stop hn hlimit hoffset (hback.symm ▸ hfirst)
      rwa [hback] at hstop

end

theorem Spells.agree {entries others : Entries Value}
    {first last count first' last' count' : Option Int} {step : Int}
    (h : Spells entries first last count step)
    (h' : Spells others first' last' count' step)
    (hdescribes : step ≠ 0 → ∀ a n, Describes step first last count a n ↔
      Describes step first' last' count' a n) :
    Result.Agree (bindings (.map entries)) (bindings (.map others)) := by
  refine Result.agree_of_ok_iff fun found => ?_
  rw [h.bindings_eq_ok, h'.bindings_eq_ok]
  exact and_congr_right fun hstep =>
    exists₂_congr fun a n => and_congr_left fun _ => hdescribes hstep a n

/-- A range is taken in exactly if its step is not zero and two of its numbers describe a progression,
in exact arithmetic. Its copies are then bound to that progression, and it fails for nothing but a
fault of repetition. Which two of the numbers are given makes no difference. -/
theorem bindings_range :
    (∀ {entries : Entries Value} {first last count : Option Int} {step : Int},
      Spells entries first last count step →
        ((∃ found, bindings (.map entries) = .ok found) ↔
          step ≠ 0 ∧ ∃ a n, Describes step first last count a n) ∧
        (∀ found, bindings (.map entries) = .ok found → ∃ a n ns,
          Describes step first last count a n ∧ found = numbered ns ∧
            ns.map Int64.toInt = progression a step n.toNat) ∧
        ∀ e, bindings (.map entries) = .error e → e.cause.code = "INVALID_REPEAT") ∧
    ∀ {ends start stop : Entries Value} {a b n step : Int}, b = a + (n - 1) * step →
      Spells ends (some a) (some b) none step → Spells start (some a) none (some n) step →
        Spells stop none (some b) (some n) step →
          Result.Agree (bindings (.map ends)) (bindings (.map start)) ∧
            Result.Agree (bindings (.map stop)) (bindings (.map start)) := by
  refine ⟨fun {entries first last count step} h => ⟨?_, fun found hfound => ?_, fun e =>
    faults_bindings _ e⟩, fun {ends start stop a b n step} hb hends hstart hstop => ?_⟩
  · constructor
    · rintro ⟨found, hfound⟩
      obtain ⟨hstep, a, n, hdescribes, -⟩ := h.bindings_eq_ok.mp hfound
      exact ⟨hstep, a, n, hdescribes⟩
    · rintro ⟨hstep, a, n, hdescribes⟩
      exact ⟨_, h.bindings_eq_ok.mpr ⟨hstep, a, n, hdescribes, rfl⟩⟩
  · obtain ⟨-, a, n, hdescribes, rfl⟩ := h.bindings_eq_ok.mp hfound
    exact ⟨a, n, _, hdescribes, rfl, h.toInt_progression hdescribes⟩
  · have hfirst : Fits a := hends.fits_first a rfl
    have hlast : Fits b := hends.fits_last b rfl
    exact ⟨hends.agree hstart fun hstep a n => describes_ends_iff hb hlast hstep,
      hstop.agree hstart fun _ a n => describes_stop_iff hb hfirst hlast⟩

/-- The last three numbers of 64 bits, counted down to the least, in three spellings. -/
theorem bindings_range_of_least :
    let first : Value := .int (-9223372036854775806)
    let last : Value := .int (-9223372036854775808)
    let ends : Entries Value :=
      [(Directive.first, first), (Directive.last, last), (Directive.step, .int (-1))]
    let start : Entries Value :=
      [(Directive.count, .int 3), (Directive.first, first), (Directive.step, .int (-1))]
    let stop : Entries Value :=
      [(Directive.count, .int 3), (Directive.last, last), (Directive.step, .int (-1))]
    (∃ found, bindings (.map ends) = .ok found) ∧
      Result.Agree (bindings (.map ends)) (bindings (.map start)) ∧
        Result.Agree (bindings (.map stop)) (bindings (.map start)) := by
  intro first last ends start stop
  have hends : Spells ends (some (-9223372036854775806)) (some (-9223372036854775808)) none (-1) :=
    ⟨by simp [ends, first, last, rangeKeys], by decide, by decide, by decide, by decide⟩
  have hstart : Spells start (some (-9223372036854775806)) none (some 3) (-1) :=
    ⟨by simp [start, first, rangeKeys], by decide, by decide, by decide, by decide⟩
  have hstop : Spells stop none (some (-9223372036854775808)) (some 3) (-1) :=
    ⟨by simp [stop, last, rangeKeys], by decide, by decide, by decide, by decide⟩
  refine ⟨(bindings_range.1 hends).1.mpr ⟨by decide, _, _, .ends ?_ ?_ ?_ ?_⟩,
    bindings_range.2 (by decide) hends hstart hstop⟩ <;> decide

end Overlay.Repetition
