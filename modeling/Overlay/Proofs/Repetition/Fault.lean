import Overlay.Repetition

/-!
# Faults of repetition

Whatever a specification of copies is, what it fails for is a fault of repetition.
-/

namespace Overlay.Repetition

/-- A result that fails for nothing but a fault of repetition. -/
def Faults {α : Type} (x : Result α) : Prop :=
  ∀ e, x = .error e → e.cause.code = "INVALID_REPEAT"

section
variable {α β : Type}

theorem faults_ok (a : α) : Faults (.ok a) := nofun

theorem faults_fault (f : RepeatFault) : Faults (fault f : Result α) := by
  rintro e ⟨⟩
  rfl

theorem Faults.bind {x : Result α} {f : α → Result β} (hx : Faults x) (hf : ∀ a, Faults (f a)) :
    Faults (x >>= f) := by
  cases x with
  | error e => rintro _ ⟨⟩; exact hx e rfl
  | ok a => exact hf a

theorem Faults.map {x : Result α} (hx : Faults x) (f : α → β) : Faults (x.map f) := by
  cases x with
  | error e => rintro _ ⟨⟩; exact hx e rfl
  | ok a => exact faults_ok _

theorem Faults.ite {p : Prop} [Decidable p] {x y : Result α} (hx : Faults x) (hy : Faults y) :
    Faults (if p then x else y) := by
  split
  · exact hx
  · exact hy

theorem Faults.mapM {f : α → Result β} (hf : ∀ a, Faults (f a)) : ∀ xs : List α, Faults (xs.mapM f)
  | [] => faults_ok []
  | x :: xs => by
    rw [List.mapM_cons]
    exact (hf x).bind fun y => (Faults.mapM hf xs).bind fun ys => faults_ok _

end

theorem faults_fitting (n : Int) : Faults (fitting n) :=
  .ite (faults_ok n) (faults_fault _)

theorem faults_checkCopies (copies : Int) : Faults (checkCopies copies) :=
  .ite (faults_fault _) (faults_ok ())

theorem faults_bound? (entries : Entries Value) (key : String) : Faults (bound? entries key) := by
  unfold bound?
  split
  · exact faults_ok _
  · exact faults_ok _
  · exact faults_fault _

theorem faults_numberAt (first step : Int) (position : Nat) :
    Faults (numberAt first step position) :=
  (faults_fitting _).bind fun _ => (faults_fitting _).bind fun _ => faults_ok _

theorem faults_extent (first last count : Option Int) (step : Int) :
    Faults (extent first last count step) := by
  unfold extent
  split
  · refine (faults_fitting _).bind fun span => (faults_fitting _).bind fun steps => ?_
    exact .ite (faults_fault _) ((faults_fitting _).bind fun _ => faults_ok _)
  · exact faults_ok _
  · refine (faults_fitting _).bind fun before => (faults_fitting _).bind fun offset => ?_
    exact (faults_fitting _).bind fun _ => faults_ok _
  · exact faults_fault _

theorem faults_range (entries : Entries Value) : Faults (range entries) := by
  unfold range
  split
  · exact faults_fault _
  · refine (faults_bound? _ _).bind fun first => (faults_bound? _ _).bind fun last => ?_
    refine (faults_bound? _ _).bind fun count => (faults_bound? _ _).bind fun step => ?_
    refine .ite (faults_fault _) ((faults_extent _ _ _ _).bind fun _ => ?_)
    refine .ite (faults_fault _) ((faults_checkCopies _).bind fun _ => ?_)
    exact Faults.mapM (faults_numberAt _ _) _

theorem faults_dimension (spec : Value) : Faults (dimension spec) := by
  cases spec with
  | int n => exact .ite (faults_fault _) ((faults_checkCopies _).bind fun _ => faults_ok _)
  | list items => exact faults_ok _
  | map entries => exact .ite (faults_range entries) (faults_fault _)
  | _ => exact faults_fault _

theorem faults_combinations : ∀ (entries : List (String × Value)) (bindings : List Binding),
    Faults (combinations bindings entries)
  | [], bindings => faults_ok bindings
  | (name, spec) :: rest, bindings => by
    rw [combinations]
    refine .ite (faults_fault _) ((faults_dimension spec).bind fun values => ?_)
    exact (faults_checkCopies _).bind fun _ => faults_combinations rest _

theorem faults_bindings (spec : Value) : Faults (bindings spec) := by
  unfold bindings
  split
  · exact faults_fault _
  · exact .ite ((faults_dimension _).map _) (faults_combinations _ _)
  · exact (faults_dimension _).map _

end Overlay.Repetition
