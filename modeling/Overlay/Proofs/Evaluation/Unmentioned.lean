import Overlay.Proofs.Evaluation.Congruence
import Overlay.Proofs.Evaluation.Hereditary
import Overlay.Proofs.Evaluation.Termination
import Overlay.Proofs.Instantiation.Unmentioned

/-!
# Unmentioned variables do not matter

If no document mentions a variable and no text is embedded in them, then none does after references are
expanded and layers are merged. So an evaluation comes to the same, whatever the variable is bound to.
-/

namespace Overlay

open Course (Related Same)
open Environment (AgreeOff)
open Instantiation (Continuation Frame)
open List (Forall₂)

variable {σ : String}

/-- No text inside a value mentions a symbol, and no text is embedded in it. -/
def Value.Omits (σ : String) (v : Value) : Prop :=
  v.Texts (fun s => ¬ Mentions σ s) ∧ v.Keyed (· ≠ Directive.decode)

theorem Value.hereditary_omits (σ : String) :
    Hereditary (fun key => True ∧ key ≠ Directive.decode) (Omits σ) :=
  (hereditary_texts _).and (hereditary_keyed _)

theorem Value.Omits.everywhere_good {v : Value} (h : v.Omits σ) (f : Frame) :
    v.Everywhere (Instantiation.unmentioning σ f).good :=
  fun u hu => ⟨h.1 u hu, h.2 u hu⟩

theorem forall₂_zipIdx {α β : Type} {R : α → β → Prop} {xs : List α} {ys : List β}
    (h : Forall₂ R xs ys) : ∀ n : Nat,
      Forall₂ (fun a b => R a.1 b.1 ∧ a.2 = b.2) (xs.zipIdx n) (ys.zipIdx n) := by
  induction h with
  | nil => exact fun _ => .nil
  | cons hxy _ ih => exact fun n => .cons ⟨hxy, rfl⟩ (ih (n + 1))

namespace Evaluation

section
variable {e : Evaluation} {env' : Environment} (henv : AgreeOff σ e.environment env')
  {f : Frame} {again again' : Continuation} {spec : Option Value} (hspec : ∀ v ∈ spec, v.Omits σ)
include henv hspec

/-- A document has as many copies, with the same labels. -/
theorem fanOut_agreeOff (label : String) :
    Related (· = ·) (Forall₂ fun a b => a.1 = b.1 ∧ AgreeOff σ a.2 b.2) (e.fanOut f again label spec)
      (({ e with environment := env' } : Evaluation).fanOut f again' label spec) := by
  cases spec with
  | none => exact .value (.cons ⟨rfl, henv⟩ .nil)
  | some spec =>
    let S := (Instantiation.unmentioning σ f).simulation again again'
    have hgood : spec.Everywhere S.good := (hspec spec rfl).everywhere_good f
    have hruns : Related (· = ·) (Forall₂ (AgreeOff σ))
        (Instantiation.runSpec f again spec e.environment "")
        (Instantiation.runSpec f again' spec env' "") := by
      refine (S.specValue_related spec hgood henv rfl).bind_same fun made hmade => ?_
      exact S.environments_related hmade henv rfl
    unfold fanOut
    refine (hruns.mapError fun _ _ h => congrArg _ h).bind fun envs envs' henvs => .pure ?_
    rw [List.forall₂_map_left_iff, List.forall₂_map_right_iff]
    refine (forall₂_zipIdx henvs 0).imp fun a b h => ?_
    obtain ⟨hagree, hposition⟩ := h
    dsimp only
    rw [hposition]
    exact ⟨rfl, hagree⟩

theorem outputsAt_agreeOff (hdata : (f.site.assembly.corpus.data f.site.document).Omits σ) :
    e.outputsAt f again spec =
      ({ e with environment := env' } : Evaluation).outputsAt f again' spec := by
  let S := (Instantiation.unmentioning σ f).simulation again again'
  have hgood : (f.site.assembly.corpus.data f.site.document).Everywhere S.good :=
    hdata.everywhere_good f
  unfold outputsAt
  refine (fanOut_agreeOff henv hspec _).bind_eq fun copies copies' hcopies => ?_
  refine Course.flatMapM_congr (fun copy copy' hcopy => ?_) hcopies
  obtain ⟨label, env⟩ := copy
  obtain ⟨label', other⟩ := copy'
  obtain ⟨rfl, hother⟩ := hcopy
  dsimp only
  rw [(Course.related_same_iff.mp (S.instantiate_related _ hgood hother rfl)).1]
  rfl

end

section
variable {e : Evaluation} {env' : Environment} (henv : AgreeOff σ e.environment env')
  (again again' : Frame → Continuation)
include henv

theorem outputs_agreeOff {a : Assembly} (ha : a.corpus.Each (Value.Omits σ)) :
    e.outputs again a = ({ e with environment := env' } : Evaluation).outputs again' a := by
  obtain ⟨hfinal, hspecs⟩ := of_takeSpecs (Value.hereditary_omits σ) ha
  have hcopies : ∀ copy ∈ a.result.zip (takeSpecs a.corpus a.result).2, ∀ v ∈ copy.2, v.Omits σ :=
    fun copy hcopy => hspecs copy.2 (List.of_mem_zip hcopy).2
  unfold outputs
  dsimp only
  refine Course.flatMapM_congr (R := fun a b => a = b ∧ ∀ v ∈ a.2, v.Omits σ) ?_ ?_
  · intro copy copy' hcopy
    obtain ⟨rfl, hspec⟩ := hcopy
    exact outputsAt_agreeOff henv hspec (hfinal copy.1)
  · exact List.forall₂_same.mpr fun copy hcopy => ⟨rfl, hcopies copy hcopy⟩

/-- Neither the variable nor how embedded documents are instantiated matters. -/
theorem evaluateWith_agreeOff {c : Corpus} (hc : c.Each (Value.Omits σ)) (order : List Nat) :
    e.evaluateWith again c order =
      ({ e with environment := env' } : Evaluation).evaluateWith again' c order := by
  have hH := Value.hereditary_omits σ
  have hexpand (a : Assembly) : ({ e with environment := env' } : Evaluation).expandAll a =
      e.expandAll a := rfl
  unfold evaluateWith
  refine (Course.related_lift fun a => Assembly.of_ofCorpus hH hc).bind_eq fun a _ ha => ?_
  obtain ⟨rfl, ha⟩ := ha
  rw [hexpand]
  refine (Course.related_lift fun b => of_expandAll hH ha).bind_eq fun b _ hb => ?_
  obtain ⟨rfl, hb⟩ := hb
  exact outputs_agreeOff henv again again' hb

end

/-- An evaluation in which nothing that is embedded is instantiated ends. -/
theorem evaluateWith_ends (e : Evaluation) (c : Corpus) (order : List Nat) :
    ∃ outcome, e.evaluateWith (fun _ _ _ _ => pure none) c order = some outcome :=
  evaluateWith_congr .ends e (fun _ _ _ _ _ => pure none) (fun _ _ _ _ => ⟨.ok none, rfl⟩) c order

/-- A variable that no document mentions does not influence the outcome. -/
theorem evaluate_of_unmentioned {e : Evaluation} {env' : Environment} {c : Corpus}
    (htexts : ∀ d ∈ c.documents, d.data.Texts fun s => ¬ Mentions σ s)
    (hdecode : ∀ d ∈ c.documents, d.data.Keyed (· ≠ Directive.decode))
    (henv : AgreeOff σ e.environment env') (order : List Nat) :
    ∃ outcome, e.evaluate c order = some outcome ∧
      ({ e with environment := env' } : Evaluation).evaluate c order = some outcome := by
  have hc : c.Each (Value.Omits σ) := Corpus.forall_data
    (fun d hd => ⟨htexts d hd, hdecode d hd⟩) (Value.hereditary_omits σ).null
  obtain ⟨outcome, houtcome⟩ := evaluateWith_ends e c order
  refine ⟨outcome, ?_, ?_⟩
  · have hsame : AgreeOff σ e.environment e.environment := fun _ _ => rfl
    exact (evaluateWith_agreeOff hsame Frame.run _ hc order).trans houtcome
  · have hchanged : AgreeOff σ env' e.environment := fun symbol h => (henv symbol h).symm
    exact (evaluateWith_agreeOff (e := { e with environment := env' }) hchanged Frame.run _ hc order).trans
      houtcome

theorem evaluate_of_unmentioned_of_secret :
    let c : Corpus := ⟨[⟨"document", .map [("$repeat", .int 2), ("name", .string "$env:NAME"),
      ("text", .string "$\"\x7b $env:NAME \x7d:\x7b$repeat\x7d\"")], []⟩]⟩
    let secret : String := "$env:SECRET"
    let e : Evaluation := { environment := .ofVariables [("NAME", "x"), ("SECRET", "y")] }
    let outcome : Result (List Value) := .ok [.map [("name", .string "x"), ("text", .string "x:0")],
      .map [("name", .string "x"), ("text", .string "x:1")]]
    (∀ d ∈ c.documents, d.data.Texts fun s => ¬ Mentions secret s) ∧
      (∀ d ∈ c.documents, d.data.Keyed (· ≠ Directive.decode)) ∧
      e.evaluate c [0] = some outcome ∧
      (∀ v, ({ e with environment := Entries.insert secret v e.environment } : Evaluation).evaluate
        c [0] = some outcome) ∧
      ({ e with environment := Entries.erase secret e.environment } : Evaluation).evaluate c [0] =
        some outcome := by
  intro c secret e outcome
  have htexts : ∀ d ∈ c.documents, d.data.Texts fun s => ¬ Mentions secret s := by decide +kernel
  have hdecode : ∀ d ∈ c.documents, d.data.Keyed (· ≠ Directive.decode) := by decide +kernel
  have heval : e.evaluate c [0] = some outcome :=
    (evaluate_eq_some_iff e c [0] outcome).mpr ⟨0, by decide +kernel⟩
  have hsame {env' : Environment} (henv : AgreeOff secret e.environment env') :
      ({ e with environment := env' } : Evaluation).evaluate c [0] = some outcome := by
    obtain ⟨other, hother, hsame⟩ := evaluate_of_unmentioned htexts hdecode henv [0]
    rw [hsame, ← hother, heval]
  exact ⟨htexts, hdecode, heval, fun v => hsame (Environment.agreeOff_insert secret v _),
    hsame (Environment.agreeOff_erase secret _)⟩

end Evaluation

end Overlay
