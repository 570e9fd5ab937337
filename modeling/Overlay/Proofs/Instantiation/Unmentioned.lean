import Overlay.Proofs.Instantiation.Simulation
import Overlay.Proofs.Literal.Basic
import Overlay.Proofs.Value.Hereditary

/-!
# Variables that no text mentions

A variable is read where a text is its symbol or a template whose expressions name it. So a text in which
the symbol of a variable does not occur has one value, whatever the variable is bound to. A binding to a
symbol that is met on the way is made in all environments alike.
-/

namespace Overlay

/-! ## Templates -/

theorem Text.trim_infix (s : List Char) : trim s <:+: s := by
  unfold trim trimEnd trimStart
  have hstart : s.dropWhile isBlank <:+ s := List.dropWhile_suffix _
  have hend : ((s.dropWhile isBlank).reverse.dropWhile isBlank).reverse <+: s.dropWhile isBlank := by
    rw [← List.reverse_suffix, List.reverse_reverse]
    exact List.dropWhile_suffix _
  exact hend.isInfix.trans hstart.isInfix

namespace Template

theorem infix_of_mem_scan {t : List Char} : ∀ {s : List Char} {pending : Option (List Char)},
    .expression t ∈ scan pending s → t <:+: (pending.getD []).reverse ++ s
  | [], none, h => by simp [scan] at h
  | [], some p, h => by simp [scan] at h
  | c :: s, none, h => by
    simp only [scan] at h
    split at h
    · exact (infix_of_mem_scan h).trans (List.suffix_cons c s).isInfix
    · simp only [List.mem_cons, reduceCtorEq, false_or] at h
      exact (infix_of_mem_scan h).trans (List.suffix_cons c s).isInfix
  | c :: s, some p, h => by
    have hrest : s <:+: p.reverse ++ c :: s := ⟨p.reverse ++ [c], [], by simp⟩
    simp only [scan] at h
    split at h
    · rcases List.mem_cons.mp h with h | h
      · cases h
        exact (List.prefix_append _ _).isInfix
      · exact (infix_of_mem_scan h).trans hrest
    · split at h
      · simp only [List.mem_cons, reduceCtorEq, false_or] at h
        exact (infix_of_mem_scan h).trans hrest
      · simpa using infix_of_mem_scan h

theorem infix_of_body? {s : String} {body : List Char} (h : body? s = some body) : body <:+: s.toList := by
  unfold body? at h
  split at h
  · rename_i inner hinner
    split at h
    · cases h
      rw [← Text.append_of_after? hinner]
      exact (List.dropLast_prefix inner).isInfix.trans (List.suffix_append _ _).isInfix
    · cases h
  · cases h

/-- What the expressions of a template read stands in the text of the template. -/
theorem trim_infix_of_mem_pieces {s : String} {body t : List Char} (hbody : body? s = some body)
    (ht : .expression t ∈ pieces body) : Text.trim t <:+: s.toList := by
  have hpiece : t <:+: body := infix_of_mem_scan ht
  exact (Text.trim_infix t).trans (hpiece.trans (infix_of_body? hbody))

end Template

/-! ## Environments -/

namespace Environment

variable {σ : String} {env env' : Environment}

/-- Two environments bind all symbols alike, a given one apart. -/
def AgreeOff (σ : String) (env env' : Environment) : Prop :=
  ∀ symbol, symbol ≠ σ → Entries.lookup symbol env = Entries.lookup symbol env'

theorem agreeOff_insert (σ : String) (v : Value) (env : Environment) :
    AgreeOff σ env (Entries.insert σ v env) := by
  intro symbol h
  rw [Entries.lookup_insert_ne h]

theorem agreeOff_erase (σ : String) (env : Environment) : AgreeOff σ env (Entries.erase σ env) := by
  intro symbol h
  rw [Entries.lookup_erase_ne h]

theorem AgreeOff.insert (h : AgreeOff σ env env') (symbol : String) (v : Value) :
    AgreeOff σ (Entries.insert symbol v env) (Entries.insert symbol v env') := by
  intro other hother
  rw [Entries.lookup_insert, Entries.lookup_insert, h other hother]

theorem AgreeOff.bindAll : ∀ {b : Binding} {env env' : Environment}, AgreeOff σ env env' →
    AgreeOff σ (Environment.bindAll b env) (Environment.bindAll b env')
  | [], _, _, h => h
  | (symbol, v) :: _, _, _, h => by
    rw [bindAll_cons, bindAll_cons]
    exact AgreeOff.bindAll (h.insert symbol v)

end Environment

/-! ## Values -/

/-- Whether a symbol occurs in a text. -/
def Mentions (σ s : String) : Prop :=
  σ.toList <:+: s.toList

instance (σ s : String) : Decidable (Mentions σ s) :=
  inferInstanceAs (Decidable (σ.toList <:+: s.toList))

namespace Instantiation

open Environment (AgreeOff)

variable {σ : String} {env env' : Environment} (henv : AgreeOff σ env env')
include henv

theorem resolveIn_of_ne {reference : String} (h : reference ≠ σ) (site : Site) :
    Reference.resolveIn site env reference = Reference.resolveIn site env' reference := by
  unfold Reference.resolveIn
  rw [henv reference h]

theorem pieceText_of_unmentioned {s : String} (hs : ¬ Mentions σ s) {body : List Char}
    (hbody : Template.body? s = some body) (f : Frame) (path : String) :
    ∀ piece ∈ Template.pieces body, pieceText f env path piece = pieceText f env' path piece := by
  intro piece hpiece
  cases piece with
  | text t => rfl
  | expression t =>
    have hne : String.ofList (Text.trim t) ≠ σ := by
      rintro rfl
      apply hs
      rw [Mentions, String.toList_ofList]
      exact Template.trim_infix_of_mem_pieces hbody hpiece
    simp only [pieceText, resolveIn_of_ne henv hne]

theorem stringValue_of_unmentioned {s : String} (hs : ¬ Mentions σ s) (f : Frame) (path : String) :
    stringValue f s env path = stringValue f s env' path := by
  have hne : s ≠ σ := by
    rintro rfl
    exact hs List.infix_rfl
  unfold stringValue
  rw [henv s hne]
  cases hbody : Template.body? s with
  | none => rfl
  | some body =>
    have hpieces := Result.mapM_congr (pieceText_of_unmentioned henv hs hbody f path)
    simp only [hpieces]

omit henv in
/-- Two environments for a value that does not mention what they differ in. -/
def unmentioning (σ : String) (f : Frame) : Rerun f where
  good v := v.IfString (fun s => ¬ Mentions σ s) ∧ v.AllKeys (· ≠ Directive.decode)
  key _ := True
  sees := AgreeOff σ
  plain _ := trivial
  bind h _ := h.bindAll
  string hgood henv := ⟨stringValue_of_unmentioned henv hgood.1 f _, fun v _ => v.keyed_true⟩
  encode _ _ _ _ := Value.keyed_true _
  decode hgood := Entries.lookup_eq_none_iff.mpr hgood.2

end Instantiation

end Overlay
