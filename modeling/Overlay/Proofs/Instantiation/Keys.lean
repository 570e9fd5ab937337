import Overlay.Instantiation.Run
import Overlay.Proofs.Instantiation.Depth
import Overlay.Proofs.Instantiation.Simulation
import Overlay.Proofs.Pipeline
import Overlay.Value.Identity

/-!
# No directive is left over

A key that looks like a directive is consumed or rejected, the mark of an output apart. The values that
come into the result by other ways than its maps do not bring such keys along: what pipelines write has
the characters of the pipeline, and what variables are bound to has been instantiated itself.
-/

namespace Overlay

open Course (Related Same)

/-- A dollar sign followed by a lower-case letter. -/
def IsDirective (key : String) : Prop :=
  ∃ c rest, key.toList = '$' :: c :: rest ∧ 'a' ≤ c ∧ c ≤ 'z'

namespace Value

/-- The only directive among the keys of a value, at any depth, is the mark of an output. -/
def Consumed : Value → Prop :=
  Keyed fun k => IsDirective k → k = Directive.output

/-- No dollar sign stands in the pipeline of a map. -/
def PlainPipeline (v : Value) : Prop :=
  ∀ pipeline ∈ v.entry? Directive.encode, IfString (fun text => '$' ∉ text.toList) pipeline

instance : DecidablePred PlainPipeline := fun v =>
  inferInstanceAs (Decidable (∀ pipeline ∈ v.entry? Directive.encode, IfString _ pipeline))

end Value

theorem Environment.forall_bindAll {P : Value → Prop} : ∀ {b : Binding} {env : Environment},
    (∀ e ∈ env, P e.2) → (∀ e ∈ b, P e.2) → ∀ e ∈ bindAll b env, P e.2
  | [], _, henv, _ => henv
  | (symbol, v) :: rest, env, henv, hb => by
    obtain ⟨hv, hrest⟩ := List.forall_mem_cons.mp hb
    rw [bindAll_cons]
    exact forall_bindAll (Entries.forall_insert hv henv) hrest

namespace Instantiation

variable {f : Frame} {env : Environment} {path : String} {v w : Value}

theorem isUnknownDirective_eq_false {key : String} :
    isUnknownDirective key = false ↔ (IsDirective key → key = Directive.output) := by
  unfold isUnknownDirective IsDirective
  by_cases hk : key = Directive.output
  · simp [hk]
  · simp only [bne_iff_ne.mpr hk, Bool.true_and, hk, imp_false]
    split
    · rename_i c rest hkey
      simp [hkey]
    · rename_i hkey
      refine iff_of_true rfl ?_
      rintro ⟨c, rest, h, -⟩
      exact hkey c rest h

theorem not_isDirective {key : String} (h : '$' ∉ key.toList) : ¬ IsDirective key := by
  rintro ⟨c, rest, hkey, -⟩
  rw [hkey] at h
  exact h List.mem_cons_self

/-- The value of a string is text, or what a variable is bound to. -/
theorem consumed_stringValue {s : String} (henv : ∀ e ∈ env, e.2.Consumed)
    (h : stringValue f s env path = .ok w) : w.Consumed := by
  unfold stringValue at h
  split at h
  · cases h
    exact Value.keyed_string _
  · split at h
    · split at h
      · rename_i bound hbound
        cases h
        exact henv _ (Entries.mem_of_lookup hbound)
      · cases h
    · split at h
      · obtain ⟨texts, -, h⟩ := Result.bind_eq_ok.mp h
        cases h
        exact Value.keyed_string _
      · cases h
        exact Value.keyed_string _

theorem consumed_encodeAt {pipeline : String} (hpipeline : '$' ∉ pipeline.toList) (hv : v.Consumed)
    (h : encodeAt path v pipeline = .ok w) : w.Consumed := by
  unfold encodeAt at h
  split at h
  · cases h
  · refine Pipeline.keyed_run (c := '$') (fun key hkey hdirective => ?_) hpipeline hv ?_
    · exact absurd hdirective (not_isDirective hkey)
    · cases hrun : Pipeline.run pipeline v with
      | error e =>
        rw [hrun] at h
        cases h
      | ok u =>
        rw [hrun] at h
        exact h

/-- An instantiation compared with itself. -/
def consumption (f : Frame) : Rerun f where
  good v := v.entry? Directive.decode = none ∧ v.PlainPipeline
  key k := IsDirective k → k = Directive.output
  sees env env' := env = env' ∧ ∀ e ∈ env, e.2.Consumed
  plain h := isUnknownDirective_eq_false.mp h
  bind := by
    intro env env' b henv hb
    obtain ⟨rfl, henv⟩ := henv
    exact ⟨rfl, Environment.forall_bindAll henv hb⟩
  string := by
    intro s env env' path _ henv
    obtain ⟨rfl, henv⟩ := henv
    exact ⟨rfl, fun w h => consumed_stringValue henv h⟩
  encode hgood hname hv h := consumed_encodeAt (hgood.2 _ hname) hv h
  decode hgood := hgood.1

/-- Instantiation consumes or rejects every directive. -/
theorem consumed_of_run (hdecode : v.Keyed (· ≠ Directive.decode))
    (hpipelines : v.Everywhere Value.PlainPipeline) (henv : ∀ e ∈ env, e.2.Consumed)
    (h : f.run v env path = some (.ok (some w))) : w.Consumed := by
  have hgood : v.Everywhere (consumption f).good := by
    intro u hu
    refine ⟨?_, hpipelines u hu⟩
    cases u with
    | map entries => exact Entries.lookup_eq_none_iff.mpr (hdecode _ hu)
    | _ => rfl
  have hrun := Simulation.instantiate_related (S := (consumption f).simulation f.run f.run) v hgood
    ⟨rfl, henv⟩ (rfl : path = path)
  rw [Frame.run] at h
  exact (Course.related_same_iff.mp hrun).2 _ h w rfl

theorem consumed_of_run_of_copies :
    let v : Value := .map [("$output", .bool true),
      ("copies", .list [.map [("$repeat", .int 2), ("n", .string "$repeat")]]),
      ("ports", .map [("$encode", .string "values:name:port"),
        ("$value", .map [("http", .string "$env:PORT")])])]
    let w : Value := .map [("$output", .bool true),
      ("copies", .list [.map [("n", .int 0)], .map [("n", .int 1)]]),
      ("ports", .list [.map [("name", .string "http"), ("port", .int 80)]])]
    let f : Frame := ⟨⟨⟨⟨[⟨"document", v, []⟩]⟩, [0]⟩, 0⟩, 1000⟩
    let env : Environment := [("$env:PORT", .int 80)]
    (v.Keyed (· ≠ Directive.decode) ∧ v.Everywhere Value.PlainPipeline ∧
      (∀ e ∈ env, e.2.Consumed) ∧ f.run v env "" = some (.ok (some w))) ∧ w.Consumed := by
  intro v w f env
  have hdecode : v.Keyed (· ≠ Directive.decode) := by decide
  have hpipelines : v.Everywhere Value.PlainPipeline := by decide
  have henv : ∀ e ∈ env, e.2.Consumed := List.forall_mem_singleton.mpr (Value.keyed_int 80)
  have hwithin : within f 1 v env "" = some (.ok (some w)) := by decide +kernel
  have hrun : f.run v env "" = some (.ok (some w)) := run_of_within f hwithin
  exact ⟨⟨hdecode, hpipelines, henv, hrun⟩, consumed_of_run hdecode hpipelines henv hrun⟩

end Instantiation

end Overlay
