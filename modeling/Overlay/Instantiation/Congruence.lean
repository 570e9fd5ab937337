import Overlay.Instantiation

/-!
# Instantiation as a sequence of courses

Instantiation runs courses one after the other and no course twice at once. What it does with
embedded documents it does through its continuation alone, and what it knows of the documents around
it comes to it as the values of strings and as embedded documents. So what holds of these and of the
courses of the continuation, and is kept by sequences, holds of the whole.
-/

namespace Overlay.Instantiation

variable {ι : Type} (C : Course.Congruence ι)

def Respects (again : ι → Continuation) : Prop :=
  ∀ v env path, C.holds fun i => again i v env path

def Uniform (f : ι → Frame) : Prop :=
  (∀ s env path, C.holds fun i => (liftM (stringValue (f i) s env path) : Course Value)) ∧
    ∀ format text path, C.holds fun i => (liftM (embedded (f i) format text path) : Course Value)

theorem uniform_const (f : Frame) : Uniform C fun _ => f :=
  ⟨fun _ _ _ => C.const _, fun _ _ _ => C.const _⟩

theorem gather_congr {α : Type} {step : ι → Nat → α → Course (List Value)}
    (h : ∀ position x, C.holds fun i => step i position x) :
    ∀ (xs : List α) (position : Nat) (found : List (List Value)),
      C.holds fun i => gather (step i) position found xs
  | [], _, _ => C.const _
  | x :: xs, position, _ => C.bind (h position x) fun _ => gather_congr h xs _ _

theorem copies_congr {content : ι → Environment → String → Course (Option Value)}
    (h : ∀ env path, C.holds fun i => content i env path) (path : String) (position : Nat)
    (envs : List Environment) : C.holds fun i => copies (content i) path position envs :=
  gather_congr C (fun _ env => C.map _ (h env _)) envs position []

theorem encoded_congr (entries : Entries Value)
    {content : ι → Environment → String → Course (Option Value)}
    (h : ∀ env path, C.holds fun i => content i env path) (env : Environment) (path : String) :
    C.holds fun i => encoded entries (content i) env path := by
  unfold encoded
  cases Entries.lookup Directive.encode entries with
  | none => exact h env path
  | some pipeline =>
    refine C.bind (C.const _) fun name => C.bind (h env path) fun found => ?_
    cases found with
    | none => exact C.const _
    | some v => exact C.map _ (C.const _)

theorem contentOf_congr {f : ι → Frame} (hf : Uniform C f) (entries : Entries Value)
    {again : ι → Continuation}
    {held : ι → Environment → String → Course (Option Value)}
    {plain : ι → Environment → String → Course (Entries Value)}
    (hagain : Respects C again)
    (hheld : ∀ env path, C.holds fun i => held i env path)
    (hplain : ∀ env path, C.holds fun i => plain i env path) (env : Environment) (path : String) :
    C.holds fun i => contentOf (f i) (again i) entries (held i) (plain i) env path := by
  unfold contentOf
  dsimp only
  split
  · refine C.ite _ (C.const _) ?_
    split
    · exact C.bind (hheld env path) fun _ => C.bind (hf.2 _ _ path) fun _ => hagain _ env path
    · exact C.const _
  · exact C.const _
  · refine C.ite _ ?_ (C.bind (hplain env path) fun _ => C.const _)
    split
    · exact C.bind (hheld env path) fun _ => C.const _
    · exact C.const _

theorem listOf_congr (items : List Value) {spec : ι → Course (Option Value)}
    {plain : ι → Bool → Nat → Environment → Course (List Value)} (hspec : C.holds spec)
    (hplain : ∀ marked position env, C.holds fun i => plain i marked position env)
    (env : Environment) (path : String) :
    C.holds fun i => listOf items (spec i) (plain i) env path := by
  unfold listOf
  refine C.bind (C.const _) fun names => C.bind hspec fun found => ?_
  cases found with
  | none => exact C.bind (hplain false 0 env) fun _ => C.const _
  | some s =>
    refine C.bind (C.const _) fun envs => C.bind ?_ fun _ => C.const _
    exact gather_congr C (fun position env => hplain true position env) envs 0 []

section
variable {f : ι → Frame} {again : ι → Continuation}

mutual
theorem instantiate_uniform (hf : Uniform C f) (h : Respects C again) :
    ∀ (v : Value) (env : Environment) (path : String),
      C.holds fun i => instantiate (f i) (again i) v env path
  | .map entries, env, path => by
    simp only [instantiate]
    have content : ∀ env path, C.holds fun i =>
        encoded entries (contentOf (f i) (again i) entries
          (fun env path => heldValue (f i) (again i) entries env path)
          (fun env path => plainEntries (f i) (again i) entries env path)) env path :=
      encoded_congr C entries <| contentOf_congr C hf entries h (heldValue_uniform hf h entries)
        (plainEntries_uniform hf h entries)
    refine C.ite _ ?_ (content env path)
    refine C.bind (heldSpec_uniform hf h entries env path) fun spec => ?_
    refine C.bind (C.const _) fun envs => ?_
    exact C.bind (copies_congr C content path 0 envs) fun _ => C.const _
  | .list items, env, path => by
    simp only [instantiate]
    exact C.map _ <| listOf_congr C items (markedSpec_uniform hf h items env path)
      (fun marked position env => plainItems_uniform hf h marked position items env path) env path
  | .string s, env, path => by simp only [instantiate]; exact C.map _ (hf.1 s env path)
  | .null, _, _ | .bool _, _, _ | .int _, _, _ | .float _, _, _ => by
    simp only [instantiate]; exact C.const _
termination_by structural v => v

theorem plainEntries_uniform (hf : Uniform C f) (h : Respects C again) :
    ∀ (entries : List (String × Value)) (env : Environment) (path : String),
      C.holds fun i => plainEntries (f i) (again i) entries env path
  | [], _, _ => by simp only [plainEntries]; exact C.const _
  | (k, v) :: rest, env, path => by
    simp only [plainEntries]
    refine C.ite _ (plainEntries_uniform hf h rest env path) (C.ite _ (C.const _) ?_)
    exact C.bind (instantiate_uniform hf h v env _) fun _ =>
      C.bind (plainEntries_uniform hf h rest env path) fun _ => C.const _
termination_by structural entries => entries

theorem heldValue_uniform (hf : Uniform C f) (h : Respects C again) :
    ∀ (entries : List (String × Value)) (env : Environment) (path : String),
      C.holds fun i => heldValue (f i) (again i) entries env path
  | [], _, _ => by simp only [heldValue]; exact C.const _
  | (k, v) :: rest, env, path => by
    simp only [heldValue]
    exact C.ite _ (instantiate_uniform hf h v env path) (heldValue_uniform hf h rest env path)
termination_by structural entries => entries

theorem plainItems_uniform (hf : Uniform C f) (h : Respects C again)
    (marked : Bool) (position : Nat) : ∀ (items : List Value) (env : Environment) (path : String),
      C.holds fun i => plainItems (f i) (again i) marked position items env path
  | [], _, _ => by simp only [plainItems]; exact C.const _
  | .map entries :: rest, env, path => by
    simp only [plainItems]
    have content : ∀ env path, C.holds fun i =>
        encoded entries (contentOf (f i) (again i) entries
          (fun env path => heldValue (f i) (again i) entries env path)
          (fun env path => plainEntries (f i) (again i) entries env path)) env path :=
      encoded_congr C entries <| contentOf_congr C hf entries h (heldValue_uniform hf h entries)
        (plainEntries_uniform hf h entries)
    refine C.ite _ (plainItems_uniform hf h marked position rest env path) ?_
    refine C.ite _ (plainItems_uniform hf h false position rest env path) ?_
    have others (found : List Value) : C.holds fun i => do
        return found ++
          (← plainItems (f i) (again i) marked (position + found.length) rest env path) :=
      C.bind (plainItems_uniform hf h marked _ rest env path) fun _ => C.const _
    refine C.ite _ ?_ (C.bind (C.map _ (content env _)) others)
    refine C.bind (heldSpec_uniform hf h entries env _) fun spec => ?_
    refine C.bind (C.const _) fun envs => ?_
    exact C.bind (copies_congr C content path position envs) others
  | .list _ :: rest, env, path | .string _ :: rest, env, path | .null :: rest, env, path
  | .bool _ :: rest, env, path | .int _ :: rest, env, path | .float _ :: rest, env, path => by
    simp only [plainItems]
    exact C.bind (C.map _ (instantiate_uniform hf h _ env _)) fun found =>
      C.bind (plainItems_uniform hf h marked _ rest env path) fun _ => C.const _
termination_by structural items => items

theorem heldSpec_uniform (hf : Uniform C f) (h : Respects C again) :
    ∀ (entries : List (String × Value)) (env : Environment) (path : String),
      C.holds fun i => heldSpec (f i) (again i) entries env path
  | [], _, _ => by simp only [heldSpec]; exact C.const _
  | (k, v) :: rest, env, path => by
    simp only [heldSpec]
    exact C.ite _ (specValue_uniform hf h v env path) (heldSpec_uniform hf h rest env path)
termination_by structural entries => entries

theorem markedSpec_uniform (hf : Uniform C f) (h : Respects C again) :
    ∀ (items : List Value) (env : Environment) (path : String),
      C.holds fun i => markedSpec (f i) (again i) items env path
  | [], _, _ => by simp only [markedSpec]; exact C.const _
  | .map [(k, v)] :: rest, env, path => by
    simp only [markedSpec]
    exact C.ite _ (C.map _ (specValue_uniform hf h v env path))
      (markedSpec_uniform hf h rest env path)
  | .map [] :: rest, env, path => by
    simp only [markedSpec]; exact markedSpec_uniform hf h rest env path
  | .map (_ :: _ :: _) :: rest, env, path => by
    simp only [markedSpec]; exact markedSpec_uniform hf h rest env path
  | .list _ :: rest, env, path | .string _ :: rest, env, path | .null :: rest, env, path
  | .bool _ :: rest, env, path | .int _ :: rest, env, path | .float _ :: rest, env, path => by
    simp only [markedSpec]; exact markedSpec_uniform hf h rest env path
termination_by structural items => items

theorem specValue_uniform (hf : Uniform C f) (h : Respects C again) :
    ∀ (v : Value) (env : Environment) (path : String),
      C.holds fun i => specValue (f i) (again i) v env path
  | .map entries, env, path => by
    simp only [specValue]; exact C.map _ (specEntries_uniform hf h entries env path)
  | .list items, env, path => by
    simp only [specValue]
    exact listOf_congr C items (markedSpec_uniform hf h items env path)
      (fun marked position env => plainItems_uniform hf h marked position items env path) env path
  | .string s, env, path => by simp only [specValue]; exact hf.1 s env path
  | .null, _, _ | .bool _, _, _ | .int _, _, _ | .float _, _, _ => by
    simp only [specValue]; exact C.const _
termination_by structural v => v

theorem specEntries_uniform (hf : Uniform C f) (h : Respects C again) :
    ∀ (entries : List (String × Value)) (env : Environment) (path : String),
      C.holds fun i => specEntries (f i) (again i) entries env path
  | [], _, _ => by simp only [specEntries]; exact C.const _
  | (k, v) :: rest, env, path => by
    simp only [specEntries]
    exact C.bind (specValue_uniform hf h v env _) fun _ =>
      C.bind (specEntries_uniform hf h rest env path) fun _ => C.const _
termination_by structural entries => entries
end

end

theorem instantiate_congr (f : Frame) {again : ι → Continuation} (h : Respects C again)
    (v : Value) (env : Environment) (path : String) :
    C.holds fun i => instantiate f (again i) v env path :=
  instantiate_uniform C (uniform_const C f) h v env path

end Overlay.Instantiation
