import Overlay.Proofs.Assembly.Layers
import Overlay.Proofs.Unlabelled.Assembly

/-!
# Chained layers

Layers can be chained so that each document inherits from all of the layer right before it, which
may be empty. That is how files inherit from files. Chained layers are stacked layers if no empty
layer stands between two that have documents.
-/

namespace Overlay.Evaluation

/-- The corpus of layers, each inheriting from the one right before it. -/
def chain (label : Nat → Nat → String) (c : Corpus) (number : Nat) (parents : List Nat) :
    List (List Value) → Corpus
  | [] => c
  | values :: rest =>
    chain label (addLayer c (label number) parents values) (number + 1)
      (List.range' c.size values.length) rest

/-- The documents that a layer after these layers inherits from, the first document having a
number. -/
def lastIds (first : Nat) (parents : List Nat) : List (List Value) → List Nat
  | [] => parents
  | values :: rest => lastIds (first + values.length) (List.range' first values.length) rest

theorem lastIds_concat (layers : List (List Value)) (values : List Value) :
    ∀ (first : Nat) (parents : List Nat), lastIds first parents (layers ++ [values]) =
      List.range' (first + layers.flatten.length) values.length := by
  induction layers with
  | nil => exact fun _ _ => rfl
  | cons before rest ih =>
    intro first parents
    rw [List.cons_append, lastIds, ih, List.flatten_cons, List.length_append, Nat.add_assoc]

theorem chain_concat (label : Nat → Nat → String) (layers : List (List Value))
    (values : List Value) : ∀ (c : Corpus) (number : Nat) (parents : List Nat),
      chain label c number parents (layers ++ [values]) =
        addLayer (chain label c number parents layers) (label (number + layers.length))
          (lastIds c.size parents layers) values := by
  induction layers with
  | nil => exact fun _ _ _ => rfl
  | cons before rest ih =>
    intro c number parents
    rw [List.cons_append, chain, ih, chain, lastIds, size_addLayer, List.length_cons,
      Nat.add_assoc, Nat.add_comm 1]

theorem size_chain (label : Nat → Nat → String) : ∀ (layers : List (List Value)) (c : Corpus)
    (number : Nat) (parents : List Nat),
      (chain label c number parents layers).size = c.size + layers.flatten.length
  | [], _, _, _ => rfl
  | values :: rest, c, number, parents => by
    rw [chain, size_chain label rest, size_addLayer, List.flatten_cons, List.length_append,
      Nat.add_assoc]

/-! ## Gaps -/

/-- No layer without documents stands between two that have some. -/
def Gapless (layers : List (List Value)) : Prop :=
  ∀ before after, layers = before ++ [] :: after →
    (∀ values ∈ before, values = []) ∨ ∀ values ∈ after, values = []

section
variable (label : Nat → Nat → String)

theorem addLayer_nil (c : Corpus) (label : Nat → String) (parents : List Nat) :
    addLayer c label parents [] = c := rfl

theorem stack_of_empty : ∀ {layers : List (List Value)}, (∀ values ∈ layers, values = []) →
    ∀ (c : Corpus) (number : Nat) (parents : List Nat), stack label c number parents layers = c
  | [], _, _, _, _ => rfl
  | values :: rest, h, c, number, parents => by
    obtain ⟨rfl, hrest⟩ := List.forall_mem_cons.mp h
    rw [stack, addLayer_nil]
    exact stack_of_empty hrest ..

theorem chain_of_empty : ∀ {layers : List (List Value)}, (∀ values ∈ layers, values = []) →
    ∀ (c : Corpus) (number : Nat) (parents : List Nat), chain label c number parents layers = c
  | [], _, _, _, _ => rfl
  | values :: rest, h, c, number, parents => by
    obtain ⟨rfl, hrest⟩ := List.forall_mem_cons.mp h
    rw [chain, addLayer_nil]
    exact chain_of_empty hrest ..

/-- After a layer with documents, only empty layers follow an empty one. -/
theorem chain_eq_stack_of_ends : ∀ {layers : List (List Value)},
    (∀ before after, layers = before ++ [] :: after → ∀ values ∈ after, values = []) →
      ∀ (c : Corpus) (number : Nat) (parents : List Nat),
        chain label c number parents layers = stack label c number parents layers
  | [], _, _, _, _ => rfl
  | [] :: rest, h, c, number, parents => by
    have hrest := h [] rest rfl
    rw [chain, stack, addLayer_nil, chain_of_empty label hrest, stack_of_empty label hrest]
  | (v :: values) :: rest, h, c, number, parents => by
    have hrest : ∀ before after, rest = before ++ [] :: after → ∀ values ∈ after, values = [] := by
      rintro before after rfl
      exact h ((v :: values) :: before) after rfl
    rw [chain, stack]
    exact chain_eq_stack_of_ends hrest ..

theorem chain_eq_stack : ∀ {layers : List (List Value)}, Gapless layers →
    ∀ (c : Corpus) (number : Nat),
      chain label c number [] layers = stack label c number [] layers
  | [], _, _, _ => rfl
  | [] :: rest, h, c, number => by
    have hrest : Gapless rest := by
      rintro before after rfl
      rcases h ([] :: before) after rfl with hbefore | hafter
      · exact .inl (List.forall_mem_cons.mp hbefore).2
      · exact .inr hafter
    rw [chain, stack, addLayer_nil]
    exact chain_eq_stack hrest ..
  | (v :: values) :: rest, h, c, number => by
    refine chain_eq_stack_of_ends label ?_ c number []
    rintro (_ | ⟨first, before⟩) after heq
    · cases heq
    · obtain ⟨rfl, rfl⟩ := List.cons_eq_cons.mp heq
      rcases h ((v :: values) :: before) after rfl with hbefore | hafter
      · cases hbefore _ (List.mem_cons_self ..)
      · exact hafter

end

/-! ## Labels -/

theorem addLayer_unlabelled (c : Corpus) (label : Nat → String) (parents : List Nat)
    (values : List Value) : (addLayer c label parents values).unlabelled =
      addLayer c.unlabelled (fun _ => "") parents values := by
  have hdocuments : (addLayer c label parents values).unlabelled.documents =
      (addLayer c.unlabelled (fun _ => "") parents values).documents := by
    rw [documents_addLayer, Corpus.unlabelled, documents_addLayer]
    simp [Corpus.unlabelled]
  exact congrArg Corpus.mk hdocuments

theorem stack_unlabelled (label : Nat → Nat → String) : ∀ (layers : List (List Value)) (c : Corpus)
    (number : Nat) (parents : List Nat), (stack label c number parents layers).unlabelled =
      stack (fun _ _ => "") c.unlabelled number parents layers
  | [], _, _, _ => rfl
  | values :: rest, c, number, parents => by
    rw [stack, stack_unlabelled label rest, addLayer_unlabelled, stack, Corpus.size_unlabelled]

end Overlay.Evaluation
