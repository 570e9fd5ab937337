import Overlay.Proofs.Escape.Value
import Overlay.Proofs.Literal.Evaluation

/-!
# Evaluating escaped documents

Every value can be written as a document: escaped, it comes out of an evaluation as it is.
-/

namespace Overlay.Evaluation

theorem plain_of_escaped {c : Corpus} {values : List Value}
    (hdata : c.documents.map Document.data = values.map Value.escape)
    (hparents : ∀ d ∈ c.documents, d.parents = []) : c.Plain := by
  refine ⟨fun id => ?_, fun id => ?_⟩
  · have hid : c.data id = ((values.map Value.escape)[id]?).getD .null := by
      rw [← hdata, List.getElem?_map, Corpus.data]
    rw [hid, List.getElem?_map]
    cases values[id]? with
    | none => exact Value.literal_escape .null
    | some v => exact Value.literal_escape v
  · rw [Corpus.parents]
    cases hd : c.documents[id]? with
    | none => rfl
    | some d => exact hparents d (List.mem_of_getElem? hd)

/-- Documents without parents that hold escaped values evaluate to the values, in every environment,
with every limit and with or without validation. -/
theorem evaluate_escape (e : Evaluation) (c : Corpus) (values : List Value)
    (hvalues : ∀ v ∈ values, v.WellFormed)
    (hdata : c.documents.map Document.data = values.map Value.escape)
    (hparents : ∀ d ∈ c.documents, d.parents = []) :
    e.evaluate c (List.range c.size) = pure values := by
  have hsize : c.size = values.length := by
    simpa [Corpus.size] using congrArg List.length hdata
  rw [evaluate_plain e (plain_of_escaped hdata hparents)]
  congr 1
  refine List.ext_getElem (by simpa using hsize) fun id _ h => ?_
  have hv : values[id] ∈ values := List.getElem_mem h
  have hid : c.data id = values[id].escape := by
    rw [Corpus.data, ← List.getElem?_map, hdata, List.getElem?_map, List.getElem?_eq_getElem h]
    rfl
  rw [List.getElem_map, List.getElem_range, hid, Value.finalize_escape (hvalues _ hv)]

theorem evaluate_escape_directives :
    evaluate { limit := 0, environment := [("$env:A", .null)] }
      ⟨[⟨"first", Value.escape (.map [("$delete", .string "$merge:x"), ("$output", .bool false),
          ("a", .list [.string "$required", .string "$env:A"])]), []⟩,
        ⟨"second", Value.escape (.string "$\"\x7bx\x7d\""), []⟩]⟩ (List.range 2) =
    pure [.map [("$delete", .string "$merge:x"), ("$output", .bool false),
        ("a", .list [.string "$required", .string "$env:A"])], .string "$\"\x7bx\x7d\""] :=
  evaluate_escape _ _ _ (by decide) rfl (by decide)

end Overlay.Evaluation
