import Overlay.Corpus

/-!
# Data and parents of documents

Setting the data of a document leaves all else as it is, and so does adding a parent. A document
without parents has no ancestors.
-/

namespace Overlay

theorem mem_insertId {id n : Nat} : ∀ {ids : List Nat}, n ∈ insertId id ids ↔ n = id ∨ n ∈ ids
  | [] => by simp [insertId]
  | m :: rest => by
    unfold insertId
    split
    · simp
    · split
      · rename_i h
        subst h
        simp
      · rw [List.mem_cons, List.mem_cons, mem_insertId]
        exact or_left_comm

theorem mem_foldl_insertId {n : Nat} : ∀ {ids found : List Nat},
    n ∈ ids.foldl (fun found id => insertId id found) found ↔ n ∈ ids ∨ n ∈ found
  | [], found => by simp
  | id :: ids, found => by
    rw [List.foldl_cons, mem_foldl_insertId, mem_insertId, List.mem_cons, or_left_comm, or_assoc]

namespace Corpus

@[simp] theorem size_setData (c : Corpus) (id : Nat) (v : Value) :
    (c.setData id v).size = c.size := by
  simp [size, setData]

@[simp] theorem size_addParent (c : Corpus) (id parent : Nat) :
    (c.addParent id parent).size = c.size := by
  simp [size, addParent]

theorem data_eq (c : Corpus) (id : Nat) :
    c.data id = (c.documents.map Document.data)[id]?.getD .null := by
  rw [data, List.getElem?_map]

theorem map_data_range' (c : Corpus) (first : Nat) :
    (List.range' first (c.size - first)).map c.data =
      (c.documents.map Document.data).drop first := by
  refine List.ext_getElem (by simp [size]) fun i hi hi' => ?_
  rw [List.length_map, List.length_range'] at hi
  have hlt : first + i < c.documents.length := Nat.add_lt_of_lt_sub' hi
  simp [data, hlt]

theorem forall_data {c : Corpus} {P : Value → Prop} (h : ∀ d ∈ c.documents, P d.data)
    (hnull : P .null) (id : Nat) : P (c.data id) := by
  rw [data]
  cases hd : c.documents[id]? with
  | none => exact hnull
  | some d => exact h d (List.mem_of_getElem? hd)

theorem setData_setData (c : Corpus) (id : Nat) (u v : Value) :
    (c.setData id u).setData id v = c.setData id v := by
  simp only [setData]
  rw [List.modify_modify_eq]
  rfl

theorem setData_data (c : Corpus) (id : Nat) : c.setData id (c.data id) = c := by
  obtain ⟨documents⟩ := c
  simp only [setData, mk.injEq]
  refine List.ext_getElem? fun i => ?_
  rw [List.getElem?_modify]
  by_cases hi : id = i
  · subst hi
    cases hd : documents[id]? with
    | none => rfl
    | some d => simp [data, hd]
  · simp [hi]

theorem data_setData_ne {id other : Nat} (h : other ≠ id) (c : Corpus) (v : Value) :
    (c.setData id v).data other = c.data other := by
  simp [data, setData, Ne.symm h]

theorem data_setData_self (c : Corpus) (id : Nat) (v : Value) :
    (c.setData id v).data id = v ∨ c.data id = .null ∧ (c.setData id v).data id = .null := by
  cases hd : c.documents[id]? with
  | none => exact .inr (by simp [data, setData, hd])
  | some d => exact .inl (by simp [data, setData, hd])

theorem parents_setData (c : Corpus) (id : Nat) (v : Value) (other : Nat) :
    (c.setData id v).parents other = c.parents other := by
  simp only [parents, setData, List.getElem?_modify]
  cases c.documents[other]? with
  | none => rfl
  | some d =>
    simp only [Option.map_some]
    split <;> rfl

theorem label_setData (c : Corpus) (id : Nat) (v : Value) (other : Nat) :
    (c.setData id v).label other = c.label other := by
  simp only [label, setData, List.getElem?_modify]
  cases c.documents[other]? with
  | none => rfl
  | some d =>
    simp only [Option.map_some]
    split <;> rfl

theorem data_setData_of_lt {c : Corpus} {id : Nat} (h : id < c.size) (v : Value) :
    (c.setData id v).data id = v := by
  have hd : c.documents[id]? = some c.documents[id] := List.getElem?_eq_getElem h
  simp [data, setData, hd]

theorem data_addParent (c : Corpus) (id parent other : Nat) :
    (c.addParent id parent).data other = c.data other := by
  simp only [data, addParent, List.getElem?_modify]
  cases c.documents[other]? with
  | none => rfl
  | some d =>
    simp only [Option.map_some]
    split <;> rfl

theorem label_addParent (c : Corpus) (id parent other : Nat) :
    (c.addParent id parent).label other = c.label other := by
  simp only [label, addParent, List.getElem?_modify]
  cases c.documents[other]? with
  | none => rfl
  | some d =>
    simp only [Option.map_some]
    split <;> rfl

theorem mem_parents_addParent {c : Corpus} {id parent other n : Nat} :
    n ∈ (c.addParent id parent).parents other ↔
      n ∈ c.parents other ∨ other = id ∧ id < c.size ∧ n = parent := by
  simp only [parents, addParent, List.getElem?_modify]
  by_cases h : id = other
  · subst h
    by_cases hlt : id < c.size
    · have hd : c.documents[id]? = some c.documents[id] := List.getElem?_eq_getElem hlt
      simp [hd, hlt, mem_insertId, or_comm]
    · have hd : c.documents[id]? = none := List.getElem?_eq_none (Nat.le_of_not_lt hlt)
      simp [hd, hlt]
  · simp [h, Ne.symm h]

theorem parents_of_size_le {c : Corpus} {id : Nat} (h : c.size ≤ id) : c.parents id = [] := by
  simp [parents, List.getElem?_eq_none h]

theorem ancestors_of_parents_nil {c : Corpus} {id : Nat} (h : c.parents id = []) :
    c.ancestors id = [] := by
  simp [ancestors, h, visit]

end Corpus

end Overlay
