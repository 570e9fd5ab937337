import Overlay.Merge
import Overlay.Proofs.Result

/-!
# Merging lists element by element

The elements of a patch act one after the other on the list that those before them leave. They take
elements out of it, update some in place, or append one.
-/

namespace Overlay.Value

theorem dropRequired_sublist (items : List Value) : (dropRequired items).Sublist items := by
  cases items with
  | nil => exact .slnil
  | cons v rest =>
    rw [dropRequired]
    split
    · exact List.sublist_cons_self _ _
    · exact .refl _

theorem deleteElements_sublist {items : List Value} {directive : Entries Value} {path : String}
    {kept : List Value} (h : deleteElements items directive path = .ok kept) : kept.Sublist items := by
  unfold deleteElements at h
  dsimp only at h
  split at h
  · split at h
    · cases h
    · cases h
      exact List.filter_sublist
  · cases h

section
variable {update : Value → String → Result Value} {path : String}

theorem length_updateAt : ∀ {places : List Nat} {items r : List Value},
    updateAt update path items places = .ok r → r.length = items.length
  | [], items, r, h => by
    cases h
    rfl
  | i :: places, items, r, h => by
    rw [updateAt, List.foldlM_cons] at h
    obtain ⟨next, hnext, h⟩ := Result.bind_eq_ok.mp h
    obtain ⟨v, -, hnext⟩ := Result.bind_eq_ok.mp hnext
    cases hnext
    rw [length_updateAt h, List.length_set]

/-- What updates keep of every value holds of all elements after them if it did before. -/
theorem forall_updateAt {P : Value → Prop} (hnull : P .null)
    (hupdate : ∀ v p w, P v → update v p = .ok w → P w) :
    ∀ {places : List Nat} {items r : List Value}, updateAt update path items places = .ok r →
      (∀ x ∈ items, P x) → ∀ x ∈ r, P x
  | [], items, r, h, hitems => by
    cases h
    exact hitems
  | i :: places, items, r, h, hitems => by
    rw [updateAt, List.foldlM_cons] at h
    obtain ⟨next, hnext, h⟩ := Result.bind_eq_ok.mp h
    obtain ⟨v, hv, hnext⟩ := Result.bind_eq_ok.mp hnext
    cases hnext
    refine forall_updateAt hnull hupdate h fun x hx => ?_
    rcases List.mem_or_eq_of_mem_set hx with hx | rfl
    · exact hitems x hx
    · refine hupdate _ _ _ ?_ hv
      cases hi : items[i]? with
      | none => exact hnull
      | some y => exact hitems y (List.mem_of_getElem? hi)

end

theorem mergeItems_nil (items : List Value) (path : String) :
    mergeItems items [] path = .ok items := by
  rw [mergeItems]

theorem mergeItems_cons (items : List Value) (v : Value) (rest : List Value) (path : String) :
    mergeItems items (v :: rest) path =
      mergeItems items [v] path >>= fun merged => mergeItems merged rest path := by
  cases v with
  | map patch =>
    simp only [mergeItems]
    split
    · rfl
    · split
      · cases deleteElements items patch (KeyPath.item path items.length) <;> rfl
      · split
        · simp only [bind_assoc]
          rfl
        · cases freshEntries [] patch (KeyPath.item path items.length) <;> rfl
  | _ =>
    simp only [mergeItems]
    split
    · rfl
    · cases normalize _ (KeyPath.item path items.length) <;> rfl

/-! ## What one element does -/

def isSelecting (patch : Entries Value) : Bool :=
  Entries.has Directive.matchOne patch || Entries.has Directive.matchAny patch

/-- Merges what a directive says into an element that it selects. -/
def mergeSelected (patch : Entries Value) (v : Value) (path : String) : Result Value :=
  match Entries.has Directive.value patch, v, replaces patch with
  | true, _, _ => mergeNamed v patch path
  | false, .map entries, false =>
    Value.map <$> mergeEntries [Directive.matchOne, Directive.matchAny] entries patch path
  | _, _, _ => Value.map <$> freshEntries [Directive.matchOne, Directive.matchAny] patch path

/-- What a map of a patch does to a list: it says how all is merged, takes elements out, updates those
that it selects, or is appended. -/
inductive Acts (items : List Value) (patch : Entries Value) (path : String) : List Value → Prop
  | marks : isReplaceMarker (.map patch) = true → Acts items patch path items
  | deletes {kept : List Value} : isReplaceMarker (.map patch) = false →
    Entries.has Directive.delete patch = true → kept.Sublist items → Acts items patch path kept
  | updates {places : List Nat} {updated : List Value} : isReplaceMarker (.map patch) = false →
    Entries.has Directive.delete patch = false → isSelecting patch = true →
    updateAt (mergeSelected patch) path items places = .ok updated → Acts items patch path updated
  | appends {fresh : Entries Value} : isReplaceMarker (.map patch) = false →
    Entries.has Directive.delete patch = false → isSelecting patch = false →
    freshEntries [] patch (KeyPath.item path items.length) = .ok fresh →
    Acts items patch path (items ++ [.map fresh])

theorem exists_acts {items : List Value} {patch : Entries Value} {rest : List Value} {path : String}
    {r : List Value} (h : mergeItems items (.map patch :: rest) path = .ok r) :
    ∃ next, Acts items patch path next ∧ mergeItems next rest path = .ok r := by
  simp only [mergeItems] at h
  split at h
  · rename_i hmarker
    exact ⟨items, .marks hmarker, h⟩
  rename_i hmarker
  rw [Bool.not_eq_true] at hmarker
  split at h
  · rename_i hdelete
    obtain ⟨kept, hkept, h⟩ := Result.bind_eq_ok.mp h
    exact ⟨kept, .deletes hmarker hdelete (deleteElements_sublist hkept), h⟩
  rename_i hdelete
  rw [Bool.not_eq_true] at hdelete
  split at h
  · rename_i hselect
    obtain ⟨patterns, -, h⟩ := Result.bind_eq_ok.mp h
    obtain ⟨-, -, h⟩ := Result.bind_eq_ok.mp h
    obtain ⟨places, -, h⟩ := Result.bind_eq_ok.mp h
    obtain ⟨updated, hupdated, h⟩ := Result.bind_eq_ok.mp h
    exact ⟨updated, .updates hmarker hdelete hselect hupdated, h⟩
  · rename_i hselect
    obtain ⟨fresh, hfresh, h⟩ := Result.bind_eq_ok.mp h
    exact ⟨_, .appends hmarker hdelete (Bool.not_eq_true _ ▸ hselect) hfresh, h⟩

/-- Any other element is a marker or is appended. -/
theorem exists_normalize {v : Value} {items rest : List Value} {path : String} {r : List Value}
    (h : mergeItems items (v :: rest) path = .ok r) (hv : ∀ patch, v ≠ .map patch) :
    (isReplaceMarker v = true ∧ mergeItems items rest path = .ok r) ∨
      isReplaceMarker v = false ∧ ∃ fresh,
        v.normalize (KeyPath.item path items.length) = .ok fresh ∧
          mergeItems (items ++ [fresh]) rest path = .ok r := by
  cases v with
  | map patch => exact absurd rfl (hv patch)
  | _ =>
    simp only [mergeItems] at h
    split at h
    · rename_i hmarker
      exact .inl ⟨hmarker, h⟩
    · rename_i hmarker
      obtain ⟨fresh, hfresh, h⟩ := Result.bind_eq_ok.mp h
      exact .inr ⟨Bool.not_eq_true _ ▸ hmarker, fresh, hfresh, h⟩

theorem mergeSelected_cases {patch : Entries Value} {v w : Value} {path : String}
    (h : mergeSelected patch v path = .ok w) :
    (Entries.has Directive.value patch = true ∧ mergeNamed v patch path = .ok w) ∨
      Entries.has Directive.value patch = false ∧ ∃ r, w = .map r ∧
        (freshEntries [Directive.matchOne, Directive.matchAny] patch path = .ok r ∨
          ∃ entries, v = .map entries ∧
            mergeEntries [Directive.matchOne, Directive.matchAny] entries patch path = .ok r) := by
  unfold mergeSelected at h
  cases hvalue : Entries.has Directive.value patch with
  | true =>
    rw [hvalue] at h
    exact .inl ⟨rfl, h⟩
  | false =>
    rw [hvalue] at h
    split at h
    · rename_i heq
      cases heq
    · obtain ⟨r, hr, rfl⟩ := Result.map_eq_ok.mp h
      exact .inr ⟨rfl, r, rfl, .inr ⟨_, rfl, hr⟩⟩
    · obtain ⟨r, hr, rfl⟩ := Result.map_eq_ok.mp h
      exact .inr ⟨rfl, r, rfl, .inl hr⟩

theorem mergeItems_append (path : String) : ∀ (xs items ys : List Value),
    mergeItems items (xs ++ ys) path =
      mergeItems items xs path >>= fun merged => mergeItems merged ys path
  | [], items, ys => by rw [mergeItems_nil]; rfl
  | x :: xs, items, ys => by
    rw [List.cons_append, mergeItems_cons, mergeItems_cons items x xs, bind_assoc]
    exact bind_congr fun merged => mergeItems_append path xs merged ys

end Overlay.Value
