import Overlay.Proofs.Merge.Path

/-!
# Settled values

A value is settled if it stays as it is when it is merged into nothing: it holds no flag, no marker
and no directive of a patch that would act there.
-/

namespace Overlay.Value

def Settled (v : Value) : Prop :=
  v.normalize "" = .ok v

theorem freshEntries_cons (dropped : List String) (k : String) (v : Value)
    (rest : List (String × Value)) (path : String) :
    freshEntries dropped ((k, v) :: rest) path =
      if dropped.contains k || isReplaceFlag k v then freshEntries dropped rest path
      else if v.isString Directive.delete then
        .error (.atKey .absentKeyDeleted (KeyPath.child path k))
      else v.normalize (KeyPath.child path k) >>= fun fresh =>
        (fun others => (k, fresh) :: others) <$> freshEntries dropped rest path := by
  rw [freshEntries]
  split
  · rfl
  · split
    · rfl
    · cases v.normalize (KeyPath.child path k) with
      | error e => rfl
      | ok fresh => cases freshEntries dropped rest path <;> rfl

theorem length_freshEntries_le {dropped : List String} {path : String} :
    ∀ {patch r : List (String × Value)}, freshEntries dropped patch path = .ok r →
      r.length ≤ patch.length
  | [], r, h => by
    rw [freshEntries] at h
    cases h
    exact Nat.le_refl _
  | (k, v) :: rest, r, h => by
    rw [freshEntries_cons] at h
    split at h
    · exact Nat.le_succ_of_le (length_freshEntries_le h)
    · split at h
      · cases h
      · obtain ⟨fresh, -, h⟩ := Result.bind_eq_ok.mp h
        obtain ⟨others, ho, rfl⟩ := Result.map_eq_ok.mp h
        exact Nat.succ_le_succ (length_freshEntries_le ho)

theorem settled_of_freshEntries {dropped : List String} {path : String} :
    ∀ {patch : List (String × Value)}, freshEntries dropped patch path = .ok patch →
      ∀ e ∈ patch, isReplaceFlag e.1 e.2 = false ∧ e.2.isString Directive.delete = false ∧
        e.2.Settled
  | [], _ => fun _ he => by cases he
  | (k, v) :: rest, h => by
    rw [freshEntries_cons] at h
    split at h
    · exact absurd (length_freshEntries_le h) (Nat.not_succ_le_self _)
    · rename_i hflag
      split at h
      · cases h
      · rename_i hdelete
        obtain ⟨fresh, hv, h⟩ := Result.bind_eq_ok.mp h
        obtain ⟨others, ho, h⟩ := Result.map_eq_ok.mp h
        cases h
        refine List.forall_mem_cons.mpr ⟨⟨?_, ?_, normalize_ok_anywhere hv ""⟩,
          settled_of_freshEntries ho⟩
        · simp only [Bool.or_eq_true, not_or, Bool.not_eq_true] at hflag
          exact hflag.2
        · simpa using hdelete

theorem Settled.entries {entries : Entries Value} (h : (Value.map entries).Settled) :
    ∀ e ∈ entries, isReplaceFlag e.1 e.2 = false ∧ e.2.isString Directive.delete = false ∧
      e.2.Settled := by
  rw [Settled, normalize] at h
  obtain ⟨fresh, hf, h⟩ := Result.bind_eq_ok.mp h
  cases h
  exact settled_of_freshEntries hf

theorem Settled.items {items : List Value} (h : (Value.list items).Settled) (path : String) :
    mergeItems [] items path = .ok items := by
  have h := normalize_ok_anywhere h path
  rw [normalize] at h
  obtain ⟨merged, hm, h⟩ := Result.bind_eq_ok.mp h
  cases h
  exact hm

end Overlay.Value
