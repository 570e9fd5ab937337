import Overlay.Merge
import Overlay.Proofs.Entries
import Overlay.Proofs.Result

/-!
# Merging maps key by key

The entries of a sorted patch act on their own keys alone: merging succeeds if every entry can be
merged into what stands under its key, and `mergeEntry` is then what stands there.
-/

namespace Overlay.Value

open Entries (put)

/-- What becomes of the value under a key when an entry of a patch is merged into it. -/
def mergeEntry (old : Option Value) (v : Value) (path : String) : Result (Option Value) :=
  if v.isString Directive.delete then
    match old with
    | some _ => .ok none
    | none => .error (.atKey .absentKeyDeleted path)
  else some <$> match old with
    | some x => x.merge v path
    | none => v.normalize path

def isSkipped (dropped : List String) (e : String × Value) : Bool :=
  dropped.contains e.1 || isReplaceFlag e.1 e.2

def live (dropped : List String) (patch : Entries Value) : Entries Value :=
  patch.filter fun e => !isSkipped dropped e

theorem live_cons (dropped : List String) (e : String × Value) (rest : Entries Value) :
    live dropped (e :: rest) =
      if isSkipped dropped e then live dropped rest else e :: live dropped rest := by
  unfold live
  rw [List.filter_cons]
  cases isSkipped dropped e <;> rfl

theorem live_eq_self {dropped : List String} {patch : Entries Value}
    (h : ∀ e ∈ patch, isSkipped dropped e = false) : live dropped patch = patch :=
  List.filter_eq_self.mpr fun e he => by simp [h e he]

theorem mergeEntries_cons (dropped : List String) (base : Entries Value) (k : String) (v : Value)
    (rest : Entries Value) (path : String) :
    mergeEntries dropped base ((k, v) :: rest) path =
      if isSkipped dropped (k, v) then mergeEntries dropped base rest path
      else mergeEntry (Entries.lookup k base) v (KeyPath.child path k) >>= fun o =>
        mergeEntries dropped (put k o base) rest path := by
  rw [mergeEntries, isSkipped]
  split
  · rfl
  · unfold mergeEntry Entries.has
    split
    · cases Entries.lookup k base <;> rfl
    · cases Entries.lookup k base with
      | none => dsimp only; cases normalize v (KeyPath.child path k) <;> rfl
      | some x => dsimp only; cases merge x v (KeyPath.child path k) <;> rfl

/-- What a merged map holds. -/
theorem lookup_mergeEntries {dropped : List String} {path : String} :
    ∀ {patch base r : Entries Value}, Entries.Sorted patch → Entries.Sorted base →
      mergeEntries dropped base patch path = .ok r →
      Entries.Sorted r ∧ ∀ key, match Entries.lookup key (live dropped patch) with
        | none => Entries.lookup key r = Entries.lookup key base
        | some v => mergeEntry (Entries.lookup key base) v (KeyPath.child path key) =
            .ok (Entries.lookup key r)
  | [], base, r, _, hb, h => by
    rw [mergeEntries] at h
    cases h
    exact ⟨hb, fun key => rfl⟩
  | (k, v) :: rest, base, r, hp, hb, h => by
    obtain ⟨hlt, hrest⟩ := Entries.sorted_cons.mp hp
    rw [mergeEntries_cons] at h
    rw [live_cons]
    by_cases hs : isSkipped dropped (k, v)
    · simp only [hs, if_true] at h ⊢
      exact lookup_mergeEntries hrest hb h
    · simp only [hs, Bool.false_eq_true, if_false] at h ⊢
      obtain ⟨o, ho, h⟩ := Result.bind_eq_ok.mp h
      obtain ⟨hr, hall⟩ := lookup_mergeEntries hrest (hb.put k o) h
      refine ⟨hr, fun key => ?_⟩
      have hkey := hall key
      rw [Entries.lookup_put hb] at hkey
      rw [Entries.lookup]
      by_cases hk : k = key
      · subst hk
        have habsent : Entries.lookup k (live dropped rest) = none :=
          Entries.lookup_eq_none_iff.mpr fun e he => (hlt e (List.mem_of_mem_filter he)).ne'
        rw [habsent] at hkey
        simp only [if_true] at hkey ⊢
        rw [ho, hkey]
      · simpa only [hk, Ne.symm hk, if_false] using hkey

theorem exists_mergeEntries {dropped : List String} {path : String} :
    ∀ {patch base : Entries Value}, Entries.Sorted patch → Entries.Sorted base →
      (∀ e ∈ live dropped patch,
        ∃ o, mergeEntry (Entries.lookup e.1 base) e.2 (KeyPath.child path e.1) = .ok o) →
      ∃ r, mergeEntries dropped base patch path = .ok r
  | [], base, _, _, _ => ⟨base, by rw [mergeEntries]⟩
  | (k, v) :: rest, base, hp, hb, h => by
    obtain ⟨hlt, hrest⟩ := Entries.sorted_cons.mp hp
    rw [mergeEntries_cons]
    rw [live_cons] at h
    by_cases hs : isSkipped dropped (k, v)
    · simp only [hs, if_true] at h ⊢
      exact exists_mergeEntries hrest hb h
    · simp only [hs, Bool.false_eq_true, if_false] at h ⊢
      obtain ⟨o, ho⟩ := h (k, v) List.mem_cons_self
      rw [ho]
      refine exists_mergeEntries hrest (hb.put k o) fun e he => ?_
      have hne : e.1 ≠ k := (hlt e (List.mem_of_mem_filter he)).ne'
      rw [Entries.lookup_put hb, if_neg hne]
      exact h e (List.mem_cons_of_mem _ he)

theorem not_replaces_of_not_skipped {dropped : List String} {patch : Entries Value}
    (h : ∀ e ∈ patch, isSkipped dropped e = false) : replaces patch = false := by
  unfold replaces
  cases hp : Entries.lookup Directive.replace patch with
  | none => rfl
  | some p =>
    have := h _ (Entries.mem_of_lookup hp)
    cases p with
    | bool _ => simp [isSkipped, isReplaceFlag] at this
    | _ => rfl

/-- A patch whose entries can all be merged changes a map under its own keys alone. -/
theorem exists_merge_map {base patch : Entries Value} {path : String} (hpatch : Entries.Sorted patch)
    (hbase : Entries.Sorted base) (hlive : ∀ e ∈ patch, isSkipped [] e = false)
    (h : ∀ e ∈ patch,
      ∃ o, mergeEntry (Entries.lookup e.1 base) e.2 (KeyPath.child path e.1) = .ok o) :
    ∃ r, (Value.map base).merge (.map patch) path = .ok (.map r) ∧ Entries.Sorted r ∧
      ∀ key, match Entries.lookup key patch with
        | none => Entries.lookup key r = Entries.lookup key base
        | some v => mergeEntry (Entries.lookup key base) v (KeyPath.child path key) =
            .ok (Entries.lookup key r) := by
  have hself := live_eq_self hlive
  obtain ⟨r, hr⟩ : ∃ r, mergeEntries [] base patch path = .ok r :=
    exists_mergeEntries hpatch hbase (hself.symm ▸ h)
  obtain ⟨hsorted, hlookup⟩ := lookup_mergeEntries hpatch hbase hr
  rw [hself] at hlookup
  refine ⟨r, ?_, hsorted, hlookup⟩
  simp only [merge, not_replaces_of_not_skipped hlive, hr]
  rfl

/-- If a merged map fails, it fails for the first entry that cannot be merged. -/
theorem exists_of_mergeEntries_eq_error {dropped : List String} {path : String} {e : Error} :
    ∀ {patch base : Entries Value}, Entries.Sorted patch → Entries.Sorted base →
      mergeEntries dropped base patch path = .error e →
      ∃ before k v after, live dropped patch = before ++ (k, v) :: after ∧
        (∀ a ∈ before,
          ∃ o, mergeEntry (Entries.lookup a.1 base) a.2 (KeyPath.child path a.1) = .ok o) ∧
        mergeEntry (Entries.lookup k base) v (KeyPath.child path k) = .error e
  | [], base, _, _, h => by
    rw [mergeEntries] at h
    cases h
  | (k, v) :: rest, base, hp, hb, h => by
    obtain ⟨hlt, hrest⟩ := Entries.sorted_cons.mp hp
    rw [mergeEntries_cons] at h
    rw [live_cons]
    by_cases hs : isSkipped dropped (k, v)
    · simp only [hs, if_true] at h ⊢
      exact exists_of_mergeEntries_eq_error hrest hb h
    · simp only [hs, Bool.false_eq_true, if_false] at h ⊢
      cases ho : mergeEntry (Entries.lookup k base) v (KeyPath.child path k) with
      | error e' =>
        rw [ho] at h
        cases h
        exact ⟨[], k, v, live dropped rest, rfl, List.forall_mem_nil _, ho⟩
      | ok o =>
        rw [ho] at h
        obtain ⟨before, l, w, after, hlive, hbefore, hw⟩ :=
          exists_of_mergeEntries_eq_error hrest (hb.put k o) h
        -- The entries that follow have other keys, so what stands under theirs is as it was.
        have hkept : ∀ a ∈ live dropped rest, Entries.lookup a.1 (put k o base) = Entries.lookup a.1 base :=
          fun a ha => by rw [Entries.lookup_put hb, if_neg (hlt a (List.mem_of_mem_filter ha)).ne']
        rw [hlive, List.forall_mem_append, List.forall_mem_cons] at hkept
        rw [hkept.2.1] at hw
        refine ⟨(k, v) :: before, l, w, after, by rw [hlive, List.cons_append], ?_, hw⟩
        refine List.forall_mem_cons.mpr ⟨⟨o, ho⟩, fun a ha => ?_⟩
        rw [← hkept.1 a ha]
        exact hbefore a ha

end Overlay.Value
