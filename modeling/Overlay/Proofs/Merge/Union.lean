import Mathlib.Data.List.Lex
import Mathlib.Order.Bounds.Defs
import Overlay.Proofs.Diff.Exact

/-!
# Merging data

Data hold no directives, so a patch of them unites: maps key by key, lists by appending, and anything
else takes the place of what it meets. The one thing that can go wrong is that a scalar is set to what it
is already; the first such place, in the order of its keys, is reported (`merge_dollarFree`).
-/

namespace Overlay

/-- The path of a value that stands under keys, one below the other. -/
def KeyPath.under (path : String) (keys : List String) : String :=
  keys.foldl KeyPath.child path

namespace Value

/-- What stands under keys, one below the other. All of them are keys of maps. -/
def under? (v : Value) : List String → Option Value
  | [] => some v
  | key :: rest => (v.entry? key).bind fun x => x.under? rest

/-- Under the same keys two values hold scalars that are equal. Null is none. -/
def ClashAt (v w : Value) (keys : List String) : Prop :=
  ∃ x y, v.under? keys = some x ∧ w.under? keys = some y ∧ x.isScalar = true ∧ y.isScalar = true ∧
    x == y

/-! ## The union of two values -/

mutual
/-- The deep union of two values. Where both hold something else than maps or lists, the second wins. -/
def union (v : Value) : Value → Value
  | .map patch =>
    match v with
    | .map entries => .map (unionEntries entries patch)
    | _ => .map patch
  | .list items =>
    match v with
    | .list olds => .list (olds ++ items)
    | _ => .list items
  | w => w

def unionEntries (entries : Entries Value) : List (String × Value) → Entries Value
  | [] => entries
  | (key, w) :: rest =>
    let united := match Entries.lookup key entries with
      | some v => union v w
      | none => w
    Entries.insert key united (unionEntries entries rest)
end

theorem lookup_unionEntries (key : String) (entries : Entries Value) : ∀ patch : Entries Value,
    Entries.lookup key (unionEntries entries patch) =
      match Entries.lookup key entries, Entries.lookup key patch with
      | some v, some w => some (v.union w)
      | o, none => o
      | none, o => o
  | [] => by
    rw [unionEntries, Entries.lookup_nil]
    cases Entries.lookup key entries <;> rfl
  | (k, w) :: rest => by
    rw [unionEntries, Entries.lookup_insert, lookup_unionEntries key entries rest, Entries.lookup]
    by_cases hk : k = key
    · subst hk
      rw [if_pos rfl, if_pos rfl]
      cases Entries.lookup k entries <;> rfl
    · rw [if_neg hk, if_neg (Ne.symm hk)]

theorem sorted_unionEntries {entries : Entries Value} (h : Entries.Sorted entries) :
    ∀ patch : Entries Value, Entries.Sorted (unionEntries entries patch)
  | [] => h
  | (k, _) :: rest => (sorted_unionEntries h rest).insert k _

/-! ## Clashes -/

theorem under?_cons_of_not_map {v : Value} (hv : ∀ entries, v ≠ .map entries) (key : String)
    (rest : List String) : v.under? (key :: rest) = none := by
  cases v with
  | map entries => exact absurd rfl (hv entries)
  | _ => rfl

theorem not_clashAt_of_right_not_map {v w : Value} (hw : ∀ entries, w ≠ .map entries) (key : String)
    (rest : List String) : ¬ ClashAt v w (key :: rest) := by
  rintro ⟨_, _, -, hy, -⟩
  cases (under?_cons_of_not_map hw key rest).symm.trans hy

theorem isScalar_of_beq {v w : Value} (hv : v.isScalar = true) (h : v == w) : w.isScalar = true := by
  have h : equal v w = true := h
  cases v <;> cases w <;> simp_all [equal, isScalar]

theorem clashAt_nil {v w : Value} : ClashAt v w [] ↔ v.isScalar = true ∧ v == w := by
  constructor
  · rintro ⟨x, y, ⟨⟩, ⟨⟩, hx, -, h⟩
    exact ⟨hx, h⟩
  · rintro ⟨hv, h⟩
    exact ⟨v, w, rfl, rfl, hv, isScalar_of_beq hv h, h⟩

theorem clashAt_map_cons {entries patch : Entries Value} {key : String} {rest : List String} :
    ClashAt (.map entries) (.map patch) (key :: rest) ↔
      ∃ v w, Entries.lookup key entries = some v ∧ Entries.lookup key patch = some w ∧
        ClashAt v w rest := by
  simp only [ClashAt, under?, entry?, Option.bind_eq_some_iff]
  constructor
  · rintro ⟨x, y, ⟨v, hv, hx⟩, ⟨w, hw, hy⟩, h⟩
    exact ⟨v, w, hv, hw, x, y, hx, hy, h⟩
  · rintro ⟨v, w, hv, hw, x, y, hx, hy, h⟩
    exact ⟨x, y, ⟨v, hv, hx⟩, ⟨w, hw, hy⟩, h⟩

/-! ## Merging without directives -/

/-- What merging data comes to: the first clash is reported, or there is none and the two are united. -/
def MergesTo (v w : Value) (path : String) : Prop :=
  (∃ keys x, IsLeast {keys | ClashAt v w keys} keys ∧ v.under? keys = some x ∧
    v.merge w path = .error (.atKey (.alreadySet x) (KeyPath.under path keys))) ∨
  (∀ keys, ¬ ClashAt v w keys) ∧ v.merge w path = .ok (v.union w)

theorem mergesTo_scalar {v w : Value} (hm : ∀ entries, w ≠ .map entries)
    (hl : ∀ items, w ≠ .list items) (path : String) : MergesTo v w path := by
  have hmerge : v.merge w path =
      if v.isScalar && v == w then .error (.atKey (.alreadySet v) path) else .ok w := by
    cases w with
    | map entries => exact absurd rfl (hm entries)
    | list items => exact absurd rfl (hl items)
    | _ => simp only [merge]
  have hunion : v.union w = w := by
    cases w with
    | map entries => exact absurd rfl (hm entries)
    | list items => exact absurd rfl (hl items)
    | _ => simp only [union]
  unfold MergesTo
  rw [hmerge, hunion]
  split
  · rename_i h
    rw [Bool.and_eq_true] at h
    exact .inl ⟨[], v, ⟨clashAt_nil.mpr h, fun keys _ => not_lt.mp (List.not_lt_nil keys)⟩, rfl, rfl⟩
  · rename_i h
    rw [Bool.and_eq_true] at h
    refine .inr ⟨fun keys hclash => ?_, rfl⟩
    cases keys with
    | nil => exact h (clashAt_nil.mp hclash)
    | cons key rest => exact not_clashAt_of_right_not_map hm key rest hclash

theorem mergesTo_list {v : Value} {items : List Value} (hv : v.DollarFree)
    (hw : (Value.list items).DollarFree) (path : String) : MergesTo v (.list items) path := by
  have hclash : ∀ keys, ¬ ClashAt v (.list items) keys := by
    rintro (_ | ⟨key, rest⟩) h
    · obtain ⟨_, _, -, ⟨⟩, -, ⟨⟩, -⟩ := h
    · exact not_clashAt_of_right_not_map (by simp) key rest h
  refine .inr ⟨hclash, ?_⟩
  cases v with
  | list olds =>
    have hkept : dropRequired olds = olds := by
      cases olds with
      | nil => rfl
      | cons x rest =>
        have hx := (dollarFree_list.mp hv x List.mem_cons_self).literal
        rw [dropRequired, isRequired, hx.isString Directive.required rfl]
        rfl
    have hplain : ∀ x ∈ items, isInstruction x = false ∧ isReplaceMarker x = false ∧
        ∀ path, x.normalize path = .ok x := by
      intro x hx
      have hfree := (markerFree_list.mp hw.literal.markerFree) x hx
      exact ⟨hfree.1, isReplaceMarker_of_markerFree hfree.2 hfree.1, hfree.2.normalize⟩
    have hmarker : items.any isReplaceMarker = false := by
      rw [List.any_eq_false]
      exact fun x hx => by rw [(hplain x hx).2.1]; simp
    simp only [merge, union, hmarker, hkept, mergeItems_of_plain hplain, Bool.false_eq_true, if_false]
    rfl
  | _ =>
    rw [merge_of_not_list (by simp), normalize_literal hw.literal]
    simp only [union]

section
variable {entries patch : Entries Value} {path : String}

theorem mergeEntry_none_dollarFree {w : Value} (hw : w.DollarFree) :
    mergeEntry none w path = .ok (some w) := by
  unfold mergeEntry
  rw [hw.literal.isString Directive.delete rfl, normalize_literal hw.literal]
  rfl

theorem mergeEntry_some_dollarFree {v w : Value} (hw : w.DollarFree) :
    mergeEntry (some v) w path = some <$> v.merge w path := by
  unfold mergeEntry
  rw [hw.literal.isString Directive.delete rfl]
  rfl

/-- The first entry that cannot be merged holds the first clash. -/
theorem isLeast_clash {before after : Entries Value} {key : String} {v w : Value} {rest : List String}
    (hpatch : patch = before ++ (key, w) :: after) (hsorted : Entries.Sorted patch)
    (hbefore : ∀ e ∈ before, ∀ x, Entries.lookup e.1 entries = some x → ∀ keys, ¬ ClashAt x e.2 keys)
    (hv : Entries.lookup key entries = some v) (hleast : IsLeast {keys | ClashAt v w keys} rest) :
    IsLeast {keys | ClashAt (.map entries) (.map patch) keys} (key :: rest) := by
  have hmem : (key, w) ∈ patch := by simp [hpatch]
  refine ⟨clashAt_map_cons.mpr ⟨v, w, hv, Entries.lookup_of_mem hsorted hmem, hleast.1⟩, ?_⟩
  rintro (_ | ⟨other, others⟩) hclash
  · cases (clashAt_nil.mp hclash).1
  · obtain ⟨x, y, hx, hy, hclash⟩ := clashAt_map_cons.mp hclash
    have hother := Entries.mem_of_lookup hy
    rw [hpatch] at hother hsorted
    rcases List.mem_append.mp hother with hother | hother
    · exact absurd hclash (hbefore _ hother x hx others)
    · rcases List.mem_cons.mp hother with heq | hother
      · cases heq
        cases hv.symm.trans hx
        exact List.cons_le_cons key (hleast.2 hclash)
      · have hafter := (List.pairwise_append.mp hsorted).2.1
        exact le_of_lt (List.Lex.rel ((Entries.sorted_cons.mp hafter).1 _ hother))

theorem mergesTo_of_not_map {v : Value} (hv : ∀ entries, v ≠ .map entries)
    (hw : (Value.map patch).DollarFree) : MergesTo v (.map patch) path := by
  refine .inr ⟨?_, ?_⟩
  · rintro (_ | ⟨key, rest⟩) ⟨x, y, hx, hy, -, hscalar, -⟩
    · cases hy
      cases hscalar
    · cases (under?_cons_of_not_map hv key rest).symm.trans hx
  · rw [merge_of_not_map hv, normalize_literal hw.literal]
    cases v with
    | map entries => exact absurd rfl (hv entries)
    | _ => simp only [union]

theorem merge_dollarFree_map (hw : (Value.map patch).DollarFree) :
    (Value.map entries).merge (.map patch) path =
      Value.map <$> mergeEntries [] entries patch path := by
  have hflag : replaces patch = false := by
    rw [replaces, Entries.lookup_literal (fun e he => (literal_map.mp hw.literal e he).1) _ rfl]
  simp only [merge, hflag]

theorem live_dollarFree (hw : (Value.map patch).DollarFree) : live [] patch = patch := by
  refine live_eq_self fun e he => ?_
  rw [isSkipped, isReplaceFlag_literal (literal_map.mp hw.literal e he).1]
  rfl

end

section
variable {entries patch : Entries Value} {path : String} (hentries : Entries.Sorted entries)
  (hpatch : Entries.Sorted patch) (hfree : (Value.map patch).DollarFree)
  (ih : ∀ e ∈ patch, ∀ v, Entries.lookup e.1 entries = some v →
    MergesTo v e.2 (KeyPath.child path e.1))
include hfree ih

/-- An entry that is merged has met nothing that it clashes with. -/
theorem eq_union_of_mergeEntry {e : String × Value} (he : e ∈ patch) {v : Value}
    (hv : Entries.lookup e.1 entries = some v) {o : Option Value}
    (ho : mergeEntry (some v) e.2 (KeyPath.child path e.1) = .ok o) :
    (∀ keys, ¬ ClashAt v e.2 keys) ∧ o = some (v.union e.2) := by
  rw [mergeEntry_some_dollarFree (dollarFree_map.mp hfree e he).2] at ho
  rcases ih e he v hv with ⟨_, _, -, -, herr⟩ | ⟨hnone, hok⟩
  · rw [herr] at ho
    cases ho
  · rw [hok] at ho
    cases ho
    exact ⟨hnone, rfl⟩

include hentries hpatch

theorem exists_clash_of_mergeEntries {e : Error}
    (h : mergeEntries [] entries patch path = .error e) :
    ∃ keys x, IsLeast {keys | ClashAt (.map entries) (.map patch) keys} keys ∧
      (Value.map entries).under? keys = some x ∧
      e = .atKey (.alreadySet x) (KeyPath.under path keys) := by
  obtain ⟨before, key, w, after, heq, hbefore, herr⟩ :=
    exists_of_mergeEntries_eq_error hpatch hentries h
  rw [live_dollarFree hfree] at heq
  have hmem : (key, w) ∈ patch := by simp [heq]
  have hw : w.DollarFree := (dollarFree_map.mp hfree _ hmem).2
  cases hv : Entries.lookup key entries with
  | none =>
    rw [hv, mergeEntry_none_dollarFree hw] at herr
    cases herr
  | some v =>
    rw [hv, mergeEntry_some_dollarFree hw] at herr
    rcases ih _ hmem v hv with ⟨rest, x, hleast, hx, hfail⟩ | ⟨-, hok⟩
    · dsimp only at hfail
      rw [hfail] at herr
      cases herr
      refine ⟨key :: rest, x, isLeast_clash heq hpatch (fun a ha u hu => ?_) hv hleast, ?_, rfl⟩
      · obtain ⟨o, ho⟩ := hbefore a ha
        rw [hu] at ho
        exact (eq_union_of_mergeEntry hfree ih (by simp [heq, ha]) hu ho).1
      · rw [under?, entry?, hv]
        exact hx
    · dsimp only at hok
      rw [hok] at herr
      cases herr

theorem eq_union_of_mergeEntries {merged : Entries Value}
    (h : mergeEntries [] entries patch path = .ok merged) :
    (∀ keys, ¬ ClashAt (.map entries) (.map patch) keys) ∧ merged = unionEntries entries patch := by
  obtain ⟨hsorted, hall⟩ := lookup_mergeEntries hpatch hentries h
  rw [live_dollarFree hfree] at hall
  have hboth : ∀ key v w, Entries.lookup key entries = some v → Entries.lookup key patch = some w →
      (∀ keys, ¬ ClashAt v w keys) ∧ Entries.lookup key merged = some (v.union w) := by
    intro key v w hv hw
    have hkey := hall key
    rw [hw, hv] at hkey
    exact eq_union_of_mergeEntry hfree ih (Entries.mem_of_lookup hw) hv hkey
  refine ⟨?_, Entries.eq_of_lookup hsorted (sorted_unionEntries hentries patch) fun key => ?_⟩
  · rintro (_ | ⟨key, rest⟩) hclash
    · cases (clashAt_nil.mp hclash).1
    · obtain ⟨v, w, hv, hw, hclash⟩ := clashAt_map_cons.mp hclash
      exact (hboth key v w hv hw).1 rest hclash
  · rw [lookup_unionEntries]
    have hkey := hall key
    cases hw : Entries.lookup key patch with
    | none =>
      rw [hw] at hkey
      rw [hkey]
      cases Entries.lookup key entries <;> rfl
    | some w =>
      cases hv : Entries.lookup key entries with
      | some v => exact (hboth key v w hv hw).2
      | none =>
        rw [hw, hv] at hkey
        have hnew : mergeEntry none w (KeyPath.child path key) = .ok (some w) :=
          mergeEntry_none_dollarFree (dollarFree_map.mp hfree _ (Entries.mem_of_lookup hw)).2
        exact Except.ok.inj (hkey.symm.trans hnew)

theorem mergesTo_map : MergesTo (.map entries) (.map patch) path := by
  unfold MergesTo
  rw [merge_dollarFree_map hfree, union]
  cases h : mergeEntries [] entries patch path with
  | error e =>
    obtain ⟨keys, x, hleast, hx, rfl⟩ := exists_clash_of_mergeEntries hentries hpatch hfree ih h
    exact .inl ⟨keys, x, hleast, hx, rfl⟩
  | ok merged =>
    obtain ⟨hnone, rfl⟩ := eq_union_of_mergeEntries hentries hpatch hfree ih h
    exact .inr ⟨hnone, rfl⟩

end

theorem mergesTo_dollarFree {v w : Value} (hv : v.WellFormed) (hw : w.WellFormed)
    (hvd : v.DollarFree) (hwd : w.DollarFree) (path : String) : MergesTo v w path := by
  induction w using induction generalizing v path with
  | map patch ih =>
    obtain ⟨hsorted, hw⟩ := wellFormed_map.mp hw
    by_cases hmap : ∃ entries, v = .map entries
    · obtain ⟨entries, rfl⟩ := hmap
      obtain ⟨hentries, hv⟩ := wellFormed_map.mp hv
      refine mergesTo_map hentries hsorted hwd fun e he x hx => ?_
      have hmem := Entries.mem_of_lookup hx
      exact ih e he (hv _ hmem) (hw e he) (dollarFree_map.mp hvd _ hmem).2
        (dollarFree_map.mp hwd e he).2 _
    · exact mergesTo_of_not_map (fun entries h => hmap ⟨entries, h⟩) hwd
  | list items ih => exact mergesTo_list hvd hwd path
  | _ => exact mergesTo_scalar (by simp) (by simp) path

/-- Merging data fails exactly if they clash, for the first of all clashes, and unites them otherwise. -/
theorem merge_dollarFree {d s : Value} (hd : d.WellFormed) (hs : s.WellFormed) (hdd : d.DollarFree)
    (hsd : s.DollarFree) :
    ((∃ e, d.merge s "" = .error e) ↔ ∃ keys, ClashAt d s keys) ∧
    (∀ e, d.merge s "" = .error e → ∃ keys x, IsLeast {keys | ClashAt d s keys} keys ∧
      d.under? keys = some x ∧ e = .atKey (.alreadySet x) (KeyPath.under "" keys) ∧
      e.cause.code = "USELESS_OVERRIDE") ∧
    ((∀ keys, ¬ ClashAt d s keys) → d.merge s "" = .ok (d.union s)) := by
  rcases mergesTo_dollarFree hd hs hdd hsd "" with ⟨keys, x, hleast, hx, herr⟩ | ⟨hnone, hok⟩
  · rw [herr]
    refine ⟨⟨fun _ => ⟨keys, hleast.1⟩, fun _ => ⟨_, rfl⟩⟩, ?_, fun h => absurd hleast.1 (h keys)⟩
    rintro _ ⟨⟩
    exact ⟨keys, x, hleast, hx, rfl, rfl⟩
  · rw [hok]
    refine ⟨⟨?_, fun ⟨keys, h⟩ => absurd h (hnone keys)⟩, ?_, fun _ => rfl⟩
    · rintro ⟨_, ⟨⟩⟩
    · rintro _ ⟨⟩

theorem merge_dollarFree_of_services :
    let d : Value := .map [("name", .string "web"), ("none", .null),
      ("ports", .map [("", .int 80), ("tls", .int 443)]), ("shape", .int 1), ("tags", .list [.int 1])]
    let clashing : Value := .map [("new", .int 1), ("none", .null),
      ("ports", .map [("", .int 80), ("tls", .int 443)]), ("shape", .int 1)]
    let fitting : Value := .map [("none", .null), ("ports", .map [("tls", .int 8443)]),
      ("shape", .map []), ("tags", .list [.int 1])]
    (d.WellFormed ∧ d.DollarFree ∧ ∀ s ∈ [clashing, fitting], s.WellFormed ∧ s.DollarFree) ∧
      (∃ keys x, IsLeast {keys | ClashAt d clashing keys} keys ∧ d.under? keys = some x ∧
        d.merge clashing "" = .error (.atKey (.alreadySet x) (KeyPath.under "" keys))) ∧
      ClashAt d clashing ["shape"] ∧
      d.merge clashing "" = .error (.atKey (.alreadySet (.int 80)) "ports.") ∧
      (∀ keys, ¬ ClashAt d fitting keys) ∧
      d.merge fitting "" = .ok (.map [("name", .string "web"), ("none", .null),
        ("ports", .map [("", .int 80), ("tls", .int 8443)]), ("shape", .map []),
        ("tags", .list [.int 1, .int 1])]) := by
  intro d clashing fitting
  have hd : d.WellFormed := by decide
  have hdd : d.DollarFree := by decide
  have hs : ∀ s ∈ [clashing, fitting], s.WellFormed ∧ s.DollarFree := by decide
  obtain ⟨hc, hcd⟩ := hs clashing (by simp)
  obtain ⟨hf, hfd⟩ := hs fitting (by simp)
  have hlate : ClashAt d clashing ["shape"] :=
    ⟨.int 1, .int 1, by decide, by decide, by decide, by decide, by decide⟩
  have hmerged : d.merge fitting "" = .ok (d.union fitting) := by rfl
  obtain ⟨hfails, hfirst, -⟩ := merge_dollarFree hd hc hdd hcd
  obtain ⟨hfits, -, -⟩ := merge_dollarFree hd hf hdd hfd
  obtain ⟨e, he⟩ := hfails.mpr ⟨_, hlate⟩
  obtain ⟨keys, x, hleast, hx, rfl, -⟩ := hfirst e he
  refine ⟨⟨hd, hdd, hs⟩, ⟨keys, x, hleast, hx, he⟩, hlate, by rfl, fun keys hclash => ?_, by rfl⟩
  obtain ⟨e, he⟩ := hfits.mpr ⟨keys, hclash⟩
  cases he.symm.trans hmerged

end Value

end Overlay
