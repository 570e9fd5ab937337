import Mathlib.Data.List.Forall2
import Overlay.Proofs.Merge.Entries
import Overlay.Proofs.Merge.Settled
import Overlay.Proofs.Value.Inside
import Overlay.Proofs.Value.WellFormed

/-!
# Independent patches commute

Two patches are independent if they meet in maps alone, none of which is replaced. A merged map is
determined key by key, and under each key at most one of two independent patches does more than to
go on in a map, so it does not matter which of them is merged first.
-/

namespace Overlay

namespace Value

mutual
/-- Whether two patches are maps that are not replaced, and hold maps that are independent in turn
under every key that both have. -/
def independent : Value → Value → Bool
  | .map s, .map t =>
    !Entries.has Directive.replace s && !Entries.has Directive.replace t && independentEntries s t
  | _, _ => false

def independentEntries : List (String × Value) → Entries Value → Bool
  | [], _ => true
  | (k, v) :: rest, t =>
    (match Entries.lookup k t with
      | some w => independent v w
      | none => true) && independentEntries rest t
end

theorem independentEntries_iff {t : Entries Value} {s : List (String × Value)} :
    independentEntries s t = true ↔
      ∀ e ∈ s, ∀ w, Entries.lookup e.1 t = some w → independent e.2 w = true := by
  induction s with
  | nil => simp [independentEntries]
  | cons e rest ih =>
    rw [independentEntries, Bool.and_eq_true, ih, List.forall_mem_cons]
    refine and_congr_left fun _ => ?_
    cases Entries.lookup e.1 t with
    | none => simp
    | some w => simp

theorem exists_map_of_independent {v w : Value} (h : independent v w = true) :
    ∃ s t, v = .map s ∧ w = .map t := by
  cases v with
  | map s =>
    cases w with
    | map t => exact ⟨s, t, rfl, rfl⟩
    | _ => simp [independent] at h
  | _ => simp [independent] at h

theorem independent_map {s t : Entries Value} : independent (.map s) (.map t) = true ↔
    Entries.lookup Directive.replace s = none ∧ Entries.lookup Directive.replace t = none ∧
      ∀ e ∈ s, ∀ w, Entries.lookup e.1 t = some w → independent e.2 w = true := by
  simp only [independent, Bool.and_eq_true, Bool.not_eq_true', independentEntries_iff,
    Entries.has, Option.isSome_eq_false_iff, Option.isNone_iff_eq_none, and_assoc]

/-! ## Merging maps key by key -/

def entriesOf : Value → Entries Value
  | .map entries => entries
  | _ => []

theorem wellFormed_entriesOf {v : Value} (h : v.WellFormed) : (Value.map v.entriesOf).WellFormed := by
  cases v with
  | map entries => exact h
  | _ => exact wellFormed_map.mpr ⟨Entries.sorted_nil, List.forall_mem_nil _⟩

/-- New content is what is merged into an empty map. -/
theorem mergeEntries_append {dropped : List String} {path : String} :
    ∀ {patch base : Entries Value}, Entries.Sorted (base ++ patch) →
      mergeEntries dropped base patch path =
        (fun fresh => base ++ fresh) <$> freshEntries dropped patch path
  | [], base, _ => by
    rw [mergeEntries, freshEntries]
    show _ = Except.ok (base ++ [])
    rw [List.append_nil]
  | (k, v) :: rest, base, h => by
    have hlast : ∀ e ∈ base, e.1 < k := fun e he =>
      (List.pairwise_append.mp h).2.2 e he (k, v) List.mem_cons_self
    have habsent : Entries.lookup k base = none :=
      Entries.lookup_eq_none_iff.mpr fun e he => (hlast e he).ne
    have hrest : Entries.Sorted (base ++ rest) :=
      h.sublist ((List.sublist_cons_self _ _).append_left base)
    rw [mergeEntries_cons, freshEntries_cons, isSkipped, habsent]
    unfold mergeEntry
    split
    · exact mergeEntries_append hrest
    · split
      · rfl
      · dsimp only
        cases v.normalize (KeyPath.child path k) with
        | error e => rfl
        | ok fresh =>
          have hnext : Entries.Sorted ((base ++ [(k, fresh)]) ++ rest) := by
            rw [List.append_assoc, List.singleton_append]
            rw [Entries.Sorted, ← List.pairwise_map (f := Prod.fst)] at h ⊢
            simpa using h
          show mergeEntries dropped (Entries.insert k fresh base) rest path = _
          rw [Entries.insert_last fresh hlast, mergeEntries_append hnext]
          cases freshEntries dropped rest path with
          | error e => rfl
          | ok others =>
            show Except.ok ((base ++ [(k, fresh)]) ++ others) = .ok (base ++ (k, fresh) :: others)
            rw [List.append_assoc, List.singleton_append]

section
variable {patch : Entries Value} (hp : Entries.Sorted patch)
  (hr : Entries.lookup Directive.replace patch = none)
include hp hr

theorem merge_map (base : Value) (path : String) :
    base.merge (.map patch) path = .map <$> mergeEntries [] base.entriesOf patch path := by
  have hfresh : freshEntries [] patch path = mergeEntries [] [] patch path := by
    rw [mergeEntries_append (show Entries.Sorted ([] ++ patch) from hp)]
    cases freshEntries [] patch path <;> rfl
  have hreplaces : replaces patch = false := by
    rw [replaces, hr]
  cases base <;> simp only [merge, hreplaces, hfresh, entriesOf]

theorem mergeEntry_map (old : Option Value) (path : String) :
    mergeEntry old (.map patch) path =
      (fun merged => some (.map merged)) <$>
        mergeEntries [] ((old.map entriesOf).getD []) patch path := by
  have hmerge (base : Value) : (some <$> base.merge (.map patch) path : Result (Option Value)) =
      (fun merged => some (.map merged)) <$> mergeEntries [] base.entriesOf patch path := by
    rw [merge_map hp hr]
    cases mergeEntries [] base.entriesOf patch path <;> rfl
  cases old with
  | none =>
    have hnull : (Value.map patch).normalize path = merge .null (.map patch) path := by
      simp only [normalize, merge]
    simp only [mergeEntry, isString, Bool.false_eq_true, if_false, hnull]
    exact hmerge .null
  | some base =>
    simp only [mergeEntry, isString, Bool.false_eq_true, if_false]
    exact hmerge base

end

/-- What becomes of the value under a key when a map is merged. -/
def mergeUnder (patch : Entries Value) (path key : String) (old : Option Value) :
    Result (Option Value) :=
  match Entries.lookup key patch with
  | some v => mergeEntry old v (KeyPath.child path key)
  | none => .ok old

theorem live_of_unflagged {patch : Entries Value}
    (hr : Entries.lookup Directive.replace patch = none) : live [] patch = patch := by
  refine live_eq_self fun e he => ?_
  have hne := Entries.lookup_eq_none_iff.mp hr e he
  obtain ⟨k, v⟩ := e
  simp only [isSkipped, List.contains_nil, Bool.false_or]
  cases v with
  | bool b => exact beq_false_of_ne hne
  | _ => rfl

section
variable {s t base r : Entries Value} {path : String} (hs : Entries.Sorted s)
  (hsr : Entries.lookup Directive.replace s = none) (hb : Entries.Sorted base)
include hs hsr hb

theorem mergeEntries_eq_ok_iff : mergeEntries [] base s path = .ok r ↔
    Entries.Sorted r ∧
      ∀ key, mergeUnder s path key (Entries.lookup key base) = .ok (Entries.lookup key r) := by
  have hlive := live_of_unflagged hsr
  have under {m : Entries Value} (h : mergeEntries [] base s path = .ok m) : Entries.Sorted m ∧
      ∀ key, mergeUnder s path key (Entries.lookup key base) = .ok (Entries.lookup key m) := by
    obtain ⟨hm, hlookup⟩ := lookup_mergeEntries hs hb h
    refine ⟨hm, fun key => ?_⟩
    have hkey := hlookup key
    rw [hlive] at hkey
    unfold mergeUnder
    cases hv : Entries.lookup key s with
    | none =>
      simp only [hv] at hkey
      rw [hkey]
    | some v => simpa only [hv] using hkey
  refine ⟨under, fun ⟨hr, hlookup⟩ => ?_⟩
  obtain ⟨m, hm⟩ : ∃ m, mergeEntries [] base s path = .ok m := by
    refine exists_mergeEntries hs hb fun e he => ⟨Entries.lookup e.1 r, ?_⟩
    rw [hlive] at he
    have hkey := hlookup e.1
    rwa [mergeUnder, Entries.lookup_of_mem hs he] at hkey
  obtain ⟨hsorted, hunder⟩ := under hm
  have heq : m = r := Entries.eq_of_lookup hsorted hr fun key =>
    Except.ok.inj ((hunder key).symm.trans (hlookup key))
  rw [hm, heq]

variable (ht : Entries.Sorted t) (htr : Entries.lookup Directive.replace t = none)
include ht htr

/-- What two maps merged one after the other give under each key. -/
theorem mergeEntries_bind_eq_ok_iff :
    (mergeEntries [] base s path >>= fun m => mergeEntries [] m t path) = .ok r ↔
      Entries.Sorted r ∧ ∀ key, (mergeUnder s path key (Entries.lookup key base) >>=
        mergeUnder t path key) = .ok (Entries.lookup key r) := by
  constructor
  · intro h
    obtain ⟨m, hm, h⟩ := Result.bind_eq_ok.mp h
    obtain ⟨hsorted, hunder⟩ := (mergeEntries_eq_ok_iff hs hsr hb).mp hm
    obtain ⟨hr, hlookup⟩ := (mergeEntries_eq_ok_iff ht htr hsorted).mp h
    exact ⟨hr, fun key => by rw [hunder key]; exact hlookup key⟩
  · rintro ⟨hr, hlookup⟩
    obtain ⟨m, hm⟩ : ∃ m, mergeEntries [] base s path = .ok m := by
      refine exists_mergeEntries hs hb fun e he => ?_
      rw [live_of_unflagged hsr] at he
      obtain ⟨o, ho, -⟩ := Result.bind_eq_ok.mp (hlookup e.1)
      exact ⟨o, by rwa [mergeUnder, Entries.lookup_of_mem hs he] at ho⟩
    obtain ⟨hsorted, hunder⟩ := (mergeEntries_eq_ok_iff hs hsr hb).mp hm
    rw [hm]
    refine (mergeEntries_eq_ok_iff ht htr hsorted).mpr ⟨hr, fun key => ?_⟩
    have hkey := hlookup key
    rwa [hunder key] at hkey

end

theorem merge_map_bind {s t : Entries Value} (hs : Entries.Sorted s)
    (hsr : Entries.lookup Directive.replace s = none) (ht : Entries.Sorted t)
    (htr : Entries.lookup Directive.replace t = none) (base : Value) (path : String) :
    (base.merge (.map s) path >>= fun merged => merged.merge (.map t) path) =
      .map <$> (mergeEntries [] base.entriesOf s path >>= fun m => mergeEntries [] m t path) := by
  simp only [merge_map hs hsr, merge_map ht htr]
  cases mergeEntries [] base.entriesOf s path <;> rfl

theorem mergeEntry_map_bind {s t : Entries Value} (hs : Entries.Sorted s)
    (hsr : Entries.lookup Directive.replace s = none) (ht : Entries.Sorted t)
    (htr : Entries.lookup Directive.replace t = none) (old : Option Value) (path : String) :
    (mergeEntry old (.map s) path >>= fun next => mergeEntry next (.map t) path) =
      (fun merged => some (.map merged)) <$>
        (mergeEntries [] ((old.map entriesOf).getD []) s path >>= fun m =>
          mergeEntries [] m t path) := by
  simp only [mergeEntry_map hs hsr, mergeEntry_map ht htr]
  cases mergeEntries [] ((old.map entriesOf).getD []) s path <;> rfl

/-! ## Commuting -/

/-- Two patches can be merged into a map in either order. -/
def Commute (s t : Entries Value) : Prop :=
  ∀ (base : Entries Value), (Value.map base).WellFormed → ∀ (path : String) (r : Entries Value),
    (mergeEntries [] base s path >>= fun m => mergeEntries [] m t path) = .ok r ↔
      (mergeEntries [] base t path >>= fun m => mergeEntries [] m s path) = .ok r

theorem mergeEntry_comm {a b : Entries Value} (ha : Entries.Sorted a) (hb : Entries.Sorted b)
    (har : Entries.lookup Directive.replace a = none)
    (hbr : Entries.lookup Directive.replace b = none) (h : Commute a b) {old : Option Value}
    (hold : ∀ x, old = some x → x.WellFormed) (path : String) (o : Option Value) :
    (mergeEntry old (.map a) path >>= fun next => mergeEntry next (.map b) path) = .ok o ↔
      (mergeEntry old (.map b) path >>= fun next => mergeEntry next (.map a) path) = .ok o := by
  have hbase : (Value.map ((old.map entriesOf).getD [])).WellFormed := by
    cases old with
    | none => exact wellFormed_map.mpr ⟨Entries.sorted_nil, List.forall_mem_nil _⟩
    | some x => exact wellFormed_entriesOf (hold x rfl)
  rw [mergeEntry_map_bind ha har hb hbr, mergeEntry_map_bind hb hbr ha har, Result.map_eq_ok,
    Result.map_eq_ok]
  exact exists_congr fun m => and_congr_left fun _ => h _ hbase path m

theorem commute_of_independent {v : Value} : ∀ {s t : Entries Value}, v = .map s →
    independent (.map s) (.map t) = true → (Value.map s).WellFormed → (Value.map t).WellFormed →
      Commute s t := by
  induction v using induction with
  | map entries ih =>
    intro s t heq h hs ht base hb path r
    cases heq
    obtain ⟨hsr, htr, hboth⟩ := independent_map.mp h
    obtain ⟨hss, hsw⟩ := wellFormed_map.mp hs
    obtain ⟨hts, htw⟩ := wellFormed_map.mp ht
    obtain ⟨hbs, hbw⟩ := wellFormed_map.mp hb
    rw [mergeEntries_bind_eq_ok_iff hss hsr hbs hts htr, mergeEntries_bind_eq_ok_iff hts htr hbs hss hsr]
    refine and_congr_right fun _ => forall_congr' fun key => ?_
    unfold mergeUnder
    cases hv : Entries.lookup key entries with
    | none => cases Entries.lookup key t <;> simp only [Result.ok_bind, Result.bind_ok]
    | some v =>
      cases hw : Entries.lookup key t with
      | none => simp only [Result.ok_bind, Result.bind_ok]
      | some w =>
        -- Only under a key of both patches is more to do than to leave what one of them gives.
        have hmem := Entries.mem_of_lookup hv
        have hvw := hboth _ hmem w hw
        obtain ⟨a, b, rfl, rfl⟩ := exists_map_of_independent hvw
        have haw := hsw _ hmem
        have hbw' := htw _ (Entries.mem_of_lookup hw)
        obtain ⟨har, hbr, -⟩ := independent_map.mp hvw
        exact mergeEntry_comm (wellFormed_map.mp haw).1 (wellFormed_map.mp hbw').1 har hbr
          (ih _ hmem rfl hvw haw hbw') (fun x hx => hbw _ (Entries.mem_of_lookup hx)) _ _
  | _ => intro s t heq; cases heq

/-- Two independent patches can be merged into a value in either order: both orders succeed or none
does, and they give the same. -/
theorem merge_comm_of_independent (base s t : Value) (hbase : base.WellFormed) (hs : s.WellFormed)
    (ht : t.WellFormed) (h : independent s t = true) (path : String) (r : Value) :
    (base.merge s path >>= fun merged => merged.merge t path) = .ok r ↔
      (base.merge t path >>= fun merged => merged.merge s path) = .ok r := by
  obtain ⟨a, b, rfl, rfl⟩ := exists_map_of_independent h
  obtain ⟨har, hbr, -⟩ := independent_map.mp h
  have ha := (wellFormed_map.mp hs).1
  have hb := (wellFormed_map.mp ht).1
  rw [merge_map_bind ha har hb hbr, merge_map_bind hb hbr ha har, Result.map_eq_ok, Result.map_eq_ok]
  refine exists_congr fun m => and_congr_left fun _ => ?_
  exact commute_of_independent rfl h hs ht _ (wellFormed_entriesOf hbase) path m

theorem merge_comm_of_independent_nested :
    let base : Value := .map [("absent", .null), ("both", .map [("x", .int 1)]), ("scalar", .int 1)]
    let s : Value := .map [("absent", .map [("a", .int 1)]), ("both", .map [("x", .string "$delete")]),
      ("scalar", .map [("deep", .map [("list", .list [.int 1])])])]
    let t : Value := .map [("absent", .map [("b", .map [])]), ("both", .map [("y", .int 2)]),
      ("new", .list [.string "$replace", .int 3]), ("scalar", .map [("deep", .map [("k", .null)])])]
    let merged : Value := .map [("absent", .map [("a", .int 1), ("b", .map [])]),
      ("both", .map [("y", .int 2)]), ("new", .list [.int 3]),
      ("scalar", .map [("deep", .map [("k", .null), ("list", .list [.int 1])])])]
    (base.WellFormed ∧ s.WellFormed ∧ t.WellFormed ∧ independent s t = true) ∧
      (base.merge s "" >>= fun m => m.merge t "") = .ok merged ∧
      (base.merge t "" >>= fun m => m.merge s "") = .ok merged := by
  intro base s t merged
  have hbase : base.WellFormed := by decide
  have hs : s.WellFormed := by decide
  have ht : t.WellFormed := by decide
  have h : independent s t = true := by decide
  have hfirst : (base.merge s "" >>= fun m => m.merge t "") = .ok merged := by rfl
  exact ⟨⟨hbase, hs, ht, h⟩, hfirst,
    (merge_comm_of_independent base s t hbase hs ht h "" merged).mp hfirst⟩

end Value

end Overlay
