import Overlay.Proofs.Merge.Union

/-!
# Differences are minimal

No entry of a difference can be left out, at any depth: what is merged without it keeps the old value
under its keys, and that is not the value which the difference leads to. A map does not differ from
itself.
-/

namespace Overlay

namespace Value

/-- A value without the entry that a key has in the map under other keys. -/
def withoutUnder (key : String) : List String → Value → Value
  | [], .map entries => .map (Entries.erase key entries)
  | k :: keys, .map entries =>
    match Entries.lookup k entries with
    | some v => .map (Entries.insert k (v.withoutUnder key keys) entries)
    | none => .map entries
  | _, v => v

theorem under?_cons {entries : Entries Value} {k : String} {v : Value}
    (h : Entries.lookup k entries = some v) (keys : List String) :
    (Value.map entries).under? (k :: keys) = v.under? keys := by
  rw [under?, entry?, h]
  rfl

theorem under?_singleton (entries : Entries Value) (k : String) :
    (Value.map entries).under? [k] = Entries.lookup k entries := by
  rw [under?, entry?]
  cases Entries.lookup k entries <;> rfl

theorem withoutUnder_map (key : String) (keys : List String) (entries : Entries Value) :
    ∃ left, (Value.map entries).withoutUnder key keys = .map left := by
  cases keys with
  | nil => exact ⟨_, rfl⟩
  | cons k keys =>
    rw [withoutUnder]
    cases Entries.lookup k entries with
    | none => exact ⟨_, rfl⟩
    | some v => exact ⟨_, rfl⟩

/-- What is equal needs no entry in a difference. -/
theorem lookup_mapPatch_of_rel {a b : Entries Value} (hb : Entries.Sorted b) {key : String}
    (h : Option.Rel (fun x y => equal x y = true) (Entries.lookup key a) (Entries.lookup key b)) :
    Entries.lookup key (mapPatch a b) = none := by
  by_contra hne
  obtain ⟨p, hp⟩ := Option.ne_none_iff_exists'.mp hne
  rcases mapPatch_cases hb hp with ⟨old, hold, hnew, -⟩ | ⟨hold, hnew⟩ | ⟨old, new, hold, hnew, hdiffer, -⟩
  · rw [hold, hnew] at h
    cases h
  · rw [hold, hnew] at h
    cases h
  · rw [hold, hnew] at h
    cases h with
    | some heq => cases heq.symm.trans hdiffer

theorem diff_self {a : Entries Value} (ha : (Value.map a).WellFormed) (hn : (Value.map a).NaNFree) :
    (Value.map a).diff (.map a) = .map [] := by
  obtain ⟨hsorted, -⟩ := wellFormed_map.mp ha
  rw [diff_map]
  refine congrArg Value.map (Entries.eq_of_lookup (sorted_mapPatch hsorted) Entries.sorted_nil ?_)
  intro key
  refine lookup_mapPatch_of_rel hsorted ?_
  cases hv : Entries.lookup key a with
  | none => exact .none
  | some v => exact .some (equal_self v (hn.entry (Entries.mem_of_lookup hv)))

/-- Where both maps hold maps, an entry of their difference is the difference of these. -/
theorem eq_diff_of_maps {a b olds news : Entries Value} {key : String} {p : Value}
    (hb : Entries.Sorted b) (hp : Entries.lookup key (mapPatch a b) = some p)
    (hold : Entries.lookup key a = some (.map olds))
    (hnew : Entries.lookup key b = some (.map news)) : p = (Value.map olds).diff (.map news) := by
  rcases mapPatch_cases hb hp with ⟨_, -, h, -⟩ | ⟨h, -⟩ | ⟨_, _, h, h', -, rfl⟩
  · cases hnew.symm.trans h
  · cases hold.symm.trans h
  · cases hold.symm.trans h
    cases hnew.symm.trans h'
    rfl

section
variable {a b : Entries Value} (ha : (Value.map a).WellFormed) (hb : (Value.map b).WellFormed)
  (hn : (Value.map b).NaNFree) (hs : (Value.map b).Settled)
include ha hb hn hs

/-- A difference whose entry under a key is changed or left out leads elsewhere if that entry does. -/
theorem merge_put_mapPatch {key path : String} {o x : Option Value}
    (hlive : ∀ p, o = some p → isSkipped [] (key, p) = false)
    (hx : match o with
      | none => x = Entries.lookup key a
      | some p => mergeEntry (Entries.lookup key a) p (KeyPath.child path key) = .ok x)
    (hne : ¬ Option.Rel (fun x y => equal x y = true) x (Entries.lookup key b)) :
    ∃ v, (Value.map a).merge (.map (Entries.put key o (mapPatch a b))) path = .ok v ∧
      ¬ v == .map b := by
  obtain ⟨hasorted, hawf⟩ := wellFormed_map.mp ha
  obtain ⟨hbsorted, hbwf⟩ := wellFormed_map.mp hb
  have hpatch := sorted_mapPatch (a := a) hbsorted
  have hreached : ∀ e ∈ b, e.2.Reached := fun e he =>
    reached e.2 (hbwf e he) (hn.entry he) (hs.entries e he).2.2
  have hskip : ∀ e ∈ Entries.put key o (mapPatch a b), isSkipped [] e = false := by
    intro e he
    rcases Entries.mem_put he with ⟨p, hp, rfl⟩ | he
    · exact hlive p hp
    · exact mapPatch_not_skipped hbsorted hs e he
  have hput := hpatch.put key o
  have hmerges : ∀ e ∈ Entries.put key o (mapPatch a b),
      ∃ o, mergeEntry (Entries.lookup e.1 a) e.2 (KeyPath.child path e.1) = .ok o := by
    intro e he
    have hlookup := Entries.lookup_of_mem hput he
    rw [Entries.lookup_put hpatch] at hlookup
    by_cases hkey : e.1 = key
    · rw [if_pos hkey] at hlookup
      subst hlookup
      exact ⟨x, hkey ▸ hx⟩
    · rw [if_neg hkey] at hlookup
      obtain ⟨o, ho, -⟩ :=
        mergeEntry_mapPatch hbsorted hs hawf hn hreached hlookup (KeyPath.child path e.1)
      exact ⟨o, ho⟩
  obtain ⟨r, hr, -, hlookup⟩ := exists_merge_map hput hasorted hskip hmerges
  refine ⟨.map r, hr, fun heq => hne ?_⟩
  have hkey := hlookup key
  rw [Entries.lookup_put hpatch, if_pos rfl] at hkey
  have hrx : Entries.lookup key r = x := by
    cases o with
    | none => exact hkey.trans hx.symm
    | some p => exact Except.ok.inj (hkey.symm.trans hx)
  exact hrx ▸ rel_lookup_of_equal_map heq key

theorem merge_diff_withoutUnder {keys : List String} {key : String} {entry : Value} (path : String)
    (halong : ∀ above, above <+: keys → ∃ olds news, (Value.map a).under? above = some (.map olds) ∧
      (Value.map b).under? above = some (.map news))
    (hentry : ((Value.map a).diff (.map b)).under? (keys ++ [key]) = some entry) :
    ∃ v, (Value.map a).merge (((Value.map a).diff (.map b)).withoutUnder key keys) path = .ok v ∧
      ¬ v == .map b := by
  induction keys generalizing a b path with
  | nil =>
    obtain ⟨hbsorted, -⟩ := wellFormed_map.mp hb
    obtain ⟨p, hp, -⟩ := Option.bind_eq_some_iff.mp hentry
    refine merge_put_mapPatch ha hb hn hs (o := none) nofun rfl fun hrel => ?_
    cases (lookup_mapPatch_of_rel hbsorted hrel).symm.trans hp
  | cons k keys ih =>
    obtain ⟨-, hawf⟩ := wellFormed_map.mp ha
    obtain ⟨hbsorted, hbwf⟩ := wellFormed_map.mp hb
    obtain ⟨p, hp, hentry⟩ := Option.bind_eq_some_iff.mp hentry
    obtain ⟨olds, news, hold, hnew⟩ := halong [k] (by simp)
    rw [under?_singleton] at hold hnew
    have hp : Entries.lookup k (mapPatch a b) = some p := hp
    obtain rfl := eq_diff_of_maps hbsorted hp hold hnew
    have hmem := Entries.mem_of_lookup hnew
    have hbelow : ∀ above, above <+: keys → ∃ as bs, (Value.map olds).under? above = some (.map as) ∧
        (Value.map news).under? above = some (.map bs) := by
      intro above habove
      obtain ⟨as, bs, has, hbs⟩ := halong (k :: above) (List.cons_prefix_cons.mpr ⟨rfl, habove⟩)
      rw [under?_cons hold] at has
      rw [under?_cons hnew] at hbs
      exact ⟨as, bs, has, hbs⟩
    obtain ⟨v, hv, hne⟩ := ih (hawf _ (Entries.mem_of_lookup hold)) (hbwf _ hmem) (hn.entry hmem)
      (hs.entries _ hmem).2.2 (KeyPath.child path k) hbelow hentry
    obtain ⟨left, hleft⟩ := withoutUnder_map key keys (mapPatch olds news)
    have hmerge : mergeEntry (Entries.lookup k a) (.map left) (KeyPath.child path k) = .ok (some v) := by
      rw [diff_map, hleft] at hv
      rw [hold, mergeEntry, hv]
      rfl
    rw [diff_map, withoutUnder, hp]
    dsimp only
    rw [diff_map, hleft]
    refine merge_put_mapPatch ha hb hn hs (o := some (.map left)) (fun _ h => ?_) hmerge fun hrel => ?_
    · cases h
      rfl
    · rw [hnew] at hrel
      cases hrel with
      | some heq => exact hne heq

end

/-- The difference of two maps is minimal: it cannot do without any of its entries, under keys along
which both hold maps. So it has none if it leads nowhere. -/
theorem diff_minimal {src dst : Entries Value} (hsrc : (Value.map src).WellFormed)
    (hdst : (Value.map dst).WellFormed) (hsn : (Value.map src).NaNFree)
    (hdn : (Value.map dst).NaNFree) (hsettled : (Value.map dst).normalize "" = .ok (.map dst)) :
    (∀ (keys : List String) (key : String) (entry : Value) (path : String),
      (∀ above, above <+: keys → ∃ olds news, (Value.map src).under? above = some (.map olds) ∧
        (Value.map dst).under? above = some (.map news)) →
      ((Value.map src).diff (.map dst)).under? (keys ++ [key]) = some entry →
      ∃ v, (Value.map src).merge (((Value.map src).diff (.map dst)).withoutUnder key keys) path =
        .ok v ∧ ¬ v == .map dst) ∧
    (Value.map src).diff (.map src) = .map [] :=
  ⟨fun _ _ _ path halong hentry =>
    merge_diff_withoutUnder hsrc hdst hdn hsettled path halong hentry, diff_self hsrc hsn⟩

theorem diff_minimal_of_servers :
    let src : Entries Value := [("gone", .int 1), ("same", .float 1.5),
      ("server", .map [("port", .int 80), ("tls", .map [("on", .bool true)])])]
    let dst : Entries Value := [("same", .float 1.5),
      ("server", .map [("port", .int 80), ("tls", .map [("on", .bool false)])])]
    ((Value.map src).WellFormed ∧ (Value.map dst).WellFormed ∧ (Value.map src).NaNFree ∧
      (Value.map dst).NaNFree ∧ (Value.map dst).normalize "" = .ok (.map dst)) ∧
    (∃ v, (Value.map src).merge (.map [("gone", .string "$delete"),
        ("server", .map [("tls", .map [])])]) "" = .ok v ∧ ¬ v == .map dst) ∧
      (Value.map src).diff (.map src) = .map [] := by
  intro src dst
  have hsrc : (Value.map src).WellFormed := by decide
  have hdst : (Value.map dst).WellFormed := by decide
  have hsn : (Value.map src).Floats fun x => x.isNaN = false := by decide
  have hdn : (Value.map dst).Floats fun x => x.isNaN = false := by decide
  have hsettled : (Value.map dst).normalize "" = .ok (.map dst) := by rfl
  have hsn : (Value.map src).NaNFree := fun _ hx => hsn.of_inside hx
  have hdn : (Value.map dst).NaNFree := fun _ hx => hdn.of_inside hx
  obtain ⟨hminimal, hself⟩ := diff_minimal hsrc hdst hsn hdn hsettled
  refine ⟨⟨hsrc, hdst, hsn, hdn, hsettled⟩, ?_, hself⟩
  refine hminimal ["server", "tls"] "on" (.bool false) "" (fun above habove => ?_) (by decide)
  simp only [List.prefix_cons_iff, List.prefix_nil] at habove
  obtain rfl | ⟨_, rfl, rfl | ⟨_, rfl, rfl⟩⟩ := habove
  · exact ⟨_, _, rfl, rfl⟩
  · exact ⟨_, _, rfl, rfl⟩
  · exact ⟨_, _, rfl, rfl⟩

end Value

end Overlay
