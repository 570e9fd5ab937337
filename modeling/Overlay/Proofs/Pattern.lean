import Overlay.Merge
import Overlay.Proofs.Value.Inside
import Overlay.Proofs.Value.WellFormed
import Overlay.Value.Identity

/-!
# Fitting is a preorder

On ordinary values every value fits itself, and what fits a pattern fits all that this pattern fits
(`fits_preorder`). Floats are not ordinary, since one that is no number does not fit itself, nor are the
maps that a pattern reads otherwise than as data. Null asks for null or no entry, so a pattern that asks
for null says of an entry that is left out what no value says of it: in the last of three patterns no
entry may be null.
-/

namespace Overlay.Value

def IsOrdinary : Value → Prop
  | .float _ => False
  | .map entries => Entries.lookup Directive.invert entries ≠ some (.bool true) ∧
    ∀ key ∈ [Directive.merge, Directive.replace, Directive.encode],
      (Value.map entries).soleArgument? key = none
  | _ => True

instance : DecidablePred IsOrdinary
  | .map _ => inferInstanceAs (Decidable (_ ∧ _))
  | .float _ => isFalse id
  | .null | .bool _ | .int _ | .string _ | .list _ => isTrue trivial

/-- No float stands inside a value, no pattern that is inverted, and no map that is a reference or an
encoding. -/
def Ordinary : Value → Prop :=
  Everywhere IsOrdinary

instance (v : Value) : Decidable v.Ordinary :=
  inferInstanceAs (Decidable (Everywhere _ v))

def HoldsNoNull : Value → Prop
  | .map entries => ∀ e ∈ entries, e.2.isNull = false
  | _ => True

instance : DecidablePred HoldsNoNull
  | .map entries => inferInstanceAs (Decidable (∀ e ∈ entries, e.2.isNull = false))
  | .null | .bool _ | .int _ | .float _ | .string _ | .list _ => isTrue trivial

/-! ## What fits each kind of pattern -/

theorem Ordinary.not_isDirective {v : Value} (h : v.Ordinary) : v.isDirective = false := by
  have hv := h v .refl
  unfold isDirective
  split
  · rename_i k x
    have hsole := hv.2 k
    by_contra hmem
    simp only [Bool.not_eq_false, List.contains_iff_mem] at hmem
    simpa [soleArgument?] using hsole hmem
  · rfl

theorem Ordinary.not_inverts {entries : Entries Value} (h : (Value.map entries).Ordinary) :
    inverts entries = false := by
  have hinvert := (h _ .refl).1
  unfold inverts
  split
  · rename_i b hb
    cases b with
    | false => rfl
    | true => exact absurd hb hinvert
  · rfl

theorem fitsEntries_iff {entries : Entries Value} : ∀ {pattern : Entries Value},
    fitsEntries entries pattern = true ↔ ∀ e ∈ pattern, e.1 = Directive.invert ∨
      (∃ v, Entries.lookup e.1 entries = some v ∧ v.fits e.2 = true) ∨
        Entries.lookup e.1 entries = none ∧ e.2.isNull = true
  | [] => by simp [fitsEntries]
  | (k, p) :: rest => by
    rw [fitsEntries, List.forall_mem_cons, Bool.and_eq_true, fitsEntries_iff, Bool.or_eq_true, beq_iff_eq]
    cases Entries.lookup k entries <;> simp

theorem fitsItems_iff {items patterns : List Value} :
    fitsItems items patterns = true ↔ ∀ p ∈ patterns, ∃ v ∈ items, v.fits p = true := by
  induction patterns with
  | nil => simp [fitsItems]
  | cons p rest ih =>
    rw [fitsItems, List.forall_mem_cons, Bool.and_eq_true, ih, List.any_eq_true]

theorem fits_map_iff {v : Value} {pattern : Entries Value} (hv : v.Ordinary)
    (hp : (Value.map pattern).Ordinary) : v.fits (.map pattern) = true ↔
      ∃ entries, v = .map entries ∧ fitsEntries entries pattern = true := by
  simp only [fits, hv.not_isDirective, hp.not_isDirective, hp.not_inverts]
  cases v <;> simp

theorem fits_list_iff {v : Value} {patterns : List Value} (hv : v.Ordinary) :
    v.fits (.list patterns) = true ↔ ∃ items, v = .list items ∧ fitsItems items patterns = true := by
  simp only [fits, hv.not_isDirective]
  cases v <;> simp

/-- A pattern without entries and elements asks for itself. -/
theorem fits_scalar_iff {v p : Value} (hv : v.Ordinary) (hp : p.Ordinary)
    (hm : ∀ entries, p ≠ .map entries) (hl : ∀ items, p ≠ .list items) :
    v.fits p = true ↔ v = p := by
  have hfits : v.fits p = v.looselyEqual p := by
    cases p with
    | map entries => exact absurd rfl (hm entries)
    | list items => exact absurd rfl (hl items)
    | _ => simp [fits, hv.not_isDirective]
  have hequal : v.looselyEqual p = equal v p := by
    have hfloat {w : Value} (hw : w.Ordinary) (x : Float) : w ≠ .float x := by
      rintro rfl
      exact hw _ .refl
    unfold looselyEqual
    split
    · exact absurd rfl (hfloat hp _)
    · exact absurd rfl (hfloat hv _)
    · rfl
  rw [hfits, hequal]
  cases p with
  | map entries => exact absurd rfl (hm entries)
  | list items => exact absurd rfl (hl items)
  | float x => exact (hp _ .refl).elim
  | _ => cases v <;> simp [equal]

/-! ## The preorder -/

theorem Ordinary.entry {entries : Entries Value} (h : (Value.map entries).Ordinary)
    {e : String × Value} (he : e ∈ entries) : e.2.Ordinary :=
  (everywhere_map.mp h).2 e he

theorem Ordinary.item {items : List Value} (h : (Value.list items).Ordinary) {v : Value}
    (hv : v ∈ items) : v.Ordinary :=
  (everywhere_list.mp h).2 v hv

theorem fits_self {v : Value} (hw : v.WellFormed) (h : v.Ordinary) : v.fits v = true := by
  induction v using induction with
  | map entries ih =>
    obtain ⟨hsorted, hw⟩ := wellFormed_map.mp hw
    refine (fits_map_iff h h).mpr ⟨entries, rfl, fitsEntries_iff.mpr fun e he => ?_⟩
    exact .inr (.inl ⟨e.2, Entries.lookup_of_mem hsorted he, ih e he (hw e he) (h.entry he)⟩)
  | list items ih =>
    refine (fits_list_iff h).mpr ⟨items, rfl, fitsItems_iff.mpr fun x hx => ?_⟩
    exact ⟨x, hx, ih x hx (wellFormed_list.mp hw x hx) (h.item hx)⟩
  | _ => exact (fits_scalar_iff h h nofun nofun).mpr rfl

/-- Null asks for null, and nothing else asks for it. -/
theorem isNull_of_null_fits {p : Value} (hp : p.Ordinary) (h : Value.null.fits p = true) :
    p.isNull = true := by
  have hnull : Value.null.Ordinary := (everywhere_scalar (by simp) (by simp)).mpr trivial
  cases p with
  | map entries =>
    obtain ⟨_, heq, -⟩ := (fits_map_iff hnull hp).mp h
    cases heq
  | list items =>
    obtain ⟨_, heq, -⟩ := (fits_list_iff hnull).mp h
    cases heq
  | _ => rw [← (fits_scalar_iff hnull hp nofun nofun).mp h, isNull]

theorem fits_trans {a b c : Value} (ha : a.Ordinary) (hb : b.Ordinary) (hc : c.Ordinary)
    (hnull : c.Everywhere HoldsNoNull) (hab : a.fits b = true) (hbc : b.fits c = true) :
    a.fits c = true := by
  induction c using induction generalizing a b with
  | map pattern ih =>
    obtain ⟨hholds, hnull⟩ := everywhere_map.mp hnull
    obtain ⟨middle, rfl, hmiddle⟩ := (fits_map_iff hb hc).mp hbc
    obtain ⟨entries, rfl, hentries⟩ := (fits_map_iff ha hb).mp hab
    refine (fits_map_iff ha hc).mpr ⟨entries, rfl, fitsEntries_iff.mpr fun e he => ?_⟩
    rcases fitsEntries_iff.mp hmiddle e he with hinvert | ⟨y, hy, hye⟩ | ⟨-, habsent⟩
    · exact .inl hinvert
    · have hmem := Entries.mem_of_lookup hy
      have hordinary := hc.entry he
      rcases fitsEntries_iff.mp hentries _ hmem with hinvert | ⟨x, hx, hxy⟩ | ⟨-, hynull⟩
      · exact .inl hinvert
      · have hfits := ih e he (ha.entry (Entries.mem_of_lookup hx)) (hb.entry hmem) hordinary
          (hnull e he) hxy hye
        exact .inr (.inl ⟨x, hx, hfits⟩)
      -- The middle pattern would take an absent entry only for null, which the last does not ask for.
      · cases y with
        | null => cases (hholds e he).symm.trans (isNull_of_null_fits hordinary hye)
        | _ => cases hynull
    · rw [hholds e he] at habsent
      cases habsent
  | list patterns ih =>
    obtain ⟨-, hnull⟩ := everywhere_list.mp hnull
    obtain ⟨middle, rfl, hmiddle⟩ := (fits_list_iff hb).mp hbc
    obtain ⟨items, rfl, hitems⟩ := (fits_list_iff ha).mp hab
    refine (fits_list_iff ha).mpr ⟨items, rfl, fitsItems_iff.mpr fun p hp => ?_⟩
    obtain ⟨y, hy, hyp⟩ := fitsItems_iff.mp hmiddle p hp
    obtain ⟨x, hx, hxy⟩ := fitsItems_iff.mp hitems y hy
    exact ⟨x, hx, ih p hp (ha.item hx) (hb.item hy) (hc.item hp) (hnull p hp) hxy hyp⟩
  | _ => rwa [(fits_scalar_iff hb hc nofun nofun).mp hbc] at hab

theorem mem_positions {items : List Value} {pattern : Value} {i : Nat} :
    i ∈ positions items pattern ↔ ∃ hi : i < items.length, items[i].fits pattern = true := by
  rw [positions, List.mem_filter, List.mem_range]
  constructor
  · rintro ⟨hi, hfits⟩
    rw [List.getElem?_eq_getElem hi] at hfits
    exact ⟨hi, hfits⟩
  · rintro ⟨hi, hfits⟩
    rw [List.getElem?_eq_getElem hi]
    exact ⟨hi, hfits⟩

/-- Fitting is reflexive and transitive. So each element of a list selects itself, and what a pattern
selects is selected by all patterns that it fits. -/
theorem fits_preorder :
    (∀ v : Value, v.WellFormed → v.Ordinary → v.fits v = true) ∧
      (∀ a b c : Value, a.Ordinary → b.Ordinary → c.Ordinary → c.Everywhere HoldsNoNull →
        a.fits b = true → b.fits c = true → a.fits c = true) ∧
      ∀ items : List Value, (∀ x ∈ items, x.WellFormed ∧ x.Ordinary) →
        (∀ i (hi : i < items.length), i ∈ positions items items[i]) ∧
          ∀ b c : Value, b.Ordinary → c.Ordinary → c.Everywhere HoldsNoNull → b.fits c = true →
            positions items b ⊆ positions items c := by
  refine ⟨fun v => fits_self, fun a b c => fits_trans, fun items hitems => ⟨fun i hi => ?_, ?_⟩⟩
  · obtain ⟨hw, h⟩ := hitems _ (List.getElem_mem hi)
    exact mem_positions.mpr ⟨hi, fits_self hw h⟩
  · intro b c hb hc hnull hbc i h
    obtain ⟨hi, hib⟩ := mem_positions.mp h
    have hordinary := (hitems _ (List.getElem_mem hi)).2
    exact mem_positions.mpr ⟨hi, fits_trans hordinary hb hc hnull hib hbc⟩

theorem fits_preorder_of_services :
    let web : Value := .map [("kind", .string "service"), ("none", .null),
      ("tags", .list [.string "a", .map [("x", .int 1), ("y", .int 2)], .null])]
    let api : Value := .map [("kind", .string "service"), ("tags", .list [])]
    let b : Value := .map [("$invert", .bool false), ("absent", .null), ("kind", .string "service"),
      ("tags", .list [.null, .map [("x", .int 1)]])]
    let c : Value := .map [("tags", .list [.map [], .null, .map []])]
    ((∀ v ∈ [web, api], v.WellFormed ∧ v.Ordinary) ∧ b.Ordinary ∧ c.Ordinary ∧
      c.Everywhere HoldsNoNull ∧ web.fits b = true ∧ b.fits c = true) ∧
      web.fits web = true ∧ web.fits c = true ∧ 1 ∈ positions [web, api] api ∧
      positions [web, api] b ⊆ positions [web, api] c := by
  intro web api b c
  have hitems : ∀ v ∈ [web, api], v.WellFormed ∧ v.Ordinary := by decide
  have hb : b.Ordinary := by decide
  have hc : c.Ordinary := by decide
  have hnull : c.Everywhere HoldsNoNull := by decide
  have hwebb : web.fits b = true := by decide
  have hbc : b.fits c = true := by decide
  obtain ⟨hrefl, htrans, hselect⟩ := fits_preorder
  obtain ⟨hw, hweb⟩ := hitems web List.mem_cons_self
  obtain ⟨hself, hsubset⟩ := hselect _ hitems
  exact ⟨⟨hitems, hb, hc, hnull, hwebb, hbc⟩, hrefl web hw hweb,
    htrans web b c hweb hb hc hnull hwebb hbc, hself 1 (by decide), hsubset b c hb hc hnull hbc⟩

end Overlay.Value
