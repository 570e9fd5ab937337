import Overlay.Proofs.Expansion.Congruence

/-!
# What an expansion gives

What holds of a value that gives place to nothing, and of containers by what they hold, holds of all that
an expansion gives.
-/

namespace Overlay.Expansion

variable {site : Site} {next : Value → String → Result Value} {Met Made : Value → Prop}

/-- If `Met` holds of a value, so it does of all values that are met in its expansion, and `Made` holds
of those that are made there. -/
structure Yields (site : Site) (Met Made : Value → Prop) : Prop where
  entry : ∀ {entries : Entries Value} {e : String × Value}, Met (.map entries) → e ∈ entries →
    e.1 ≠ Directive.replace → Met e.2
  item : ∀ {items : List Value} {v : Value}, Met (.list items) → v ∈ items → Met v
  target : ∀ {v target : Value} {path : String}, Met v →
    replacement? site v path = some (.ok target) → Met target
  scalar : ∀ {v : Value}, (∀ entries, v ≠ .map entries) → (∀ items, v ≠ .list items) → Met v →
    (∀ path, replacement? site v path = none) → Made v
  map : ∀ {entries out : Entries Value} {path : String}, Met (.map entries) →
    substitute? site entries path = none →
      (∀ e ∈ out, e.1 ≠ Directive.replace ∧ (∃ v, (e.1, v) ∈ entries) ∧ Made e.2) → Made (.map out)
  list : ∀ {out : List Value}, (∀ w ∈ out, Made w) → Made (.list out)

namespace Yields

variable (h : Yields site Met Made)

section
variable (hnext : ∀ {u : Value} {path : String} {w : Value}, Met u → next u path = .ok w → Made w)
include hnext

theorem of_expandAll {path : String} : ∀ {position : Nat} {values out : List Value},
    (∀ v ∈ values, Met v) → expandAll next path position values = .ok out → ∀ w ∈ out, Made w
  | _, [], _, _, hout => by
    rw [expandAll] at hout
    cases hout
    exact List.forall_mem_nil _
  | _, v :: rest, out, hvalues, hout => by
    obtain ⟨hv, hrest⟩ := List.forall_mem_cons.mp hvalues
    rw [expandAll_cons] at hout
    obtain ⟨w, hw, hout⟩ := Result.bind_eq_ok.mp hout
    obtain ⟨others, hothers, rfl⟩ := Result.map_eq_ok.mp hout
    exact List.forall_mem_cons.mpr ⟨hnext hv hw, of_expandAll hrest hothers⟩

include h

theorem of_expandItem {position : Nat} {v : Value} {path : String} {out : List Value} (hmet : Met v)
    (hv : ∀ path w, expandWith site next v path = .ok w → Made w)
    (hout : expandItem site next position v path = .ok out) : ∀ w ∈ out, Made w := by
  unfold expandItem at hout
  cases hr : v.soleArgument? Directive.merge with
  | none =>
    rw [hr] at hout
    obtain ⟨w, hw, rfl⟩ := Result.map_eq_ok.mp hout
    exact List.forall_mem_singleton.mpr (hv _ w hw)
  | some reference =>
    rw [hr] at hout
    obtain rfl := Value.soleArgument?_eq_some.mp hr
    obtain ⟨target, htarget, hout⟩ := Result.bind_eq_ok.mp hout
    have hmet := h.target hmet ((substitute?_sole reference _).trans (congrArg some htarget))
    unfold spliced at hout
    split at hout
    · exact of_expandAll hnext (fun v hv => h.item hmet hv) hout
    · obtain ⟨w, hw, rfl⟩ := Result.map_eq_ok.mp hout
      exact List.forall_mem_singleton.mpr (hnext hmet hw)

end

theorem of_expandEntries {path : String} : ∀ {entries out : Entries Value},
    (∀ e ∈ entries, e.1 ≠ Directive.replace → ∀ path w, expandWith site next e.2 path = .ok w → Made w) →
      expandEntries site next entries path = .ok out →
        ∀ e ∈ out, e.1 ≠ Directive.replace ∧ (∃ v, (e.1, v) ∈ entries) ∧ Made e.2
  | [], _, _, hout => by
    rw [expandEntries] at hout
    cases hout
    exact List.forall_mem_nil _
  | (k, v) :: rest, out, hentries, hout => by
    obtain ⟨hv, hrest⟩ := List.forall_mem_cons.mp hentries
    have hmore {others : Entries Value} (hothers : expandEntries site next rest path = .ok others) :
        ∀ e ∈ others, e.1 ≠ Directive.replace ∧ (∃ u, (e.1, u) ∈ (k, v) :: rest) ∧ Made e.2 := by
      intro e he
      obtain ⟨hk, ⟨u, hu⟩, hw⟩ := of_expandEntries hrest hothers e he
      exact ⟨hk, ⟨u, List.mem_cons_of_mem _ hu⟩, hw⟩
    rw [expandEntries_cons] at hout
    split at hout
    · exact hmore hout
    · rename_i hk
      obtain ⟨w, hw, hout⟩ := Result.bind_eq_ok.mp hout
      obtain ⟨others, hothers, rfl⟩ := Result.map_eq_ok.mp hout
      exact List.forall_mem_cons.mpr ⟨⟨hk, ⟨v, List.mem_cons_self⟩, hv hk _ w hw⟩, hmore hothers⟩

theorem of_expandItems {path : String} : ∀ {position : Nat} {items out : List Value},
    (∀ v ∈ items, ∀ position out, expandItem site next position v path = .ok out → ∀ w ∈ out, Made w) →
      expandItems site next position items path = .ok out → ∀ w ∈ out, Made w
  | _, [], _, _, hout => by
    rw [expandItems] at hout
    cases hout
    exact List.forall_mem_nil _
  | position, v :: rest, out, hitems, hout => by
    obtain ⟨hv, hrest⟩ := List.forall_mem_cons.mp hitems
    rw [expandItems_cons] at hout
    obtain ⟨first, hfirst, hout⟩ := Result.bind_eq_ok.mp hout
    obtain ⟨others, hothers, rfl⟩ := Result.map_eq_ok.mp hout
    exact List.forall_mem_append.mpr ⟨hv position first hfirst, of_expandItems hrest hothers⟩

include h

theorem of_expandWith
    (hnext : ∀ {u : Value} {path : String} {w : Value}, Met u → next u path = .ok w → Made w)
    {v w : Value} {path : String} (hmet : Met v) (hw : expandWith site next v path = .ok w) :
    Made w := by
  induction v using Value.induction generalizing path w with
  | string s =>
    simp only [expandWith] at hw
    cases hs : stringReference? s with
    | none =>
      rw [hs] at hw
      cases hw
      exact h.scalar (by simp) (by simp) hmet fun path => by rw [replacement?, hs]; rfl
    | some reference =>
      rw [hs] at hw
      obtain ⟨target, htarget, hw⟩ := Result.bind_eq_ok.mp hw
      have hreplaced : replacement? site (.string s) path = some (.ok target) := by
        rw [replacement?, hs, Option.map_some, htarget]
      exact hnext (h.target hmet hreplaced) hw
  | map entries ih =>
    simp only [expandWith] at hw
    cases hs : substitute? site entries path with
    | none =>
      rw [hs] at hw
      obtain ⟨out, hout, rfl⟩ := Result.map_eq_ok.mp hw
      refine h.map hmet hs (of_expandEntries (fun e he hk path w hw => ?_) hout)
      exact ih e he (h.entry hmet he hk) hw
    | some replaced =>
      rw [hs] at hw
      obtain ⟨target, rfl, hw⟩ := Result.bind_eq_ok.mp hw
      exact hnext (h.target hmet hs) hw
  | list items ih =>
    simp only [expandWith] at hw
    obtain ⟨out, hout, rfl⟩ := Result.map_eq_ok.mp hw
    refine h.list (of_expandItems (fun v hv position out hout => ?_) hout)
    exact h.of_expandItem hnext (h.item hmet hv) (fun path w hw => ih v hv (h.item hmet hv) hw) hout
  | _ =>
    simp only [expandWith] at hw
    cases hw
    exact h.scalar (by simp) (by simp) hmet fun path => rfl

theorem of_expandWithin {limit : Nat} : ∀ (budget : Nat) {v w : Value} {path : String}, Met v →
    expandWithin site limit budget v path = .ok w → Made w
  | 0, _, _, _, _, hw => by cases hw
  | budget + 1, _, _, _, hmet, hw => h.of_expandWith (of_expandWithin budget) hmet hw

theorem of_expand {limit : Nat} {v w : Value} {path : String} (hmet : Met v)
    (hw : expand site limit v path = .ok w) : Made w :=
  h.of_expandWithin (limit + 1) hmet hw

end Yields

end Overlay.Expansion
