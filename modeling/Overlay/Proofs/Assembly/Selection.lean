import Overlay.Proofs.Assembly.Targets

/-!
# What a patch selects, and what becomes of it

`Selected a patch id` says which documents of the outcome a patch selects: those that one of its
patterns hits, or those that it inherits from if it has no selector. The targets of a patch are these
(`mem_targets_iff`). So a patch that selects nothing joins the outcome, and any other changes the
documents that it selects, each once, and nothing else (`add_changes_selected`).
-/

namespace Overlay.Assembly

/-! ## What is selected -/

/-- A pattern of a patch hits documents that fit it: those that the patch inherits from, or all of
them if it inherits from none. -/
def Hits (a : Assembly) (patch : Nat) (pattern : Value) (id : Nat) : Prop :=
  id ∈ a.result ∧ (a.corpus.data id).fits pattern ∧
    (a.corpus.Inherits patch id ∨
      ∀ near ∈ a.result, (a.corpus.data near).fits pattern → ¬ a.corpus.Inherits patch near)

/-- The documents of the outcome that a patch selects. A null pattern selects nothing. -/
inductive Selected (a : Assembly) (patch id : Nat) : Prop
  | any {patterns : List Value} {pattern : Value} :
    Value.entry? Directive.matchAny (a.corpus.data patch) = some (.list patterns) → pattern ∈ patterns →
      a.Hits patch pattern id → Selected a patch id
  | one {pattern : Value} : Value.entry? Directive.matchOne (a.corpus.data patch) = some pattern →
    pattern ≠ .null → a.Hits patch pattern id → Selected a patch id
  | lineage : Unselecting (a.corpus.data patch) → id ∈ a.result → a.corpus.Inherits patch id →
    Selected a patch id

/-- The documents that a selector stands for in a patch. -/
def Selects (a : Assembly) (patch id : Nat) : Selector → Prop
  | .none => False
  | .patterns patterns => ∃ pattern ∈ patterns, a.Hits patch pattern id
  | .lineage => id ∈ a.result ∧ a.corpus.Inherits patch id

/-- What a patch says apart from where it applies. -/
def withoutSelector : Value → Value
  | .map entries =>
    .map (Entries.without [Directive.parent, Directive.matchOne, Directive.matchAny] entries)
  | v => v

theorem selection_cases {v data : Value} {selector : Selector}
    (h : selection v = .ok (data, selector)) : data = withoutSelector v ∧
      ((∃ patterns, v.entry? Directive.matchAny = some (.list patterns) ∧
          v.entry? Directive.matchOne = none ∧ selector = .patterns patterns) ∨
        (v.entry? Directive.matchAny = none ∧ v.entry? Directive.matchOne = some .null ∧
          selector = .none) ∨
        (∃ pattern, pattern ≠ .null ∧ v.entry? Directive.matchAny = none ∧
          v.entry? Directive.matchOne = some pattern ∧ selector = .patterns [pattern]) ∨
        Unselecting v ∧ selector = .lineage) := by
  cases v with
  | map entries =>
    simp only [selection] at h
    simp only [Value.entry?, Unselecting]
    split at h <;> cases h <;> refine ⟨rfl, ?_⟩
    · rename_i hany hone
      exact .inl ⟨_, hany, hone, rfl⟩
    · rename_i hany hone
      exact .inr (.inl ⟨hany, hone, rfl⟩)
    · rename_i hnull hany hone
      exact .inr (.inr (.inl ⟨_, fun h => hnull h, hany, hone, rfl⟩))
    · rename_i hany hone
      exact .inr (.inr (.inr ⟨⟨hone, hany⟩, rfl⟩))
  | _ =>
    cases h
    exact ⟨rfl, .inr (.inr (.inr ⟨⟨rfl, rfl⟩, rfl⟩))⟩

theorem selected_iff {a : Assembly} {patch id : Nat} : a.Selected patch id ↔
    (∃ patterns, Value.entry? Directive.matchAny (a.corpus.data patch) = some (.list patterns) ∧
        a.Selects patch id (.patterns patterns)) ∨
      (∃ pattern, Value.entry? Directive.matchOne (a.corpus.data patch) = some pattern ∧
        pattern ≠ .null ∧ a.Hits patch pattern id) ∨
      Unselecting (a.corpus.data patch) ∧ a.Selects patch id .lineage := by
  constructor
  · rintro (⟨hany, hpattern, hhits⟩ | ⟨hone, hnull, hhits⟩ | ⟨hun, hmem, hinherits⟩)
    · exact .inl ⟨_, hany, _, hpattern, hhits⟩
    · exact .inr (.inl ⟨_, hone, hnull, hhits⟩)
    · exact .inr (.inr ⟨hun, hmem, hinherits⟩)
  · rintro (⟨patterns, hany, pattern, hpattern, hhits⟩ | ⟨pattern, hone, hnull, hhits⟩ |
      ⟨hun, hmem, hinherits⟩)
    · exact .any hany hpattern hhits
    · exact .one hone hnull hhits
    · exact .lineage hun hmem hinherits

/-- A patch selects what the selector read from it stands for. -/
theorem selects_iff {a : Assembly} {patch id : Nat} {data : Value} {selector : Selector}
    (h : selection (a.corpus.data patch) = .ok (data, selector)) :
    a.Selects patch id selector ↔ a.Selected patch id := by
  rw [selected_iff]
  obtain ⟨-, ⟨patterns, hany, hone, rfl⟩ | ⟨hany, hone, rfl⟩ |
    ⟨pattern, hnull, hany, hone, rfl⟩ | ⟨hun, rfl⟩⟩ := selection_cases h
  · simp [Unselecting, hany, hone]
  · simp [Unselecting, hany, hone, Selects]
  · simp [Unselecting, hany, hone, hnull, Selects]
  · simp [hun, hun.1, hun.2]

/-! ## The targets are what is selected -/

section
variable {a : Assembly} {patch id : Nat}

theorem mem_fitting {pattern : Value} :
    id ∈ a.fitting pattern ↔ id ∈ a.result ∧ (a.corpus.data id).fits pattern :=
  List.mem_filter

/-- The step of the search for targets: what one pattern adds to those found. -/
def gather (a : Assembly) (patch : Nat) (found : List Nat) (pattern : Value) : Result (List Nat) :=
  match a.search patch pattern with
  | [] => .error (.of (.patternUnmatched pattern))
  | hits => .ok (gathered found hits)

theorem targets_patterns (patterns : List Value) :
    a.targets patch (.patterns patterns) = patterns.foldlM (a.gather patch) [] := rfl

theorem gather_eq_ok {found next : List Nat} {pattern : Value}
    (h : a.gather patch found pattern = .ok next) :
    next = gathered found (a.search patch pattern) := by
  unfold gather at h
  split at h <;> cases h
  rfl

theorem mem_foldlM_gather : ∀ {patterns : List Value} {found targets : List Nat},
    patterns.foldlM (a.gather patch) found = .ok targets →
      (id ∈ targets ↔ id ∈ found ∨ ∃ pattern ∈ patterns, id ∈ a.search patch pattern)
  | [], found, targets, h => by
    cases h
    simp
  | pattern :: patterns, found, targets, h => by
    rw [List.foldlM_cons] at h
    obtain ⟨next, hnext, h⟩ := Result.bind_eq_ok.mp h
    rw [mem_foldlM_gather h, gather_eq_ok hnext, mem_gathered, List.exists_mem_cons_iff, or_assoc]

variable (hfresh : patch ∉ a.result)
include hfresh

/-- The data of a patch that is no part of the outcome is not searched. -/
theorem search_emptied (pattern : Value) :
    search ⟨a.corpus.setData patch .null, a.result⟩ patch pattern = a.search patch pattern := by
  have hfitting : fitting ⟨a.corpus.setData patch .null, a.result⟩ pattern = a.fitting pattern := by
    refine List.filter_congr fun other hother => ?_
    have hne : other ≠ patch := fun h => hfresh (h ▸ hother)
    rw [Corpus.data_setData_ne hne]
  rw [search, search, hfitting, Corpus.ancestors_setData]

variable (hlt : ∀ id ∈ a.result, id < a.corpus.size)
include hlt

theorem mem_search_iff {pattern : Value} :
    id ∈ a.search patch pattern ↔ a.Hits patch pattern id := by
  have hnear : ∀ other, other ∈ (a.fitting pattern).filter (a.corpus.ancestors patch).contains ↔
      other ∈ a.fitting pattern ∧ a.corpus.Inherits patch other := by
    intro other
    rw [List.mem_filter, List.contains_iff_mem]
    refine and_congr_right fun hother => ?_
    have hmem : other ∈ a.result := (mem_fitting.mp hother).1
    have hne : other ≠ patch := fun h => hfresh (h ▸ hmem)
    exact ⟨fun h => (Corpus.inherits_of_mem_ancestors h).1,
      fun h => Corpus.mem_ancestors_of_inherits h (hlt other hmem) hne⟩
  rw [search, preferring, Hits, ← and_assoc, ← mem_fitting]
  by_cases hempty : (a.fitting pattern).filter (a.corpus.ancestors patch).contains = []
  · have hfar : ∀ near ∈ a.result, (a.corpus.data near).fits pattern →
        ¬ a.corpus.Inherits patch near := by
      intro near hmem hfits hinherits
      have hpreferred := (hnear near).mpr ⟨mem_fitting.mpr ⟨hmem, hfits⟩, hinherits⟩
      rw [hempty] at hpreferred
      cases hpreferred
    rw [hempty, List.isEmpty_nil, if_pos rfl]
    exact ⟨fun h => ⟨h, .inr hfar⟩, And.left⟩
  · obtain ⟨near, hpreferred⟩ := List.exists_mem_of_ne_nil _ hempty
    obtain ⟨hmem, hinherits⟩ := (hnear near).mp hpreferred
    obtain ⟨hmem, hfits⟩ := mem_fitting.mp hmem
    rw [if_neg (by simpa using hempty), hnear]
    exact and_congr_right fun _ =>
      ⟨.inl, fun h => h.resolve_right fun hfar => hfar near hmem hfits hinherits⟩

theorem mem_targets_iff_selects {selector : Selector} {targets : List Nat}
    (htargets : Assembly.targets ⟨a.corpus.setData patch .null, a.result⟩ patch selector =
      .ok targets) : id ∈ targets ↔ a.Selects patch id selector := by
  cases selector with
  | none =>
    cases htargets
    exact iff_of_false List.not_mem_nil fun h => h
  | patterns patterns =>
    rw [targets_patterns] at htargets
    rw [mem_foldlM_gather htargets, or_iff_right List.not_mem_nil]
    simp only [search_emptied hfresh, mem_search_iff hfresh hlt, Selects]
  | lineage =>
    rw [targets_lineage] at htargets
    cases htargets
    rw [mem_heritage hlt]
    exact and_congr_right fun hmem => and_iff_left fun h => hfresh (h ▸ hmem)

theorem mem_targets_iff {data : Value} {selector : Selector} {targets : List Nat}
    (hselection : selection (a.corpus.data patch) = .ok (data, selector))
    (htargets : Assembly.targets ⟨a.corpus.setData patch .null, a.result⟩ patch selector =
      .ok targets) : id ∈ targets ↔ a.Selected patch id :=
  (mem_targets_iff_selects hfresh hlt htargets).trans (selects_iff hselection)

end

/-! ## What changes -/

theorem label_of_foldlM {patch : Nat} {data : Value} {targets : List Nat} {c d : Corpus} (id : Nat)
    (h : targets.foldlM (mergeInto patch data) c = .ok d) : d.label id = c.label id := by
  induction targets generalizing c with
  | nil => cases h; rfl
  | cons target rest ih =>
    rw [List.foldlM_cons, mergeInto_eq] at h
    obtain ⟨e, he, h⟩ := Result.bind_eq_ok.mp h
    obtain ⟨v, -, rfl⟩ := Result.map_eq_ok.mp he
    rw [ih h, Corpus.label_addParent, Corpus.label_setData]

/-- One assembly comes from another when a patch is merged into the documents that it selects. -/
structure Patched (patch : Nat) (data : Value) (a b : Assembly) : Prop where
  result : b.result = a.result
  size : b.corpus.size = a.corpus.size
  label : ∀ id, b.corpus.label id = a.corpus.label id
  parents : ∀ id n, n ∈ b.corpus.parents id ↔
    n ∈ a.corpus.parents id ∨ a.Selected patch id ∧ n = patch
  bare : b.corpus.data patch = data
  merged : ∀ id, a.Selected patch id → (a.corpus.data id).merge data "" = .ok (b.corpus.data id)
  kept : ∀ id, ¬ a.Selected patch id → id ≠ patch →
    b.corpus.documents[id]? = a.corpus.documents[id]?

variable {a b : Assembly} {patch : Nat}

/-- A patch that selects nothing joins the outcome, and nothing else changes. Any other is merged once
into each document that it selects, which gets it as a parent, and all others stay as they are. -/
theorem add_changes_selected (hresult : a.result.Nodup)
    (hlt : ∀ id ∈ a.result, id < a.corpus.size) (hpatch : patch < a.corpus.size)
    (hfresh : patch ∉ a.result) (h : a.add patch = .ok b) :
    ((∀ id, ¬ a.Selected patch id) → b.result = a.result ++ [patch] ∧
      ∃ v, (withoutSelector (a.corpus.data patch)).normalize "" = .ok v ∧
        b.corpus = a.corpus.setData patch v) ∧
    ((∃ id, a.Selected patch id) → Patched patch (withoutSelector (a.corpus.data patch)) a b) := by
  rw [add_eq_ok] at h
  rcases takeIn_cases hresult hlt hfresh h with
    ⟨data, selector, fresh, hselection, htargets, hnormal, rfl⟩ |
    ⟨data, selector, targets, hselection, htargets, hne, -, habsorbed, hkept⟩
  · obtain rfl := (selection_cases hselection).1
    have hnone : ∀ id, ¬ a.Selected patch id := fun id hid =>
      absurd ((mem_targets_iff hfresh hlt hselection htargets).mpr hid) List.not_mem_nil
    exact ⟨fun _ => ⟨rfl, fresh, hnormal, rfl⟩, fun ⟨id, hid⟩ => absurd hid (hnone id)⟩
  · obtain rfl := (selection_cases hselection).1
    have hselected : ∀ id, id ∈ targets ↔ a.Selected patch id := fun id =>
      mem_targets_iff hfresh hlt hselection htargets
    refine ⟨fun hnone => ?_, fun _ => ?_⟩
    · obtain ⟨id, hid⟩ := List.exists_mem_of_ne_nil targets hne
      exact absurd ((hselected id).mp hid) (hnone id)
    · rw [takeIn_of_ne_nil hselection htargets hne] at h
      obtain ⟨merged, hmerged, rfl⟩ := Result.map_eq_ok.mp h
      have hsize : patch < merged.size := by
        rw [← merged.size_setData patch, habsorbed.size]
        exact hpatch
      constructor
      · rfl
      · exact habsorbed.size
      · intro id
        rw [Corpus.label_setData, label_of_foldlM id hmerged, Corpus.label_setData]
      · intro id n
        rw [← hselected, habsorbed.parents]
      · exact Corpus.data_setData_of_lt hsize _
      · exact fun id hid => habsorbed.merged id ((hselected id).mpr hid)
      · exact fun id hid => hkept id fun h => hid ((hselected id).mp h)

/-- Two patterns hit a document that the patch inherits from, one of them also a document that it does
not inherit from, and a third only such a document. -/
theorem add_changes_selected_of_overlap : ∃ a b : Assembly, a.result = [0, 1, 2] ∧
    a.corpus.size = 4 ∧ a.add 3 = .ok b ∧ a.Selected 3 0 ∧ ¬ a.Selected 3 1 ∧ a.Selected 3 2 ∧
      Patched 3 (.map [("d", .int 1)]) a b := by
  let a : Assembly := ⟨⟨[⟨"0", .map [("a", .int 1), ("b", .int 1)], []⟩,
    ⟨"1", .map [("a", .int 1)], []⟩, ⟨"2", .map [("c", .int 1)], []⟩,
    ⟨"3", .map [("$matches", .list [.map [("a", .int 1)], .map [("b", .int 1)],
      .map [("c", .int 1)]]), ("$parent", .null), ("d", .int 1)], [0]⟩]⟩, [0, 1, 2]⟩
  let b : Assembly := ⟨⟨[⟨"0", .map [("a", .int 1), ("b", .int 1), ("d", .int 1)], [3]⟩,
    ⟨"1", .map [("a", .int 1)], []⟩, ⟨"2", .map [("c", .int 1), ("d", .int 1)], [3]⟩,
    ⟨"3", .map [("d", .int 1)], [0]⟩]⟩, [0, 1, 2]⟩
  have hadd : a.add 3 = .ok b := by cbv
  have hnear : a.Selected 3 0 :=
    .any rfl List.mem_cons_self ⟨by decide, rfl, .inl (.single (by decide))⟩
  have hancestors : a.corpus.ancestors 3 = [0] := by cbv
  have hfar : a.Selected 3 2 := by
    refine .any rfl (List.mem_cons_of_mem _ (List.mem_cons_of_mem _ (List.mem_singleton_self _)))
      ⟨by decide, rfl, .inr fun near hmem hfits hinherits => ?_⟩
    obtain ⟨hlt, hne⟩ : near < 4 ∧ near ≠ 3 :=
      (by decide : ∀ id ∈ [0, 1, 2], id < 4 ∧ id ≠ 3) near hmem
    have hmem := Corpus.mem_ancestors_of_inherits hinherits hlt hne
    rw [hancestors, List.mem_singleton] at hmem
    subst hmem
    revert hfits
    decide
  have hpatched : Patched 3 (.map [("d", .int 1)]) a b :=
    (add_changes_selected (by decide) (by decide) (by decide) (by decide) hadd).2 ⟨0, hnear⟩
  refine ⟨a, b, rfl, rfl, hadd, hnear, fun h => ?_, hfar, hpatched⟩
  have hparent := (hpatched.parents 1 3).mpr (.inr ⟨h, rfl⟩)
  revert hparent
  decide

end Overlay.Assembly
