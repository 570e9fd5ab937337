import Mathlib
import Overlay.Proofs.Expansion.Agreement
import Overlay.Proofs.Expansion.Documents

/-!
# References into other documents

A reference into another document copies what stands there unexpanded, and the copy is expanded in
the document that refers to it. So the copy comes to what the original comes to if the references in
it resolve alike from both documents, and need not otherwise: a dotted path in it leads into the
document that refers to it.
-/

namespace Overlay

namespace Expansion

/-- A path leads to a value through maps that make up no reference. -/
inductive Leads (n : Value) : Value → List String → Prop
  | here : Leads n n []
  | child {entries : Entries Value} {segment : String} {v : Value} {rest : List String} :
    Entries.lookup Directive.replace entries = none →
    Entries.lookup Directive.merge entries = none →
    Entries.lookup segment entries = some v → Leads n v rest →
    Leads n (.map entries) (segment :: rest)

theorem Expanded.not_meets {site : Site} {v r : Value} (h : Expanded v) : ¬ Meets site r v := by
  intro hmet
  induction hmet with
  | @here v hr =>
    cases v with
    | string s =>
      rw [reference?, expanded_string.mp h] at hr
      cases hr
    | map entries =>
      obtain ⟨⟨hreplace, hmerge⟩, -⟩ := expanded_map.mp h
      simp only [reference?, hreplace, hmerge] at hr
      cases hr
    | _ => cases hr
  | string hs =>
    rw [expanded_string.mp h] at hs
    cases hs
  | map hs =>
    obtain ⟨⟨hreplace, hmerge⟩, -⟩ := expanded_map.mp h
    rw [substitute?_eq_none hreplace hmerge] at hs
    cases hs
  | entry _ he _ ih => exact ih ((expanded_map.mp h).2 _ he)
  | item hv _ ih => exact ih (expanded_list.mp h _ hv)

def ExpandsFrom (site : Site) (limit : Nat) (v w : Value) : Prop :=
  ∃ budget path, expandWithin site limit budget v path = .ok w

theorem ExpandsFrom.unique {s t : Site} {limit limit' : Nat} {v x y : Value}
    (hx : ExpandsFrom s limit v x) (hy : ExpandsFrom t limit' v y) (h : AgreeOn s t v) : x = y := by
  obtain ⟨m, p, hx⟩ := hx
  obtain ⟨n, q, hy⟩ := hy
  exact expandWithin_consistent m n h p q x y hx hy

variable {site : Site} {next : Value → String → Result Value}

theorem Leads.follow? {n v : Value} {path : List String} (h : Leads n v path) :
    Reference.follow? v path = some n := by
  induction h with
  | here => rfl
  | child _ _ hs _ ih => rw [Reference.follow?, Reference.child?, hs]; exact ih

theorem lookup_of_expandEntries {k : String} (hk : k ≠ Directive.replace) {v : Value}
    {path : String} : ∀ {entries out : Entries Value}, Entries.lookup k entries = some v →
    expandEntries site next entries path = .ok out →
      ∃ q x, expandWith site next v q = .ok x ∧ Entries.lookup k out = some x
  | [], _, h, _ => by cases h
  | (l, u) :: rest, out, h, hout => by
    rw [expandEntries_cons] at hout
    rw [Entries.lookup] at h
    by_cases hl : l = k
    · subst hl
      rw [if_pos rfl] at h
      rw [if_neg hk] at hout
      cases h
      obtain ⟨x, hx, hout⟩ := Result.bind_eq_ok.mp hout
      obtain ⟨others, -, rfl⟩ := Result.map_eq_ok.mp hout
      exact ⟨_, x, hx, by simp [Entries.lookup]⟩
    · rw [if_neg hl] at h
      split at hout
      · exact lookup_of_expandEntries hk h hout
      · obtain ⟨w, -, hout⟩ := Result.bind_eq_ok.mp hout
        obtain ⟨others, hothers, rfl⟩ := Result.map_eq_ok.mp hout
        obtain ⟨q, x, hx, hlookup⟩ := lookup_of_expandEntries hk h hothers
        exact ⟨q, x, hx, by rw [Entries.lookup, if_neg hl, hlookup]⟩

theorem Leads.expandWith {n v : Value} {segments : List String} (h : Leads n v segments)
    {path : String} {w : Value} (hw : expandWith site next v path = .ok w) :
    ∃ q y, Expansion.expandWith site next n q = .ok y ∧ Reference.follow? w segments = some y := by
  induction h generalizing path w with
  | here => exact ⟨path, w, hw, rfl⟩
  | @child entries segment v rest hr hm hs _ ih =>
    simp only [Expansion.expandWith, substitute?_eq_none hr hm] at hw
    obtain ⟨out, hout, rfl⟩ := Result.map_eq_ok.mp hw
    have hk : segment ≠ Directive.replace := by
      rintro rfl
      rw [hr] at hs
      cases hs
    obtain ⟨q, x, hx, hlookup⟩ := lookup_of_expandEntries hk hs hout
    obtain ⟨q', y, hy, hfollow⟩ := ih hx
    exact ⟨q', y, hy, by rw [Reference.follow?, Reference.child?, hlookup]; exact hfollow⟩

theorem resolveAt_replace (site : Site) (r : Value) (path : String) :
    ∃ e, Reference.resolveAt site (.map [(Directive.replace, r)]) path = .error e :=
  ⟨_, rfl⟩

theorem entries_of_expandWith {entries : Entries Value} {k : String} {r : Value}
    (hm : Entries.lookup Directive.merge entries = none)
    (hk : Entries.lookup k entries = some (.map [(Directive.replace, r)])) {path : String}
    {w : Value} (hw : Expansion.expandWith site next (.map entries) path = .ok w) :
    k ≠ Directive.replace ∧ ∃ out, expandEntries site next entries path = .ok out ∧ w = .map out := by
  simp only [Expansion.expandWith] at hw
  cases hs : substitute? site entries path with
  | none =>
    rw [hs] at hw
    obtain ⟨out, hout, rfl⟩ := Result.map_eq_ok.mp hw
    refine ⟨?_, out, hout, rfl⟩
    rintro rfl
    obtain ⟨b, hb⟩ := (substitute?_eq_none_iff.mp hs).2 _ hk
    cases hb
  | some replaced =>
    rw [hs] at hw
    obtain ⟨target, rfl, -⟩ := Result.bind_eq_ok.mp hw
    exfalso
    cases hr : Entries.lookup Directive.replace entries with
    | none => cases hs.symm.trans (substitute?_eq_none hr hm path)
    | some x =>
      -- A reference under the key of wholesale replacement stands alone.
      have hothers : (Entries.erase Directive.replace entries).isEmpty = true →
          Reference.resolveAt site x path = .ok target → False := by
        intro hempty hresolve
        by_cases hkr : k = Directive.replace
        · subst hkr
          cases hr.symm.trans hk
          obtain ⟨e, he⟩ := resolveAt_replace site r path
          rw [he] at hresolve
          cases hresolve
        · have := Entries.lookup_erase_ne hkr entries
          rw [List.isEmpty_iff.mp hempty, hk] at this
          cases this
      cases x with
      | bool b => simp only [substitute?, hr, hm] at hs; cases hs
      | _ =>
        simp only [substitute?, hr, Option.some.injEq] at hs
        split at hs
        · exact hothers ‹_› hs
        · cases hs

theorem substitute?_into {pattern : Entries Value} {t : Nat}
    (hselect : Reference.select site (.map pattern) = .ok t) {path : String} {n : Value}
    (hn : Reference.follow? (site.assembly.corpus.data t) (Reference.splitPath path) = some n)
    (p : String) :
    substitute? site [(Directive.replace, .list [.map pattern, .string path])] p =
      some (.ok n) := by
  have hresolve : Reference.resolve site (.list [.map pattern, .string path]) = .ok n := by
    simp only [Reference.resolve, Reference.resolveList, hselect]
    show Reference.walk site.assembly.corpus t (Reference.splitPath path ++ []) _ = _
    rw [List.append_nil, Reference.walk, hn]
  show some (Reference.resolveAt site (.list [.map pattern, .string path]) p) = _
  rw [Reference.resolveAt, hresolve]
  rfl

end Expansion

namespace Evaluation

open Expansion (AgreeOn Expanded ExpandsFrom Leads)

/-- A document holds, under a key of its root map, a reference to what a path leads to in a document
of the outcome. Once all references are expanded the key holds what the target expands to from where
it is referred to, and the path leads to what it expands to from where it stands. These are one value
if all references met on the way resolve alike from both documents. -/
theorem reference_into_document {e : Evaluation} {a b : Assembly} (h : e.expandAll a = .ok b)
    {d t : Nat} (hd : d ∈ a.result) (ht : t ∈ a.result) {entries : Entries Value}
    (hroot : a.corpus.data d = .map entries)
    (hmerge : Entries.lookup Directive.merge entries = none) {k path : String}
    {pattern : Entries Value}
    (hk : Entries.lookup k entries =
      some (.map [(Directive.replace, .list [.map pattern, .string path])]))
    (hselect : Reference.select ⟨a, d⟩ (.map pattern) = .ok t) {n : Value}
    (hpath : Leads n (a.corpus.data t) (Reference.splitPath path)) :
    ∃ x y, Value.entry? k (b.corpus.data d) = some x ∧
      Reference.follow? (b.corpus.data t) (Reference.splitPath path) = some y ∧
      ExpandsFrom ⟨a, d⟩ e.limit n x ∧ ExpandsFrom ⟨a, t⟩ e.limit n y ∧
      (AgreeOn ⟨a, t⟩ ⟨a, d⟩ n → x = y) := by
  have hd := expandsTo_of_expandAll h hd
  have ht := expandsTo_of_expandAll h ht
  rw [ExpandsTo, hroot] at hd
  obtain ⟨hkr, out, hout, hdata⟩ := Expansion.entries_of_expandWith hmerge hk hd
  obtain ⟨p, x, hx, hlookup⟩ := Expansion.lookup_of_expandEntries hkr hk hout
  obtain ⟨q, y, hy, hfollow⟩ := hpath.expandWith ht
  have htarget := Expansion.substitute?_into hselect hpath.follow? p
  -- The reference is the first substitution on the way, so the whole limit is left for the target.
  have hxn : Expansion.expandWithin ⟨a, d⟩ e.limit e.limit n p = .ok x := by
    simpa only [Expansion.expandWith, htarget, Result.ok_bind] using hx
  have hx : ExpandsFrom ⟨a, d⟩ e.limit n x := ⟨_, p, hxn⟩
  have hy : ExpandsFrom ⟨a, t⟩ e.limit n y := ⟨e.limit + 1, q, hy⟩
  refine ⟨x, y, ?_, hfollow, hx, hy, fun hagree => (hy.unique hx hagree).symm⟩
  rw [hdata]
  exact hlookup

/-- Neither a pattern for what is deleted from a list nor what it deletes is met: the references in
them lead to different values in the two documents, and what is referred to comes to one value. -/
theorem reference_into_patch :
    let target : Value := .map [("$merge", .list [.map [("name", .string "s")], .string "m"]),
      ("l", .list [.map [("$delete", .string "$merge:a")]])]
    let a : Assembly :=
      ⟨⟨[⟨"s", .map [("a", .int 0), ("m", .map [("l", .list [.string "$merge:a", .int 5])]),
          ("name", .string "s")], []⟩,
        ⟨"e", .map [("a", .int 1), ("n", target), ("name", .string "e")], []⟩,
        ⟨"d", .map [("a", .int 2), ("k", .map [("$replace",
            .list [.map [("name", .string "e")], .string "n"])]), ("name", .string "d")], []⟩]⟩,
        [0, 1, 2]⟩
    ∃ b, expandAll {} a = .ok b ∧ AgreeOn ⟨a, 1⟩ ⟨a, 2⟩ target ∧
      ∃ x, Value.entry? "k" (b.corpus.data 2) = some x ∧
        Reference.follow? (b.corpus.data 1) (Reference.splitPath "n") = some x ∧
        ExpandsFrom ⟨a, 2⟩ 1000 target x ∧ ExpandsFrom ⟨a, 1⟩ 1000 target x := by
  intro target a
  let patched : Value := .map [("l", .list [.int 5])]
  let b : Assembly :=
    ⟨⟨[⟨"s", .map [("a", .int 0), ("m", .map [("l", .list [.int 0, .int 5])]),
        ("name", .string "s")], []⟩,
      ⟨"e", .map [("a", .int 1), ("n", patched), ("name", .string "e")], []⟩,
      ⟨"d", .map [("a", .int 2), ("k", patched), ("name", .string "d")], []⟩]⟩, [0, 1, 2]⟩
  have hb : expandAll {} a = .ok b := by cbv
  have hselect : Reference.select ⟨a, 2⟩ (.map [("name", .string "e")]) = .ok 1 := by cbv
  have hpatched : Expanded patched := by
    have hfive : Expanded (.int 5) := (Value.everywhere_leaf rfl).mpr trivial
    refine Expansion.expanded_map.mpr ⟨⟨rfl, rfl⟩, ?_⟩
    simp [Expansion.expanded_list, hfive]
  have hagree : AgreeOn ⟨a, 1⟩ ⟨a, 2⟩ target :=
    .of_map rfl (by cbv) (fun path => by cbv) fun r hr => absurd hr hpatched.not_meets
  have hpath : Leads target (a.corpus.data 1) (Reference.splitPath "n") := .child rfl rfl rfl .here
  obtain ⟨x, y, hx, hy, hd, he, heq⟩ := reference_into_document hb (d := 2) (t := 1) (k := "k")
    (by decide) (by decide) rfl rfl rfl hselect hpath
  obtain rfl := heq hagree
  exact ⟨b, hb, hagree, x, hx, hy, hd, he⟩
/-- The value that a key comes to need not be the one that its reference leads to: a dotted path in
what is referred to may lead to different values in the two documents. -/
theorem reference_into_document_differs :
    ¬ ∀ (e : Evaluation) (a b : Assembly), e.expandAll a = .ok b → ∀ d ∈ a.result, ∀ t ∈ a.result,
      ∀ entries k path pattern n, a.corpus.data d = .map entries →
        Entries.lookup k entries =
          some (.map [(Directive.replace, .list [.map pattern, .string path])]) →
        Reference.select ⟨a, d⟩ (.map pattern) = .ok t →
        Leads n (a.corpus.data t) (Reference.splitPath path) →
        Value.entry? k (b.corpus.data d) =
          Reference.follow? (b.corpus.data t) (Reference.splitPath path) := by
  intro h
  let a : Assembly :=
    ⟨⟨[⟨"e", .map [("a", .int 1), ("n", .map [("x", .string "$merge:a")]),
          ("name", .string "e")], []⟩,
        ⟨"d", .map [("a", .int 2), ("k", .map [("$replace",
            .list [.map [("name", .string "e")], .string "n"])]), ("name", .string "d")], []⟩]⟩,
      [0, 1]⟩
  let b : Assembly :=
    ⟨⟨[⟨"e", .map [("a", .int 1), ("n", .map [("x", .int 1)]), ("name", .string "e")], []⟩,
        ⟨"d", .map [("a", .int 2), ("k", .map [("x", .int 2)]), ("name", .string "d")], []⟩]⟩,
      [0, 1]⟩
  have hb : expandAll {} a = .ok b := by cbv
  have hselect : Reference.select ⟨a, 1⟩ (.map [("name", .string "e")]) = .ok 0 := by cbv
  have := h {} a b hb 1 (by decide) 0 (by decide) _ "k" "n" _ _ rfl rfl hselect
    (.child rfl rfl rfl .here)
  revert this
  decide

/-- Nor need it be so for references that resolve alike if the map of the key is merged onto the
target of a reference itself: the pattern is then a part of a patch, and loses its flags. -/
theorem merged_reference_differs :
    ¬ ∀ (e : Evaluation) (a b : Assembly), e.expandAll a = .ok b → ∀ d ∈ a.result, ∀ t ∈ a.result,
      ∀ entries k path pattern n, a.corpus.data d = .map entries →
        Entries.lookup k entries =
          some (.map [(Directive.replace, .list [.map pattern, .string path])]) →
        Reference.select ⟨a, d⟩ (.map pattern) = .ok t →
        Leads n (a.corpus.data t) (Reference.splitPath path) → AgreeOn ⟨a, t⟩ ⟨a, d⟩ n →
        Value.entry? k (b.corpus.data d) =
          Reference.follow? (b.corpus.data t) (Reference.splitPath path) := by
  intro h
  let pattern : Entries Value :=
    [("cfg", .map [("$replace", .bool false), ("y", .int 1)]), ("name", .string "e")]
  let reference : Value := .map [("$replace", .list [.map pattern, .string "x"])]
  let a : Assembly :=
    ⟨⟨[⟨"f", .map [("cfg", .map [("y", .int 1)]), ("name", .string "e"), ("x", .int 2)], []⟩,
        ⟨"e", .map [("cfg", .map [("$replace", .bool false), ("y", .int 1)]),
          ("name", .string "e"), ("x", .int 1)], []⟩,
        ⟨"d", .map [("$merge", .string "base"), ("base", .map []), ("k", reference)], [0]⟩]⟩,
      [0, 1, 2]⟩
  let b : Assembly :=
    ⟨⟨[⟨"f", .map [("cfg", .map [("y", .int 1)]), ("name", .string "e"), ("x", .int 2)], []⟩,
        ⟨"e", .map [("cfg", .map [("y", .int 1)]), ("name", .string "e"), ("x", .int 1)], []⟩,
        ⟨"d", .map [("base", .map []), ("k", .int 2)], [0]⟩]⟩,
      [0, 1, 2]⟩
  have hb : expandAll {} a = .ok b := by cbv
  have hselect : Reference.select ⟨a, 2⟩ (.map pattern) = .ok 1 := by cbv
  have hagree : AgreeOn ⟨a, 1⟩ ⟨a, 2⟩ (.int 1) := by
    intro r hr
    cases hr with
    | here h => cases h
  have := h {} a b hb 2 (by decide) 1 (by decide) _ "k" "x" _ _ rfl rfl hselect
    (.child rfl rfl rfl .here) hagree
  revert this
  decide

end Evaluation

end Overlay
