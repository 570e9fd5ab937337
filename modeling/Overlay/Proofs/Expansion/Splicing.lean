import Mathlib.Data.List.Forall2
import Overlay.Proofs.Expansion.Agreement
import Overlay.Proofs.Expansion.Limit

/-!
# Splicing

A list element that refers to a list gives place to the elements of that list. These are expanded one
by one, each as a value that stands by itself, so an element among them that refers to a list in its
turn comes to one element, which is a list. It is spliced only where it stands in a list that is
expanded as such.
-/

namespace Overlay.Expansion

open List (Forall₂)
open Result (Agree)

/-- The elements that an element of a list gives place to, if it is spliced. -/
def splice? (site : Site) (v : Value) : Option (List Value) :=
  match (v.soleArgument? Directive.merge).map (Reference.resolve site) with
  | some (.ok (.list items)) => some items
  | _ => none

variable {site : Site} {limit m n : Nat} {v w : Value}

/-! ## Expansion within a budget

Neither where a value stands nor the limit that a budget comes from has to do with what the value is
expanded to. -/

theorem alike_agree (site : Site) : Alike .agree site site (fun _ => True) (fun _ _ => True) :=
  alike_anywhere (fun hsame => hsame.agree) site

theorem expandWithin_agree (limit limit' : Nat) : ∀ (n : Nat) (v : Value) (p q : String),
    Agree (expandWithin site limit n v p) (expandWithin site limit' n v q)
  | 0, _, _, _ => .error _ _
  | n + 1, _, _, _ =>
    expandWith_congr (alike_agree site)
      (fun u p q _ _ => expandWithin_agree limit limit' n u p q) trivial trivial

def ExpandsIn (site : Site) (budget : Nat) (v w : Value) : Prop :=
  ∀ limit path, expandWithin site limit budget v path = .ok w

/-- An element of a list is expanded to some elements within a budget. -/
def ItemIn (site : Site) (budget : Nat) (v : Value) (ws : List Value) : Prop :=
  ∀ limit position path,
    expandItem site (expandWithin site limit budget) position v path = .ok ws

theorem expandsIn_iff (limit : Nat) (path : String) :
    ExpandsIn site n v w ↔ expandWithin site limit n v path = .ok w := by
  constructor
  · exact fun h => h limit path
  · intro h limit' path'
    exact ((expandWithin_agree limit limit' n v path path').ok_iff w).mp h

theorem itemIn_iff (limit position : Nat) (path : String) {ws : List Value} :
    ItemIn site n v ws ↔
      expandItem site (expandWithin site limit n) position v path = .ok ws := by
  constructor
  · exact fun h => h limit position path
  · intro h limit' position' path'
    have hnext : ∀ u p q, True → True →
        Agree (expandWithin site limit n u p) (expandWithin site limit' n u q) :=
      fun u p q _ _ => expandWithin_agree limit limit' n u p q
    have hagree : Agree (expandItem site (expandWithin site limit n) position v path)
        (expandItem site (expandWithin site limit' n) position' v path') := by
      apply expandItem_congr (alike_agree site) hnext trivial fun _ => trivial
      intro p q _
      exact expandWith_congr (alike_agree site) hnext trivial trivial
    exact (hagree.ok_iff ws).mp h

theorem not_expandsIn_zero : ¬ ExpandsIn site 0 v w := by
  intro h
  cases h 0 ""

theorem ExpandsIn.mono (h : ExpandsIn site m v w) (hle : m ≤ n) : ExpandsIn site n v w := by
  intro limit path
  rcases expandWithin_sameWithin site limit limit hle v path with hsame | ⟨e, he, _⟩
  · exact hsame.symm.trans (h limit path)
  · cases he.symm.trans (h limit path)

theorem ExpandsIn.unique {w' : Value} (h : ExpandsIn site m v w) (h' : ExpandsIn site n v w') :
    w = w' := by
  have h := h.mono (Nat.le_max_left m n) 0 ""
  cases h.symm.trans (h'.mono (Nat.le_max_right m n) 0 "")
  rfl

theorem expandAll_eq_ok {path : String} : ∀ {values ws : List Value} {position : Nat},
    expandAll (expandWithin site limit n) path position values = .ok ws ↔
      Forall₂ (ExpandsIn site n) values ws
  | [], ws, position => by
    rw [expandAll, Except.ok.injEq, List.forall₂_nil_left_iff]
    exact eq_comm
  | v :: rest, ws, position => by
    rw [expandAll_cons, Result.bind_eq_ok, List.forall₂_cons_left_iff]
    simp only [Result.map_eq_ok, expandAll_eq_ok, ← expandsIn_iff limit]
    constructor
    · rintro ⟨first, hfirst, others, hothers, rfl⟩
      exact ⟨first, others, hfirst, hothers, rfl⟩
    · rintro ⟨first, others, hfirst, hothers, rfl⟩
      exact ⟨first, hfirst, others, hothers, rfl⟩

theorem expandItems_eq_ok {path : String} : ∀ {items ws : List Value} {position : Nat},
    expandItems site (expandWithin site limit n) position items path = .ok ws ↔
      ∃ parts, Forall₂ (ItemIn site n) items parts ∧ ws = parts.flatten
  | [], ws, position => by
    rw [expandItems, Except.ok.injEq]
    simp only [List.forall₂_nil_left_iff, exists_eq_left, List.flatten_nil]
    exact eq_comm
  | v :: rest, ws, position => by
    rw [expandItems_cons, Result.bind_eq_ok]
    simp only [Result.map_eq_ok, expandItems_eq_ok, ← itemIn_iff limit, List.forall₂_cons_left_iff]
    constructor
    · rintro ⟨part, hpart, _, ⟨parts, hparts, rfl⟩, rfl⟩
      exact ⟨_, ⟨part, parts, hpart, hparts, rfl⟩, rfl⟩
    · rintro ⟨_, ⟨part, parts, hpart, hparts, rfl⟩, rfl⟩
      exact ⟨part, hpart, _, ⟨parts, hparts, rfl⟩, rfl⟩

theorem expandsIn_list {items : List Value} : ExpandsIn site (n + 1) (.list items) w ↔
    ∃ parts, Forall₂ (ItemIn site n) items parts ∧ w = .list parts.flatten := by
  rw [expandsIn_iff 0 "", expandWithin, expandWith, Result.map_eq_ok]
  simp only [expandItems_eq_ok]
  constructor
  · rintro ⟨_, ⟨parts, hparts, rfl⟩, rfl⟩
    exact ⟨parts, hparts, rfl⟩
  · rintro ⟨parts, hparts, rfl⟩
    exact ⟨_, ⟨parts, hparts, rfl⟩, rfl⟩

/-! ## Elements by themselves and in a list -/

theorem resolveAt_of_resolve {r target : Value} {path : String}
    (h : Reference.resolve site r = .ok target) : Reference.resolveAt site r path = .ok target := by
  rw [Reference.resolveAt, h]
  rfl

theorem splice?_eq_some {items : List Value} (h : splice? site v = some items) :
    ∃ r, v = .map [(Directive.merge, r)] ∧ Reference.resolve site r = .ok (.list items) := by
  unfold splice? at h
  cases hv : v.soleArgument? Directive.merge with
  | none => rw [hv] at h; cases h
  | some r =>
    refine ⟨r, Value.soleArgument?_eq_some.mp hv, ?_⟩
    rw [hv] at h
    simp only [Option.map_some] at h
    split at h
    · rename_i heq
      cases h
      exact Option.some.inj heq
    · cases h

theorem expandsIn_of_splice? {items : List Value} (h : splice? site v = some items) :
    ExpandsIn site (n + 1) v w ↔ ExpandsIn site n (.list items) w := by
  obtain ⟨r, rfl, hr⟩ := splice?_eq_some h
  rw [expandsIn_iff 0 "", expandsIn_iff 0 "",
    expandWithin, expandWith, substitute?_sole, resolveAt_of_resolve hr]
  rfl

theorem itemIn_of_splice? {items ws : List Value} (h : splice? site v = some items) :
    ItemIn site n v ws ↔ Forall₂ (ExpandsIn site n) items ws := by
  obtain ⟨r, rfl, hr⟩ := splice?_eq_some h
  have hsole : (Value.map [(Directive.merge, r)]).soleArgument? Directive.merge = some r :=
    Value.soleArgument?_eq_some.mpr rfl
  rw [itemIn_iff 0 0 "", expandItem, hsole]
  simp only [resolveAt_of_resolve hr, Result.ok_bind, spliced]
  exact expandAll_eq_ok

/-- An element that is not spliced comes to the same in a list as by itself. -/
theorem itemIn_of_splice?_eq_none {ws : List Value} (h : splice? site v = none) :
    ItemIn site n v ws ↔ ∃ w, ExpandsIn site (n + 1) v w ∧ [w] = ws := by
  rw [itemIn_iff 0 0 "", expandItem]
  simp only [expandsIn_iff 0 (KeyPath.item "" 0), expandWithin]
  cases hv : v.soleArgument? Directive.merge with
  | none => exact Result.map_eq_ok
  | some r =>
    obtain rfl := Value.soleArgument?_eq_some.mp hv
    simp only [expandWith, substitute?_sole]
    cases hr : Reference.resolve site r with
    | error e => simp [Reference.resolveAt, hr, Except.mapError]
    | ok target =>
      simp only [resolveAt_of_resolve hr, Result.ok_bind]
      cases target with
      | list items => simp [splice?, hv, hr] at h
      | _ => exact Result.map_eq_ok

theorem ItemIn.mono {ws : List Value} (h : ItemIn site m v ws) (hle : m ≤ n) :
    ItemIn site n v ws := by
  cases hs : splice? site v with
  | none =>
    obtain ⟨w, hw, rfl⟩ := (itemIn_of_splice?_eq_none hs).mp h
    exact (itemIn_of_splice?_eq_none hs).mpr ⟨w, hw.mono (Nat.succ_le_succ hle), rfl⟩
  | some items =>
    apply (itemIn_of_splice? hs).mpr
    exact ((itemIn_of_splice? hs).mp h).imp fun _ _ h => h.mono hle

/-- If each of some values comes to something within a budget, one budget is enough for all. -/
theorem exists_budget {α β : Type} {Q : Value → α → Prop} {P : Nat → Value → β → Prop}
    (hmono : ∀ {m n : Nat} {v : Value} {b : β}, P m v b → m ≤ n → P n v b)
    (hstep : ∀ {v : Value} {a : α}, Q v a → ∃ n b, P n v b) {values : List Value} {as : List α}
    (h : Forall₂ Q values as) : ∃ n bs, Forall₂ (P n) values bs := by
  induction h with
  | nil => exact ⟨0, [], .nil⟩
  | cons hv _ ih =>
    obtain ⟨m, b, hb⟩ := hstep hv
    obtain ⟨n, bs, hbs⟩ := ih
    refine ⟨max m n, b :: bs, .cons (hmono hb (Nat.le_max_left m n)) ?_⟩
    exact hbs.imp fun _ _ h => hmono h (Nat.le_max_right m n)

-- By itself an element takes one list more to expand than in a list, so the budgets differ: each of the
-- two is derived from the other for the elements of the list it stands for, within less.
mutual
theorem expands_of_item : ∀ (n : Nat) {v : Value} {ws : List Value}, ItemIn site n v ws →
    ∃ m w, ExpandsIn site m v w
  | n, v, ws, h => by
    cases hs : splice? site v with
    | none =>
      obtain ⟨w, hw, _⟩ := (itemIn_of_splice?_eq_none hs).mp h
      exact ⟨n + 1, w, hw⟩
    | some items =>
      have hitems := (itemIn_of_splice? hs).mp h
      obtain ⟨m, parts, hparts⟩ :=
        exists_budget (P := ItemIn site) ItemIn.mono (item_of_expands n) hitems
      have hlist := expandsIn_list.mpr ⟨parts, hparts, rfl⟩
      exact ⟨m + 2, _, (expandsIn_of_splice? hs).mpr hlist⟩
termination_by n => 2 * n + 1

theorem item_of_expands : ∀ (n : Nat) {v w : Value}, ExpandsIn site n v w →
    ∃ m ws, ItemIn site m v ws
  | 0, _, _, h => absurd h not_expandsIn_zero
  | n + 1, v, w, h => by
    cases hs : splice? site v with
    | none => exact ⟨n, [w], (itemIn_of_splice?_eq_none hs).mpr ⟨w, h, rfl⟩⟩
    | some items =>
      have hlist := (expandsIn_of_splice? hs).mp h
      cases n with
      | zero => exact absurd hlist not_expandsIn_zero
      | succ n =>
        obtain ⟨parts, hparts, _⟩ := expandsIn_list.mp hlist
        obtain ⟨m, us, hus⟩ :=
          exists_budget (P := ExpandsIn site) ExpandsIn.mono (expands_of_item n) hparts
        exact ⟨m, us, (itemIn_of_splice? hs).mpr hus⟩
termination_by n => 2 * n
end

/-! ## A spliced list -/

theorem exists_of_mem {α β : Type} {R : α → β → Prop} {xs : List α} {ys : List β}
    (h : Forall₂ R xs ys) {x : α} (hx : x ∈ xs) : ∃ y, R x y := by
  induction h with
  | nil => cases hx
  | cons h _ ih =>
    rcases List.mem_cons.mp hx with rfl | hx
    · exact ⟨_, h⟩
    · exact ih hx

/-- A list in which nothing is spliced is expanded element by element. -/
theorem flatten_of_splice?_eq_none : ∀ {items us : List Value} {parts : List (List Value)},
    (∀ v ∈ items, splice? site v = none) → Forall₂ (ItemIn site m) items parts →
      Forall₂ (ExpandsIn site n) items us → parts.flatten = us
  | [], _, _, _, .nil, .nil => rfl
  | v :: rest, _, _, h, .cons hpart hparts, .cons hu hus => by
    obtain ⟨hv, hrest⟩ := List.forall_mem_cons.mp h
    obtain ⟨w, hw, rfl⟩ := (itemIn_of_splice?_eq_none hv).mp hpart
    rw [List.flatten_cons, flatten_of_splice?_eq_none hrest hparts hus, hw.unique hu]
    rfl

/-- A list that is spliced into another contributes what its elements are expanded to, each by itself.
That is what the list itself is expanded to if nothing is spliced into it in its turn. -/
theorem expand_splice {r : Value} {pre post spliced pre' post' spliced' : List Value}
    {path p q s : String} (hr : Reference.resolve site r = .ok (.list spliced))
    (hpre : expand site limit (.list pre) p = .ok (.list pre'))
    (hspliced : expand site limit (.list spliced) q = .ok (.list spliced'))
    (hpost : expand site limit (.list post) s = .ok (.list post'))
    (hwithin : ∀ e, expand site limit (.list (pre ++ .map [(Directive.merge, r)] :: post)) path =
      .error e → e.cause ≠ .recursionLimit limit) :
    ∃ each, Forall₂ (fun v w => ∀ path, expand site limit v path = .ok w) spliced each ∧
      expand site limit (.list (pre ++ .map [(Directive.merge, r)] :: post)) path =
        .ok (.list (pre' ++ each ++ post')) ∧
      ((∀ v ∈ spliced, splice? site v = none) → each = spliced') := by
  have hs : splice? site (.map [(Directive.merge, r)]) = some spliced := by
    rw [splice?, Value.soleArgument?_eq_some.mpr rfl, Option.map_some, hr]
  obtain ⟨before, hbefore, hpre'⟩ := expandsIn_list.mp ((expandsIn_iff limit _).mpr hpre)
  obtain ⟨parts, hparts, hspliced'⟩ := expandsIn_list.mp ((expandsIn_iff limit _).mpr hspliced)
  obtain ⟨after, hafter, hpost'⟩ := expandsIn_list.mp ((expandsIn_iff limit _).mpr hpost)
  cases hpre'
  cases hspliced'
  cases hpost'
  obtain ⟨m, each, heach⟩ :=
    exists_budget (P := ExpandsIn site) ExpandsIn.mono (expands_of_item limit) hparts
  -- Within some budget the whole list is expanded, so it is within the given one too.
  have hmore : ExpandsIn site (max limit m + 1) (.list (pre ++ .map [(Directive.merge, r)] :: post))
      (.list (before.flatten ++ each ++ after.flatten)) := by
    refine expandsIn_list.mpr ⟨before ++ each :: after, ?_, ?_⟩
    · refine List.rel_append (hbefore.imp fun _ _ h => h.mono (Nat.le_max_left limit m)) (.cons ?_ ?_)
      · exact ((itemIn_of_splice? hs).mpr heach).mono (Nat.le_max_right limit m)
      · exact hafter.imp fun _ _ h => h.mono (Nat.le_max_left limit m)
    · rw [List.flatten_append, List.flatten_cons, List.append_assoc]
  have hwhole : expand site limit (.list (pre ++ .map [(Directive.merge, r)] :: post)) path =
      .ok (.list (before.flatten ++ each ++ after.flatten)) := by
    have hle : limit + 1 ≤ max limit m + 1 := Nat.succ_le_succ (Nat.le_max_left limit m)
    rcases expandWithin_sameWithin site limit limit hle _ path with hsame | ⟨e, he, hcause⟩
    · exact hsame.trans (hmore limit path)
    · exact absurd hcause (hwithin e he)
  refine ⟨each, ?_, hwhole, fun hplain => (flatten_of_splice?_eq_none hplain hparts heach).symm⟩
  obtain ⟨found, hfound, _⟩ := expandsIn_list.mp ((expandsIn_iff limit _).mpr hwhole)
  obtain ⟨each', heach'⟩ := exists_of_mem hfound (List.mem_append_right pre List.mem_cons_self)
  have heach' := (itemIn_of_splice? hs).mp heach'
  have hunique : Relator.RightUnique (ExpandsIn site (max limit m)) := fun _ _ _ h h' => h.unique h'
  obtain rfl : each = each' :=
    List.right_unique_forall₂' hunique (heach.imp fun _ _ h => h.mono (Nat.le_max_right limit m))
      (heach'.imp fun _ _ h => h.mono (Nat.le_max_left limit m))
  exact heach'.imp fun _ _ h path => h.mono (Nat.le_succ limit) limit path

/-- A document with a list `b` and a list `a` into which `b` is spliced. -/
def chained : Site :=
  let data : Value := .map [("a", .list [.int 0, .map [("$merge", .string "b")]]),
    ("b", .list [.int 1, .int 2])]
  ⟨⟨⟨[⟨"document", data, []⟩]⟩, [0]⟩, 0⟩

theorem expand_splice_of_numbers :
    let whole : List Value := [.int 0] ++ .map [("$merge", .string "b")] :: [.int 3]
    (Reference.resolve chained (.string "b") = .ok (.list [.int 1, .int 2]) ∧
      expand chained 1000 (.list [.int 0]) "c" = .ok (.list [.int 0]) ∧
      expand chained 1000 (.list [.int 1, .int 2]) "b" = .ok (.list [.int 1, .int 2]) ∧
      expand chained 1000 (.list [.int 3]) "c" = .ok (.list [.int 3]) ∧
      ∀ e, expand chained 1000 (.list whole) "c" = .error e → e.cause ≠ .recursionLimit 1000) ∧
    ∃ each, Forall₂ (fun v w => ∀ path, expand chained 1000 v path = .ok w)
        [.int 1, .int 2] each ∧
      expand chained 1000 (.list whole) "c" = .ok (.list ([.int 0] ++ each ++ [.int 3])) ∧
      ((∀ v ∈ [.int 1, .int 2], splice? chained v = none) → each = [.int 1, .int 2]) := by
  intro whole
  have hr : Reference.resolve chained (.string "b") = .ok (.list [.int 1, .int 2]) := by cbv
  have hpre : expand chained 1000 (.list [.int 0]) "c" = .ok (.list [.int 0]) := by cbv
  have hspliced : expand chained 1000 (.list [.int 1, .int 2]) "b" =
      .ok (.list [.int 1, .int 2]) := by cbv
  have hpost : expand chained 1000 (.list [.int 3]) "c" = .ok (.list [.int 3]) := by cbv
  have hwhole : expand chained 1000 (.list whole) "c" =
      .ok (.list [.int 0, .int 1, .int 2, .int 3]) := by cbv
  have hwithin : ∀ e, expand chained 1000 (.list whole) "c" = .error e →
      e.cause ≠ .recursionLimit 1000 := by
    intro e he
    cases hwhole.symm.trans he
  exact ⟨⟨hr, hpre, hspliced, hpost, hwithin⟩, expand_splice hr hpre hspliced hpost hwithin⟩

/-- A list that is itself spliced together does not contribute its elements where it is spliced. -/
theorem expand_splice_of_splice :
    let a : List Value := [.int 0, .map [("$merge", .string "b")]]
    Reference.resolve chained (.string "a") = .ok (.list a) ∧
      expand chained 1000 (.list a) "c" = .ok (.list [.int 0, .int 1, .int 2]) ∧
      expand chained 1000 (.list []) "c" = .ok (.list []) ∧
      expand chained 1000 (.list ([] ++ .map [("$merge", .string "a")] :: [])) "c" ≠
        .ok (.list ([] ++ [.int 0, .int 1, .int 2] ++ [])) ∧
      expand chained 1000 (.list ([] ++ .map [("$merge", .string "a")] :: [])) "c" =
        .ok (.list [.int 0, .list [.int 1, .int 2]]) := by
  intro a
  have hwhole : expand chained 1000 (.list ([] ++ .map [("$merge", .string "a")] :: [])) "c" =
      .ok (.list [.int 0, .list [.int 1, .int 2]]) := by cbv
  refine ⟨by cbv, by cbv, by cbv, ?_, hwhole⟩
  rw [hwhole]
  decide

end Overlay.Expansion
