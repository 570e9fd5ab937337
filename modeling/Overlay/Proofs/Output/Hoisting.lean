import Overlay.Output
import Overlay.Proofs.Result
import Overlay.Proofs.Value.Inside

/-!
# Outputs are hoisted and pruned

Splitting walks through a document once. What it comes to can be told in two walks: `nodes` lists all
that may be marked, in the order in which it starts, and `strip` takes from a value all marks and all
that is marked to be dropped.
-/

namespace Overlay.Output

/-! ## Marks, nodes and what is left of them -/

/-- The mark of a value: an entry of a map, or the first marker of a list. -/
def markOf : Value → Option Value
  | .map entries => Entries.lookup Directive.output entries
  | .list items => markerIn items
  | _ => none

def isMarkedAs (own : Bool) (v : Value) : Bool :=
  match markOf v with
  | some (.bool b) => b == own
  | _ => false

def isMarker (v : Value) : Bool :=
  (v.soleArgument? Directive.output).isSome

/-- The elements of a list without the first marker among them. -/
def unmarked (items : List Value) : List Value :=
  items.eraseP isMarker

mutual
/-- A value without all marks and all that is marked to be dropped from it. -/
def strip : Value → Value
  | .map entries => .map (stripEntries entries)
  | .list items => .list (stripItems true items)
  | v => v

def stripEntries : List (String × Value) → List (String × Value)
  | [] => []
  | (k, v) :: rest =>
    if k = Directive.output then stripEntries rest
    else if isMarkedAs false v then stripEntries rest
    else (k, strip v) :: stripEntries rest

def stripItems (marked : Bool) : List Value → List Value
  | [] => []
  | v :: rest =>
    if marked && isMarker v then stripItems false rest
    else if isMarkedAs false v then stripItems marked rest
    else strip v :: stripItems marked rest
end

mutual
/-- A value and all that stands in it apart from marks, each before what it holds. -/
def nodes : Value → List Value
  | .map entries => .map entries :: nodesOfEntries entries
  | .list items => .list items :: nodesOfItems true items
  | v => [v]

def nodesOfEntries : List (String × Value) → List Value
  | [] => []
  | (k, v) :: rest =>
    if k = Directive.output then nodesOfEntries rest else nodes v ++ nodesOfEntries rest

def nodesOfItems (marked : Bool) : List Value → List Value
  | [] => []
  | v :: rest =>
    if marked && isMarker v then nodesOfItems false rest else nodes v ++ nodesOfItems marked rest
end

theorem stripEntries_eq (entries : List (String × Value)) : stripEntries entries =
    (entries.filter fun e => e.1 ≠ Directive.output && !isMarkedAs false e.2).map
      fun e => (e.1, strip e.2) := by
  induction entries with
  | nil => rfl
  | cons e rest ih =>
    rw [stripEntries, ih, List.filter_cons]
    by_cases hk : e.1 = Directive.output
    · simp [hk]
    · by_cases hv : isMarkedAs false e.2 = true <;> simp [hk, hv]

theorem stripItems_false (items : List Value) :
    stripItems false items = (items.filter fun v => !isMarkedAs false v).map strip := by
  induction items with
  | nil => rfl
  | cons v rest ih =>
    rw [stripItems, ih, List.filter_cons]
    by_cases hv : isMarkedAs false v = true <;> simp [hv]

theorem stripItems_true (items : List Value) : stripItems true items =
    ((unmarked items).filter fun v => !isMarkedAs false v).map strip := by
  induction items with
  | nil => rfl
  | cons v rest ih =>
    rw [stripItems, unmarked, List.eraseP_cons]
    by_cases hm : isMarker v = true
    · simp [hm, stripItems_false]
    · rw [ih]
      by_cases hv : isMarkedAs false v = true <;> simp [hm, hv, unmarked]

theorem nodesOfEntries_eq (entries : List (String × Value)) : nodesOfEntries entries =
    (entries.filter fun e => e.1 ≠ Directive.output).flatMap fun e => nodes e.2 := by
  induction entries with
  | nil => rfl
  | cons e rest ih =>
    rw [nodesOfEntries, ih, List.filter_cons]
    by_cases hk : e.1 = Directive.output <;> simp [hk]

theorem nodesOfItems_false (items : List Value) : nodesOfItems false items = items.flatMap nodes := by
  induction items with
  | nil => rfl
  | cons v rest ih =>
    rw [nodesOfItems, ih]
    rfl

theorem nodesOfItems_true (items : List Value) :
    nodesOfItems true items = (unmarked items).flatMap nodes := by
  induction items with
  | nil => rfl
  | cons v rest ih =>
    rw [nodesOfItems, unmarked, List.eraseP_cons]
    by_cases hm : isMarker v = true
    · simp [hm, nodesOfItems_false]
    · rw [ih]
      simp [hm, unmarked]

theorem strip_map (entries : Entries Value) : strip (.map entries) =
    .map ((entries.filter fun e => e.1 ≠ Directive.output && !isMarkedAs false e.2).map
      fun e => (e.1, strip e.2)) := by
  rw [strip, stripEntries_eq]

theorem strip_list (items : List Value) : strip (.list items) =
    .list (((unmarked items).filter fun v => !isMarkedAs false v).map strip) := by
  rw [strip, stripItems_true]

theorem nodes_map (entries : Entries Value) : nodes (.map entries) =
    .map entries :: (entries.filter fun e => e.1 ≠ Directive.output).flatMap fun e => nodes e.2 := by
  rw [nodes, nodesOfEntries_eq]

theorem nodes_list (items : List Value) :
    nodes (.list items) = .list items :: (unmarked items).flatMap nodes := by
  rw [nodes, nodesOfItems_true]

theorem self_mem_nodes (v : Value) : v ∈ nodes v := by
  cases v <;> simp [nodes]

theorem inside_of_mem_nodes {v n : Value} (h : n ∈ nodes v) : Value.Inside n v := by
  induction v using Value.induction with
  | map entries ih =>
    rw [nodes_map] at h
    rcases List.mem_cons.mp h with rfl | h
    · exact .refl
    · obtain ⟨e, he, hn⟩ := List.mem_flatMap.mp h
      have he := (List.mem_filter.mp he).1
      exact .entry he (ih e he hn)
  | list items ih =>
    rw [nodes_list] at h
    rcases List.mem_cons.mp h with rfl | h
    · exact .refl
    · obtain ⟨x, hx, hn⟩ := List.mem_flatMap.mp h
      have hx := List.mem_of_mem_eraseP hx
      exact .item hx (ih x hx hn)
  | _ =>
    simp only [nodes, List.mem_singleton] at h
    rw [h]
    exact .refl

/-! ## The walk -/

/-- Whether a value says by true or false what it is marked as, if it is marked. -/
def HasPlainMark (v : Value) : Prop :=
  ∀ x, markOf v = some x → ∃ b, x = .bool b

/-- What is left of a value where it stands. -/
def keptOf (v : Value) : Option Value :=
  if isMarkedAs false v then none else some (strip v)

/-- The outputs of their own among some nodes. -/
def ownAmong (ns : List Value) : List Value :=
  (ns.filter (isMarkedAs true)).map strip

def anyMarked (ns : List Value) : Bool :=
  ns.any fun n => (markOf n).isSome

theorem ownAmong_append (ms ns : List Value) :
    ownAmong (ms ++ ns) = ownAmong ms ++ ownAmong ns := by
  simp [ownAmong]

theorem anyMarked_append (ms ns : List Value) :
    anyMarked (ms ++ ns) = (anyMarked ms || anyMarked ns) := by
  simp [anyMarked]

/-- The mark of a container is looked at before what it holds, and decides what becomes of it after. -/
theorem exists_mark {v : Value} (h : HasPlainMark v) (path : String) (below : List Value) :
    ∃ m, mark? path (markOf v) = .ok m ∧
      applyMark ⟨strip v, ownAmong below, anyMarked below⟩ m =
        ⟨keptOf v, ownAmong (v :: below), anyMarked (v :: below)⟩ := by
  unfold keptOf ownAmong anyMarked
  cases hm : markOf v with
  | none => exact ⟨none, rfl, by simp [applyMark, isMarkedAs, hm]⟩
  | some x =>
    obtain ⟨b, rfl⟩ := h x hm
    refine ⟨some b, rfl, ?_⟩
    cases b <;> simp [applyMark, isMarkedAs, hm]

mutual
theorem sift_of_plain : ∀ {v : Value} {path : String}, (∀ n ∈ nodes v, HasPlainMark n) →
    sift v path = .ok ⟨keptOf v, ownAmong (nodes v), anyMarked (nodes v)⟩
  | .map entries, path, h => by
    rw [nodes] at h ⊢
    obtain ⟨hself, hbelow⟩ := List.forall_mem_cons.mp h
    obtain ⟨m, hm, happly⟩ := exists_mark hself path (nodesOfEntries entries)
    rw [markOf] at hm
    rw [strip] at happly
    simp only [sift, hm, siftEntries_of_plain hbelow, Result.ok_bind, happly]
    rfl
  | .list items, path, h => by
    rw [nodes] at h ⊢
    obtain ⟨hself, hbelow⟩ := List.forall_mem_cons.mp h
    obtain ⟨m, hm, happly⟩ := exists_mark hself path (nodesOfItems true items)
    rw [markOf] at hm
    rw [strip] at happly
    simp only [sift, hm, siftItems_of_plain hbelow, Result.ok_bind, happly]
    rfl
  | .null, _, _ | .bool _, _, _ | .int _, _, _ | .float _, _, _ | .string _, _, _ => by
    simp only [sift, nodes]
    rfl
termination_by structural v => v

theorem siftEntries_of_plain : ∀ {entries : List (String × Value)} {path : String},
    (∀ n ∈ nodesOfEntries entries, HasPlainMark n) → siftEntries entries path =
      .ok ⟨stripEntries entries, ownAmong (nodesOfEntries entries),
        anyMarked (nodesOfEntries entries)⟩
  | [], path, _ => by
    rw [siftEntries]
    rfl
  | (k, v) :: rest, path, h => by
    rw [nodesOfEntries] at h ⊢
    rw [siftEntries, stripEntries]
    by_cases hk : k = Directive.output
    · rw [if_pos hk] at h
      simp only [if_pos hk]
      exact siftEntries_of_plain h
    · rw [if_neg hk] at h
      obtain ⟨hv, hrest⟩ := List.forall_mem_append.mp h
      simp only [if_neg hk, sift_of_plain hv, siftEntries_of_plain hrest, Result.ok_bind,
        ownAmong_append, anyMarked_append, keptOf]
      by_cases hpruned : isMarkedAs false v = true
      · simp [hpruned]
        rfl
      · simp [hpruned]
        rfl
termination_by structural entries => entries

theorem siftItems_of_plain {marked : Bool} : ∀ {items : List Value} {position : Nat} {path : String},
    (∀ n ∈ nodesOfItems marked items, HasPlainMark n) → siftItems marked position items path =
      .ok ⟨stripItems marked items, ownAmong (nodesOfItems marked items),
        anyMarked (nodesOfItems marked items)⟩
  | [], position, path, _ => by
    rw [siftItems]
    rfl
  | v :: rest, position, path, h => by
    rw [nodesOfItems] at h ⊢
    rw [siftItems, stripItems]
    by_cases hm : (marked && isMarker v) = true
    · rw [if_pos hm] at h
      simp only [if_pos hm]
      exact (if_pos hm).trans (siftItems_of_plain h)
    · rw [if_neg hm] at h
      obtain ⟨hv, hrest⟩ := List.forall_mem_append.mp h
      refine (if_neg hm).trans ?_
      simp only [if_neg hm, sift_of_plain hv, siftItems_of_plain hrest, Result.ok_bind,
        ownAmong_append, anyMarked_append, keptOf]
      by_cases hpruned : isMarkedAs false v = true
      · simp [hpruned]
        rfl
      · simp [hpruned]
        rfl
termination_by structural items => items
end

/-- A mark is neither true nor false. -/
def IsFault {α : Type} (r : Result α) : Prop :=
  ∃ kind path, r = .error (.atKey (.wrongKind Directive.output "a boolean" kind) path)

theorem IsFault.bind {α β : Type} {r : Result α} (h : IsFault r) (f : α → Result β) :
    IsFault (r >>= f) := by
  obtain ⟨kind, path, rfl⟩ := h
  exact ⟨kind, path, rfl⟩

theorem mark?_of_not_plain {v : Value} (h : ¬ HasPlainMark v) (path : String) :
    IsFault (mark? path (markOf v)) := by
  cases hm : markOf v with
  | none => exact absurd (fun x hx => by cases hm.symm.trans hx) h
  | some x =>
    cases x with
    | bool b => exact absurd (fun y hy => ⟨b, Option.some.inj (hy.symm.trans hm)⟩) h
    | _ => exact ⟨_, path, rfl⟩

mutual
theorem sift_of_not_plain : ∀ {v : Value} {path : String}, (¬ ∀ n ∈ nodes v, HasPlainMark n) →
    IsFault (sift v path)
  | .map entries, path, h => by
    rw [nodes, List.forall_mem_cons] at h
    rw [sift]
    by_cases hself : HasPlainMark (.map entries)
    · obtain ⟨m, hm, -⟩ := exists_mark hself path []
      rw [markOf] at hm
      rw [hm]
      exact (siftEntries_of_not_plain fun hbelow => h ⟨hself, hbelow⟩).bind _
    · exact (mark?_of_not_plain hself path).bind _
  | .list items, path, h => by
    rw [nodes, List.forall_mem_cons] at h
    rw [sift]
    by_cases hself : HasPlainMark (.list items)
    · obtain ⟨m, hm, -⟩ := exists_mark hself path []
      rw [markOf] at hm
      rw [hm]
      exact (siftItems_of_not_plain fun hbelow => h ⟨hself, hbelow⟩).bind _
    · exact (mark?_of_not_plain hself path).bind _
  | .null, _, h | .bool _, _, h | .int _, _, h | .float _, _, h | .string _, _, h => by
    simp [nodes, HasPlainMark, markOf] at h
termination_by structural v => v

theorem siftEntries_of_not_plain : ∀ {entries : List (String × Value)} {path : String},
    (¬ ∀ n ∈ nodesOfEntries entries, HasPlainMark n) → IsFault (siftEntries entries path)
  | [], path, h => by simp [nodesOfEntries] at h
  | (k, v) :: rest, path, h => by
    rw [nodesOfEntries] at h
    rw [siftEntries]
    by_cases hk : k = Directive.output
    · rw [if_pos hk] at h ⊢
      exact siftEntries_of_not_plain h
    · rw [if_neg hk] at h ⊢
      rw [List.forall_mem_append] at h
      by_cases hv : ∀ n ∈ nodes v, HasPlainMark n
      · rw [sift_of_plain hv]
        exact (siftEntries_of_not_plain fun hrest => h ⟨hv, hrest⟩).bind _
      · exact (sift_of_not_plain hv).bind _
termination_by structural entries => entries

theorem siftItems_of_not_plain {marked : Bool} : ∀ {items : List Value} {position : Nat}
    {path : String}, (¬ ∀ n ∈ nodesOfItems marked items, HasPlainMark n) →
      IsFault (siftItems marked position items path)
  | [], position, path, h => by simp [nodesOfItems] at h
  | v :: rest, position, path, h => by
    rw [nodesOfItems] at h
    rw [siftItems]
    by_cases hm : (marked && isMarker v) = true
    · rw [if_pos hm] at h
      exact (if_pos hm).symm ▸ siftItems_of_not_plain h
    · rw [if_neg hm, List.forall_mem_append] at h
      refine (if_neg hm).symm ▸ ?_
      by_cases hv : ∀ n ∈ nodes v, HasPlainMark n
      · rw [sift_of_plain hv]
        exact (siftItems_of_not_plain fun hrest => h ⟨hv, hrest⟩).bind _
      · exact (sift_of_not_plain hv).bind _
termination_by structural items => items
end

/-! ## Values without marks -/

/-- No map inside a value holds a mark. -/
def MarkFree : Value → Prop :=
  Value.Everywhere fun
    | .map entries => ∀ e ∈ entries, e.1 ≠ Directive.output
    | _ => True

theorem markFree_map {entries : Entries Value} : MarkFree (.map entries) ↔
    (∀ e ∈ entries, e.1 ≠ Directive.output) ∧ ∀ e ∈ entries, MarkFree e.2 :=
  Value.everywhere_map

theorem markFree_list {items : List Value} :
    MarkFree (.list items) ↔ ∀ x ∈ items, MarkFree x :=
  Value.everywhere_list.trans (and_iff_right trivial)

theorem isMarker_of_markFree {v : Value} (h : MarkFree v) : isMarker v = false := by
  unfold isMarker
  cases hv : v.soleArgument? Directive.output with
  | none => rfl
  | some x =>
    obtain rfl := Value.soleArgument?_eq_some.mp hv
    exact absurd rfl ((markFree_map.mp h).1 _ List.mem_cons_self)

theorem markOf_of_markFree {v : Value} (h : MarkFree v) : markOf v = none := by
  cases v with
  | map entries => exact Entries.lookup_eq_none_iff.mpr (markFree_map.mp h).1
  | list items =>
    rw [markOf, markerIn, List.findSome?_eq_none_iff]
    intro x hx
    simpa [isMarker] using isMarker_of_markFree (markFree_list.mp h x hx)
  | _ => rfl

theorem markFree_strip (v : Value) : MarkFree (strip v) := by
  induction v using Value.induction with
  | map entries ih =>
    rw [strip_map, markFree_map, List.forall_mem_map, List.forall_mem_map]
    constructor
    · intro e he
      have hkey := (List.mem_filter.mp he).2
      simp only [ne_eq, decide_not, Bool.and_eq_true, Bool.not_eq_true', decide_eq_false_iff_not] at hkey
      exact hkey.1
    · exact fun e he => ih e (List.mem_filter.mp he).1
  | list items ih =>
    rw [strip_list, markFree_list, List.forall_mem_map]
    intro x hx
    exact ih x (List.mem_of_mem_eraseP (List.mem_filter.mp hx).1)
  | _ =>
    simp only [strip]
    intro u hu
    cases hu
    exact trivial

theorem unmarked_of_markFree {items : List Value} (h : MarkFree (.list items)) :
    unmarked items = items := by
  apply List.eraseP_of_forall_not
  intro x hx
  simp [isMarker_of_markFree (markFree_list.mp h x hx)]

theorem strip_of_markFree {v : Value} (h : MarkFree v) : strip v = v := by
  have kept {x : Value} (hx : MarkFree x) : isMarkedAs false x = false := by
    rw [isMarkedAs, markOf_of_markFree hx]
  induction v using Value.induction with
  | map entries ih =>
    obtain ⟨hkeys, hvalues⟩ := markFree_map.mp h
    rw [strip_map, List.filter_eq_self.mpr fun e he => by simp [hkeys e he, kept (hvalues e he)]]
    refine congrArg Value.map ((List.map_congr_left fun e he => ?_).trans (List.map_id _))
    rw [ih e he (hvalues e he)]
    rfl
  | list items ih =>
    have hitems := markFree_list.mp h
    rw [strip_list, unmarked_of_markFree h,
      List.filter_eq_self.mpr fun x hx => by simp [kept (hitems x hx)]]
    exact congrArg Value.list
      ((List.map_congr_left fun x hx => ih x hx (hitems x hx)).trans (List.map_id _))
  | _ => rfl

/-- A mark anywhere inside a value is the mark of a node. -/
theorem markFree_iff {v : Value} : MarkFree v ↔ ∀ n ∈ nodes v, markOf n = none := by
  constructor
  · intro h n hn
    exact markOf_of_markFree (h.of_inside (inside_of_mem_nodes hn))
  · intro h
    induction v using Value.induction with
    | map entries ih =>
      rw [nodes_map, List.forall_mem_cons, List.forall_mem_flatMap] at h
      have hkeys : ∀ e ∈ entries, e.1 ≠ Directive.output := Entries.lookup_eq_none_iff.mp h.1
      refine markFree_map.mpr ⟨hkeys, fun e he => ih e he (h.2 e ?_)⟩
      exact List.mem_filter.mpr ⟨he, by simpa using hkeys e he⟩
    | list items ih =>
      rw [nodes_list, List.forall_mem_cons, List.forall_mem_flatMap] at h
      have hmarkers : ∀ x ∈ items, ¬ isMarker x = true := by
        intro x hx
        simpa [isMarker] using List.findSome?_eq_none_iff.mp h.1 x hx
      rw [unmarked, List.eraseP_of_forall_not hmarkers] at h
      exact markFree_list.mpr fun x hx => ih x hx (h.2 x hx)
    | _ =>
      intro u hu
      cases hu
      exact trivial

theorem anyMarked_eq_false_iff {v : Value} : anyMarked (nodes v) = false ↔ MarkFree v := by
  simp [anyMarked, markFree_iff]

/-! ## What a document is split into -/

/-- What a document is split into: itself if nothing in it is marked, and else what is left of it,
unless that is nothing or an output of its own, and then all outputs of their own. -/
def hoisted (v : Value) : List Value :=
  if anyMarked (nodes v) then
    (if (markOf v).isSome || (strip v).isEmptyContainer then [] else [strip v]) ++ ownAmong (nodes v)
  else [v]

theorem isOwn_eq (v : Value) : isOwn v = isMarkedAs true v := by
  have hmark (o : Option Value) : (o.any fun x => x == .bool true) =
      match o with
      | some (.bool b) => b == true
      | _ => false := by
    cases o with
    | none => rfl
    | some x => cases x <;> rfl
  cases v with
  | map entries => exact hmark _
  | list items => exact hmark _
  | _ => rfl

theorem split_of_plain {v : Value} (h : ∀ n ∈ nodes v, HasPlainMark n) :
    split v = .ok (hoisted v) := by
  rw [split, sift_of_plain h, hoisted]
  by_cases hmarked : anyMarked (nodes v) = true
  · simp only [hmarked, Result.ok_bind, isOwn_eq, keptOf]
    cases hm : markOf v with
    | none =>
      cases hempty : (strip v).isEmptyContainer <;>
        simp [isMarkedAs, hm, Option.filter_some, hempty] <;> rfl
    | some x =>
      obtain ⟨b, rfl⟩ := h v (self_mem_nodes v) x hm
      cases b <;> simp [isMarkedAs, hm] <;> rfl
  · rw [Bool.not_eq_true] at hmarked
    have hfree := anyMarked_eq_false_iff.mp hmarked
    simp only [hmarked, Result.ok_bind, keptOf, isMarkedAs, markOf_of_markFree hfree,
      strip_of_markFree hfree]
    rfl

theorem split_of_markFree {v : Value} (h : MarkFree v) : split v = .ok [v] := by
  have hplain : ∀ n ∈ nodes v, HasPlainMark n := by
    intro n hn x hx
    cases (markFree_iff.mp h n hn).symm.trans hx
  rw [split_of_plain hplain, hoisted, anyMarked_eq_false_iff.mpr h]
  rfl

theorem markFree_of_mem_hoisted {v out : Value} (h : out ∈ hoisted v) : MarkFree out := by
  unfold hoisted at h
  by_cases hmarked : anyMarked (nodes v) = true
  · rw [if_pos hmarked, List.mem_append] at h
    rcases h with h | h
    · split at h
      · cases h
      · rw [List.mem_singleton.mp h]
        exact markFree_strip v
    · obtain ⟨n, -, rfl⟩ := List.mem_map.mp h
      exact markFree_strip n
  · rw [if_neg hmarked] at h
    rw [List.mem_singleton.mp h]
    exact anyMarked_eq_false_iff.mp (Bool.eq_false_iff.mpr hmarked)

/-- A document with a mark that is neither true nor false is not split. Any other is split into what is
left of it and the outputs of their own in it, in the order in which they start; no mark is left in
these, and each is split into itself. -/
theorem split_hoists (v : Value) :
    ((∃ n ∈ nodes v, ∃ x, markOf n = some x ∧ ∀ b, x ≠ .bool b) →
      ∃ e, split v = .error e ∧ e.cause.code = "INVALID_TYPE") ∧
    ((∀ n ∈ nodes v, ∀ x, markOf n = some x → ∃ b, x = .bool b) →
      split v = .ok (hoisted v) ∧ ∀ out ∈ hoisted v,
        (∀ entries, Value.Inside (.map entries) out → ∀ e ∈ entries, e.1 ≠ Directive.output) ∧
          split out = .ok [out]) := by
  constructor
  · rintro ⟨n, hn, x, hx, hnot⟩
    have hfault : IsFault (sift v "") := by
      apply sift_of_not_plain
      intro hplain
      obtain ⟨b, hb⟩ := hplain n hn x hx
      exact hnot b hb
    obtain ⟨kind, path, hsplit⟩ := hfault.bind fun s => _
    exact ⟨_, hsplit, rfl⟩
  · intro hplain
    refine ⟨split_of_plain hplain, fun out hout => ?_⟩
    have hfree := markFree_of_mem_hoisted hout
    exact ⟨fun entries hentries => hfree _ hentries, split_of_markFree hfree⟩

theorem split_hoists_of_dropped :
    let inner : Value := .list [.map [("$output", .bool true)], .map [("$output", .bool true)], .int 1]
    let document : Value := .map [("hidden", .map [("$output", .bool false), ("inner", inner)]),
      ("kept", .int 1)]
    (∀ n ∈ nodes document, ∀ x, markOf n = some x → ∃ b, x = .bool b) ∧
      split document = .ok [.map [("kept", .int 1)], .list [.map [], .int 1], .map []] := by
  intro inner document
  have hnodes : nodes document = [document, .map [("$output", .bool false), ("inner", inner)], inner,
      .map [("$output", .bool true)], .int 1, .int 1] := rfl
  have hplain : ∀ n ∈ nodes document, ∀ x, markOf n = some x → ∃ b, x = .bool b := by
    rw [hnodes]
    simp [document, inner, markOf, markerIn, Entries.lookup, Value.soleArgument?, Directive.output]
  exact ⟨hplain, ((split_hoists document).2 hplain).1⟩

end Overlay.Output
