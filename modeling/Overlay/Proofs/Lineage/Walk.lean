import Mathlib
import Overlay.Proofs.Lineage

/-!
# The walk to the ancestors of a document

A walk takes pending documents one by one, in whatever order. A document that it has not met yet is
met, and its parents become pending. Parents may lead back to where the walk started, so it ends only
because no document is met twice: it takes one round for each link that leads out of the start or of
an ancestor, and has met the ancestors then (`ancestors_exact`).
-/

namespace Overlay.Corpus

open Relation (ReflTransGen)

/-- All parents are documents of the corpus. -/
def Closed (c : Corpus) : Prop :=
  ∀ d ∈ c.documents, ∀ p ∈ d.parents, p < c.size

instance (c : Corpus) : Decidable c.Closed :=
  inferInstanceAs (Decidable (∀ d ∈ c.documents, ∀ p ∈ d.parents, p < c.size))

/-- A walk on its way: what it has met, what is pending, and the rounds it has taken. -/
structure Walk where
  met : List Nat
  pending : List Nat
  rounds : Nat

/-- A walk that starts with the parents of a document. -/
def walkFrom (c : Corpus) (start : Nat) : Walk :=
  ⟨[], c.parents start, 0⟩

/-- One round of a walk takes any of the pending documents. -/
inductive Round (c : Corpus) (start : Nat) : Walk → Walk → Prop
  | meet {w : Walk} {next : Nat} {rest : List Nat} : w.pending.Perm (next :: rest) → next ≠ start →
    next ∉ w.met → Round c start w ⟨next :: w.met, c.parents next ++ rest, w.rounds + 1⟩
  | pass {w : Walk} {next : Nat} {rest : List Nat} : w.pending.Perm (next :: rest) →
    next = start ∨ next ∈ w.met → Round c start w ⟨w.met, rest, w.rounds + 1⟩

/-- How many links lead out of documents. -/
def linksOf (c : Corpus) (ids : List Nat) : Nat :=
  (ids.map fun id => (c.parents id).length).sum

variable {c : Corpus} {start : Nat} {w : Walk}

theorem exists_round (h : w.pending ≠ []) : ∃ w', c.Round start w w' := by
  obtain ⟨next, rest, hpending⟩ := List.exists_cons_of_ne_nil h
  have hperm : w.pending.Perm (next :: rest) := hpending ▸ .refl _
  by_cases hpass : next = start ∨ next ∈ w.met
  · exact ⟨_, .pass hperm hpass⟩
  · rw [not_or] at hpass
    exact ⟨_, .meet hperm hpass.1 hpass.2⟩

/-! ## What every round keeps -/

/-- What holds of a walk at any time. A link out of what was met leads to what is met or pending, or
back to the start. -/
structure Walk.Holds (c : Corpus) (start : Nat) (w : Walk) : Prop where
  nodup : w.met.Nodup
  away : start ∉ w.met
  inherits : ∀ id ∈ w.met ++ w.pending, c.Inherits start id
  closed : ∀ id ∈ start :: w.met, ∀ p ∈ c.parents id, p = start ∨ p ∈ w.met ∨ p ∈ w.pending
  count : w.rounds + w.pending.length = c.linksOf (start :: w.met)

theorem holds_walkFrom (c : Corpus) (start : Nat) : (c.walkFrom start).Holds c start where
  nodup := List.nodup_nil
  away := List.not_mem_nil
  inherits := fun _ hid => .single hid
  closed := by
    intro id hid p hp
    rw [walkFrom, List.mem_singleton] at hid
    exact .inr (.inr (hid ▸ hp))
  count := by simp [walkFrom, linksOf]

theorem Walk.Holds.meet (h : w.Holds c start) {next : Nat} {rest : List Nat}
    (hperm : w.pending.Perm (next :: rest)) (hstart : next ≠ start) (hmet : next ∉ w.met) :
    Walk.Holds c start ⟨next :: w.met, c.parents next ++ rest, w.rounds + 1⟩ where
  nodup := List.nodup_cons.mpr ⟨hmet, h.nodup⟩
  away := by simpa [Ne.symm hstart] using h.away
  inherits := by
    have hnext : c.Inherits start next := h.inherits next (by simp [hperm.mem_iff])
    intro id hid
    have hold := h.inherits id
    simp only [List.mem_append, List.mem_cons, hperm.mem_iff] at hid hold
    rcases hid with (rfl | hid) | hid | hid
    · exact hnext
    · exact hold (.inl hid)
    · exact .tail hnext hid
    · exact hold (.inr (.inr hid))
  closed := by
    intro id hid p hp
    have hkept : id ∈ start :: w.met → p = start ∨ p ∈ next :: w.met ∨ p ∈ c.parents next ++ rest := by
      intro hid
      have hold := h.closed id hid p hp
      rw [hperm.mem_iff] at hold
      simp only [List.mem_cons, List.mem_append] at hold ⊢
      tauto
    rcases List.mem_cons.mp hid with rfl | hid
    · exact hkept List.mem_cons_self
    · rcases List.mem_cons.mp hid with rfl | hid
      · exact .inr (.inr (List.mem_append_left _ hp))
      · exact hkept (List.mem_cons_of_mem _ hid)
  count := by
    have hcount := h.count
    have hlength := hperm.length_eq
    simp only [linksOf, List.map_cons, List.sum_cons, List.length_append, List.length_cons] at *
    omega

theorem Walk.Holds.pass (h : w.Holds c start) {next : Nat} {rest : List Nat}
    (hperm : w.pending.Perm (next :: rest)) (hpass : next = start ∨ next ∈ w.met) :
    Walk.Holds c start ⟨w.met, rest, w.rounds + 1⟩ where
  nodup := h.nodup
  away := h.away
  inherits := by
    intro id hid
    have hold := h.inherits id
    simp only [List.mem_append, List.mem_cons, hperm.mem_iff] at hid hold
    exact hold (hid.imp_right .inr)
  closed := by
    intro id hid p hp
    have hold := h.closed id hid p hp
    rw [hperm.mem_iff, List.mem_cons] at hold
    rcases hold with hold | hold | rfl | hold
    · exact .inl hold
    · exact .inr (.inl hold)
    · exact hpass.imp_right .inl
    · exact .inr (.inr hold)
  count := by
    have hcount := h.count
    have hlength := hperm.length_eq
    simp only [List.length_cons] at *
    omega

theorem Walk.Holds.round {w' : Walk} (h : w.Holds c start) (hround : c.Round start w w') :
    w'.Holds c start := by
  cases hround with
  | meet hperm hstart hmet => exact h.meet hperm hstart hmet
  | pass hperm hpass => exact h.pass hperm hpass

theorem Walk.Holds.run {w' : Walk} (h : w.Holds c start) (hrun : ReflTransGen (c.Round start) w w') :
    w'.Holds c start := by
  induction hrun with
  | refl => exact h
  | tail _ hround ih => exact ih.round hround

/-! ## How the walk ends -/

/-- What a document inherits from has been met when nothing is pending. -/
theorem Walk.Holds.mem_met_iff (h : w.Holds c start) (hend : w.pending = []) {other : Nat} :
    other ∈ w.met ↔ other ≠ start ∧ c.Inherits start other := by
  constructor
  · intro hother
    exact ⟨fun heq => h.away (heq ▸ hother), h.inherits other (List.mem_append_left _ hother)⟩
  · rintro ⟨hne, hinherits⟩
    have hclosed : ∀ id ∈ start :: w.met, ∀ p ∈ c.parents id, p ∈ start :: w.met := by
      intro id hid p hp
      have := h.closed id hid p hp
      simp only [hend, List.not_mem_nil, or_false] at this
      exact List.mem_cons.mpr this
    have hmem : other ∈ start :: w.met := by
      clear hne
      induction hinherits with
      | single hp => exact hclosed start List.mem_cons_self _ hp
      | tail _ hp ih => exact hclosed _ ih _ hp
    exact (List.mem_cons.mp hmem).resolve_left hne

theorem sorted_ancestors (c : Corpus) (id : Nat) : (c.ancestors id).Pairwise (· < ·) :=
  List.pairwise_lt_range.filter _

theorem linksOf_le {ids others : List Nat} (hids : ids.Nodup) (h : ids ⊆ others) :
    c.linksOf ids ≤ c.linksOf others := by
  obtain ⟨l, hperm, hsub⟩ := List.subperm_of_subset hids h
  have hsum := (hsub.map fun id => (c.parents id).length).sum_le_sum (fun _ _ => Nat.zero_le _)
  rwa [(hperm.map _).sum_eq] at hsum

section
variable (hc : c.Closed)
include hc

theorem Closed.lt_size {id p : Nat} (hp : p ∈ c.parents id) : p < c.size := by
  rw [parents] at hp
  cases hd : c.documents[id]? with
  | none => simp [hd] at hp
  | some d =>
    rw [hd] at hp
    exact hc d (List.mem_of_getElem? hd) p hp

theorem Inherits.lt_size {id other : Nat} (h : c.Inherits id other) : other < c.size := by
  cases h with
  | single hp => exact hc.lt_size hp
  | tail _ hp => exact hc.lt_size hp

theorem mem_ancestors_iff {id other : Nat} :
    other ∈ c.ancestors id ↔ other ≠ id ∧ c.Inherits id other := by
  constructor
  · intro h
    obtain ⟨hinherits, -, hne⟩ := inherits_of_mem_ancestors h
    exact ⟨hne, hinherits⟩
  · rintro ⟨hne, hinherits⟩
    exact mem_ancestors_of_inherits hinherits (hinherits.lt_size hc) hne

/-- The walk that collects ancestors goes on until nothing is pending. -/
theorem run_visit {unvisited pending met : List Nat} (rounds : Nat) (hnodup : unvisited.Nodup)
    (hunvisited : ∀ n, n ∈ unvisited ↔ n < c.size ∧ n ≠ start ∧ n ∉ met)
    (hpending : ∀ p ∈ pending, p < c.size) :
    ∃ taken, ReflTransGen (c.Round start) ⟨met, pending, rounds⟩
      ⟨(c.visit unvisited pending).reverse ++ met, [], taken⟩ := by
  -- Nothing is pending, or a document is met, or one is passed that was met before.
  induction unvisited, pending using visit.induct c generalizing met rounds with
  | case1 unvisited => exact ⟨rounds, by rw [visit]; exact .refl⟩
  | case2 unvisited next rest hnext ih =>
    obtain ⟨-, hstart, hmet⟩ := (hunvisited next).mp hnext
    have hleft : ∀ n, n ∈ unvisited.erase next ↔ n < c.size ∧ n ≠ start ∧ n ∉ next :: met := by
      intro n
      rw [hnodup.mem_erase_iff, hunvisited, List.mem_cons, not_or]
      tauto
    have hparents : ∀ p ∈ c.parents next ++ rest, p < c.size :=
      List.forall_mem_append.mpr
        ⟨fun _ hp => hc.lt_size hp, fun p hp => hpending p (List.mem_cons_of_mem _ hp)⟩
    obtain ⟨taken, hrun⟩ := ih (rounds + 1) (hnodup.erase _) hleft hparents
    refine ⟨taken, .head (.meet (.refl _) hstart hmet) ?_⟩
    rw [visit, if_pos hnext, List.reverse_cons, List.append_assoc]
    exact hrun
  | case3 unvisited next rest hnext ih =>
    have hpass : next = start ∨ next ∈ met := by
      by_contra h
      rw [not_or] at h
      exact hnext ((hunvisited next).mpr ⟨hpending next List.mem_cons_self, h⟩)
    obtain ⟨taken, hrun⟩ :=
      ih (rounds + 1) hnodup hunvisited fun p hp => hpending p (List.mem_cons_of_mem _ hp)
    refine ⟨taken, .head (.pass (.refl _) hpass) ?_⟩
    rw [visit, if_neg hnext]
    exact hrun

/-- The ancestors of a document are the other documents that its parents lead to. The walk that collects
them comes to its end, as any walk to them does: it takes no more rounds than there are links out of
the document and its ancestors, can go on as long as something is pending, and has taken just as many
rounds and met the ancestors when nothing is. -/
theorem ancestors_exact (id : Nat) :
    (c.ancestors id).Pairwise (· < ·) ∧
    (∀ other, other ∈ c.ancestors id ↔ other ≠ id ∧ c.Inherits id other) ∧
    (∃ taken, ReflTransGen (c.Round id) (c.walkFrom id)
      ⟨(c.visit ((List.range c.size).erase id) (c.parents id)).reverse, [], taken⟩) ∧
    ∀ w, ReflTransGen (c.Round id) (c.walkFrom id) w →
      w.rounds ≤ c.linksOf (id :: c.ancestors id) ∧
      (w.pending ≠ [] → ∃ w', c.Round id w w') ∧
      (w.pending = [] → w.rounds = c.linksOf (id :: c.ancestors id) ∧
        ∀ other, other ∈ w.met ↔ other ∈ c.ancestors id) := by
  have hunvisited : ∀ n, n ∈ (List.range c.size).erase id ↔ n < c.size ∧ n ≠ id ∧ n ∉ [] := by
    intro n
    rw [List.nodup_range.mem_erase_iff, List.mem_range]
    simp [and_comm]
  obtain ⟨taken, hvisit⟩ := run_visit hc 0 (List.nodup_range.erase id) hunvisited
    fun p hp => hc.lt_size hp
  rw [List.append_nil] at hvisit
  refine ⟨sorted_ancestors c id, fun other => mem_ancestors_iff hc, ⟨taken, hvisit⟩, fun w hrun => ?_⟩
  have h := (holds_walkFrom c id).run hrun
  have hmet : id :: w.met ⊆ id :: c.ancestors id := by
    refine List.cons_subset_cons id fun other hother => (mem_ancestors_iff hc).mpr ⟨?_, ?_⟩
    · exact fun heq => h.away (heq ▸ hother)
    · exact h.inherits other (List.mem_append_left _ hother)
  have hle := linksOf_le (c := c) (List.nodup_cons.mpr ⟨h.away, h.nodup⟩) hmet
  have hcount := h.count
  refine ⟨by omega, exists_round, fun hend => ?_⟩
  have hall : ∀ other, other ∈ w.met ↔ other ∈ c.ancestors id := fun other =>
    (h.mem_met_iff hend).trans (mem_ancestors_iff hc).symm
  have hgiven : (id :: c.ancestors id).Nodup := by
    refine List.nodup_cons.mpr ⟨fun hid => ?_, (sorted_ancestors c id).imp Nat.ne_of_lt⟩
    exact ((mem_ancestors_iff hc).mp hid).1 rfl
  have hge := linksOf_le (c := c) hgiven (List.cons_subset_cons id fun other => (hall other).mpr)
  rw [hend, List.length_nil] at hcount
  exact ⟨by omega, hall⟩

end

theorem ancestors_exact_of_circles :
    let c : Corpus := ⟨[⟨"0", .null, [0, 1, 2]⟩, ⟨"1", .null, [0, 3]⟩, ⟨"2", .null, [2, 3]⟩,
      ⟨"3", .null, []⟩, ⟨"4", .null, [0]⟩]⟩
    c.Closed ∧ (c.ancestors 0 = [1, 2, 3] ∧ c.Inherits 0 0) ∧ c.ancestors 4 = [0, 1, 2, 3] ∧
      ∀ w, ReflTransGen (c.Round 0) (c.walkFrom 0) w → w.rounds ≤ 7 := by
  intro c
  have hc : c.Closed := by decide
  have hancestors : c.ancestors 0 = [1, 2, 3] := by cbv
  obtain ⟨-, -, -, hwalk⟩ := ancestors_exact hc 0
  refine ⟨hc, ⟨hancestors, .single (by decide)⟩, by cbv, fun w hrun => ?_⟩
  have hrounds := (hwalk w hrun).1
  rwa [hancestors] at hrounds

end Overlay.Corpus
