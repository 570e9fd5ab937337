import Mathlib.Data.List.Dedup
import Mathlib.Data.List.Forall2
import Mathlib.Data.List.Induction
import Mathlib.Data.String.Basic
import Overlay.Entries

/-!
# Sorted entries

Sorted entries are determined by their look-ups: `forall₂_of_lookup` compares two maps key by key.
-/

namespace Overlay.Entries

variable {α β : Type}

def put (key : String) : Option α → Entries α → Entries α
  | some x, entries => insert key x entries
  | none, entries => erase key entries

theorem sorted_nil : Sorted ([] : Entries α) := List.Pairwise.nil

theorem sorted_cons {e : String × α} {entries : Entries α} :
    Sorted (e :: entries) ↔ (∀ a ∈ entries, e.1 < a.1) ∧ Sorted entries :=
  List.pairwise_cons

theorem mem_of_lookup {key : String} {x : α} :
    ∀ {entries : Entries α}, lookup key entries = some x → (key, x) ∈ entries
  | [], h => by cases h
  | (k, y) :: rest, h => by
    rw [lookup] at h
    split at h
    · rename_i hk
      subst hk; cases h
      exact List.mem_cons_self
    · exact List.mem_cons_of_mem _ (mem_of_lookup h)

theorem lookup_eq_none_iff {key : String} :
    ∀ {entries : Entries α}, lookup key entries = none ↔ ∀ e ∈ entries, e.1 ≠ key
  | [] => by simp [lookup]
  | (k, y) :: rest => by
    rw [lookup]
    by_cases hk : k = key
    · simp [hk]
    · simp [hk, @lookup_eq_none_iff key rest]

theorem has_eq_false_iff {key : String} {entries : Entries α} :
    has key entries = false ↔ ∀ e ∈ entries, e.1 ≠ key := by
  rw [has, Option.isSome_eq_false_iff, Option.isNone_iff_eq_none, lookup_eq_none_iff]

theorem mem_keys {key : String} {entries : Entries α} :
    key ∈ keys entries ↔ lookup key entries ≠ none := by
  rw [Ne, lookup_eq_none_iff]
  simp [keys]

theorem Sorted.nodup_keys {entries : Entries α} (hs : Sorted entries) : (keys entries).Nodup :=
  List.pairwise_map.mpr (List.Pairwise.imp (fun h => h.ne) hs)

theorem lookup_of_mem_of_nodup {key : String} {x : α} :
    ∀ {entries : Entries α}, (keys entries).Nodup → (key, x) ∈ entries → lookup key entries = some x
  | [], _, h => by cases h
  | (k, y) :: rest, hn, h => by
    obtain ⟨hk, hn⟩ := List.nodup_cons.mp hn
    rw [lookup]
    rcases List.mem_cons.mp h with e | h
    · cases e; exact if_pos rfl
    · have hmem : key ∈ keys rest := List.mem_map_of_mem h
      rw [if_neg fun heq : k = key => hk (heq ▸ hmem)]
      exact lookup_of_mem_of_nodup hn h

theorem lookup_of_mem {key : String} {x : α} {entries : Entries α} (hs : Sorted entries)
    (h : (key, x) ∈ entries) : lookup key entries = some x :=
  lookup_of_mem_of_nodup hs.nodup_keys h

theorem lookup_insert (key other : String) (x : α) (entries : Entries α) :
    lookup other (insert key x entries) =
      if other = key then some x else lookup other entries := by
  by_cases h : other = key
  · subst h; simp
  · rw [if_neg h, lookup_insert_ne h]

theorem lookup_erase_self {key : String} :
    ∀ {entries : Entries α}, Sorted entries → lookup key (erase key entries) = none
  | [], _ => rfl
  | (k, y) :: rest, hs => by
    obtain ⟨hlt, hs⟩ := sorted_cons.mp hs
    rw [erase]
    by_cases hk : k = key
    · rw [if_pos hk]
      subst hk
      exact lookup_eq_none_iff.mpr fun e he => (hlt e he).ne'
    · rw [if_neg hk, lookup, if_neg hk]
      exact lookup_erase_self hs

theorem lookup_put {key : String} {entries : Entries α} (hs : Sorted entries) (o : Option α)
    (other : String) :
    lookup other (put key o entries) = if other = key then o else lookup other entries := by
  cases o with
  | some x => exact lookup_insert key other x entries
  | none =>
    by_cases h : other = key
    · subst h; rw [if_pos rfl]; exact lookup_erase_self hs
    · rw [if_neg h]; exact lookup_erase_ne h entries

theorem lookup_filter_keys (p : String → Bool) (key : String) :
    ∀ entries : Entries α, lookup key (entries.filter fun e => p e.1) =
      if p key then lookup key entries else none
  | [] => by simp
  | (k, y) :: rest => by
    have ih := lookup_filter_keys p key rest
    rw [List.filter_cons, lookup]
    by_cases hk : k = key
    · subst hk
      cases hp : p k with
      | true => simp [lookup]
      | false => simpa [hp] using ih
    · cases hp : p k with
      | true => simpa [lookup, hk] using ih
      | false => simpa [hk] using ih

theorem mem_insert {key : String} {x : α} {e : String × α} :
    ∀ {entries : Entries α}, e ∈ insert key x entries → e = (key, x) ∨ e ∈ entries
  | [], h => .inl (List.mem_singleton.mp h)
  | (k, y) :: rest, h => by
    rw [insert] at h
    split at h
    · exact List.mem_cons.mp h
    · split at h
      · exact (List.mem_cons.mp h).imp_right (List.mem_cons_of_mem _)
      · rcases List.mem_cons.mp h with h | h
        · exact .inr (h ▸ List.mem_cons_self)
        · exact (mem_insert h).imp_right (List.mem_cons_of_mem _)

theorem forall_insert {Q : String × α → Prop} {key : String} {x : α} (hx : Q (key, x))
    {entries : Entries α} (h : ∀ e ∈ entries, Q e) : ∀ e ∈ insert key x entries, Q e := by
  intro e he
  rcases mem_insert he with rfl | he
  · exact hx
  · exact h e he

theorem has_insert_self (key : String) (x : α) (entries : Entries α) :
    has key (insert key x entries) = true := by
  rw [has, lookup_insert_self]
  rfl

theorem without_insert {dropped : List String} {key : String}
    (h : key ∈ dropped) (x : α) : ∀ entries : Entries α,
      without dropped (insert key x entries) = without dropped entries
  | [] => by simp [insert, without, h]
  | (k, y) :: rest => by
    have ih := without_insert h x rest
    rw [insert]
    split
    · simp [without, h]
    · split
      · rename_i hk
        subst hk
        simp [without, h]
      · simp only [without, List.filter_cons] at ih ⊢
        rw [ih]

theorem erase_of_lookup_eq_none {key : String} :
    ∀ {entries : Entries α}, lookup key entries = none → erase key entries = entries
  | [], _ => rfl
  | (k, y) :: rest, h => by
    rw [lookup] at h
    split at h
    · cases h
    · rename_i hk
      rw [erase, if_neg hk, erase_of_lookup_eq_none h]

theorem erase_sublist (key : String) :
    ∀ entries : Entries α, (erase key entries).Sublist entries
  | [] => List.Sublist.slnil
  | (k, y) :: rest => by
    rw [erase]
    split
    · exact List.sublist_cons_self _ _
    · exact (erase_sublist key rest).cons_cons _

theorem mem_put {key : String} {o : Option α} {e : String × α} {entries : Entries α}
    (h : e ∈ put key o entries) : (∃ x, o = some x ∧ e = (key, x)) ∨ e ∈ entries := by
  cases o with
  | some x => exact (mem_insert h).imp_left fun heq => ⟨x, rfl, heq⟩
  | none => exact .inr ((erase_sublist key entries).subset h)

theorem Sorted.erase {entries : Entries α} (hs : Sorted entries) (key : String) :
    Sorted (erase key entries) :=
  hs.sublist (erase_sublist key entries)

theorem Sorted.insert (key : String) (x : α) :
    ∀ {entries : Entries α}, Sorted entries → Sorted (insert key x entries)
  | [], _ => List.pairwise_singleton _ _
  | (k, y) :: rest, hs => by
    obtain ⟨hlt, hr⟩ := sorted_cons.mp hs
    rw [Entries.insert]
    split
    · rename_i h
      refine sorted_cons.mpr ⟨fun e he => ?_, hs⟩
      rcases List.mem_cons.mp he with rfl | he
      · exact h
      · exact h.trans (hlt e he)
    · split
      · rename_i h
        exact sorted_cons.mpr ⟨h ▸ hlt, hr⟩
      · rename_i h h'
        refine sorted_cons.mpr ⟨fun e he => ?_, Sorted.insert key x hr⟩
        rcases mem_insert he with rfl | he
        · exact lt_of_le_of_ne (not_lt.mp h) h'
        · exact hlt e he

theorem Sorted.put {entries : Entries α} (hs : Sorted entries) (key : String) (o : Option α) :
    Sorted (put key o entries) := by
  cases o with
  | some x => exact hs.insert key x
  | none => exact hs.erase key

theorem Sorted.filterMap (f : String → α → Option β) {entries : Entries α} (hs : Sorted entries) :
    Sorted (entries.filterMap fun e => (f e.1 e.2).map (e.1, ·)) := by
  refine List.Pairwise.filterMap _ (fun a b hab a' ha b' hb => ?_) hs
  obtain ⟨x, -, rfl⟩ := Option.map_eq_some_iff.mp ha
  obtain ⟨y, -, rfl⟩ := Option.map_eq_some_iff.mp hb
  exact hab

theorem lookup_filterMap (f : String → α → Option β) (key : String) :
    ∀ {entries : Entries α}, Sorted entries →
      lookup key (entries.filterMap fun e => (f e.1 e.2).map (e.1, ·)) =
        (lookup key entries).bind (f key)
  | [], _ => rfl
  | (k, x) :: rest, hs => by
    obtain ⟨hlt, hs⟩ := sorted_cons.mp hs
    have ih := lookup_filterMap f key hs
    rw [List.filterMap_cons]
    by_cases hk : k = key
    · subst hk
      have habsent : lookup k rest = none := lookup_eq_none_iff.mpr fun e he => (hlt e he).ne'
      cases hf : f k x with
      | none => simpa [hf, lookup, habsent] using ih
      | some y => simp [hf, lookup]
    · cases hf : f k x <;> simpa [hf, lookup, hk] using ih

theorem insert_last {key : String} (x : α) :
    ∀ {entries : Entries α}, (∀ e ∈ entries, e.1 < key) →
      insert key x entries = entries ++ [(key, x)]
  | [], _ => rfl
  | (k, y) :: rest, h => by
    obtain ⟨hk, hrest⟩ := List.forall_mem_cons.mp h
    rw [insert, if_neg (lt_asymm hk), if_neg hk.ne, insert_last x hrest]
    rfl

theorem lookup_append_self {key : String} {entries : Entries α} (h : ∀ e ∈ entries, e.1 < key)
    (x : α) : lookup key (entries ++ [(key, x)]) = some x := by
  rw [← insert_last x h, lookup_insert_self]

theorem insert_append_self {key : String} (x y : α) :
    ∀ {entries : Entries α}, (∀ e ∈ entries, e.1 < key) →
      insert key x (entries ++ [(key, y)]) = entries ++ [(key, x)]
  | [], _ => by simp [insert]
  | (k, z) :: rest, h => by
    obtain ⟨hk, hrest⟩ := List.forall_mem_cons.mp h
    rw [List.cons_append, insert, if_neg (lt_asymm hk), if_neg hk.ne, insert_append_self x y hrest]
    rfl

theorem Sorted.ofList {entries : Entries α} (hs : Sorted entries) : ofList entries = entries := by
  suffices ∀ pairs collected : Entries α, Sorted (collected ++ pairs) →
      pairs.foldl (fun entries e => Entries.insert e.1 e.2 entries) collected =
        collected ++ pairs from
    this entries [] hs
  intro pairs
  induction pairs with
  | nil => intro collected _; simp
  | cons e pairs ih =>
    intro collected hs
    have hlast : ∀ a ∈ collected, a.1 < e.1 := fun a ha =>
      (List.pairwise_append.mp hs).2.2 a ha e List.mem_cons_self
    rw [List.foldl_cons, insert_last e.2 hlast, ih _ (by simpa using hs)]
    simp

theorem ofList_concat (pairs : List (String × α)) (e : String × α) :
    ofList (pairs ++ [e]) = insert e.1 e.2 (ofList pairs) := by
  rw [ofList, List.foldl_append]
  rfl

theorem sorted_ofList (pairs : List (String × α)) : Sorted (ofList pairs) := by
  induction pairs using List.reverseRecOn with
  | nil => exact sorted_nil
  | append_singleton pairs e ih =>
    rw [ofList_concat]
    exact ih.insert e.1 e.2

/-- Of pairs with one key the last is found. -/
theorem lookup_ofList (key : String) (pairs : List (String × α)) :
    lookup key (ofList pairs) = lookup key pairs.reverse := by
  induction pairs using List.reverseRecOn with
  | nil => rfl
  | append_singleton pairs e ih =>
    rw [ofList_concat, lookup_insert, ih, List.reverse_append, List.reverse_singleton,
      List.singleton_append, lookup]
    by_cases hk : key = e.1
    · rw [if_pos hk, if_pos hk.symm]
    · rw [if_neg hk, if_neg (Ne.symm hk)]

theorem lookup_ofList_of_mem {pairs : List (String × α)} (hn : (keys pairs).Nodup) {key : String}
    {x : α} (h : (key, x) ∈ pairs) : lookup key (ofList pairs) = some x := by
  have hreversed : (keys pairs.reverse).Nodup := by
    rw [keys, List.map_reverse]
    exact List.nodup_reverse.mpr hn
  rw [lookup_ofList, lookup_of_mem_of_nodup hreversed (List.mem_reverse.mpr h)]

/-- As many entries are collected as there are different keys. -/
theorem length_ofList (pairs : List (String × α)) :
    (ofList pairs).length = (keys pairs).dedup.length := by
  have hperm : (keys (ofList pairs)).Perm (keys pairs).dedup := by
    refine (List.perm_ext_iff_of_nodup (sorted_ofList pairs).nodup_keys (List.nodup_dedup _)).mpr
      fun key => ?_
    rw [List.mem_dedup, mem_keys, lookup_ofList, ← mem_keys]
    simp [keys]
  rw [← hperm.length_eq, keys, List.length_map]

theorem length_ofList_eq_iff {pairs : List (String × α)} :
    (ofList pairs).length = pairs.length ↔ (keys pairs).Nodup := by
  have hlength : (keys pairs).length = pairs.length := List.length_map _
  rw [length_ofList, ← hlength, (List.dedup_sublist _).length_eq, List.dedup_eq_self]

/-- Two sorted maps are related entry by entry if they are related key by key. -/
theorem forall₂_of_lookup {R : α → β → Prop} :
    ∀ {xs : Entries α} {ys : Entries β}, Sorted xs → Sorted ys →
      (∀ key, Option.Rel R (lookup key xs) (lookup key ys)) →
      List.Forall₂ (fun a b => a.1 = b.1 ∧ R a.2 b.2) xs ys
  | [], [], _, _, _ => .nil
  | [], (l, y) :: ys, _, _, h => by
    have := h l
    simp [lookup] at this
  | (k, x) :: xs, [], _, _, h => by
    have := h k
    simp [lookup] at this
  | (k, x) :: xs, (l, y) :: ys, hx, hy, h => by
    obtain ⟨hlx, hxs⟩ := sorted_cons.mp hx
    obtain ⟨hly, hys⟩ := sorted_cons.mp hy
    have absent {γ : Type} {zs : Entries γ} {m n : String} (hz : ∀ e ∈ zs, n < e.1)
        (hmn : m ≤ n) : lookup m zs = none :=
      lookup_eq_none_iff.mpr fun e he => (hmn.trans_lt (hz e he)).ne'
    have hkl : k = l := by
      by_contra hne
      have h₁ := h k
      have h₂ := h l
      simp only [lookup, if_true, hne, Ne.symm hne, if_false] at h₁ h₂
      rcases lt_or_gt_of_ne hne with hlt | hgt
      · rw [absent hly hlt.le] at h₁; cases h₁
      · rw [absent hlx hgt.le] at h₂; cases h₂
    subst hkl
    have hxy := h k
    simp only [lookup, if_true] at hxy
    cases hxy with
    | some hxy =>
      refine .cons ⟨rfl, hxy⟩ (forall₂_of_lookup hxs hys fun key => ?_)
      by_cases hk : k = key
      · subst hk
        rw [absent hlx le_rfl, absent hly le_rfl]
        exact .none
      · simpa [lookup, hk] using h key

theorem rel_lookup_of_forall₂ {R : α → β → Prop} {xs : Entries α} {ys : Entries β}
    (h : List.Forall₂ (fun a b => a.1 = b.1 ∧ R a.2 b.2) xs ys) (key : String) :
    Option.Rel R (lookup key xs) (lookup key ys) := by
  induction h with
  | nil => exact .none
  | @cons a b xs ys hab _ ih =>
    rw [lookup, lookup, ← hab.1]
    split
    · exact .some hab.2
    · exact ih

theorem eq_of_lookup {xs ys : Entries α} (hx : Sorted xs) (hy : Sorted ys)
    (h : ∀ key, lookup key xs = lookup key ys) : xs = ys := by
  have hrel : ∀ key, Option.Rel Eq (lookup key xs) (lookup key ys) := fun key => by
    rw [h key]
    cases lookup key ys with
    | none => exact .none
    | some y => exact .some rfl
  have hall := forall₂_of_lookup hx hy hrel
  exact List.forall₂_eq_eq_eq ▸ hall.imp fun a b hab => Prod.ext hab.1 hab.2

end Overlay.Entries
