import Overlay.Proofs.Escape.Value
import Overlay.Proofs.Literal.Evaluation

/-!
# Unescaping

Unescaping keeps the shape of a value, with one exception: keys of one map may become the same, and then
only the last of their entries is left (`unescaped_finalize_iff`). Keys in which all dollar signs are
doubled stay apart.
-/

namespace Overlay

namespace Value

mutual
/-- The second value is the first one with all strings and keys unescaped. Every entry and every element
of the first has its own in the second, and there are no others. -/
def Unescaped : Value → Value → Prop
  | .string s, w => w = .string (Output.unescapeText s)
  | .map entries, w =>
    ∃ others, w = .map others ∧ others.length = entries.length ∧ UnescapedEntries entries others
  | .list items, w => ∃ others, w = .list others ∧ UnescapedItems items others
  | v, w => w = v

def UnescapedItems : List Value → List Value → Prop
  | [], others => others = []
  | x :: rest, others => ∃ y ys, others = y :: ys ∧ Unescaped x y ∧ UnescapedItems rest ys

def UnescapedEntries : List (String × Value) → Entries Value → Prop
  | [], _ => True
  | (k, x) :: rest, others =>
    (∃ y, (Output.unescapeText k, y) ∈ others ∧ Unescaped x y) ∧ UnescapedEntries rest others
end

/-- The keys of a map after unescaping, with those that are the same. -/
def unescapedKeys (entries : Entries Value) : List String :=
  entries.map fun e => Output.unescapeText e.1

/-- No two keys of a map become the same. -/
def KeysApart : Value → Prop
  | .map entries => (unescapedKeys entries).Nodup
  | _ => True

instance : DecidablePred KeysApart
  | .map entries => inferInstanceAs (Decidable (unescapedKeys entries).Nodup)
  | .null | .bool _ | .int _ | .float _ | .string _ | .list _ => isTrue trivial

theorem unescapedItems_iff {items others : List Value} :
    UnescapedItems items others ↔ List.Forall₂ Unescaped items others := by
  induction items generalizing others with
  | nil => simp [UnescapedItems]
  | cons x rest ih =>
    simp only [UnescapedItems, ih, List.forall₂_cons_left_iff]
    constructor
    · rintro ⟨y, ys, rfl, hy, hys⟩
      exact ⟨y, ys, hy, hys, rfl⟩
    · rintro ⟨y, ys, hy, hys, rfl⟩
      exact ⟨y, ys, rfl, hy, hys⟩

theorem unescapedEntries_iff {entries : List (String × Value)} {others : Entries Value} :
    UnescapedEntries entries others ↔
      ∀ e ∈ entries, ∃ y, (Output.unescapeText e.1, y) ∈ others ∧ e.2.Unescaped y := by
  induction entries with
  | nil => simp [UnescapedEntries]
  | cons e rest ih => rw [UnescapedEntries, ih, List.forall_mem_cons]

theorem unescaped_map {entries others : Entries Value} :
    (Value.map entries).Unescaped (.map others) ↔ others.length = entries.length ∧
      ∀ e ∈ entries, ∃ y, (Output.unescapeText e.1, y) ∈ others ∧ e.2.Unescaped y := by
  rw [Unescaped, ← unescapedEntries_iff]
  constructor
  · rintro ⟨_, ⟨⟩, h⟩
    exact h
  · exact fun h => ⟨others, rfl, h⟩

theorem unescaped_list {items others : List Value} :
    (Value.list items).Unescaped (.list others) ↔ List.Forall₂ Unescaped items others := by
  rw [Unescaped, ← unescapedItems_iff]
  constructor
  · rintro ⟨_, ⟨⟩, h⟩
    exact h
  · exact fun h => ⟨others, rfl, h⟩

/-! ## What is left of a map -/

/-- The entries of a map after unescaping, with those that have the same key. -/
def unescapedPairs (entries : Entries Value) : List (String × Value) :=
  entries.map fun e => (Output.unescapeText e.1, Output.finalize e.2)

theorem keys_unescapedPairs (entries : Entries Value) :
    Entries.keys (unescapedPairs entries) = unescapedKeys entries := by
  rw [Entries.keys, unescapedPairs, List.map_map]
  rfl

theorem length_finalize_iff (entries : Entries Value) :
    (Entries.ofList (unescapedPairs entries)).length = entries.length ↔
      (Value.map entries).KeysApart := by
  have hlength : entries.length = (unescapedPairs entries).length := (List.length_map _).symm
  rw [hlength, Entries.length_ofList_eq_iff, keys_unescapedPairs]
  rfl

/-- Unescaping keeps all that a value holds exactly if no two keys of a map in it become the same. -/
theorem unescaped_iff_keysApart (v : Value) :
    v.Unescaped (Output.finalize v) ↔ Everywhere KeysApart v := by
  induction v using induction with
  | map entries ih =>
    have hself : (Value.map entries).KeysApart → ∀ e ∈ entries,
        Entries.lookup (Output.unescapeText e.1) (Entries.ofList (unescapedPairs entries)) =
          some (Output.finalize e.2) := fun hapart e he => by
      refine Entries.lookup_ofList_of_mem ?_ (List.mem_map_of_mem he)
      rw [keys_unescapedPairs]
      exact hapart
    rw [Output.finalize_map, unescaped_map, everywhere_map]
    constructor
    · rintro ⟨hlength, h⟩
      have hapart := (length_finalize_iff entries).mp hlength
      refine ⟨hapart, fun e he => ?_⟩
      obtain ⟨y, hy, hunescaped⟩ := h e he
      have hlookup := Entries.lookup_of_mem (Entries.sorted_ofList _) hy
      obtain rfl := Option.some.inj ((hself hapart e he).symm.trans hlookup)
      exact (ih e he).mp hunescaped
    · rintro ⟨hapart, h⟩
      refine ⟨(length_finalize_iff entries).mpr hapart, fun e he => ?_⟩
      exact ⟨_, Entries.mem_of_lookup (hself hapart e he), (ih e he).mpr (h e he)⟩
  | list items ih =>
    rw [Output.finalize_list, unescaped_list, everywhere_list, List.forall₂_map_right_iff,
      List.forall₂_same]
    constructor
    · exact fun h => ⟨trivial, fun x hx => (ih x hx).mp (h x hx)⟩
    · exact fun h x hx => (ih x hx).mpr (h.2 x hx)
  | string s => exact iff_of_true rfl ((everywhere_leaf rfl).mpr trivial)
  | _ => exact iff_of_true rfl ((everywhere_leaf rfl).mpr trivial)

/-- Values whose dollar signs are doubled lose nothing. -/
theorem keysApart_escape {v : Value} (h : v.WellFormed) : Everywhere KeysApart v.escape := by
  induction v using induction with
  | map entries ih =>
    obtain ⟨hs, h⟩ := wellFormed_map.mp h
    rw [escape, escapeEntries_eq, everywhere_map, List.forall_mem_map]
    refine ⟨?_, fun e he => ih e he (h e he)⟩
    have hkeys : unescapedKeys (entries.map fun e => (escapeText e.1, e.2.escape)) =
        Entries.keys entries := by
      rw [unescapedKeys, List.map_map]
      exact List.map_congr_left fun e _ => unescapeText_escapeText e.1
    rw [KeysApart, hkeys]
    exact hs.nodup_keys
  | list items ih =>
    rw [escape, escapeItems_eq, everywhere_list, List.forall_mem_map]
    exact ⟨trivial, fun x hx => ih x hx (wellFormed_list.mp h x hx)⟩
  | _ => exact (everywhere_leaf rfl).mpr trivial

/-- Unescaping keeps the shape of a value exactly if no two keys of a map in it become the same. Of any
map one entry is left for each key that comes out, that of the last key which becomes it. -/
theorem unescaped_finalize_iff (v : Value) :
    (v.Unescaped (Output.finalize v) ↔ Everywhere KeysApart v) ∧
    ∀ entries, ∃ kept, Output.finalize (.map entries) = .map kept ∧ Entries.Sorted kept ∧
      kept.length = (unescapedKeys entries).dedup.length ∧
      ∀ key, Entries.lookup key kept = Entries.lookup key (unescapedPairs entries).reverse := by
  refine ⟨unescaped_iff_keysApart v, fun entries => ?_⟩
  refine ⟨_, Output.finalize_map entries, Entries.sorted_ofList _, ?_, fun key => ?_⟩
  · rw [← keys_unescapedPairs]
    exact Entries.length_ofList _
  · exact Entries.lookup_ofList key _

end Value

/-- A document in which a key is written with one dollar sign and with two comes out with one entry. -/
theorem Evaluation.evaluate_of_colliding_keys :
    let v : Value := .map [("a$", .int 1), ("a$$", .int 2)]
    v.WellFormed ∧ ¬ v.Unescaped (Output.finalize v) ∧
      evaluate {} ⟨[⟨"document", v, []⟩]⟩ [0] = pure [.map [("a$", .int 2)]] := by
  intro v
  have hplain : Corpus.Plain ⟨[⟨"document", v, []⟩]⟩ := by
    refine ⟨fun id => ?_, fun id => ?_⟩
    · cases id with
      | zero => exact (by decide : v.Literal)
      | succ id => exact (by decide : Value.null.Literal)
    · cases id <;> rfl
  have hfinal : Output.finalize v = .map [("a$", .int 2)] := by decide
  refine ⟨by decide, ?_, ?_⟩
  · rw [Value.unescaped_iff_keysApart]
    decide
  · rw [evaluate_plain {} hplain, ← hfinal]
    rfl

end Overlay
