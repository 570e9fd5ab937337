import Overlay.Proofs.Result
import Overlay.Proofs.Text.Fields
import Overlay.Proofs.Text.Numeral
import Overlay.Proofs.Value.Keys
import Overlay.Proofs.Value.Place
import Overlay.Reference

/-!
# Addresses of nodes

The keys and positions that lead to a node refer to it, joined by dots or listed one by one, if no key
is empty or has a dot and the text does not look like a list or map. The paths in errors are joined in
the same way, so the path of the first required mark refers to that mark.
-/

namespace Overlay

namespace Text

theorem dropWhile_append_of_head {p : Char → Bool} {s t : List Char} {c d : Char}
    (ht : t.head? = some d) (hd : p d = false) (hne : d ≠ c)
    (h : ((s ++ t).dropWhile p).head? = some c) : (s.dropWhile p).head? = some c := by
  rw [List.dropWhile_append] at h
  cases hs : s.dropWhile p with
  | nil =>
    rw [hs] at h
    obtain ⟨rest, rfl⟩ : ∃ rest, t = d :: rest := by
      cases t with
      | nil => cases ht
      | cons c rest => exact ⟨rest, by rw [Option.some.inj ht]⟩
    simp only [List.isEmpty_nil, if_true] at h
    rw [List.dropWhile_cons_of_neg (by simp [hd])] at h
    exact absurd (Option.some.inj h) hne
  | cons e rest =>
    rw [hs] at h
    simpa using h

end Text

/-! ## Places as texts -/

namespace Step

/-- The segment that stands for a step in a dotted path. -/
def segment : Step → String
  | .key k => k
  | .item i => toString i

/-- A step whose segment is read back as it is. -/
def IsPlain : Step → Prop
  | .key k => k ≠ "" ∧ '.' ∉ k.toList
  | .item _ => True

instance : DecidablePred IsPlain
  | .key k => inferInstanceAs (Decidable (k ≠ "" ∧ '.' ∉ k.toList))
  | .item _ => isTrue trivial

/-- How a step is written in a list: a key as a string, a position as an integer. -/
inductive Names : Step → Value → Prop
  | key (k : String) : Names (.key k) (.string k)
  | item {i : Nat} {n : Int64} : n.toInt = i → Names (.item i) (.int n)

theorem toList_segment_item (i : Nat) : (Step.item i).segment.toList = Text.decimal i :=
  Nat.toList_repr

theorem IsPlain.segment {s : Step} (h : s.IsPlain) : s.segment ≠ "" ∧ '.' ∉ s.segment.toList := by
  cases s with
  | key k => exact h
  | item i =>
    constructor
    · intro hempty
      have hnil := toList_segment_item i
      rw [hempty] at hnil
      exact Text.decimal_ne_nil i hnil.symm
    · rw [toList_segment_item]
      intro hdot
      cases Text.isDigit_of_mem_decimal hdot

theorem entry?_of_child? {k : String} {v x : Value} (h : (Step.key k).child? v = some x) :
    v.entry? k = some x := by
  cases v with
  | map entries => exact h
  | _ => cases h

end Step

/-- The dotted path of a place. -/
def Place.dotted (p : Place) : String :=
  Text.joined "." (p.map Step.segment)

/-- What stands at a place. -/
def Value.at? (v : Value) : Place → Option Value
  | [] => some v
  | step :: rest => (step.child? v).bind fun x => x.at? rest

namespace Place

theorem keyPath_of_nonempty {path : String} (h : path ≠ "") : ∀ p : Place,
    p.keyPath id path = Text.joined "." (path :: p.map Step.segment)
  | [] => by simp [keyPath, Text.joined]
  | step :: rest => by
    have hchild : KeyPath.child path step.segment = path ++ "." ++ step.segment := if_neg h
    have hne : path ++ "." ++ step.segment ≠ "" := by simp [String.append_eq_empty_iff]
    have hstep : keyPath id path (step :: rest) = keyPath id (path ++ "." ++ step.segment) rest := by
      cases step with
      | key k => rw [← hchild]; rfl
      | item i => rw [← hchild]; rfl
    rw [hstep, keyPath_of_nonempty hne rest, List.map_cons, Text.joined_cons_append]

/-- Key paths are dotted paths. -/
theorem keyPath_eq_dotted {p : Place} (h : ∀ s ∈ p, s.IsPlain) : p.keyPath id "" = p.dotted := by
  cases p with
  | nil => rfl
  | cons step rest =>
    have hne := (h step List.mem_cons_self).segment.1
    have hstep : keyPath id "" (step :: rest) = keyPath id step.segment rest := by
      cases step with
      | key k => rfl
      | item i => rfl
    rw [hstep, keyPath_of_nonempty hne]
    rfl

end Place

namespace Value

variable {v n : Value} {p : Place}

theorem Keyed.of_at? {K : String → Prop} (hv : v.Keyed K) (h : v.at? p = some n) :
    ∀ k, .key k ∈ p → K k := by
  induction p generalizing v with
  | nil => exact fun k hk => absurd hk List.not_mem_nil
  | cons step p ih =>
    obtain ⟨x, hx, hp⟩ := Option.bind_eq_some_iff.mp h
    have hbelow : x.Keyed K ∧ ∀ k, step = .key k → K k := by
      cases step with
      | key k =>
        cases v with
        | map entries =>
          obtain ⟨hk, hx⟩ := keyed_map.mp hv _ (Entries.mem_of_lookup hx)
          exact ⟨hx, fun _ heq => by cases heq; exact hk⟩
        | _ => cases hx
      | item i =>
        cases v with
        | list items =>
          obtain ⟨hi, rfl⟩ := List.getElem?_eq_some_iff.mp hx
          exact ⟨keyed_list.mp hv _ (List.getElem_mem hi), nofun⟩
        | _ => cases hx
    intro k hk
    rcases List.mem_cons.mp hk with heq | hk
    · exact hbelow.2 k heq.symm
    · exact ih hbelow.1 hp k hk

theorem at?_of_textAt? {s : String} (h : v.textAt? p = some s) : v.at? p = some (.string s) := by
  induction p generalizing v with
  | nil =>
    cases v with
    | string t =>
      cases h
      rfl
    | _ => cases h
  | cons step p ih =>
    obtain ⟨x, hx, hp⟩ := Option.bind_eq_some_iff.mp h
    rw [at?, hx]
    exact ih hp

theorem mapTexts_self (v : Value) : v.mapTexts id (fun _ s => s) = v := by
  induction v using induction with
  | map entries ih =>
    rw [mapTexts_map]
    refine congrArg Value.map ((List.map_congr_left fun e he => ?_).trans (List.map_id _))
    rw [ih e he]
    rfl
  | list items ih =>
    rw [mapTexts_list]
    refine congrArg Value.list (List.ext_getElem (by simp) fun i hi _ => ?_)
    rw [List.getElem_mapIdx]
    exact ih _ (List.getElem_mem _)
  | _ => rfl

/-- The first required mark stands at the place that its path is made of. -/
theorem exists_at?_of_firstRequired (hv : v.WellFormed) {path found : String}
    (h : v.firstRequired path = some found) :
    ∃ p, v.at? p = some (.string Directive.required) ∧ Place.keyPath id path p = found := by
  rw [← mapTexts_self v] at h
  obtain ⟨p, s, hs, rfl, hpath⟩ := exists_of_firstRequired hv h
  exact ⟨p, at?_of_textAt? hs, hpath⟩

end Value

namespace Reference

/-! ## Reading dotted paths -/

/-- Whether a text looks like a list or map, which it is then read as. -/
def LooksStructured (s : String) : Prop :=
  ∃ c ∈ ['[', '\x7b'], (Text.trimStart s.toList).head? = some c

instance (s : String) : Decidable (LooksStructured s) :=
  decidable_of_iff ((Text.trimStart s.toList).head? = some '[' ∨
    (Text.trimStart s.toList).head? = some '\x7b') (by simp [LooksStructured])

theorem structured?_eq_none {s : String} (h : ¬ LooksStructured s) : structured? s = none := by
  unfold structured?
  split
  · rename_i rest hs
    exact absurd ⟨'[', by simp, by rw [hs]; rfl⟩ h
  · rename_i rest hs
    exact absurd ⟨'\x7b', by simp, by rw [hs]; rfl⟩ h
  · rfl

theorem splitPath_joined {segments : List String} (h : ∀ s ∈ segments, s ≠ "" ∧ '.' ∉ s.toList) :
    splitPath (Text.joined "." segments) = segments := by
  cases segments with
  | nil => rfl
  | cons first rest =>
    have hdot : ".".toList = ['.'] := rfl
    have hfields := Text.fields_joined hdot (fun s hs => (h s hs).2) (List.cons_ne_nil first rest)
    have hkept : ((first :: rest).map String.toList).filter (fun s => !s.isEmpty) =
        (first :: rest).map String.toList := by
      refine List.filter_eq_self.mpr (List.forall_mem_map.mpr fun s hs => ?_)
      simpa using (h s hs).1
    rw [splitPath, hfields, hkept, List.map_map]
    simp

theorem child?_segment {step : Step} {v x : Value} (h : step.child? v = some x) :
    child? step.segment v = some x := by
  cases step with
  | key k =>
    cases v with
    | map entries => exact h
    | _ => cases h
  | item i =>
    cases v with
    | list items =>
      rw [child?, Step.toList_segment_item, Text.readCount?_decimal]
      exact h
    | _ => cases h

theorem follow?_segments {v n : Value} {p : Place} (h : v.at? p = some n) :
    follow? v (p.map Step.segment) = some n := by
  induction p generalizing v with
  | nil => exact h
  | cons step p ih =>
    obtain ⟨x, hx, hp⟩ := Option.bind_eq_some_iff.mp h
    rw [List.map_cons, follow?, child?_segment hx]
    exact ih hp

theorem segments_of_names {p : Place} {items : List Value} (hp : ∀ s ∈ p, s.IsPlain)
    (h : List.Forall₂ Step.Names p items) : segments items = .ok (p.map Step.segment) := by
  induction h with
  | nil => rfl
  | @cons step item p items hname _ ih =>
    obtain ⟨hstep, hp⟩ := List.forall_mem_cons.mp hp
    have ih := ih hp
    cases hname with
    | key k =>
      have hsplit : splitPath k = [k] := by
        simpa [Text.joined] using splitPath_joined (List.forall_mem_singleton.mpr hstep)
      rw [segments, ih, hsplit]
      rfl
    | item hi =>
      rw [segments, ih, hi]
      rfl

/-! ## Addresses -/

theorem looksStructured_first {first : String} {rest : List String}
    (h : LooksStructured (Text.joined "." (first :: rest))) : LooksStructured first := by
  obtain ⟨c, hc, hhead⟩ := h
  refine ⟨c, hc, ?_⟩
  cases rest with
  | nil => simpa [Text.joined] using hhead
  | cons second rest =>
    rw [Text.joined, String.intercalate_cons_cons, String.append_assoc, String.toList_append] at hhead
    refine Text.dropWhile_append_of_head (d := '.') (by simp) (by decide) ?_ hhead
    rintro rfl
    revert hc
    decide

/-- A dotted path looks structured only if its first step is a key that does. -/
theorem exists_of_looksStructured_dotted {p : Place} (h : LooksStructured p.dotted) :
    ∃ k rest, p = .key k :: rest ∧ LooksStructured k := by
  cases p with
  | nil => exact absurd h (by decide)
  | cons step rest =>
    have hfirst : LooksStructured step.segment := looksStructured_first h
    cases step with
    | key k => exact ⟨k, rest, rfl, hfirst⟩
    | item i =>
      -- What a position starts with is a digit.
      obtain ⟨c, hc, hhead⟩ := hfirst
      rw [Step.toList_segment_item] at hhead
      have hmem : c ∈ Text.decimal i :=
        (List.dropWhile_suffix _).subset (List.mem_of_mem_head? hhead)
      have hdigit := Text.isDigit_of_mem_decimal hmem
      simp only [List.mem_cons, List.not_mem_nil, or_false] at hc
      rcases hc with rfl | rfl <;> cases hdigit

section
variable (site : Site)

theorem resolve_dotted {p : Place} {n : Value} (hp : ∀ s ∈ p, s.IsPlain)
    (h : (site.assembly.corpus.data site.document).at? p = some n) (hlooks : ¬ LooksStructured p.dotted) :
    resolve site (.string p.dotted) = .ok n := by
  have hsplit : splitPath p.dotted = p.map Step.segment :=
    splitPath_joined (List.forall_mem_map.mpr fun s hs => (hp s hs).segment)
  rw [resolve, structured?_eq_none hlooks]
  dsimp only
  rw [hsplit, walk, follow?_segments h]

theorem resolve_listed {p : Place} {n : Value} {items : List Value} (hp : ∀ s ∈ p, s.IsPlain)
    (h : (site.assembly.corpus.data site.document).at? p = some n)
    (hnames : List.Forall₂ Step.Names p items) : resolve site (.list items) = .ok n := by
  have hsegments := segments_of_names hp hnames
  -- No step is written as a map, so the list has no pattern and is read in its own document.
  have hresolve : resolve site (.list items) = (do
      walk site.assembly.corpus site.document (← segments items) (Value.list items).display) := by
    cases hnames with
    | nil => rfl
    | cons hname _ => cases hname <;> rfl
  rw [hresolve, hsegments, Result.ok_bind, walk, follow?_segments h]

/-- A node is found by its dotted path and by the list of its keys and positions. So the path of the
first required mark of a document leads to that mark from there. -/
theorem resolve_address (hdata : (site.assembly.corpus.data site.document).WellFormed) :
    (∀ (p : Place) (n : Value), (site.assembly.corpus.data site.document).at? p = some n →
      (∀ s ∈ p, s.IsPlain) → ¬ LooksStructured p.dotted →
      resolve site (.string p.dotted) = .ok n ∧
        ∀ items, List.Forall₂ Step.Names p items → resolve site (.list items) = .ok n) ∧
    ((site.assembly.corpus.data site.document).Keyed (fun k => k ≠ "" ∧ '.' ∉ k.toList) →
      (∀ k x, Value.entry? k (site.assembly.corpus.data site.document) = some x → ¬ LooksStructured k) →
      ∀ e, (site.assembly.corpus.data site.document).validate = .error e →
        ∃ path, e = .atKey .requiredField path ∧
          resolve site (.string path) = .ok (.string Directive.required)) := by
  refine ⟨fun p n h hp hlooks => ⟨resolve_dotted site hp h hlooks, fun items hnames =>
    resolve_listed site hp h hnames⟩, fun hkeys hroot e he => ?_⟩
  rw [Value.validate] at he
  split at he
  · rename_i path hpath
    cases he
    obtain ⟨p, hp, rfl⟩ := Value.exists_at?_of_firstRequired hdata hpath
    have hplain : ∀ s ∈ p, s.IsPlain := by
      intro s hs
      cases s with
      | key k => exact hkeys.of_at? hp k hs
      | item i => exact trivial
    have hlooks : ¬ LooksStructured p.dotted := by
      intro hlooks
      obtain ⟨k, rest, rfl, hk⟩ := exists_of_looksStructured_dotted hlooks
      obtain ⟨x, hx, -⟩ := Option.bind_eq_some_iff.mp hp
      exact hroot k x (Step.entry?_of_child? hx) hk
    refine ⟨_, rfl, ?_⟩
    rw [Place.keyPath_eq_dotted hplain]
    exact resolve_dotted site hplain hp hlooks
  · cases he

end

theorem resolve_address_of_numerals :
    let data : Value := .map [("0", .list [.string "x",
      .map [("01", .int 1), ("1", .string "$required")]])]
    let site : Site := ⟨⟨⟨[⟨"document", data, []⟩]⟩, [0]⟩, 0⟩
    let p : Place := [.key "0", .item 1, .key "01"]
    (data.WellFormed ∧ data.at? p = some (.int 1) ∧ (∀ s ∈ p, s.IsPlain) ∧
      ¬ LooksStructured p.dotted ∧ data.Keyed (fun k => k ≠ "" ∧ '.' ∉ k.toList) ∧
      ¬ LooksStructured "0" ∧ data.validate = .error (.atKey .requiredField "0.1.1")) ∧
    resolve site (.string "0.1.01") = .ok (.int 1) ∧
    resolve site (.list [.string "0", .int 1, .string "01"]) = .ok (.int 1) ∧
    resolve site (.string "0.1.1") = .ok (.string "$required") := by
  intro data site p
  have hdata : data.WellFormed := by decide
  have hat : data.at? p = some (.int 1) := by decide
  have hplain : ∀ s ∈ p, s.IsPlain := by decide
  have hlooks : ¬ LooksStructured p.dotted := by decide
  have hkeys : data.Keyed (fun k => k ≠ "" ∧ '.' ∉ k.toList) := by decide
  have hroot : ¬ LooksStructured "0" := by decide
  have hvalidate : data.validate = .error (.atKey .requiredField "0.1.1") := by decide
  have hroots : ∀ k x, data.entry? k = some x → ¬ LooksStructured k := by
    intro k x hx
    have hx : Entries.lookup k [("0", _)] = some x := hx
    cases List.mem_singleton.mp (Entries.mem_of_lookup hx)
    exact hroot
  obtain ⟨hnodes, hmark⟩ := resolve_address site hdata
  obtain ⟨hdotted, hlisted⟩ := hnodes p (.int 1) hat hplain hlooks
  obtain ⟨path, heq, hmark⟩ := hmark hkeys hroots _ hvalidate
  cases heq
  refine ⟨⟨hdata, hat, hplain, hlooks, hkeys, hroot, hvalidate⟩, hdotted, hlisted _ ?_, hmark⟩
  exact .cons (.key "0") (.cons (.item rfl) (.cons (.key "01") .nil))

end Reference

end Overlay
