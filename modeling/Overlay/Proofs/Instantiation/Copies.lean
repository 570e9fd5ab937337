import Overlay.Proofs.Instantiation.Basic
import Overlay.Proofs.Instantiation.Embedding

/-!
# Three spellings of copies

A map is copied by a specification that it holds itself, as a value or as an element of a list, or by
one that marks the list around it. In all three, the content of the map is instantiated in the
environments that the specification comes to, one after the other. They differ in the key paths, and
so in nothing but where errors arise (`run_spellings`), unless a document is embedded in the map that
goes on for ever (`run_endless_spellings`).
-/

namespace Overlay.Instantiation

open Course (SameCause)
open Value (Unmarked)

/-- A map that holds the specification of its copies. -/
def withCopies (spec : Value) (entries : Entries Value) : Value :=
  .map (Entries.insert Directive.repeatOver spec entries)

/-- The copies of a map as a value, as the only element of a list, and as the only one of a marked list. -/
def spellings (spec : Value) (entries : Entries Value) : List Value :=
  [withCopies spec entries, .list [withCopies spec entries],
    .list [.map [(Directive.repeatOver, spec)], .map entries]]

/-- The copies of a map. The specification stands at a place of its own. -/
def copiesOf (f : Frame) (again : Continuation) (spec : Value) (entries : Entries Value)
    (env : Environment) (place path : String) (position : Nat) : Course (List Value) := do
  let spec ← specValue f again spec env place
  copies (content f again entries) path position (← environments spec env place)

section
variable {f : Frame} {again : Continuation} {spec : Value} {entries : Entries Value}
  {env : Environment} {path : String}

/-! ## A specification in a map -/

theorem content_insert (f : Frame) (again : Continuation) (spec : Value) (entries : Entries Value) :
    content f again (Entries.insert Directive.repeatOver spec entries) = content f again entries := by
  have hne {key : String} (h : key ≠ Directive.repeatOver) :=
    Entries.lookup_insert_ne h spec entries
  have hwithout (dropped : List String) (h : Directive.repeatOver ∈ dropped) :=
    Entries.without_insert h spec entries
  funext env path
  unfold content encoded contentOf
  simp only [Entries.has, heldValue_eq_lookup, plainEntries_insert (.inl rfl),
    hne (show Directive.encode ≠ Directive.repeatOver by decide),
    hne (show Directive.decode ≠ Directive.repeatOver by decide),
    hne (show Directive.value ≠ Directive.repeatOver by decide),
    hwithout _ (show Directive.repeatOver ∈ [Directive.decode, Directive.value,
      Directive.repeatOver, Directive.encode] by decide),
    hwithout _ (show Directive.repeatOver ∈ [Directive.value, Directive.repeatOver,
      Directive.encode] by decide)]

theorem heldSpec_insert :
    heldSpec f again (Entries.insert Directive.repeatOver spec entries) env path =
      specValue f again spec env path := by
  rw [heldSpec_eq_lookup, Entries.lookup_insert_self]

theorem instantiate_copies :
    instantiate f again (withCopies spec entries) env path =
      (fun items => some (.list items)) <$> copiesOf f again spec entries env path path 0 := by
  rw [withCopies, instantiate_map, if_pos (Entries.has_insert_self ..), heldSpec_insert, content_insert]
  simp only [copiesOf, map_eq_pure_bind, bind_assoc]

theorem soleArgument?_copies (spec : Value) (entries : Entries Value) :
    (withCopies spec entries).soleArgument? Directive.encode = none := by
  refine Option.eq_none_iff_forall_ne_some.mpr fun x hx => ?_
  have heq := Value.map.inj (Value.soleArgument?_eq_some.mp hx)
  have hspec := Entries.lookup_insert_self Directive.repeatOver spec entries
  rw [heq] at hspec
  cases hspec

theorem plainItems_copies (position : Nat) :
    plainItems f again false position [withCopies spec entries] env path =
      copiesOf f again spec entries env (KeyPath.item path position) path position := by
  rw [withCopies, plainItems_map (soleArgument?_copies spec entries), if_pos (Entries.has_insert_self ..),
    heldSpec_insert, content_insert, copiesOf]

theorem unmarked_copies (spec : Value) (hne : entries ≠ [])
    (hrepeat : Entries.has Directive.repeatOver entries = false) :
    Unmarked [withCopies spec entries] := by
  refine List.forall_mem_singleton.mpr ⟨soleArgument?_copies spec entries, ?_⟩
  refine Option.eq_none_iff_forall_ne_some.mpr fun x hx => ?_
  have heq := Value.map.inj (Value.soleArgument?_eq_some.mp hx)
  -- The map holds another key, which the insertion has left there.
  cases entries with
  | nil => exact hne rfl
  | cons e rest =>
    have hother : e.1 ≠ Directive.repeatOver := by
      rintro hk
      simp [Entries.has, Entries.lookup, hk] at hrepeat
    have hkept := Entries.lookup_insert_ne hother spec (e :: rest)
    rw [heq, Entries.lookup, if_neg hother.symm, Entries.lookup_nil, Entries.lookup, if_pos rfl] at hkept
    cases hkept

/-! ## A specification that marks a list -/

theorem plainItems_marked (hrepeat : Entries.has Directive.repeatOver entries = false)
    (hencode : (Value.map entries).soleArgument? Directive.encode = none) (position : Nat) :
    plainItems f again true position [.map [(Directive.repeatOver, spec)], .map entries] env path =
      Option.toList <$> content f again entries env (KeyPath.item path position) := by
  have hmarker : plainItems f again true position [.map [(Directive.repeatOver, spec)], .map entries]
      env path = plainItems f again false position [.map entries] env path := by
    rw [plainItems]
    rfl
  rw [hmarker, plainItems_map hencode, hrepeat]
  rfl

theorem instantiate_marked (f : Frame) (again : Continuation) (spec : Value) (env : Environment)
    (path : String) (hrepeat : Entries.has Directive.repeatOver entries = false)
    (hencode : (Value.map entries).soleArgument? Directive.encode = none) :
    instantiate f again (.list [.map [(Directive.repeatOver, spec)], .map entries]) env path =
      instantiate f again (withCopies spec entries) env path := by
  have hnames : pipelineNames path [.map [(Directive.repeatOver, spec)], .map entries] = .ok [] :=
    pipelineNames_unmarked (List.forall_mem_cons.mpr ⟨rfl, List.forall_mem_singleton.mpr hencode⟩) path
  have hspec : markedSpec f again [.map [(Directive.repeatOver, spec)], .map entries] env path =
      some <$> specValue f again spec env path := by
    rw [markedSpec, if_pos rfl]
  rw [instantiate_copies]
  simp only [instantiate, listOf, hnames, hspec, plainItems_marked hrepeat hencode, copiesOf, copies,
    map_eq_pure_bind, bind_assoc, pure_bind, Course.lift_ok, encodeThrough, List.reverse_nil,
    List.foldlM_nil]
  rfl

end

/-! ## Copies at two places -/

section
variable (f : Frame) (env : Environment)

theorem copiesOf_sameCause (spec : Value) (entries : Entries Value) (place place' path path' : String)
    (position position' : Nat) :
    SameCause (copiesOf f f.run spec entries env place path position)
      (copiesOf f f.run spec entries env place' path' position') := by
  have htrue (v : Value) : v.Everywhere (anywhere f (run_sameCause f)).good := fun _ _ => trivial
  have hentries : ∀ e ∈ entries, e.2.Everywhere (anywhere f (run_sameCause f)).good :=
    fun e _ => htrue e.2
  have hcontent : (anywhere f (run_sameCause f)).Contents (content f f.run entries)
      (content f f.run entries) :=
    Simulation.content_related _ trivial (Simulation.heldValue_related entries hentries)
      (Simulation.plainEntries_related entries hentries)
  have hspec := Simulation.specValue_related (S := anywhere f (run_sameCause f)) spec (htrue spec)
    (rfl : env = env) (p := place) (q := place') trivial
  refine hspec.bind_same fun s hs => ?_
  refine (Simulation.environments_related _ hs (rfl : env = env) trivial).bind fun envs envs' henvs => ?_
  exact (Simulation.copies_related _ hcontent henvs fun _ => trivial).imp_same fun _ _ => trivial

theorem plainItems_sameCause (items : List Value) (position position' : Nat) (path path' : String) :
    SameCause (plainItems f f.run false position items env path)
      (plainItems f f.run false position' items env path') :=
  (Simulation.plainItems_related (S := anywhere f (run_sameCause f)) false items
    (fun _ _ _ _ => trivial) (fun _ => trivial) (rfl : env = env)).imp_same fun _ _ => trivial

/-- What the elements of a list come to, wherever they stand. -/
def ItemsTo (items out : List Value) : Prop :=
  ∀ position path, plainItems f f.run false position items env path = some (.ok out)

theorem itemsTo_iff {items out : List Value} (position : Nat) (path : String) :
    ItemsTo f env items out ↔ plainItems f f.run false position items env path = some (.ok out) :=
  ⟨fun h => h position path, fun h position' path' =>
    ((plainItems_sameCause f env items position position' path path').ok_iff out).mp h⟩

theorem itemsTo_append {xs ys out : List Value} : ItemsTo f env (xs ++ ys) out ↔
    ∃ a b, ItemsTo f env xs a ∧ ItemsTo f env ys b ∧ out = a ++ b := by
  rw [itemsTo_iff f env 0 "", plainItems_append, Course.bind_eq_ok]
  constructor
  · rintro ⟨a, ha, h⟩
    obtain ⟨b, hb, h⟩ := Course.bind_eq_ok.mp h
    cases h
    exact ⟨a, b, (itemsTo_iff f env _ _).mpr ha, (itemsTo_iff f env _ _).mpr hb, rfl⟩
  · rintro ⟨a, b, ha, hb, rfl⟩
    exact ⟨a, ha 0 "", Course.bind_eq_ok.mpr ⟨b, hb _ "", rfl⟩⟩

theorem run_unmarked_iff {items : List Value} (h : Unmarked items) (path : String) {o : Option Value} :
    f.run (.list items) env path = some (.ok o) ↔
      ∃ out, ItemsTo f env items out ∧ o = some (.list out) := by
  rw [Frame.run, instantiate_unmarked h]
  refine Course.map_eq_ok.trans (exists_congr fun out => ?_)
  rw [itemsTo_iff f env 0 path]
  exact and_congr_right fun _ => eq_comm

theorem run_list_iff {items out : List Value} (h : Unmarked items) (path : String) :
    f.run (.list items) env path = some (.ok (some (.list out))) ↔ ItemsTo f env items out := by
  rw [run_unmarked_iff f env h]
  constructor
  · rintro ⟨_, hout, ⟨⟩⟩
    exact hout
  · exact fun hout => ⟨out, hout, rfl⟩

end

section
variable (f : Frame) (env : Environment) (spec : Value) {entries : Entries Value} (hne : entries ≠ [])
  (hrepeat : Entries.has Directive.repeatOver entries = false)
  (hencode : (Value.map entries).soleArgument? Directive.encode = none)
include hne hrepeat

theorem run_element_sameCause (p q : String) :
    SameCause (f.run (withCopies spec entries) env p)
      (f.run (.list [withCopies spec entries]) env q) := by
  rw [Frame.run, Frame.run, instantiate_copies,
    instantiate_unmarked (unmarked_copies spec hne hrepeat), plainItems_copies]
  exact (copiesOf_sameCause f env spec entries p (KeyPath.item q 0) p q 0 0).map_same fun _ _ => trivial

theorem run_withCopies_iff (path : String) (out : List Value) :
    f.run (withCopies spec entries) env path = some (.ok (some (.list out))) ↔
      ItemsTo f env [withCopies spec entries] out := by
  rw [(run_element_sameCause f env spec hne hrepeat path path).ok_iff]
  exact run_list_iff f env (unmarked_copies spec hne hrepeat) path

include hencode

theorem run_spelling_sameCause {v : Value} (hv : v ∈ spellings spec entries) (p q : String) :
    SameCause (f.run (withCopies spec entries) env p) (f.run v env q) := by
  simp only [spellings, List.mem_cons, List.not_mem_nil, or_false] at hv
  rcases hv with rfl | rfl | rfl
  · exact run_sameCause f _ env p q
  · exact run_element_sameCause f env spec hne hrepeat p q
  · have hmarked := instantiate_marked f f.run spec env q hrepeat hencode
    rw [← Frame.run, ← Frame.run] at hmarked
    rw [hmarked]
    exact run_sameCause f _ env p q

/-- If one spelling of copies ends anywhere, then all come to one list wherever they stand, or all fail
for one cause. Among other elements of a list the copies are spliced. -/
theorem run_spellings :
    ((∃ v ∈ spellings spec entries, ∃ path outcome, f.run v env path = some outcome) ↔
      (∃ items, ∀ v ∈ spellings spec entries, ∀ path,
        f.run v env path = some (.ok (some (.list items)))) ∨
      ∃ cause, ∀ v ∈ spellings spec entries, ∀ path,
        ∃ e, f.run v env path = some (.error e) ∧ e.cause = cause) ∧
    ∀ xs ys, Unmarked xs → Unmarked ys → ∀ path o,
      f.run (.list (xs ++ withCopies spec entries :: ys)) env path = some (.ok o) ↔
        ∃ a b c, f.run (.list xs) env path = some (.ok (some (.list a))) ∧
          f.run (withCopies spec entries) env path = some (.ok (some (.list b))) ∧
          f.run (.list ys) env path = some (.ok (some (.list c))) ∧ o = some (.list (a ++ b ++ c)) := by
  have hsame : ∀ v ∈ spellings spec entries, ∀ path, SameCause _ (f.run v env path) :=
    fun v hv path => run_spelling_sameCause f env spec hne hrepeat hencode hv "" path
  have hmem : withCopies spec entries ∈ spellings spec entries := List.mem_cons_self
  refine ⟨⟨?_, ?_⟩, fun xs ys hxs hys path o => ?_⟩
  · rintro ⟨v, hv, path, outcome, houtcome⟩
    match hrun : f.run (withCopies spec entries) env "" with
    | none =>
      rw [hrun] at hsame
      cases houtcome.symm.trans (hsame v hv path).eq_none
    | some (.error e) =>
      rw [hrun] at hsame
      exact .inr ⟨e.cause, fun v hv path => (hsame v hv path).exists_error⟩
    | some (.ok o) =>
      have hlist := hrun
      rw [Frame.run, instantiate_copies] at hlist
      obtain ⟨items, -, rfl⟩ := Course.map_eq_ok.mp hlist
      exact .inl ⟨items, fun v hv path => ((hsame v hv path).ok_iff _).mp hrun⟩
  · rintro (⟨items, h⟩ | ⟨cause, h⟩)
    · exact ⟨_, hmem, "", _, h _ hmem ""⟩
    · obtain ⟨e, he, -⟩ := h _ hmem ""
      exact ⟨_, hmem, "", _, he⟩
  · have hcopies := unmarked_copies spec hne hrepeat
    have hall : Unmarked (xs ++ withCopies spec entries :: ys) :=
      List.forall_mem_append.mpr ⟨hxs, List.forall_mem_cons.mpr ⟨hcopies _ List.mem_cons_self, hys⟩⟩
    simp only [run_unmarked_iff f env hall, run_list_iff f env hxs, run_list_iff f env hys,
      run_withCopies_iff f env spec hne hrepeat]
    constructor
    · rintro ⟨out, hout, rfl⟩
      obtain ⟨a, rest, ha, hrest, rfl⟩ := (itemsTo_append f env).mp hout
      rw [← List.singleton_append] at hrest
      obtain ⟨b, c, hb, hc, rfl⟩ := (itemsTo_append f env).mp hrest
      exact ⟨a, b, c, ha, hb, hc, by rw [List.append_assoc]⟩
    · rintro ⟨a, b, c, ha, hb, hc, rfl⟩
      refine ⟨a ++ (b ++ c), ?_, by rw [List.append_assoc]⟩
      have hrest := (itemsTo_append f env).mpr ⟨b, c, hb, hc, rfl⟩
      exact (itemsTo_append f env).mpr ⟨a, b ++ c, ha, hrest, rfl⟩

end

theorem run_spellings_of_values :
    let f : Frame := ⟨⟨⟨⟨[⟨"document", .null, []⟩]⟩, [0]⟩, 0⟩, 1000⟩
    let env : Environment := [("$env:NAME", .string "web")]
    let spec : Value := .list [.int 1, .null, .string "$env:NAME"]
    let entries : Entries Value := [("$value", .string "$repeat")]
    let xs : List Value := [.string "first"]
    let ys : List Value := [withCopies (.int 2) [("id", .string "$repeat")], .null]
    (entries ≠ [] ∧ Entries.has Directive.repeatOver entries = false ∧
      (Value.map entries).soleArgument? Directive.encode = none ∧ Unmarked xs ∧ Unmarked ys) ∧
      (∀ v ∈ spellings spec entries, ∀ path,
        f.run v env path = some (.ok (some (.list [.int 1, .string "web"])))) ∧
      (∀ v ∈ spellings spec entries, ∀ path,
        ∃ e, f.run v [] path = some (.error e) ∧ e.cause = .unboundVariable "$env:NAME") ∧
      f.run (.list (xs ++ withCopies spec entries :: ys)) env "" = some (.ok (some (.list
        [.string "first", .int 1, .string "web", .map [("id", .int 0)], .map [("id", .int 1)],
          .null]))) := by
  intro f env spec entries xs ys
  have hne : entries ≠ [] := by decide
  have hrepeat : Entries.has Directive.repeatOver entries = false := by decide
  have hencode : (Value.map entries).soleArgument? Directive.encode = none := by decide
  have hxs : Unmarked xs := by decide
  have hys : Unmarked ys := by decide
  have hbound : f.run (withCopies spec entries) env "" =
      some (.ok (some (.list [.int 1, .string "web"]))) :=
    run_of_within f (show within f 1 _ env "" = _ by decide +kernel)
  have hunbound : f.run (withCopies spec entries) [] "" =
      some (.error (.atKey (.unboundVariable "$env:NAME") "2")) :=
    run_of_within f (show within f 1 _ [] "" = _ by decide +kernel)
  have hfirst : f.run (.list xs) env "" = some (.ok (some (.list [.string "first"]))) :=
    run_of_within f (show within f 1 _ env "" = _ by decide +kernel)
  have hlast : f.run (.list ys) env "" = some (.ok (some (.list
      [.map [("id", .int 0)], .map [("id", .int 1)], .null]))) :=
    run_of_within f (show within f 1 _ env "" = _ by decide +kernel)
  have hmem : withCopies spec entries ∈ spellings spec entries := List.mem_cons_self
  obtain ⟨hagree, hspliced⟩ := run_spellings f env spec hne hrepeat hencode
  obtain ⟨hfail, -⟩ := run_spellings f [] spec hne hrepeat hencode
  refine ⟨⟨hne, hrepeat, hencode, hxs, hys⟩, ?_, ?_, (hspliced xs ys hxs hys "" _).mpr
    ⟨_, _, _, hfirst, hbound, hlast, rfl⟩⟩
  · rcases hagree.mp ⟨_, hmem, "", _, hbound⟩ with ⟨items, h⟩ | ⟨cause, h⟩
    · cases (h _ hmem "").symm.trans hbound
      exact h
    · obtain ⟨e, he, -⟩ := h _ hmem ""
      cases he.symm.trans hbound
  · rcases hfail.mp ⟨_, hmem, "", _, hunbound⟩ with ⟨items, h⟩ | ⟨cause, h⟩
    · cases (h _ hmem "").symm.trans hunbound
    · obtain ⟨e, he, rfl⟩ := h _ hmem ""
      cases he.symm.trans hunbound
      exact h

/-- Copies of a map with a text that embeds itself go on for ever in all spellings. -/
theorem run_endless_spellings :
    let f : Frame := ⟨⟨⟨selfEmbedding selfText, [0]⟩, 0⟩, 1000⟩
    let entries : Entries Value := [("$decode", .string "json"), ("$value", .string selfText)]
    (entries ≠ [] ∧ Entries.has Directive.repeatOver entries = false ∧
      (Value.map entries).soleArgument? Directive.encode = none) ∧
      ∀ v ∈ spellings (.int 1) entries, ∀ path, f.run v [] path = none := by
  intro f entries
  have hne : entries ≠ [] := by decide
  have hrepeat : Entries.has Directive.repeatOver entries = false := by decide
  have hencode : (Value.map entries).soleArgument? Directive.encode = none := by decide
  have hcontent (env : Environment) (path : String) : content f f.run entries env path = none := by
    have hmap : f.run (.map entries) env path = content f f.run entries env path := by
      rw [Frame.run, instantiate_map, hrepeat, if_neg Bool.false_ne_true]
    rw [← hmap]
    exact run_selfEmbedding rfl env path
  have hcopies : f.run (withCopies (.int 1) entries) [] "" = none := by
    have hspec : specValue f f.run (.int 1) [] "" = pure (.int 1) := by simp only [specValue]
    have henvs : environments (.int 1) [] "" = .ok [[("$repeat", .int 0)]] := by cbv
    rw [Frame.run, instantiate_copies, copiesOf, hspec]
    simp only [pure_bind, henvs, Course.lift_ok, copies, gather, hcontent]
    rfl
  refine ⟨⟨hne, hrepeat, hencode⟩, fun v hv path => ?_⟩
  have hsame := run_spelling_sameCause f [] (.int 1) hne hrepeat hencode hv "" path
  rw [hcopies] at hsame
  exact hsame.eq_none

end Overlay.Instantiation
