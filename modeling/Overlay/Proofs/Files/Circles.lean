import Mathlib.Logic.Relation
import Overlay.Proofs.Files.Sound

/-!
# Circles of files

The parents of a file are found from the path by which it is reached. If the paths of one file find
the same parents, then loading fails exactly if a file inherits from itself: a circle is found while
one of its files is on the stack, and files that are recorded inherit only from those recorded before
them.
-/

namespace Overlay.Loader

open Relation (ReflTransGen TransGen)

section
variable (r : FileReader Id) (extensions : List String)

def IsParent (path parent : String) : Prop :=
  ∃ values parents, content r extensions path = .ok (values, parents) ∧ parent ∈ parents

abbrev Reaches : String → String → Prop :=
  ReflTransGen (IsParent r extensions)

variable (start : String)

/-- Of the files reached from a path, one inherits from another. -/
def Derives (key parent : String) : Prop :=
  ∃ p q, Reaches r extensions start p ∧ IsParent r extensions p q ∧ keyOf r p = key ∧
    keyOf r q = parent

def Circular : Prop :=
  ∃ key, TransGen (Derives r extensions start) key key

/-- Every file that is reached can be read and has its parents. -/
def Readable : Prop :=
  ∀ p, Reaches r extensions start p → ∃ found, content r extensions p = .ok found

/-- The paths by which one file is reached find the same parents. -/
def Coherent : Prop :=
  ∀ p p', Reaches r extensions start p → Reaches r extensions start p' → keyOf r p = keyOf r p' →
    ∀ q, IsParent r extensions p q → ∃ q', IsParent r extensions p' q' ∧ keyOf r q' = keyOf r q

end

variable {r : FileReader Id} {extensions : List String} {start : String}

/-- Files are to be loaded that are reached from the start, as ancestors of those on the stack. -/
structure Ahead (r : FileReader Id) (extensions : List String) (start : String) (l : Loader)
    (paths : List String) : Prop where
  extensions_eq : l.extensions = extensions
  reached : ∀ q ∈ paths, Reaches r extensions start q
  derives : ∀ key ∈ l.stack, ∀ q ∈ paths, TransGen (Derives r extensions start) key (keyOf r q)

namespace Ahead

variable {l l' : Loader} {path : String} {paths : List String}
  (h : Ahead r extensions start l (path :: paths))
include h

theorem rest (hextensions : l'.extensions = l.extensions) (hstack : l'.stack = l.stack) :
    Ahead r extensions start l' paths := by
  refine ⟨hextensions.trans h.extensions_eq, fun q hq => h.reached q (List.mem_cons_of_mem _ hq),
    fun key hkey q hq => ?_⟩
  rw [hstack] at hkey
  exact h.derives key hkey q (List.mem_cons_of_mem _ hq)

theorem rest_of_parents {key : String} {parents : List String} {x : Result (List Nat)} {l₁ : Loader}
    (hparents : Loads r parents (l.push key) x l₁) (values : List Value) (ids : List Nat) :
    Ahead r extensions start (l₁.pop.addFile key path values ids) paths :=
  h.rest hparents.extensions_eq hparents.stack_pop

theorem reached_head : Reaches r extensions start path :=
  h.reached path (List.mem_cons_self ..)

theorem parents {values : List Value} {parents : List String}
    (hcontent : content r l.extensions path = .ok (values, parents)) :
    Ahead r extensions start (l.push (keyOf r path)) parents := by
  rw [h.extensions_eq] at hcontent
  have hparent : ∀ q ∈ parents, IsParent r extensions path q := fun q hq => ⟨_, _, hcontent, hq⟩
  have hderives : ∀ q ∈ parents, Derives r extensions start (keyOf r path) (keyOf r q) :=
    fun q hq => ⟨path, q, h.reached_head, hparent q hq, rfl, rfl⟩
  refine ⟨h.extensions_eq, fun q hq => h.reached_head.tail (hparent q hq), fun key hkey q hq => ?_⟩
  rcases List.mem_append.mp hkey with hkey | hkey
  · exact (h.derives key hkey path (List.mem_cons_self ..)).tail (hderives q hq)
  · rw [List.mem_singleton.mp hkey]
    exact .single (hderives q hq)

end Ahead

theorem ahead_start : Ahead r extensions start { extensions } [start] := by
  refine ⟨rfl, fun q hq => ?_, fun key hkey => ?_⟩
  · rw [List.mem_singleton.mp hq]
  · cases hkey

/-! ## Failures -/

/-- If all files that are reached can be read, then loading fails only at a circle. -/
theorem Loads.circular_of_error {paths : List String} {l l' : Loader} {x : Result (List Nat)}
    (h : Loads r paths l x l') (hahead : Ahead r extensions start l paths)
    (hreadable : Readable r extensions start) {e : Error} (hx : x = .error e) :
    (∃ chain file, e = .about (.circularParents chain) file) ∧ Circular r extensions start := by
  induction h with
  | nil => cases hx
  | @circular path _ l hstack =>
    cases hx
    exact ⟨⟨_, _, rfl⟩, _, hahead.derives _ hstack path (List.mem_cons_self ..)⟩
  | @known _ _ _ _ _ x _ _ _ ih =>
    cases x with
    | ok others => cases hx
    | error e =>
      cases hx
      exact ih (hahead.rest rfl rfl) rfl
  | refused _ _ hcontent =>
    obtain ⟨found, hfound⟩ := hreadable _ hahead.reached_head
    rw [hahead.extensions_eq, hfound] at hcontent
    cases hcontent
  | failed _ _ hcontent _ ih => exact ih (hahead.parents hcontent) hx
  | @loaded _ _ _ _ _ _ _ _ x _ _ _ hparents _ _ ih =>
    cases x with
    | ok others => cases hx
    | error e =>
      cases hx
      exact ih (hahead.rest_of_parents hparents _ _) rfl

/-! ## Files that are recorded -/

/-- Each file that is recorded inherits only from those recorded before it. -/
def Finished (r : FileReader Id) (extensions : List String) (start : String) :
    List (String × List Nat) → Prop
  | [] => True
  | e :: before => (∀ key, Derives r extensions start e.1 key → key ∈ before.map Prod.fst) ∧
    Finished r extensions start before

namespace Finished

theorem mem_of_derives : ∀ {done : List (String × List Nat)}, Finished r extensions start done →
    ∀ {key parent : String}, key ∈ done.map Prod.fst → Derives r extensions start key parent →
      parent ∈ done.map Prod.fst
  | _ :: _, ⟨hfirst, hbefore⟩, key, parent, hkey, hderives => by
    rcases List.mem_cons.mp hkey with rfl | hkey
    · exact List.mem_cons_of_mem _ (hfirst parent hderives)
    · exact List.mem_cons_of_mem _ (hbefore.mem_of_derives hkey hderives)

theorem mem_of_reflTransGen {done : List (String × List Nat)}
    (h : Finished r extensions start done) {key ancestor : String} (hkey : key ∈ done.map Prod.fst)
    (hderives : ReflTransGen (Derives r extensions start) key ancestor) :
    ancestor ∈ done.map Prod.fst := by
  induction hderives with
  | refl => exact hkey
  | tail _ hstep ih => exact h.mem_of_derives ih hstep

theorem acyclic : ∀ {done : List (String × List Nat)}, Finished r extensions start done →
    (done.map Prod.fst).Nodup → ∀ key ∈ done.map Prod.fst,
      ¬ TransGen (Derives r extensions start) key key
  | _ :: _, ⟨hfirst, hbefore⟩, hnodup, key, hkey, hcircle => by
    obtain ⟨hnot, hnodup⟩ := List.nodup_cons.mp hnodup
    rcases List.mem_cons.mp hkey with rfl | hkey
    · obtain ⟨parent, hparent, hback⟩ := TransGen.head'_iff.mp hcircle
      exact hnot (hbefore.mem_of_reflTransGen (hfirst parent hparent) hback)
    · exact hbefore.acyclic hnodup key hkey hcircle

end Finished

namespace Loads

variable {paths : List String} {l l' : Loader} {x : Result (List Nat)}

theorem mem_loaded {ids : List Nat} (h : Loads r paths l (.ok ids) l') {path : String}
    (hpath : path ∈ paths) : keyOf r path ∈ l'.loaded.map Prod.fst := by
  obtain ⟨lists, rfl, hlists⟩ := h.recorded rfl
  obtain ⟨i, hi, rfl⟩ := List.getElem_of_mem hpath
  exact List.mem_map_of_mem (mem_of_lookup (hlists.get hi (hlists.length_eq ▸ hi)))

theorem finished (h : Loads r paths l x l') (hahead : Ahead r extensions start l paths)
    (hcoherent : Coherent r extensions start) (hl : Finished r extensions start l.loaded) :
    Finished r extensions start l'.loaded := by
  induction h with
  | nil | circular | refused => exact hl
  | known _ _ _ ih => exact ih (hahead.rest rfl rfl) hl
  | failed _ _ hcontent _ ih => exact ih (hahead.parents hcontent) hl
  | @loaded path _ parents _ l₁ _ values _ _ _ _ hcontent hparents _ ihp ih =>
    refine ih (hahead.rest_of_parents hparents _ _)
      ⟨fun key hderives => ?_, ihp (hahead.parents hcontent) hl⟩
    obtain ⟨p, q, hp, hq, hkey, rfl⟩ := hderives
    obtain ⟨q', ⟨values', parents', hcontent', hq'⟩, hkey'⟩ :=
      hcoherent p path hp hahead.reached_head hkey q hq
    rw [hahead.extensions_eq, hcontent'] at hcontent
    cases hcontent
    exact hkey' ▸ hparents.mem_loaded hq'

end Loads

/-- What is found at a path. -/
structure Listing where
  path : String
  key : String
  values : List Value
  parents : List String

/-- Listings of all paths that are reached, from the first to those of all parents. -/
structure Listed (r : FileReader Id) (extensions : List String) (start : String)
    (listings : List Listing) : Prop where
  key : ∀ e ∈ listings, keyOf r e.path = e.key
  content : ∀ e ∈ listings, content r extensions e.path = .ok (e.values, e.parents)
  start : start ∈ listings.map Listing.path
  parents : ∀ e ∈ listings, e.parents ⊆ listings.map Listing.path

namespace Listed

variable {listings : List Listing} (h : Listed r extensions start listings)
include h

theorem parents_eq {e : Listing} (he : e ∈ listings) {q : String}
    (hparent : IsParent r extensions e.path q) : q ∈ e.parents := by
  obtain ⟨values, parents, hcontent, hq⟩ := hparent
  rw [h.content e he] at hcontent
  exact (Prod.mk.inj (Except.ok.inj hcontent)).2 ▸ hq

theorem exists_of_reaches {p : String} (hp : Reaches r extensions start p) :
    ∃ e ∈ listings, e.path = p := by
  induction hp with
  | refl => simpa using h.start
  | tail _ hparent ih =>
    obtain ⟨e, he, rfl⟩ := ih
    simpa using h.parents e he (h.parents_eq he hparent)

theorem readable : Readable r extensions start := by
  intro p hp
  obtain ⟨e, he, rfl⟩ := h.exists_of_reaches hp
  exact ⟨_, h.content e he⟩

theorem coherent (hsame : ∀ e ∈ listings, ∀ e' ∈ listings, e.key = e'.key → e.parents = e'.parents) :
    Coherent r extensions start := by
  intro p p' hp hp' hkey q hparent
  obtain ⟨e, he, rfl⟩ := h.exists_of_reaches hp
  obtain ⟨e', he', rfl⟩ := h.exists_of_reaches hp'
  rw [h.key e he, h.key e' he'] at hkey
  have hq := hsame e he e' he' hkey ▸ h.parents_eq he hparent
  exact ⟨q, ⟨_, _, h.content e' he', hq⟩, rfl⟩

theorem isParent {i j : Nat} (hi : i < listings.length) (hj : j < listings[i].parents.length) :
    IsParent r extensions listings[i].path listings[i].parents[j] :=
  ⟨_, _, h.content _ (List.getElem_mem hi), List.getElem_mem hj⟩

end Listed

theorem reflTransGen_derives {p : String} (h : Reaches r extensions start p) :
    ReflTransGen (Derives r extensions start) (keyOf r start) (keyOf r p) := by
  induction h with
  | refl => exact .refl
  | tail hreached hparent ih => exact ih.tail ⟨_, _, hreached, hparent, rfl, rfl⟩

/-! ## What is loaded -/

def documentsAt (r : FileReader Id) (extensions : List String) (path : String) : List Value :=
  match content r extensions path with
  | .ok (values, _) => values
  | .error _ => []

/-- Files are loaded in an order, each reached from the start, with its documents. -/
structure Holds (r : FileReader Id) (extensions : List String) (start : String) (l : Loader)
    (files : List String) : Prop where
  identities : l.loaded.reverse.map Prod.fst = files.map (keyOf r)
  reached : ∀ p ∈ files, Reaches r extensions start p
  documents : l.corpus.documents.map Document.data = files.flatMap (documentsAt r extensions)

namespace Holds

variable {l : Loader} {files : List String} (h : Holds r extensions start l files)
include h

theorem push (key : String) : Holds r extensions start (l.push key) files :=
  ⟨h.identities, h.reached, h.documents⟩

theorem pop : Holds r extensions start l.pop files :=
  ⟨h.identities, h.reached, h.documents⟩

theorem addFile {path : String} {values : List Value} {parents : List String}
    (hreached : Reaches r extensions start path)
    (hcontent : content r extensions path = .ok (values, parents)) (ids : List Nat) :
    Holds r extensions start (l.addFile (keyOf r path) path values ids) (files ++ [path]) := by
  have hvalues : documentsAt r extensions path = values := by rw [documentsAt, hcontent]
  refine ⟨?_, ?_, ?_⟩
  · rw [Loader.addFile, List.reverse_cons, List.map_append, List.map_append, h.identities]
    rfl
  · intro p hp
    rcases List.mem_append.mp hp with hp | hp
    · exact h.reached p hp
    · exact List.mem_singleton.mp hp ▸ hreached
  · rw [corpus_addFile, Evaluation.data_addLayer, h.documents, List.flatMap_append,
      List.flatMap_singleton, hvalues]

end Holds

theorem Loads.holds {paths : List String} {l l' : Loader} {x : Result (List Nat)}
    (h : Loads r paths l x l') (hahead : Ahead r extensions start l paths) {files : List String}
    (hl : Holds r extensions start l files) : ∃ files', Holds r extensions start l' files' := by
  induction h generalizing files with
  | nil | circular | refused => exact ⟨files, hl⟩
  | known _ _ _ ih => exact ih (hahead.rest rfl rfl) hl
  | failed _ _ hcontent _ ih =>
    obtain ⟨files', hl'⟩ := ih (hahead.parents hcontent) (hl.push _)
    exact ⟨files', hl'.pop⟩
  | loaded _ _ hcontent hparents _ ihp ih =>
    obtain ⟨files₁, hl₁⟩ := ihp (hahead.parents hcontent) (hl.push _)
    rw [hahead.extensions_eq] at hcontent
    exact ih (hahead.rest_of_parents hparents _ _)
      (hl₁.pop.addFile hahead.reached_head hcontent _)

/-! ## Loading one file -/

/-- If all files that a path reaches can be read, a fresh loader comes to an end, fails only with a
circle among them, and otherwise loads no file twice. If moreover the paths of one file find the same
parents, it fails exactly if there is a circle, and otherwise loads every file that is reached. -/
theorem load_fresh (t : FileTree) {bound : Nat} (hbound : t.nodes.length ≤ bound)
    (extensions : List String) (path : String) (hreadable : Readable t.answers extensions path) :
    ∃ x l, load (FileTree.reader bound) path { extensions } t = ((x, l), t) ∧
      Loads t.answers [path] { extensions } x l ∧
      (∀ e, x = .error e → (∃ chain file, e = .about (.circularParents chain) file) ∧
        Circular t.answers extensions path) ∧
      (∀ ids, x = .ok ids → ∃ files, Holds t.answers extensions path l files ∧
        (files.map (keyOf t.answers)).Nodup ∧
        (Coherent t.answers extensions path → ∀ p, Reaches t.answers extensions path p →
          keyOf t.answers p ∈ files.map (keyOf t.answers))) ∧
      (Coherent t.answers extensions path →
        ((∃ ids, x = .ok ids) ↔ ¬ Circular t.answers extensions path)) := by
  obtain ⟨x, l, hload, hloads⟩ := loads_load t hbound path (l := { extensions }) rfl
  have hempty : Holds t.answers extensions path { extensions } [] := ⟨rfl, by simp, rfl⟩
  have hpending : Pending { extensions } := by simp [Pending]
  have hnodup := (hloads.sound (sound_empty extensions) hpending).identities
  have hclosed : Coherent t.answers extensions path → ∀ ids, x = .ok ids →
      ∀ p, Reaches t.answers extensions path p → keyOf t.answers p ∈ l.loaded.map Prod.fst := by
    rintro hcoherent ids rfl p hp
    have hfinished := hloads.finished ahead_start hcoherent trivial
    exact hfinished.mem_of_reflTransGen (hloads.mem_loaded (List.mem_singleton_self path))
      (reflTransGen_derives hp)
  have herror : ∀ e, x = .error e → _ := fun e => hloads.circular_of_error ahead_start hreadable
  refine ⟨x, l, hload, hloads, fun e => herror e, ?_, ?_⟩
  · rintro ids rfl
    obtain ⟨files, hholds⟩ := hloads.holds ahead_start hempty
    have hkeys : (l.loaded.map Prod.fst).reverse = files.map (keyOf t.answers) := by
      rw [← List.map_reverse, hholds.identities]
    refine ⟨files, hholds, hkeys ▸ List.nodup_reverse.mpr hnodup, fun hcoherent p hp => ?_⟩
    rw [← hkeys, List.mem_reverse]
    exact hclosed hcoherent ids rfl p hp
  · intro hcoherent
    constructor
    · rintro ⟨ids, rfl⟩ ⟨key, hcircle⟩
      obtain ⟨_, ⟨p, _, hp, _, rfl, _⟩, _⟩ := TransGen.head'_iff.mp hcircle
      exact (hloads.finished ahead_start hcoherent trivial).acyclic hnodup _
        (hclosed hcoherent ids rfl p hp) hcircle
    · intro hnot
      cases x with
      | ok ids => exact ⟨ids, rfl⟩
      | error e => exact absurd (herror e rfl).2 hnot

/-- A tree where `m.json` finds its parent by two paths. -/
def twoPaths : FileTree :=
  ⟨"/home", [(["d"], .link "home"), (["home", "base.json"], .file "1".toUTF8), (["home", "m.json"],
    .file "\x7b\"$parent\": [\"base.json\", \"/d/base.json\"]\x7d".toUTF8)]⟩

theorem listed_twoPaths : Listed twoPaths.answers ["json"] "m.json"
    [⟨"m.json", "/home/m.json", [.map [("$parent", .list [.string "base.json", .string "/d/base.json"])]],
        ["base.json", "/d/base.json"]⟩,
      ⟨"base.json", "/home/base.json", [.int 1], []⟩,
      ⟨"/d/base.json", "/home/base.json", [.int 1], []⟩] := by
  refine ⟨?_, ?_, by decide, by decide⟩
  · simp only [List.forall_mem_cons]
    exact ⟨by cbv, by cbv, by cbv, fun _ h => absurd h List.not_mem_nil⟩
  · simp only [List.forall_mem_cons]
    exact ⟨by cbv, by cbv, by cbv, fun _ h => absurd h List.not_mem_nil⟩

theorem load_fresh_of_twoPaths : ¬ Circular twoPaths.answers ["json"] "m.json" ∧
    ∃ l files, load (FileTree.reader 3) "m.json" { extensions := ["json"] } twoPaths =
        ((.ok [1], l), twoPaths) ∧
      Holds twoPaths.answers ["json"] "m.json" l files ∧
      (files.map (keyOf twoPaths.answers)).Nodup ∧
      ∀ p, Reaches twoPaths.answers ["json"] "m.json" p →
        keyOf twoPaths.answers p ∈ files.map (keyOf twoPaths.answers) := by
  have hkeys := listed_twoPaths.key
  have hcontents := listed_twoPaths.content
  simp only [List.forall_mem_cons] at hkeys hcontents
  obtain ⟨hm, hbase, hbase', -⟩ := hkeys
  obtain ⟨hmContent, hbaseContent, -⟩ := hcontents
  have hrun := Loads.loaded (l := { extensions := ["json"] }) (by simp) rfl hmContent
    (.loaded (by simp [push, hm, hbase]) rfl hbaseContent (.nil _) <|
      .known (by simp [push, pop, addFile, hm, hbase'])
        (show List.lookup _ _ = some [0] by rw [hbase', hbase]; rfl) (.nil _))
    (.nil _)
  have hcoherent := listed_twoPaths.coherent (by decide)
  obtain ⟨x, l, hload, hloads, -, hfiles, hexact⟩ :=
    load_fresh twoPaths (show twoPaths.nodes.length ≤ 3 by decide) ["json"] "m.json"
      listed_twoPaths.readable
  obtain ⟨rfl, rfl⟩ := hrun.unique hloads
  obtain ⟨files, hholds, hnodup, hall⟩ := hfiles [1] rfl
  exact ⟨(hexact hcoherent).mp ⟨[1], rfl⟩, _, files, hload, hholds, hnodup, hall hcoherent⟩

/-- A tree where `a.json` has two paths. On the way from `e/a.json` to `e/s.json` are too many links,
so the parent that is found there is not the one that is found from `a.json`. -/
def detour : FileTree :=
  ⟨"/home", [(["home", "f"], .link "."), (["home", "g"], .link "f/f"), (["home", "h"], .link "g/g"),
    (["home", "i"], .link "h/h"), (["home", "e"], .link "i/i"),
    (["home", "s.json"], .link "h/h/t.json"), (["home", "t.json"], .file "\x7b\x7d".toUTF8),
    (["home", "a.json"], .file "\x7b\"$parent\": \"s.json\"\x7d".toUTF8),
    (["home", "s.json.json"], .file "\x7b\"$parent\": \"a.json\"\x7d".toUTF8),
    (["home", "m.json"], .file "\x7b\"$parent\": [\"a.json\", \"e/a.json\"]\x7d".toUTF8)]⟩

theorem listed_detour : Listed detour.answers ["json"] "m.json"
    [⟨"m.json", "/home/m.json", [.map [("$parent", .list [.string "a.json", .string "e/a.json"])]],
        ["a.json", "e/a.json"]⟩,
      ⟨"a.json", "/home/a.json", [.map [("$parent", .string "s.json")]], ["s.json"]⟩,
      ⟨"s.json", "/home/s.json", [.map []], []⟩,
      ⟨"e/a.json", "/home/a.json", [.map [("$parent", .string "s.json")]], ["e/s.json.json"]⟩,
      ⟨"e/s.json.json", "/home/s.json.json", [.map [("$parent", .string "a.json")]],
        ["e/a.json"]⟩] := by
  refine ⟨?_, ?_, by decide, by decide⟩
  · simp only [List.forall_mem_cons]
    exact ⟨by cbv, by cbv, by cbv, by cbv, by cbv, fun _ h => absurd h List.not_mem_nil⟩
  · simp only [List.forall_mem_cons]
    exact ⟨by cbv, by cbv, by cbv, by cbv, by cbv, fun _ h => absurd h List.not_mem_nil⟩

/-- The circle through the second path of a file that is recorded is not found. -/
theorem load_detour :
    Readable detour.answers ["json"] "m.json" ∧ Circular detour.answers ["json"] "m.json" ∧
      ∃ l, load (FileTree.reader 10) "m.json" { extensions := ["json"] } detour =
        ((.ok [2], l), detour) := by
  have hparent : IsParent detour.answers ["json"] "m.json" "e/a.json" :=
    listed_detour.isParent (i := 0) (j := 1) (by decide) (by decide)
  have hother : IsParent detour.answers ["json"] "e/a.json" "e/s.json.json" :=
    listed_detour.isParent (i := 3) (j := 0) (by decide) (by decide)
  have hback : IsParent detour.answers ["json"] "e/s.json.json" "e/a.json" :=
    listed_detour.isParent (i := 4) (j := 0) (by decide) (by decide)
  have hreached := ReflTransGen.single hparent
  refine ⟨listed_detour.readable, ⟨keyOf detour.answers "e/a.json", ?_⟩, ?_⟩
  · exact .tail (.single ⟨_, _, hreached, hother, rfl, rfl⟩)
      ⟨_, _, hreached.tail hother, hback, rfl, rfl⟩
  have hkeys := listed_detour.key
  have hcontents := listed_detour.content
  simp only [List.forall_mem_cons] at hkeys hcontents
  obtain ⟨hm, ha, hs, ha', -⟩ := hkeys
  obtain ⟨hmContent, haContent, hsContent, -⟩ := hcontents
  -- The second path is that of a file that is recorded, so what it finds is not asked.
  have hrun := Loads.loaded (l := { extensions := ["json"] }) (by simp) rfl hmContent
    (.loaded (by simp [push, hm, ha]) rfl haContent
      (.loaded (by simp [push, hm, ha, hs]) rfl hsContent (.nil _) (.nil _)) <|
      .known (by simp [push, pop, addFile, hm, ha'])
        (show List.lookup _ _ = some [1] by rw [ha', ha]; rfl) (.nil _))
    (.nil _)
  obtain ⟨x, l, hload, hloads⟩ :=
    loads_load detour (show detour.nodes.length ≤ 10 by decide) "m.json"
      (l := { extensions := ["json"] }) rfl
  obtain ⟨rfl, rfl⟩ := hrun.unique hloads
  exact ⟨_, hload⟩

end Overlay.Loader
