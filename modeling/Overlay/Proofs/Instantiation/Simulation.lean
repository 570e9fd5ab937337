import Overlay.Proofs.Course.Related
import Overlay.Proofs.Expansion.Congruence
import Overlay.Proofs.Instantiation.Basic
import Overlay.Proofs.Repetition

/-!
# Two instantiations of one value

A value is instantiated twice, in documents, environments and places that may differ. What the two runs
see of these are the values of strings, the outcome of pipelines and embedded documents, so if they see
the same there they come to the same.
-/

namespace Overlay.Instantiation

open Course (Related Same)
open Expansion (PlacedFrom)
open List (Forall₂)

/-- What is known of two runs: of the values that are instantiated, at each depth, of the keys of maps
that are made, and how the environments, key paths and errors of the two are related. -/
structure Simulation (f g : Frame) (again again' : Continuation) where
  good : Value → Prop
  key : String → Prop
  sees : Environment → Environment → Prop
  place : String → String → Prop
  err : Error → Error → Prop
  child : ∀ {p q : String} (k : String), place p q → place (KeyPath.child p k) (KeyPath.child q k)
  atKey : ∀ {p q : String} (cause : Cause), place p q → err (.atKey cause p) (.atKey cause q)
  withPath : ∀ {p q : String} (e : Error), place p q → err (e.withPath p) (e.withPath q)
  plain : ∀ {k : String}, isUnknownDirective k = false → key k
  bind : ∀ {env env' : Environment} {b : Binding}, sees env env' → (∀ e ∈ b, e.2.Keyed key) →
    sees (Environment.bindAll b env) (Environment.bindAll b env')
  string : ∀ {s : String} {env env' : Environment} {p q : String}, good (.string s) → sees env env' →
    place p q → Related err (Same fun v => v.Keyed key) (stringValue f s env p)
      (stringValue g s env' q)
  encode : ∀ {entries : Entries Value} {name : String} {v : Value} {p q : String},
    good (.map entries) → Entries.lookup Directive.encode entries = some (.string name) →
      v.Keyed key → place p q →
        Related err (Same fun w => w.Keyed key) (encodeAt p v name) (encodeAt q v name)
  embedded : ∀ {entries : Entries Value} {format : String} {text : Option Value}
    {env env' : Environment} {p q : String}, good (.map entries) →
      Entries.lookup Directive.decode entries = some (.string format) →
        (∀ v ∈ text, v.Keyed key) → sees env env' → place p q →
          Related err (Same fun o => ∀ v ∈ o, v.Keyed key)
            (liftM (embedded f format text p) >>= fun v => again v env p)
            (liftM (embedded g format text q) >>= fun v => again' v env' q)

namespace Simulation

variable {f g : Frame} {again again' : Continuation} (S : Simulation f g again again')

abbrev Found : Option Value → Option Value → Prop :=
  Same fun o => ∀ v ∈ o, v.Keyed S.key

abbrev Items : List Value → List Value → Prop :=
  Same fun items => ∀ v ∈ items, v.Keyed S.key

abbrev Spec : Value → Value → Prop :=
  Same fun spec => spec.KeyedInLists S.key

def Contents (content content' : Environment → String → Course (Option Value)) : Prop :=
  ∀ ⦃env env' : Environment⦄ ⦃p q : String⦄, S.sees env env' → S.place p q →
    Related S.err S.Found (content env p) (content' env' q)

variable {p q : String} {i j : Nat} {env env' : Environment}

theorem placedFrom_zero (h : S.place p q) : PlacedFrom S.place 0 0 p q :=
  fun _ => S.child _ h

theorem fail {α β : Type} {R : α → β → Prop} (cause : Cause) (h : S.place p q) :
    Related S.err R (throw (.atKey cause p)) (throw (.atKey cause q)) :=
  .throw (S.atKey cause h)

theorem toList_related {x y : Course (Option Value)} (h : Related S.err S.Found x y) :
    Related S.err S.Items (Option.toList <$> x) (Option.toList <$> y) :=
  h.map_same fun _ ho v hv => ho v (Option.mem_toList.mp hv)

/-! ## Copies -/

theorem environments_related {spec : Value} (hspec : spec.KeyedInLists S.key) (henv : S.sees env env')
    (h : S.place p q) :
    Related S.err (Forall₂ S.sees) (environments spec env p) (environments spec env' q) := by
  unfold environments
  cases hb : Repetition.bindings spec with
  | error e => exact .error (S.withPath e h)
  | ok bindings =>
    refine .value ?_
    rw [List.forall₂_map_left_iff, List.forall₂_map_right_iff, List.forall₂_same]
    exact fun b hmem => S.bind henv (Repetition.keyed_bindings hspec hb b hmem)

theorem gather_related {α β : Type} {R : α → β → Prop} {step : Nat → α → Course (List Value)}
    {step' : Nat → β → Course (List Value)}
    (hstep : ∀ i j a b, PlacedFrom S.place i j p q → R a b →
      Related S.err S.Items (step i a) (step' j b)) :
    ∀ {xs : List α} {ys : List β} {i j : Nat} {found : List (List Value)}, Forall₂ R xs ys →
      PlacedFrom S.place i j p q → (∀ part ∈ found, ∀ v ∈ part, v.Keyed S.key) →
        Related S.err S.Items (gather step i found xs) (gather step' j found ys)
  | [], [], _, _, found, .nil, _, hfound => by
    refine .pure_same fun v hv => ?_
    obtain ⟨part, hpart, hv⟩ := List.mem_flatten.mp hv
    exact hfound part (List.mem_reverse.mp hpart) v hv
  | x :: xs, y :: ys, i, j, found, .cons hxy hrest, hplace, hfound => by
    simp only [gather]
    refine (hstep i j x y hplace hxy).bind_same fun more hmore => ?_
    exact gather_related hstep hrest (hplace.drop more.length) (List.forall_mem_cons.mpr ⟨hmore, hfound⟩)

theorem copies_related {content content' : Environment → String → Course (Option Value)}
    (hcontent : S.Contents content content') {envs envs' : List Environment}
    (henvs : Forall₂ S.sees envs envs') (hplace : PlacedFrom S.place i j p q) :
    Related S.err S.Items (copies content p i envs) (copies content' q j envs') := by
  refine S.gather_related (fun i j env env' hplace henv => ?_) henvs hplace (List.forall_mem_nil _)
  exact S.toList_related (hcontent henv hplace.head)

/-! ## Maps -/

theorem encoded_related {entries : Entries Value} (hgood : S.good (.map entries))
    {content content' : Environment → String → Course (Option Value)}
    (hcontent : S.Contents content content') :
    S.Contents (encoded entries content) (encoded entries content') := by
  intro env env' p q henv h
  unfold encoded
  cases hencode : Entries.lookup Directive.encode entries with
  | none => exact hcontent henv h
  | some pipeline =>
    cases pipeline with
    | string name =>
      simp only [pipelineName, Course.lift_ok, pure_bind]
      refine (hcontent henv h).bind_same fun o ho => ?_
      cases o with
      | none => exact .pure_same ho
      | some v =>
        refine (S.encode hgood hencode (ho v rfl) h).bind_same fun w hw => .pure_same ?_
        rintro _ ⟨⟩
        exact hw
    | _ => exact S.fail _ h

theorem contentOf_related {entries : Entries Value} (hgood : S.good (.map entries))
    {held held' : Environment → String → Course (Option Value)}
    {plain plain' : Environment → String → Course (Entries Value)}
    (hheld : S.Contents held held')
    (hplain : ∀ ⦃env env' : Environment⦄ ⦃p q : String⦄, S.sees env env' → S.place p q →
      Related S.err (Same fun es => ∀ e ∈ es, S.key e.1 ∧ e.2.Keyed S.key) (plain env p)
        (plain' env' q)) :
    S.Contents (contentOf f again entries held plain) (contentOf g again' entries held' plain') := by
  intro env env' p q henv h
  unfold contentOf
  dsimp only
  split
  · rename_i format hdecode
    split
    · exact S.fail _ h
    · split
      · refine (hheld henv h).bind_same fun text htext => ?_
        exact S.embedded hgood hdecode htext henv h
      · exact S.fail _ h
  · exact S.fail _ h
  · split
    · split
      · refine (hheld henv h).bind_same fun o ho => .pure_same fun v hv => ?_
        exact ho v (Option.mem_filter_iff.mp hv).1
      · exact S.fail _ h
    · refine (hplain henv h).bind_same fun es hes => .pure_same ?_
      rintro _ ⟨⟩
      exact Value.keyed_map.mpr hes

theorem content_related {entries : Entries Value} (hgood : S.good (.map entries))
    (hheld : S.Contents (heldValue f again entries) (heldValue g again' entries))
    (hplain : ∀ ⦃env env' : Environment⦄ ⦃p q : String⦄, S.sees env env' → S.place p q →
      Related S.err (Same fun es => ∀ e ∈ es, S.key e.1 ∧ e.2.Keyed S.key)
        (plainEntries f again entries env p) (plainEntries g again' entries env' q)) :
    S.Contents (content f again entries) (content g again' entries) :=
  S.encoded_related hgood (S.contentOf_related hgood hheld hplain)

/-! ## Lists -/

/-- A pipeline that stands as a marker in a list that is instantiated. -/
def Encodes (name : String) : Prop :=
  ∀ {v : Value} {p q : String}, v.Keyed S.key → S.place p q →
    Related S.err (Same fun w => w.Keyed S.key) (encodeAt p v name) (encodeAt q v name)

theorem pipelineNames_related (h : S.place p q) : ∀ {items : List Value}, (∀ x ∈ items, S.good x) →
    Related S.err (Same fun names => ∀ name ∈ names, S.Encodes name) (pipelineNames p items)
      (pipelineNames q items)
  | [], _ => .pure_same nofun
  | x :: rest, hitems => by
    obtain ⟨hx, hrest⟩ := List.forall_mem_cons.mp hitems
    have ih := pipelineNames_related h hrest
    unfold pipelineNames at ih ⊢
    cases hsole : x.soleArgument? Directive.encode with
    | none =>
      rw [List.filterMap_cons_none hsole]
      exact ih
    | some pipeline =>
      obtain rfl := Value.soleArgument?_eq_some.mp hsole
      rw [List.filterMap_cons_some hsole, List.mapM_cons, List.mapM_cons]
      cases pipeline with
      | string name =>
        have hname : S.Encodes name := fun hv h => S.encode hx (if_pos rfl) hv h
        simp only [pipelineName, Result.ok_bind, Course.lift_bind]
        refine ih.bind_same fun names hnames => .pure_same ?_
        exact List.forall_mem_cons.mpr ⟨hname, hnames⟩
      | _ => exact S.fail _ h

theorem encodeThrough_related (h : S.place p q) : ∀ {names : List String} {v : Value},
    (∀ name ∈ names, S.Encodes name) → v.Keyed S.key →
      Related S.err (Same fun w => w.Keyed S.key) (encodeThrough p names v) (encodeThrough q names v)
  | [], _, _, hv => .pure_same hv
  | name :: rest, v, hnames, hv => by
    obtain ⟨hname, hrest⟩ := List.forall_mem_cons.mp hnames
    unfold encodeThrough
    rw [List.foldlM_cons, List.foldlM_cons, Course.lift_bind, Course.lift_bind]
    exact (hname hv h).bind_same fun w hw => encodeThrough_related h hrest hw

theorem listOf_related {items : List Value} (hitems : ∀ x ∈ items, S.good x)
    {spec spec' : Course (Option Value)}
    {plain plain' : Bool → Nat → Environment → Course (List Value)} (h : S.place p q)
    (hspec : Related S.err (Same fun o => ∀ v ∈ o, v.KeyedInLists S.key) spec spec')
    (hplain : ∀ marked i j env env', PlacedFrom S.place i j p q → S.sees env env' →
      Related S.err S.Items (plain marked i env) (plain' marked j env')) (henv : S.sees env env') :
    Related S.err (Same fun v => v.Keyed S.key) (listOf items spec plain env p)
      (listOf items spec' plain' env' q) := by
  unfold listOf
  refine (S.pipelineNames_related h hitems).bind_same fun names hnames => hspec.bind_same fun found hfound => ?_
  have hencode (out : List Value) (hout : ∀ v ∈ out, v.Keyed S.key) :=
    S.encodeThrough_related h (fun name hname => hnames name (List.mem_reverse.mp hname))
      (Value.keyed_list.mpr hout)
  cases found with
  | none => exact (hplain false 0 0 env env' (S.placedFrom_zero h) henv).bind_same hencode
  | some s =>
    refine (S.environments_related (hfound s rfl) henv h).bind fun envs envs' henvs => ?_
    have hmade := S.gather_related (hplain true) henvs (S.placedFrom_zero h) (List.forall_mem_nil _)
    exact hmade.bind_same hencode

/-! ## The two runs -/

section
variable {S}

mutual
theorem instantiate_related : ∀ (v : Value), v.Everywhere S.good →
    S.Contents (instantiate f again v) (instantiate g again' v)
  | .map entries, hv, env, env', p, q, henv, h => by
    obtain ⟨hgood, hentries⟩ := Value.everywhere_map.mp hv
    simp only [instantiate]
    have hcontent := S.content_related hgood (heldValue_related entries hentries)
      (plainEntries_related entries hentries)
    split
    · refine (heldSpec_related entries hentries henv h).bind_same fun spec hspec => ?_
      refine (S.environments_related hspec henv h).bind fun envs envs' henvs => ?_
      have hcopies := S.copies_related hcontent henvs (S.placedFrom_zero h)
      refine hcopies.bind_same fun made hmade => .pure_same ?_
      rintro _ ⟨⟩
      exact Value.keyed_list.mpr hmade
    · exact hcontent henv h
  | .list items, hv, env, env', p, q, henv, h => by
    obtain ⟨-, hitems⟩ := Value.everywhere_list.mp hv
    simp only [instantiate]
    have hlist := S.listOf_related (fun x hx => hitems x hx _ .refl) h
      (markedSpec_related items hitems henv h)
      (fun marked i j env env' hplace henv => plainItems_related marked items hitems hplace henv) henv
    refine hlist.map_same fun v hv => ?_
    rintro _ ⟨⟩
    exact hv
  | .string s, hv, env, env', p, q, henv, h => by
    simp only [instantiate]
    refine (S.string (hv _ .refl) henv h).bind_same fun v hv => .pure_same ?_
    rintro _ ⟨⟩
    exact hv
  | .null, _, _, _, _, _, _, _ | .bool _, _, _, _, _, _, _, _ | .int _, _, _, _, _, _, _, _
  | .float _, _, _, _, _, _, _, _ => by
    simp only [instantiate]
    refine .pure_same ?_
    rintro _ ⟨⟩
    exact Value.keyed_scalar nofun nofun
termination_by structural v => v

theorem plainEntries_related : ∀ (entries : List (String × Value)),
    (∀ e ∈ entries, e.2.Everywhere S.good) → ∀ ⦃env env' : Environment⦄ ⦃p q : String⦄,
      S.sees env env' → S.place p q →
        Related S.err (Same fun es => ∀ e ∈ es, S.key e.1 ∧ e.2.Keyed S.key)
          (plainEntries f again entries env p) (plainEntries g again' entries env' q)
  | [], _, _, _, _, _, _, _ => by
    simp only [plainEntries]
    exact .pure_same nofun
  | (k, v) :: rest, hentries, env, env', p, q, henv, h => by
    obtain ⟨hv, hrest⟩ := List.forall_mem_cons.mp hentries
    have ih := plainEntries_related rest hrest henv h
    simp only [plainEntries]
    split
    · exact ih
    · split
      · exact S.fail _ (S.child k h)
      · rename_i hunknown
        refine (instantiate_related v hv henv (S.child k h)).bind_same fun first hfirst => ?_
        refine ih.bind_same fun others hothers => .pure_same ?_
        refine List.forall_mem_append.mpr ⟨fun e he => ?_, hothers⟩
        obtain ⟨x, hx, rfl⟩ := Option.map_eq_some_iff.mp (Option.mem_toList.mp he)
        exact ⟨S.plain (Bool.eq_false_iff.mpr hunknown), hfirst x hx⟩
termination_by structural entries => entries

theorem heldValue_related : ∀ (entries : List (String × Value)),
    (∀ e ∈ entries, e.2.Everywhere S.good) →
      S.Contents (heldValue f again entries) (heldValue g again' entries)
  | [], _, _, _, _, _, _, _ => by
    simp only [heldValue]
    exact .pure_same nofun
  | (k, v) :: rest, hentries, env, env', p, q, henv, h => by
    obtain ⟨hv, hrest⟩ := List.forall_mem_cons.mp hentries
    simp only [heldValue]
    split
    · exact instantiate_related v hv henv h
    · exact heldValue_related rest hrest henv h
termination_by structural entries => entries

theorem plainItems_related (marked : Bool) : ∀ (items : List Value),
    (∀ x ∈ items, x.Everywhere S.good) → ∀ ⦃env env' : Environment⦄ ⦃p q : String⦄ {i j : Nat},
      PlacedFrom S.place i j p q → S.sees env env' →
        Related S.err S.Items (plainItems f again marked i items env p)
          (plainItems g again' marked j items env' q)
  | [], _, _, _, _, _, _, _, _, _ => by
    simp only [plainItems]
    exact .pure_same nofun
  | .map entries :: rest, hitems, env, env', p, q, i, j, h, henv => by
    obtain ⟨hv, hrest⟩ := List.forall_mem_cons.mp hitems
    obtain ⟨hgood, hentries⟩ := Value.everywhere_map.mp hv
    simp only [plainItems]
    have hcontent := S.content_related hgood (heldValue_related entries hentries)
      (plainEntries_related entries hentries)
    have others (found : List Value) (hfound : ∀ v ∈ found, v.Keyed S.key) :
        Related S.err S.Items
          (plainItems f again marked (i + found.length) rest env p >>= fun more =>
            pure (found ++ more))
          (plainItems g again' marked (j + found.length) rest env' q >>= fun more =>
            pure (found ++ more)) :=
      (plainItems_related marked rest hrest (h.drop found.length) henv).bind_same fun more hmore =>
        .pure_same (List.forall_mem_append.mpr ⟨hfound, hmore⟩)
    split
    · exact plainItems_related marked rest hrest h henv
    · split
      · exact plainItems_related false rest hrest h henv
      · split
        · refine (heldSpec_related entries hentries henv h.head).bind_same fun spec hspec => ?_
          refine (S.environments_related hspec henv h.head).bind fun envs envs' henvs => ?_
          exact (S.copies_related hcontent henvs h).bind_same others
        · exact (S.toList_related (hcontent henv h.head)).bind_same others
  | .list _ :: rest, hitems, env, env', p, q, i, j, h, henv
  | .string _ :: rest, hitems, env, env', p, q, i, j, h, henv
  | .null :: rest, hitems, env, env', p, q, i, j, h, henv
  | .bool _ :: rest, hitems, env, env', p, q, i, j, h, henv
  | .int _ :: rest, hitems, env, env', p, q, i, j, h, henv
  | .float _ :: rest, hitems, env, env', p, q, i, j, h, henv => by
    obtain ⟨hv, hrest⟩ := List.forall_mem_cons.mp hitems
    simp only [plainItems]
    have hfound := S.toList_related (instantiate_related _ hv henv h.head)
    refine hfound.bind_same fun found hfound => ?_
    refine (plainItems_related marked rest hrest (h.drop found.length) henv).bind_same
      fun more hmore => .pure_same ?_
    exact List.forall_mem_append.mpr ⟨hfound, hmore⟩
termination_by structural items => items

theorem heldSpec_related : ∀ (entries : List (String × Value)),
    (∀ e ∈ entries, e.2.Everywhere S.good) → ∀ ⦃env env' : Environment⦄ ⦃p q : String⦄,
      S.sees env env' → S.place p q →
        Related S.err S.Spec (heldSpec f again entries env p) (heldSpec g again' entries env' q)
  | [], _, _, _, _, _, _, _ => by
    simp only [heldSpec]
    refine .pure_same (Value.Keyed.inLists ?_)
    exact Value.keyed_scalar nofun nofun
  | (k, v) :: rest, hentries, env, env', p, q, henv, h => by
    obtain ⟨hv, hrest⟩ := List.forall_mem_cons.mp hentries
    simp only [heldSpec]
    split
    · exact specValue_related v hv henv h
    · exact heldSpec_related rest hrest henv h
termination_by structural entries => entries

theorem markedSpec_related : ∀ (items : List Value), (∀ x ∈ items, x.Everywhere S.good) →
    ∀ ⦃env env' : Environment⦄ ⦃p q : String⦄, S.sees env env' → S.place p q →
      Related S.err (Same fun o => ∀ v ∈ o, v.KeyedInLists S.key)
        (markedSpec f again items env p) (markedSpec g again' items env' q)
  | [], _, _, _, _, _, _, _ => by
    simp only [markedSpec]
    exact .pure_same nofun
  | .map [(k, v)] :: rest, hitems, env, env', p, q, henv, h => by
    obtain ⟨hv, hrest⟩ := List.forall_mem_cons.mp hitems
    simp only [markedSpec]
    split
    · have hv := (Value.everywhere_map.mp hv).2 (k, v) List.mem_cons_self
      refine (specValue_related v hv henv h).map_same fun spec hspec => ?_
      rintro _ ⟨⟩
      exact hspec
    · exact markedSpec_related rest hrest henv h
  | .map [] :: rest, hitems, env, env', p, q, henv, h
  | .map (_ :: _ :: _) :: rest, hitems, env, env', p, q, henv, h
  | .list _ :: rest, hitems, env, env', p, q, henv, h
  | .string _ :: rest, hitems, env, env', p, q, henv, h
  | .null :: rest, hitems, env, env', p, q, henv, h
  | .bool _ :: rest, hitems, env, env', p, q, henv, h
  | .int _ :: rest, hitems, env, env', p, q, henv, h
  | .float _ :: rest, hitems, env, env', p, q, henv, h => by
    obtain ⟨-, hrest⟩ := List.forall_mem_cons.mp hitems
    simp only [markedSpec]
    exact markedSpec_related rest hrest henv h
termination_by structural items => items

theorem specValue_related : ∀ (v : Value), v.Everywhere S.good →
    ∀ ⦃env env' : Environment⦄ ⦃p q : String⦄, S.sees env env' → S.place p q →
      Related S.err S.Spec (specValue f again v env p) (specValue g again' v env' q)
  | .map entries, hv, env, env', p, q, henv, h => by
    obtain ⟨-, hentries⟩ := Value.everywhere_map.mp hv
    simp only [specValue]
    refine (specEntries_related entries hentries henv h).map_same fun es hes => ?_
    exact Value.keyedInLists_map.mpr hes
  | .list items, hv, env, env', p, q, henv, h => by
    obtain ⟨-, hitems⟩ := Value.everywhere_list.mp hv
    simp only [specValue]
    have hlist := S.listOf_related (fun x hx => hitems x hx _ .refl) h
      (markedSpec_related items hitems henv h)
      (fun marked i j env env' hplace henv => plainItems_related marked items hitems hplace henv) henv
    exact hlist.imp_same fun _ => Value.Keyed.inLists
  | .string s, hv, env, env', p, q, henv, h => by
    simp only [specValue]
    exact (S.string (hv _ .refl) henv h).imp_same fun _ => Value.Keyed.inLists
  | .null, _, _, _, _, _, _, _ | .bool _, _, _, _, _, _, _, _ | .int _, _, _, _, _, _, _, _
  | .float _, _, _, _, _, _, _, _ => by
    simp only [specValue]
    refine .pure_same (Value.Keyed.inLists ?_)
    exact Value.keyed_scalar nofun nofun
termination_by structural v => v

theorem specEntries_related : ∀ (entries : List (String × Value)),
    (∀ e ∈ entries, e.2.Everywhere S.good) → ∀ ⦃env env' : Environment⦄ ⦃p q : String⦄,
      S.sees env env' → S.place p q →
        Related S.err (Same fun es => ∀ e ∈ es, e.2.KeyedInLists S.key)
          (specEntries f again entries env p) (specEntries g again' entries env' q)
  | [], _, _, _, _, _, _, _ => by
    simp only [specEntries]
    exact .pure_same nofun
  | (k, v) :: rest, hentries, env, env', p, q, henv, h => by
    obtain ⟨hv, hrest⟩ := List.forall_mem_cons.mp hentries
    simp only [specEntries]
    refine (specValue_related v hv henv (S.child k h)).bind_same fun first hfirst => ?_
    refine (specEntries_related rest hrest henv h).bind_same fun others hothers => .pure_same ?_
    exact List.forall_mem_cons.mpr ⟨hfirst, hothers⟩
termination_by structural entries => entries
end

end

end Simulation

/-! ## Two runs at one place -/

/-- What is known of two runs at one place of a document, in which no text is embedded: the
environments alone may differ. -/
structure Rerun (f : Frame) where
  good : Value → Prop
  key : String → Prop
  sees : Environment → Environment → Prop
  plain : ∀ {k : String}, isUnknownDirective k = false → key k
  bind : ∀ {env env' : Environment} {b : Binding}, sees env env' → (∀ e ∈ b, e.2.Keyed key) →
    sees (Environment.bindAll b env) (Environment.bindAll b env')
  string : ∀ {s : String} {env env' : Environment} {path : String}, good (.string s) → sees env env' →
    stringValue f s env path = stringValue f s env' path ∧
      ∀ v, stringValue f s env path = .ok v → v.Keyed key
  encode : ∀ {entries : Entries Value} {name : String} {v w : Value} {path : String},
    good (.map entries) → Entries.lookup Directive.encode entries = some (.string name) →
      v.Keyed key → encodeAt path v name = .ok w → w.Keyed key
  decode : ∀ {entries : Entries Value}, good (.map entries) →
    Entries.lookup Directive.decode entries = none

def Rerun.simulation {f : Frame} (R : Rerun f) (again again' : Continuation) :
    Simulation f f again again' where
  good := R.good
  key := R.key
  sees := R.sees
  place p q := p = q
  err e e' := e = e'
  child k h := congrArg (fun p => KeyPath.child p k) h
  atKey cause h := congrArg (Error.atKey cause) h
  withPath e h := congrArg (fun p => e.withPath p) h
  plain := R.plain
  bind := R.bind
  string := by
    intro s env env' p q hgood henv hplace
    subst hplace
    obtain ⟨hsame, hkeyed⟩ := R.string hgood henv
    rw [← hsame]
    exact Course.related_lift hkeyed
  encode := by
    intro entries name v p q hgood hname hv hplace
    subst hplace
    exact Course.related_lift fun w hw => R.encode hgood hname hv hw
  embedded := by
    intro entries format text env env' p q hgood hformat
    cases (R.decode hgood).symm.trans hformat

end Overlay.Instantiation
