import Overlay.Proofs.Format.Stream
import Overlay.Proofs.Value.Inside
import Overlay.Proofs.Value.WellFormed

/-!
# Reading properties back

A map of maps and strings is written as lines, one for each string in it: the keys on the way to the
string, joined by dots, and the string. Read back, every line binds its string under its keys again.
As the keys increase, each line extends the last entry or adds one, and no line takes away what
another has bound.
-/

namespace Overlay

namespace Properties

/-! ## What can be read back -/

structure IsName (key : String) : Prop where
  nonempty : key ≠ ""
  plain : ∀ c ∈ key.toList, c ∉ ['.', '=', ':', '\n']
  trimmed : Text.Trimmed key.toList

structure IsText (text : String) : Prop where
  unbroken : '\n' ∉ text.toList
  trimmed : Text.Trimmed text.toList

/-- A value of maps and strings, in which no map has an empty map for an entry. -/
def IsTree : Value → Prop :=
  Value.Everywhere fun
    | .string text => IsText text
    | .map entries => ∀ e ∈ entries, IsName e.1 ∧ e.2.isEmptyContainer = false
    | _ => False

structure Readable (entries : Entries Value) : Prop where
  wellFormed : (Value.map entries).WellFormed
  tree : IsTree (.map entries)
  uncommented : ∀ e ∈ entries, ∀ c ∈ e.1.toList.head?, c ≠ '#' ∧ c ≠ '!'

theorem isName_iff {key : String} :
    IsName key ↔ key ≠ "" ∧ (key.toList.all fun c => !(['.', '=', ':', '\n'].contains c)) = true ∧
      Text.Trimmed key.toList := by
  have hall : (key.toList.all fun c => !(['.', '=', ':', '\n'].contains c)) = true ↔
      ∀ c ∈ key.toList, c ∉ ['.', '=', ':', '\n'] := by
    rw [List.all_eq_true]
    refine forall₂_congr fun c _ => ?_
    rw [Bool.not_eq_true', ← Bool.not_eq_true, List.contains_iff_mem]
  rw [hall]
  exact ⟨fun ⟨hne, hplain, htrim⟩ => ⟨hne, hplain, htrim⟩,
    fun ⟨hne, hplain, htrim⟩ => ⟨hne, hplain, htrim⟩⟩

theorem isText_iff {text : String} :
    IsText text ↔ '\n' ∉ text.toList ∧ Text.Trimmed text.toList :=
  ⟨fun ⟨hbreak, htrim⟩ => ⟨hbreak, htrim⟩, fun ⟨hbreak, htrim⟩ => ⟨hbreak, htrim⟩⟩

instance (key : String) : Decidable (IsName key) :=
  decidable_of_iff _ isName_iff.symm

instance (text : String) : Decidable (IsText text) :=
  decidable_of_iff _ isText_iff.symm

instance (v : Value) : Decidable (IsTree v) :=
  @Value.decideEverywhere _ (fun
    | .string text => inferInstanceAs (Decidable (IsText text))
    | .map entries =>
      inferInstanceAs (Decidable (∀ e ∈ entries, IsName e.1 ∧ e.2.isEmptyContainer = false))
    | .null | .bool _ | .int _ | .float _ | .list _ => isFalse id) v

theorem readable_iff {entries : Entries Value} :
    Readable entries ↔ (Value.map entries).WellFormed ∧ IsTree (.map entries) ∧
      ∀ e ∈ entries, (e.1.toList.head?.all fun c => c != '#' && c != '!') = true := by
  have hall : ∀ {o : Option Char}, (o.all fun c => c != '#' && c != '!') = true ↔
      ∀ c ∈ o, c ≠ '#' ∧ c ≠ '!' := by
    intro o
    cases o <;> simp
  simp only [hall]
  exact ⟨fun ⟨hw, ht, hc⟩ => ⟨hw, ht, hc⟩, fun ⟨hw, ht, hc⟩ => ⟨hw, ht, hc⟩⟩

instance (entries : Entries Value) : Decidable (Readable entries) :=
  decidable_of_iff _ readable_iff.symm

theorem isTree_map {entries : Entries Value} :
    IsTree (.map entries) ↔ (∀ e ∈ entries, IsName e.1 ∧ e.2.isEmptyContainer = false) ∧
      ∀ e ∈ entries, IsTree e.2 :=
  Value.everywhere_map

/-! ## Bindings -/

mutual
/-- The strings inside a value, each with the keys on the way to it. -/
def bindings : Value → List (List String × String)
  | .map entries => bindingsEntries entries
  | .string text => [([], text)]
  | _ => []

def bindingsEntries : Entries Value → List (List String × String)
  | [] => []
  | (k, v) :: rest => (bindings v).map (fun b => (k :: b.1, b.2)) ++ bindingsEntries rest
end

def line (b : List String × String) : String :=
  Text.joined "." b.1 ++ "=" ++ b.2

/-- Keys that a line can begin with. -/
structure IsPath (path : List String) : Prop where
  names : ∀ key ∈ path, IsName key
  uncommented : ∀ key ∈ path.head?, ∀ c ∈ key.toList.head?, c ≠ '#' ∧ c ≠ '!'
  nonempty : path ≠ []

theorem names_of_mem_bindings {v : Value} (hv : IsTree v) :
    ∀ b ∈ bindings v, (∀ key ∈ b.1, IsName key) ∧ IsText b.2 := by
  induction v using Value.induction with
  | string text =>
    intro b hb
    obtain rfl := List.mem_singleton.mp hb
    exact ⟨by simp, hv _ .refl⟩
  | map entries ih =>
    obtain ⟨hnames, htrees⟩ := isTree_map.mp hv
    rw [bindings]
    clear hv
    induction entries with
    | nil => simp [bindingsEntries]
    | cons e rest ihrest =>
      obtain ⟨he, hrest⟩ := List.forall_mem_cons.mp hnames
      obtain ⟨hte, htrest⟩ := List.forall_mem_cons.mp htrees
      intro b hb
      rw [bindingsEntries, List.mem_append, List.mem_map] at hb
      rcases hb with ⟨c, hc, rfl⟩ | hb
      · obtain ⟨hkeys, htext⟩ := ih e List.mem_cons_self hte c hc
        exact ⟨List.forall_mem_cons.mpr ⟨he.1, hkeys⟩, htext⟩
      · exact ihrest (fun d hd => ih d (List.mem_cons_of_mem e hd)) hrest htrest b hb
  | _ => simp [bindings]

theorem head_of_mem_bindingsEntries : ∀ {entries : Entries Value},
    ∀ b ∈ bindingsEntries entries, ∃ e ∈ entries, b.1.head? = some e.1
  | [], b, hb => by cases hb
  | e :: rest, b, hb => by
    rw [bindingsEntries, List.mem_append, List.mem_map] at hb
    rcases hb with ⟨c, -, rfl⟩ | hb
    · exact ⟨e, List.mem_cons_self, rfl⟩
    · obtain ⟨d, hd, hhead⟩ := head_of_mem_bindingsEntries b hb
      exact ⟨d, List.mem_cons_of_mem e hd, hhead⟩

theorem bindings_ne_nil {v : Value} (hv : IsTree v) (hne : v.isEmptyContainer = false) :
    bindings v ≠ [] := by
  induction v using Value.induction with
  | string text => exact List.cons_ne_nil _ _
  | map entries ih =>
    obtain ⟨hnames, htrees⟩ := isTree_map.mp hv
    cases entries with
    | nil => cases hne
    | cons e rest =>
      have he := ih e List.mem_cons_self (htrees e List.mem_cons_self)
        (hnames e List.mem_cons_self).2
      simp [bindings, bindingsEntries, he]
  | _ => exact (hv _ .refl).elim

theorem isPath_of_mem {entries : Entries Value} (h : Readable entries) :
    ∀ b ∈ bindingsEntries entries, IsPath b.1 ∧ IsText b.2 := by
  intro b hb
  obtain ⟨e, he, hhead⟩ := head_of_mem_bindingsEntries b hb
  obtain ⟨hnames, htext⟩ := names_of_mem_bindings h.tree b hb
  refine ⟨⟨hnames, ?_, ?_⟩, htext⟩
  · intro key hkey
    rw [hhead] at hkey
    cases hkey
    exact h.uncommented e he
  · rintro hnil
    rw [hnil] at hhead
    cases hhead

/-! ## Writing -/

theorem joined_eq_empty {path : List String} (h : ∀ key ∈ path, IsName key) :
    Text.joined "." path = "" ↔ path = [] := by
  constructor
  · intro hjoined
    cases path with
    | nil => rfl
    | cons key rest =>
      have hstart := Text.prefix_joined "." key rest
      rw [hjoined] at hstart
      have hkey : key.toList = [] := List.prefix_nil.mp hstart
      exact absurd (String.toList_eq_nil_iff.mp hkey) (h key List.mem_cons_self).nonempty
  · rintro rfl
    rfl

theorem child_joined {path : List String} (h : ∀ key ∈ path, IsName key) (key : String) :
    KeyPath.child (Text.joined "." path) key = Text.joined "." (path ++ [key]) := by
  unfold KeyPath.child
  by_cases hpath : path = []
  · rw [if_pos ((joined_eq_empty h).mpr hpath), hpath, List.nil_append, Text.joined,
      String.intercalate_singleton]
  · rw [if_neg (mt (joined_eq_empty h).mp hpath), Text.joined_append_singleton "." hpath]

theorem flatten_joined {v : Value} (hv : IsTree v) :
    ∀ {path : List String}, (∀ key ∈ path, IsName key) →
      flatten (Text.joined "." path) v = (bindings v).map fun b => line (path ++ b.1, b.2) := by
  induction v using Value.induction with
  | string text => simp [flatten, bindings, line, Value.plain]
  | map entries ih =>
    intro path hpath
    obtain ⟨hnames, htrees⟩ := isTree_map.mp hv
    rw [flatten, bindings]
    clear hv
    induction entries with
    | nil => simp [flattenEntries, bindingsEntries]
    | cons e rest ihrest =>
      obtain ⟨he, hrest⟩ := List.forall_mem_cons.mp hnames
      obtain ⟨hte, htrest⟩ := List.forall_mem_cons.mp htrees
      have hchild : ∀ key ∈ path ++ [e.1], IsName key := by
        intro key hkey
        rcases List.mem_append.mp hkey with hkey | hkey
        · exact hpath key hkey
        · rw [List.mem_singleton.mp hkey]
          exact he.1
      rw [flattenEntries, child_joined hpath, ih e List.mem_cons_self hte hchild,
        ihrest (fun d hd => ih d (List.mem_cons_of_mem e hd)) hrest htrest, bindingsEntries]
      simp
  | _ => exact (hv _ .refl).elim

theorem render_map {entries : Entries Value} (h : IsTree (.map entries)) :
    render (.map entries) = Text.joined "\n" ((bindingsEntries entries).map line) := by
  have hflatten : flatten (Text.joined "." []) (.map entries) =
      (bindings (.map entries)).map fun b => line ([] ++ b.1, b.2) :=
    flatten_joined h (by simp)
  exact congrArg (Text.joined "\n") hflatten

/-! ## Reading a line -/

theorem toList_line (b : List String × String) :
    (line b).toList = (Text.joined "." b.1).toList ++ '=' :: b.2.toList := by
  simp [line]

theorem mem_joined_dot {path : List String} {c : Char}
    (hc : c ∈ (Text.joined "." path).toList) : c = '.' ∨ ∃ key ∈ path, c ∈ key.toList := by
  by_cases hdot : c = '.'
  · exact .inl hdot
  · exact .inr ((Text.mem_joined (by simpa using hdot)).mp hc)

theorem ne_of_mem_joined {path : List String} (h : IsPath path) {c : Char}
    (hc : c ∈ (Text.joined "." path).toList) : c ≠ '=' ∧ c ≠ ':' ∧ c ≠ '\n' := by
  rcases mem_joined_dot hc with rfl | ⟨key, hkey, hc⟩
  · decide
  · have hplain := (h.names key hkey).plain c hc
    simp only [List.mem_cons, List.not_mem_nil, or_false, not_or] at hplain
    exact hplain.2

theorem trimmed_joined {path : List String} (h : IsPath path) :
    Text.Trimmed (Text.joined "." path).toList := by
  obtain ⟨first, rest, hfirst⟩ := List.exists_cons_of_ne_nil h.nonempty
  obtain ⟨start, last, hlast⟩ : ∃ start last, path = start ++ [last] :=
    ⟨_, _, (List.dropLast_concat_getLast h.nonempty).symm⟩
  have hnameFirst := h.names first (by simp [hfirst])
  have hnameLast := h.names last (by simp [hlast])
  apply Text.Trimmed.of_ends hnameFirst.trimmed hnameLast.trimmed
  · exact mt String.toList_eq_nil_iff.mp hnameFirst.nonempty
  · exact mt String.toList_eq_nil_iff.mp hnameLast.nonempty
  · rw [hfirst]
    exact Text.prefix_joined "." first rest
  · rw [hlast]
    exact Text.suffix_joined "." start last

theorem joined_ne_nil {path : List String} (h : IsPath path) :
    (Text.joined "." path).toList ≠ [] := by
  intro hnil
  exact h.nonempty ((joined_eq_empty h.names).mp (String.toList_eq_nil_iff.mp hnil))

theorem trimmed_line {b : List String × String} (hpath : IsPath b.1) (htext : IsText b.2) :
    Text.Trimmed (line b).toList := by
  have hjoined := trimmed_joined hpath
  rw [toList_line]
  by_cases hempty : b.2.toList = []
  · have heq : Text.Trimmed ['='] := by decide
    apply hjoined.of_ends heq (joined_ne_nil hpath) (by simp)
    · exact List.prefix_append _ _
    · rw [hempty]
      exact List.suffix_append _ _
  · apply hjoined.of_ends htext.trimmed (joined_ne_nil hpath) hempty
    · exact List.prefix_append _ _
    · exact ⟨(Text.joined "." b.1).toList ++ ['='], by simp⟩

theorem unbroken_line {b : List String × String} (hpath : IsPath b.1) (htext : IsText b.2) :
    '\n' ∉ (line b).toList := by
  intro hmem
  rw [toList_line] at hmem
  rcases List.mem_append.mp hmem with hmem | hmem
  · exact (ne_of_mem_joined hpath hmem).2.2 rfl
  · rcases List.mem_cons.mp hmem with heq | hmem
    · cases heq
    · exact htext.unbroken hmem

theorem head_joined {path : List String} (h : IsPath path) :
    ∃ c rest, (Text.joined "." path).toList = c :: rest ∧ c ≠ '#' ∧ c ≠ '!' := by
  obtain ⟨key, others, hpath⟩ := List.exists_cons_of_ne_nil h.nonempty
  have hname := h.names key (by simp [hpath])
  obtain ⟨c, rest, hc⟩ := List.exists_cons_of_ne_nil (mt String.toList_eq_nil_iff.mp hname.nonempty)
  obtain ⟨tail, htail⟩ := Text.prefix_joined "." key others
  refine ⟨c, rest ++ tail, ?_, h.uncommented key (by simp [hpath]) c (by simp [hc])⟩
  rw [hpath, ← htail, hc, List.cons_append]

theorem binding?_line {b : List String × String} (hpath : IsPath b.1) (htext : IsText b.2) :
    binding? (line b).toList = some b := by
  obtain ⟨c, rest, hc, hhash, hbang⟩ := head_joined hpath
  have hcut : Text.cut (fun c => c = '=' || c = ':') (line b).toList =
      some ((Text.joined "." b.1).toList, b.2.toList) := by
    rw [toList_line]
    apply Text.cut_append (by decide)
    intro d hd
    obtain ⟨heq, hcolon, -⟩ := ne_of_mem_joined hpath hd
    simp [heq, hcolon]
  have hkeys : (Text.fields '.' (Text.joined "." b.1).toList).map String.ofList = b.1 := by
    apply Text.ofList_fields_joined (by decide) _ hpath.nonempty
    intro key hkey hdot
    exact (hpath.names key hkey).plain '.' hdot (by decide)
  have hline : (line b).toList = c :: (rest ++ '=' :: b.2.toList) := by
    rw [toList_line, hc, List.cons_append]
  unfold binding?
  rw [(trimmed_line hpath htext).trim_eq]
  dsimp only
  split
  · rename_i heq
    rw [hline] at heq
    cases heq
  · rename_i heq
    rw [hline] at heq
    exact absurd (List.cons.inj heq).1 hhash
  · rename_i heq
    rw [hline] at heq
    exact absurd (List.cons.inj heq).1 hbang
  · rw [hcut]
    simp [(trimmed_joined hpath).trim_eq, htext.trimmed.trim_eq, hkeys]

/-! ## Binding again -/

def put (entries : Entries Value) (b : List String × String) : Entries Value :=
  insertDotted (.string b.2) b.1 entries

/-- Bindings under one key fill the map at that key, which stays the last. -/
theorem foldl_put_under {key : String} {entries : Entries Value} (h : ∀ e ∈ entries, e.1 < key) :
    ∀ {bs : List (List String × String)} {inner : Entries Value}, (∀ b ∈ bs, b.1 ≠ []) →
      (bs.map fun b => (key :: b.1, b.2)).foldl put (entries ++ [(key, .map inner)]) =
        entries ++ [(key, .map (bs.foldl put inner))]
  | [], _, _ => rfl
  | b :: bs, inner, hbs => by
    obtain ⟨hb, hbs⟩ := List.forall_mem_cons.mp hbs
    obtain ⟨next, rest, hpath⟩ := List.exists_cons_of_ne_nil hb
    have hput : put (entries ++ [(key, .map inner)]) (key :: b.1, b.2) =
        entries ++ [(key, .map (put inner b))] := by
      simp only [put, hpath, insertDotted, Entries.lookup_append_self h, Entries.insert_append_self _ _ h]
    rw [List.map_cons, List.foldl_cons, hput, foldl_put_under h hbs, List.foldl_cons]

theorem foldl_put_new {key : String} {entries : Entries Value} (h : ∀ e ∈ entries, e.1 < key)
    {bs : List (List String × String)} (hne : bs ≠ []) (hbs : ∀ b ∈ bs, b.1 ≠ []) :
    (bs.map fun b => (key :: b.1, b.2)).foldl put entries =
      entries ++ [(key, .map (bs.foldl put []))] := by
  obtain ⟨b, bs, rfl⟩ := List.exists_cons_of_ne_nil hne
  obtain ⟨hb, hbs⟩ := List.forall_mem_cons.mp hbs
  obtain ⟨next, rest, hpath⟩ := List.exists_cons_of_ne_nil hb
  have hput : put entries (key :: b.1, b.2) = entries ++ [(key, .map (put [] b))] := by
    have habsent : Entries.lookup key entries = none :=
      Entries.lookup_eq_none_iff.mpr fun e he => (h e he).ne
    simp only [put, hpath, insertDotted, habsent, Entries.insert_last _ h]
  rw [List.map_cons, List.foldl_cons, hput, foldl_put_under h hbs, List.foldl_cons]

theorem nonempty_of_mem_bindingsEntries {entries : Entries Value} :
    ∀ b ∈ bindingsEntries entries, b.1 ≠ [] := by
  intro b hb hnil
  obtain ⟨e, -, hhead⟩ := head_of_mem_bindingsEntries b hb
  rw [hnil] at hhead
  cases hhead

theorem foldl_put_bindings {v : Value} (hv : IsTree v) (hsorted : v.WellFormed) :
    ∀ {entries : Entries Value}, v = .map entries → (bindings v).foldl put [] = entries := by
  induction v using Value.induction with
  | map entries ih =>
    rintro _ ⟨⟩
    obtain ⟨hnames, htrees⟩ := isTree_map.mp hv
    obtain ⟨hkeys, hinner⟩ := Value.wellFormed_map.mp hsorted
    suffices ∀ rest before : Entries Value, before ++ rest = entries →
        (bindingsEntries rest).foldl put before = entries from this entries [] rfl
    intro rest
    induction rest with
    | nil =>
      intro before hsplit
      rw [List.append_nil] at hsplit
      exact hsplit
    | cons e rest ihrest =>
      intro before hsplit
      have he : e ∈ entries := by simp [← hsplit]
      have hbefore : ∀ d ∈ before, d.1 < e.1 := by
        rw [← hsplit] at hkeys
        exact fun d hd => (List.pairwise_append.mp hkeys).2.2 d hd e List.mem_cons_self
      have hentry : ((bindings e.2).map fun b => (e.1 :: b.1, b.2)).foldl put before =
          before ++ [e] := by
        obtain ⟨key, v⟩ := e
        have htree : IsTree v := htrees (key, v) he
        cases v with
        | string text => exact Entries.insert_last (.string text) hbefore
        | map inner =>
          have hne := bindings_ne_nil htree (hnames (key, .map inner) he).2
          rw [foldl_put_new hbefore hne nonempty_of_mem_bindingsEntries,
            ih (key, .map inner) he htree (hinner (key, .map inner) he) rfl]
        | _ => exact (htree _ .refl).elim
      rw [bindingsEntries, List.foldl_append, hentry, ihrest]
      rw [List.append_assoc]
      exact hsplit
  | _ => nofun

/-! ## Texts -/

theorem lines_render {entries : Entries Value} (h : Readable entries) (hne : entries ≠ []) :
    Text.lines ((render (.map entries)).toList ++ ['\n']) =
      (bindingsEntries entries).map fun b => (line b).toList := by
  have hempty : Value.isEmptyContainer (.map entries) = false := by
    rw [Value.isEmptyContainer, List.isEmpty_eq_false_iff]
    exact hne
  have hbindings : bindingsEntries entries ≠ [] := bindings_ne_nil h.tree hempty
  have hbreak : ∀ text ∈ (bindingsEntries entries).map line, '\n' ∉ text.toList := by
    intro text htext
    obtain ⟨b, hb, rfl⟩ := List.mem_map.mp htext
    obtain ⟨hpath, htext⟩ := isPath_of_mem h b hb
    exact unbroken_line hpath htext
  have hfields : Text.fields '\n' (Text.joined "\n" ((bindingsEntries entries).map line)).toList =
      ((bindingsEntries entries).map line).map String.toList :=
    Text.fields_joined (by decide) hbreak (by simpa using hbindings)
  rw [render_map h.tree]
  rw [Text.lines_append, hfields, Text.lines_nil, List.append_nil, List.map_map]
  · rfl
  · intro field hfield hreturn
    rw [hfields] at hfield
    simp only [List.mem_map] at hfield
    obtain ⟨_, ⟨b, hb, rfl⟩, rfl⟩ := hfield
    obtain ⟨hpath, htext⟩ := isPath_of_mem h b hb
    have hblank := (trimmed_line hpath htext).last '\r' hreturn
    cases hblank

theorem parse_render {entries : Entries Value} (h : Readable entries) :
    parse (String.ofList ((render (.map entries)).toList ++ ['\n'])) = .map entries := by
  have hread : ∀ b ∈ bindingsEntries entries, binding? (line b).toList = some b := by
    intro b hb
    obtain ⟨hpath, htext⟩ := isPath_of_mem h b hb
    exact binding?_line hpath htext
  have hbound : (bindingsEntries entries).foldl put [] = entries :=
    foldl_put_bindings h.tree h.wellFormed rfl
  unfold parse
  rw [String.toList_ofList]
  by_cases hne : entries = []
  · subst hne
    rfl
  · rw [lines_render h hne, List.foldl_map]
    refine congrArg Value.map ((List.foldl_ext _ put [] fun bound b hb => ?_).trans hbound)
    rw [hread b hb]
    rfl

theorem getLast?_render {entries : Entries Value} (h : Readable entries) :
    (render (.map entries)).toList.getLast? ≠ some '\n' := by
  rw [render_map h.tree]
  intro hlast
  by_cases hne : bindingsEntries entries = []
  · rw [hne] at hlast
    cases hlast
  · obtain ⟨start, b, hb⟩ : ∃ start b, bindingsEntries entries = start ++ [b] :=
      ⟨_, _, (List.dropLast_concat_getLast hne).symm⟩
    obtain ⟨hpath, htext⟩ := isPath_of_mem h b (by simp [hb])
    obtain ⟨before, hsuffix⟩ := Text.suffix_joined "\n" (start.map line) (line b)
    rw [hb, List.map_append, List.map_singleton, ← hsuffix, toList_line,
      List.getLast?_append_of_ne_nil _ (by simp)] at hlast
    apply unbroken_line hpath htext
    rw [toList_line]
    exact List.mem_of_getLast? hlast

end Properties

namespace Format

/-- A map that properties can hold is read back from its text. -/
theorem decode_encode_properties {entries : Entries Value} (h : Properties.Readable entries) :
    (do Format.properties.decode (← Format.properties.encode (.map entries))) =
      .ok (.map entries) := by
  have hclosed := closed_ofList (Properties.getLast?_render h)
  rw [String.ofList_toList] at hclosed
  have hencode : Format.properties.encode (.map entries) =
      .ok (String.ofList ((Properties.render (.map entries)).toList ++ ['\n'])) := by
    rw [← hclosed]
    rfl
  rw [hencode, Result.ok_bind, decode, Properties.parse_render h]

theorem decode_encode_properties_of_signs :
    (do Format.properties.decode (← Format.properties.encode (.map
      [("a", .map [("# b", .string "c=d:e.f"), ("b c", .map [("!", .string "")])]), ("b", .string "#")]))) =
        .ok (.map [("a", .map [("# b", .string "c=d:e.f"), ("b c", .map [("!", .string "")])]),
          ("b", .string "#")]) :=
  decode_encode_properties (by decide)

end Format

end Overlay
