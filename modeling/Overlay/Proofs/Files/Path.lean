import Mathlib.Data.List.Basic
import Mathlib.Data.List.TakeWhile
import Overlay.Files.Path
import Overlay.Proofs.Text.Fields

/-!
# Paths of plain segments

Plain segments lead from one directory to the next. They can be read off the path that they make up,
with the directory, the name and the extension.
-/

namespace Overlay.Path

/-- A segment that leads on from a directory. -/
structure Plain (segment : String) : Prop where
  slashless : '/' ∉ segment.toList
  busy : isIdle segment = false
  notAbove : segment ≠ ".."

instance (segment : String) : Decidable (Plain segment) :=
  decidable_of_iff ('/' ∉ segment.toList ∧ isIdle segment = false ∧ segment ≠ "..")
    ⟨fun ⟨slashless, busy, notAbove⟩ => ⟨slashless, busy, notAbove⟩,
      fun ⟨slashless, busy, notAbove⟩ => ⟨slashless, busy, notAbove⟩⟩

theorem Plain.ne_empty {segment : String} (h : Plain segment) : segment ≠ "" := by
  intro hs
  have hbusy := h.busy
  rw [hs] at hbusy
  cases hbusy

theorem Plain.ne_dot {segment : String} (h : Plain segment) : segment ≠ "." := by
  intro hs
  have hbusy := h.busy
  rw [hs] at hbusy
  cases hbusy

theorem Plain.extended {stem s : String} (h : Plain stem) (hs : '/' ∉ s.toList) :
    Plain (stem ++ "." ++ s) := by
  have hlist : (stem ++ "." ++ s).toList = stem.toList ++ '.' :: s.toList := by simp
  have hnot : ∀ name : String, stem.toList ++ '.' :: s.toList ≠ name.toList →
      stem ++ "." ++ s ≠ name := by
    rintro name hne rfl
    exact hne hlist.symm
  have hempty : stem.toList ≠ [] := by simpa using h.ne_empty
  have hdot : stem.toList ≠ ['.'] := fun heq => h.ne_dot (String.toList_inj.mp heq)
  refine ⟨?_, ?_, hnot ".." ?_⟩
  · rw [hlist]
    simp [h.slashless, hs]
  · have hone : stem ++ "." ++ s ≠ "." := hnot "." (by simp [List.append_eq_cons_iff, hempty])
    have hnone : stem ++ "." ++ s ≠ "" := hnot "" (by simp)
    simp [isIdle, hone, hnone]
  · match hstem : stem.toList with
    | [] => exact absurd hstem hempty
    | [c] =>
      rw [hstem] at hdot
      intro heq
      have hc : c = '.' := (List.cons_eq_cons.mp heq).1
      exact hdot (congrArg ([·]) hc)
    | c :: d :: rest =>
      intro heq
      have hlength := congrArg List.length heq
      simp at hlength

theorem isAbsolute_iff {path : String} : isAbsolute path ↔ ∃ s, path.toList = '/' :: s := by
  rw [isAbsolute, String.startsWith_string_iff]
  exact ⟨fun ⟨s, hs⟩ => ⟨s, hs.symm⟩, fun ⟨s, hs⟩ => ⟨s, hs.symm⟩⟩

theorem isAbsolute_of_slashless {segment : String} (h : '/' ∉ segment.toList) :
    isAbsolute segment = false := by
  rw [← Bool.not_eq_true, isAbsolute_iff]
  rintro ⟨s, hs⟩
  rw [hs] at h
  exact h (List.mem_cons_self ..)

theorem join_injective {directory a b : String} (ha : isAbsolute a = false)
    (hb : isAbsolute b = false) (h : join directory a = join directory b) : a = b := by
  rw [join, join, ha, hb] at h
  by_cases hempty : directory = ""
  · simpa [hempty] using h
  · by_cases hslash : directory.endsWith "/"
    · simpa [hempty, hslash] using h
    · simpa [hempty, hslash] using h

theorem fields_ne_nil (path : String) : fields path ≠ [] :=
  mt List.map_eq_nil_iff.mp (Text.fields_ne_nil '/' path.toList)

/-- Text that a path can start with, so that it is not absolute. -/
def Starts (s : String) : Prop :=
  s ≠ "" ∧ isAbsolute s = false

theorem Plain.starts {segment : String} (h : Plain segment) : Starts segment :=
  ⟨h.ne_empty, isAbsolute_of_slashless h.slashless⟩

theorem Starts.extended {start s : String} (h : Starts start) (hs : start.toList <+: s.toList) :
    Starts s := by
  obtain ⟨c, tail, hc⟩ := List.exists_cons_of_ne_nil
    (fun hnil => h.1 (String.toList_eq_nil_iff.mp hnil))
  rw [hc] at hs
  obtain ⟨rest, hrest⟩ := hs
  refine ⟨fun hempty => ?_, ?_⟩
  · rw [hempty] at hrest
    cases hrest
  · rw [← Bool.not_eq_true, isAbsolute_iff]
    rintro ⟨path, hpath⟩
    rw [hpath] at hrest
    have hslash : c = '/' := (List.cons_eq_cons.mp hrest).1
    have habsolute : isAbsolute start := isAbsolute_iff.mpr ⟨tail, hslash ▸ hc⟩
    rw [h.2] at habsolute
    cases habsolute

/-- A directory as it is asked for: the empty path is that of the working directory. -/
def orHere (directory : String) : String :=
  if directory = "" then "." else directory

theorem orHere_ne_empty (directory : String) : orHere directory ≠ "" := by
  unfold orHere
  split
  · decide
  · exact ‹_›

theorem isAbsolute_orHere (directory : String) : isAbsolute (orHere directory) = isAbsolute directory := by
  unfold orHere
  split
  · rw [‹directory = ""›, isAbsolute_of_slashless (by decide), isAbsolute_of_slashless (by decide)]
  · rfl

theorem starts_path {segments : List String} (hne : segments ≠ [])
    (h : ∀ s ∈ segments, Starts s) : Starts (Text.joined "/" segments) := by
  obtain ⟨first, rest, rfl⟩ := List.exists_cons_of_ne_nil hne
  exact (h first (List.mem_cons_self ..)).extended (Text.prefix_joined "/" first rest)

section
variable {segments : List String} (hplain : ∀ s ∈ segments, Plain s)
include hplain

theorem fields_path (hne : segments ≠ []) :
    fields (Text.joined "/" segments) = segments :=
  Text.ofList_fields_joined rfl (fun s hs => (hplain s hs).slashless) hne

theorem anatomy_path (hne : segments ≠ []) :
    anatomy (Text.joined "/" segments) = ("", segments) := by
  have hfields := fields_path hplain hne
  -- A path with a start of its own has a first segment that is not plain.
  rw [anatomy]
  split
  · rename_i s hs
    rw [fields, hs, Text.fields, if_pos rfl] at hfields
    exact absurd rfl (hplain "" (hfields ▸ List.mem_cons_self ..)).ne_empty
  · rename_i hs
    rw [fields, hs] at hfields
    exact absurd rfl (hplain "." (hfields ▸ List.mem_cons_self ..)).ne_dot
  · rename_i s hs
    rw [fields, hs, Text.fields, if_neg (by decide), Text.fields, if_pos rfl] at hfields
    exact absurd rfl (hplain "." (hfields ▸ List.mem_cons_self ..)).ne_dot
  · exact congrArg _ hfields

theorem endsWith_path : (Text.joined "/" segments).endsWith "/" = false := by
  rw [← Bool.not_eq_true, String.endsWith, String.Slice.endsWith_string_iff, String.copy_toSlice]
  intro hslash
  rcases List.eq_nil_or_concat' segments with rfl | ⟨before, last, rfl⟩
  · have := List.suffix_nil.mp hslash
    cases this
  · have hlast := hplain last (by simp)
    have hpos : 0 < last.toList.length :=
      List.length_pos_of_ne_nil fun h => hlast.ne_empty (String.toList_eq_nil_iff.mp h)
    have hsuffix := List.suffix_of_suffix_length_le hslash (Text.suffix_joined "/" before last) hpos
    exact hlast.slashless (hsuffix.subset (List.mem_singleton_self '/'))

theorem trimIdle_plain : trimIdle segments = segments := by
  rw [trimIdle]
  cases hreverse : segments.reverse with
  | nil => simpa using hreverse.symm
  | cons last before =>
    have hlast : last ∈ segments := List.mem_reverse.mp (hreverse ▸ List.mem_cons_self ..)
    rw [List.dropWhile_cons_of_neg (by simp [(hplain last hlast).busy]), ← hreverse,
      List.reverse_reverse]

end

section
variable {directory : List String} {name : String} (hdirectory : ∀ s ∈ directory, Plain s)
  (hname : Plain name)
include hdirectory

theorem join_path (hrelative : isAbsolute name = false) :
    join (Text.joined "/" directory) name = Text.joined "/" (directory ++ [name]) := by
  rw [join, hrelative, Bool.false_or, endsWith_path hdirectory]
  by_cases hne : directory = []
  · simp [hne, Text.joined]
  · have hstarts := starts_path hne fun s hs => (hdirectory s hs).starts
    rw [Text.joined_append_singleton "/" hne, if_neg (by simpa using hstarts.1)]
    rfl

include hname

theorem split?_path : split? (Text.joined "/" (directory ++ [name])) =
    some (Text.joined "/" directory, name) := by
  have hplain : ∀ s ∈ directory ++ [name], Plain s := by
    simpa [or_imp, forall_and, hname] using hdirectory
  simp [split?, anatomy_path hplain, trimIdle_plain hplain, trimIdle_plain hdirectory]

theorem parent?_path : parent? (Text.joined "/" (directory ++ [name])) =
    some (Text.joined "/" directory) := by
  rw [parent?, split?_path hdirectory hname]
  rfl

theorem fileName?_path : fileName? (Text.joined "/" (directory ++ [name])) = some name := by
  rw [fileName?, split?_path hdirectory hname]
  exact if_neg (by simp [hname.ne_dot, hname.notAbove])

end

/-! ## Paths that go on -/

section
variable {name : String} (hname : Plain name) (s : String)
include hname

theorem starts_below : Starts (name ++ "/" ++ s) := by
  refine hname.starts.extended ?_
  rw [String.append_assoc, String.toList_append]
  exact List.prefix_append ..

theorem fields_below {directory : List String} (hdirectory : ∀ s ∈ directory, Plain s) :
    fields (Text.joined "/" (directory ++ [name ++ "/" ++ s])) = directory ++ name :: fields s := by
  have hslash : "/".toList = ['/'] := rfl
  have hslashless : ∀ segment ∈ directory, '/' ∉ segment.toList :=
    fun segment hsegment => (hdirectory segment hsegment).slashless
  have hbelow : (name ++ "/" ++ s).toList = name.toList ++ '/' :: s.toList := by simp
  rw [fields, Text.fields_joined_append hslash hslashless, hbelow, Text.fields_append hname.slashless]
  simp [fields]

end

/-! ## Names -/

/-- Text that can stand between the dots of a file's name. -/
structure Part (s : String) : Prop where
  dotless : '.' ∉ s.toList
  slashless : '/' ∉ s.toList

instance (s : String) : Decidable (Part s) :=
  decidable_of_iff ('.' ∉ s.toList ∧ '/' ∉ s.toList)
    ⟨fun ⟨dotless, slashless⟩ => ⟨dotless, slashless⟩,
      fun ⟨dotless, slashless⟩ => ⟨dotless, slashless⟩⟩

section
variable {parts : List String} (hparts : ∀ part ∈ parts, Part part)
include hparts

theorem fields_name (hne : parts ≠ []) :
    (Text.fields '.' (Text.joined "." parts).toList).map String.ofList = parts :=
  Text.ofList_fields_joined rfl (fun part hpart => (hparts part hpart).dotless) hne

theorem slashless_name : '/' ∉ (Text.joined "." parts).toList := by
  rw [Text.mem_joined (by decide)]
  rintro ⟨part, hpart, hslash⟩
  exact (hparts part hpart).slashless hslash

theorem plain_name {part : String} (hpart : part ∈ parts) (hbusy : part ≠ "") :
    Plain (Text.joined "." parts) := by
  have hfields := fields_name hparts (List.ne_nil_of_mem hpart)
  -- The parts of a name that is not plain are empty.
  have hnot : ∀ name : String, (∀ s ∈ (Text.fields '.' name.toList).map String.ofList, s = "") →
      Text.joined "." parts ≠ name := by
    rintro name hall rfl
    rw [hfields] at hall
    exact hbusy (hall part hpart)
  refine ⟨slashless_name hparts, ?_, hnot ".." (by decide)⟩
  simp [isIdle, hnot "" (by decide), hnot "." (by decide)]

theorem extension?_path {directory : List String} (hdirectory : ∀ s ∈ directory, Plain s)
    {extension : String} (hextension : Part extension) (hne : parts ≠ [])
    (hbusy : ∀ part ∈ parts, part ≠ "") :
    extension? (Text.joined "/" (directory ++ [Text.joined "." (parts ++ [extension])])) =
      some extension := by
  obtain ⟨before, last, rfl⟩ := (List.eq_nil_or_concat' parts).resolve_left hne
  have hall : ∀ part ∈ before ++ [last] ++ [extension], Part part := by
    simpa [or_imp, forall_and, hextension] using hparts
  have hlast := hbusy last (by simp)
  rw [extension?, fileName?_path hdirectory (plain_name hall (by simp) hlast), Option.bind_eq_bind,
    Option.bind_some, Text.fields_joined rfl (fun part hpart => (hall part hpart).dotless) (by simp)]
  have hlast' : last.toList ≠ [] := by simpa using hlast
  simp [hlast']

end

/-! ## Where the name of a path stands -/

/-- What is left of segments without those that say nothing. -/
def busy (segments : List String) : List String :=
  segments.filter fun s => !isIdle s

theorem busy_append (segments others : List String) :
    busy (segments ++ others) = busy segments ++ busy others :=
  List.filter_append ..

theorem busy_busy (segments : List String) : busy (busy segments) = busy segments := by
  simp [busy]

theorem busy_cons_idle {segment : String} (h : isIdle segment) (segments : List String) :
    busy (segment :: segments) = busy segments :=
  List.filter_cons_of_neg (by simp [h])

theorem busy_cons {segment : String} (h : isIdle segment = false) (segments : List String) :
    busy (segment :: segments) = segment :: busy segments :=
  List.filter_cons_of_pos (by simp [h])

theorem slashless_of_mem_fields {path segment : String} (h : segment ∈ fields path) :
    '/' ∉ segment.toList := by
  obtain ⟨field, hfield, rfl⟩ := List.mem_map.mp h
  simpa using Text.not_mem_of_mem_fields hfield

theorem busy_fields_orHere (directory : String) :
    busy (fields (orHere directory)) = busy (fields directory) := by
  unfold orHere
  split
  · rw [‹directory = ""›]
    rfl
  · rfl

theorem busy_fields_joined {segments : List String} (h : ∀ s ∈ segments, '/' ∉ s.toList) :
    busy (fields (Text.joined "/" segments)) = busy segments := by
  by_cases hne : segments = []
  · rw [hne]
    decide
  · rw [fields, Text.ofList_fields_joined rfl h hne]

theorem isAbsolute_slash (path : String) : isAbsolute ("/" ++ path) :=
  isAbsolute_iff.mpr ⟨path.toList, String.toList_append⟩

theorem fields_slash (path : String) : fields ("/" ++ path) = "" :: fields path := by
  have hlist : ("/" ++ path).toList = '/' :: path.toList := by simp
  rw [fields, hlist, Text.fields, if_pos rfl]
  rfl

/-- The first segment of a path is not empty, unless there is no other. -/
theorem ne_empty_of_fields {path first : String} {rest : List String}
    (hrelative : isAbsolute path = false) (h : fields path = first :: rest) (hne : rest ≠ []) :
    first ≠ "" := by
  rintro rfl
  rw [fields] at h
  cases hpath : path.toList with
  | nil =>
    rw [hpath] at h
    exact hne (List.cons_eq_cons.mp h).2.symm
  | cons c s =>
    have hc : c ≠ '/' := by
      rintro rfl
      have habsolute : isAbsolute path := isAbsolute_iff.mpr ⟨s, hpath⟩
      rw [hrelative] at habsolute
      cases habsolute
    rw [hpath, Text.fields, if_neg hc] at h
    cases hrest : Text.fields '/' s with
    | nil => exact Text.fields_ne_nil '/' s hrest
    | cons field others =>
      rw [hrest] at h
      have hfirst : String.ofList (c :: field) = "" := (List.cons_eq_cons.mp h).1
      have hlist := congrArg String.toList hfirst
      simp at hlist

theorem exists_trimIdle (segments : List String) :
    ∃ idle, (∀ s ∈ idle, isIdle s) ∧ segments = trimIdle segments ++ idle := by
  refine ⟨(segments.reverse.takeWhile isIdle).reverse, fun s hs => ?_, ?_⟩
  · exact List.mem_takeWhile_imp (List.mem_reverse.mp hs)
  · rw [trimIdle, ← List.reverse_append, List.takeWhile_append_dropWhile, List.reverse_reverse]

theorem busy_trimIdle (segments : List String) : busy (trimIdle segments) = busy segments := by
  obtain ⟨idle, hidle, hsegments⟩ := exists_trimIdle segments
  have hnone : busy idle = [] := List.filter_eq_nil_iff.mpr fun s hs => by simp [hidle s hs]
  calc busy (trimIdle segments)
    _ = busy (trimIdle segments ++ idle) := by rw [busy_append, hnone, List.append_nil]
    _ = busy segments := by rw [← hsegments]

theorem trimIdle_subset (segments : List String) : trimIdle segments ⊆ segments := by
  obtain ⟨idle, -, hsegments⟩ := exists_trimIdle segments
  intro s hs
  rw [hsegments]
  exact List.mem_append_left _ hs

theorem trimIdle_cons_idle {segment : String} (h : isIdle segment) (segments : List String) :
    trimIdle (segment :: segments) =
      if trimIdle segments = [] then [] else segment :: trimIdle segments := by
  rw [trimIdle, trimIdle, List.reverse_cons, List.dropWhile_append]
  by_cases hnil : segments.reverse.dropWhile isIdle = []
  · simp [hnil, h]
  · simp [hnil]

theorem split?_eq_some {path directory last : String} (h : split? path = some (directory, last))
    (hlast : last ≠ ".") : ∃ before idle, (anatomy path).2 = before ++ last :: idle ∧
      (∀ s ∈ idle, isIdle s) ∧ isIdle last = false ∧
      directory = (anatomy path).1 ++ Text.joined "/" (trimIdle before) := by
  obtain ⟨idle, hidle, hsegments⟩ := exists_trimIdle (anatomy path).2
  simp only [split?] at h
  cases hreverse : (trimIdle (anatomy path).2).reverse with
  | nil =>
    rw [hreverse] at h
    simp only at h
    split at h
    · exact absurd (Prod.mk.inj (Option.some.inj h)).2.symm hlast
    · cases h
  | cons other before =>
    rw [hreverse] at h
    obtain ⟨rfl, rfl⟩ := Prod.mk.inj (Option.some.inj h)
    have htrimmed : trimIdle (anatomy path).2 = before.reverse ++ [other] := by
      rw [← List.reverse_inj, hreverse]
      simp
    refine ⟨before.reverse, idle, ?_, hidle, ?_, rfl⟩
    · rw [hsegments, htrimmed]
      simp
    · rw [trimIdle, List.reverse_reverse] at hreverse
      have hhead := List.head?_dropWhile_not isIdle (anatomy path).2.reverse
      rw [hreverse] at hhead
      simpa using hhead

/-- The segments of a path are its fields, but for one at the start that says nothing. -/
theorem anatomy_cases {path : String} (hdot : path ≠ ".") :
    (isAbsolute path ∧ ∃ rest, anatomy path = ("/", rest) ∧ fields path = "" :: rest) ∨
      isAbsolute path = false ∧ (anatomy path = ("", fields path) ∨
        ∃ rest, anatomy path = (".", "" :: rest) ∧ fields path = "." :: rest) := by
  have hrelative : (∀ s, path.toList ≠ '/' :: s) → isAbsolute path = false := by
    intro hnot
    rw [← Bool.not_eq_true, isAbsolute_iff]
    rintro ⟨s, hs⟩
    exact hnot s hs
  rw [anatomy]
  split
  · rename_i s hs
    refine .inl ⟨isAbsolute_iff.mpr ⟨s, hs⟩, fields (String.ofList s), ?_, ?_⟩
    · rw [fields, String.toList_ofList]
    · rw [fields, fields, String.toList_ofList, hs, Text.fields, if_pos rfl]
      rfl
  · rename_i hs
    exact absurd (String.toList_inj.mp hs) hdot
  · rename_i s hs
    refine .inr ⟨hrelative (by simp [hs]), .inr ⟨fields (String.ofList s), ?_, ?_⟩⟩
    · rw [fields, String.toList_ofList]
      rfl
    · rw [fields, fields, String.toList_ofList, hs, Text.fields, if_neg (by decide), Text.fields,
        if_pos rfl]
      rfl
  · rename_i hslash _ _
    exact .inr ⟨hrelative hslash, .inl rfl⟩

theorem relative_joined {first : String} (hne : first ≠ "") (hslashless : '/' ∉ first.toList)
    (rest : List String) : isAbsolute (Text.joined "/" (first :: rest)) = false :=
  (Starts.extended ⟨hne, isAbsolute_of_slashless hslashless⟩ (Text.prefix_joined "/" first rest)).2

theorem relative_trimIdle {path name : String} {before after : List String}
    (hrelative : isAbsolute path = false) (hfields : fields path = before ++ name :: after) :
    isAbsolute (Text.joined "/" (trimIdle before)) = false := by
  cases htrimmed : trimIdle before with
  | nil => decide
  | cons first trimmed =>
    obtain ⟨idle, -, hbefore⟩ := exists_trimIdle before
    have hfirst : fields path = first :: (trimmed ++ idle ++ name :: after) := by
      rw [hfields, hbefore, htrimmed]
      simp
    exact relative_joined (ne_empty_of_fields hrelative hfirst (by simp))
      (slashless_of_mem_fields (hfirst ▸ List.mem_cons_self ..)) trimmed

/-- The name and the directory of a path are read off its segments. -/
theorem parent?_of_fileName? {path name : String} (h : fileName? path = some name) :
    ∃ before idle, (anatomy path).2 = before ++ name :: idle ∧ (∀ s ∈ idle, isIdle s) ∧
      isIdle name = false ∧ name ≠ ".." ∧
      parent? path = some ((anatomy path).1 ++ Text.joined "/" (trimIdle before)) := by
  rw [fileName?] at h
  cases hsplit : split? path with
  | none =>
    rw [hsplit] at h
    cases h
  | some found =>
    obtain ⟨directory, last⟩ := found
    rw [hsplit] at h
    simp only [Bool.or_eq_true, decide_eq_true_eq] at h
    split at h
    · cases h
    · rename_i hlast
      obtain rfl := Option.some.inj h
      rw [not_or] at hlast
      obtain ⟨before, idle, hsegments, hidle, hbusy, rfl⟩ := split?_eq_some hsplit hlast.1
      refine ⟨before, idle, hsegments, hidle, hbusy, hlast.2, ?_⟩
      rw [parent?, hsplit]
      rfl

theorem joined_trimIdle_dot (segments : List String) :
    "." ++ Text.joined "/" (trimIdle ("" :: segments)) = Text.joined "/" ("." :: trimIdle segments) := by
  rw [trimIdle_cons_idle rfl]
  cases trimIdle segments with
  | nil => rfl
  | cons first others =>
    rw [if_neg (List.cons_ne_nil _ _), Text.joined, String.intercalate_cons_cons,
      Text.joined, String.intercalate_cons_cons, String.empty_append, String.append_assoc]

/-- Where the name of a path stands: after the segments of a directory that starts as the path does,
and before segments that say nothing. -/
structure Named (path directory name : String) (before after : List String) : Prop where
  parent : parent? path = some directory
  start : isAbsolute directory = isAbsolute path
  fields_eq : fields path = before ++ name :: after
  busy_eq : busy (fields directory) = busy before
  idle : ∀ s ∈ after, isIdle s
  busy_name : isIdle name = false
  notAbove : name ≠ ".."

theorem exists_of_fileName? {path name : String} (h : fileName? path = some name) :
    ∃ directory before after, Named path directory name before after := by
  obtain ⟨before, idle, hsegments, hidle, hbusy, hup, hparent⟩ := parent?_of_fileName? h
  have hdot : path ≠ "." := by
    rintro rfl
    have hnone : ([] : List String) = before ++ name :: idle := hsegments
    simp at hnone
  have hslashless (segments : List String) (hmem : ∀ s ∈ segments, s ∈ fields path) :
      ∀ s ∈ trimIdle segments, '/' ∉ s.toList := fun s hs =>
    slashless_of_mem_fields (hmem s (trimIdle_subset segments hs))
  rcases anatomy_cases hdot with ⟨habsolute, rest, hanatomy, hfields⟩ |
    ⟨hrelative, hanatomy | ⟨rest, hanatomy, hfields⟩⟩
  · rw [hanatomy] at hsegments hparent
    obtain rfl : rest = before ++ name :: idle := hsegments
    have hslashless := hslashless before fun s hs => by simp [hfields, hs]
    refine ⟨_, "" :: before, idle, hparent, ?_, hfields, ?_, hidle, hbusy, hup⟩
    · rw [habsolute]
      exact isAbsolute_slash _
    · rw [fields_slash, busy_cons_idle rfl, busy_cons_idle rfl, busy_fields_joined hslashless,
        busy_trimIdle]
  · rw [hanatomy] at hsegments hparent
    rw [String.empty_append] at hparent
    have hsegments : fields path = before ++ name :: idle := hsegments
    have hslashless := hslashless before fun s hs => by simp [hsegments, hs]
    refine ⟨_, before, idle, hparent, ?_, hsegments, ?_, hidle, hbusy, hup⟩
    · rw [hrelative]
      exact relative_trimIdle hrelative hsegments
    · rw [busy_fields_joined hslashless, busy_trimIdle]
  · rw [hanatomy] at hsegments hparent
    -- The name is not the empty segment that stands for the slash after the dot.
    obtain ⟨inner, rfl, rfl⟩ : ∃ inner, before = "" :: inner ∧ rest = inner ++ name :: idle := by
      cases before with
      | nil =>
        obtain ⟨rfl, -⟩ := List.cons_eq_cons.mp hsegments
        cases hbusy
      | cons first inner =>
        obtain ⟨rfl, rfl⟩ := List.cons_eq_cons.mp hsegments
        exact ⟨inner, rfl, rfl⟩
    have hslashless : ∀ s ∈ "." :: trimIdle inner, '/' ∉ s.toList :=
      List.forall_mem_cons.mpr ⟨by decide, hslashless inner fun s hs => by simp [hfields, hs]⟩
    rw [joined_trimIdle_dot] at hparent
    refine ⟨_, "." :: inner, idle, hparent, ?_, hfields, ?_, hidle, hbusy, hup⟩
    · rw [hrelative]
      exact relative_joined (by decide) (by decide) _
    · rw [busy_fields_joined hslashless, busy_cons_idle rfl, busy_cons_idle rfl, busy_trimIdle]

end Overlay.Path
