import Overlay.Proofs.Assembly.Step

/-!
# Which documents a layer is merged into

Layers are taken in after what they inherit from, and none of them has a selector. A layer is then
merged into documents of the outcome that it inherits from, and into those that earlier layers tie
to them: a document gets the layers merged into it as parents, so whoever inherits from it also
inherits, from then on, from all that these layers inherit from. `Linked` says so in terms of the
lineage alone that there was before.
-/

namespace Overlay

open Relation (TransGen)

namespace Corpus

/-- Parents come before what inherits from them. -/
def Ordered (c : Corpus) : Prop :=
  ∀ id, ∀ parent ∈ c.parents id, parent < id

theorem ordered_iff {c : Corpus} :
    c.Ordered ↔ ∀ id < c.size, ∀ parent ∈ c.parents id, parent < id := by
  constructor
  · intro h id _
    exact h id
  · intro h id
    by_cases hid : id < c.size
    · exact h id hid
    · rw [parents_of_size_le (Nat.le_of_not_lt hid)]
      nofun

instance (c : Corpus) : Decidable c.Ordered :=
  decidable_of_iff _ ordered_iff.symm

/-- A link leads from a document to a parent, or from a document without parents to one before the
patch that inherits from it. -/
def Leads (c : Corpus) (patch id next : Nat) : Prop :=
  next ∈ c.parents id ∨ next < patch ∧ c.parents id = [] ∧ c.Inherits next id

def Linked (c : Corpus) (patch : Nat) : Nat → Prop :=
  TransGen (c.Leads patch) patch

theorem Inherits.parents_ne_nil {c : Corpus} {id other : Nat} (h : c.Inherits id other) :
    c.parents id ≠ [] := by
  intro hnil
  induction h using TransGen.head_induction_on with
  | single hp => rw [hnil] at hp; cases hp
  | head hp _ _ => rw [hnil] at hp; cases hp

theorem Inherits.linked {c : Corpus} {id other : Nat} (h : c.Inherits id other) :
    c.Linked id other :=
  TransGen.mono (fun _ _ hp => .inl hp) _ _ h

section
variable {c : Corpus} (hc : c.Ordered)
include hc

theorem Inherits.lt {id other : Nat} (h : c.Inherits id other) : other < id := by
  induction h with
  | single hp => exact hc _ _ hp
  | tail _ hp ih => exact (hc _ _ hp).trans ih

theorem Linked.lt {patch id : Nat} (h : c.Linked patch id) : id < patch := by
  have step {a b : Nat} (hab : c.Leads patch a b) (ha : a ≤ patch) : b < patch := by
    rcases hab with hp | ⟨hlt, -, -⟩
    · exact (hc _ _ hp).trans_le ha
    · exact hlt
  induction h with
  | single hab => exact step hab le_rfl
  | tail _ hab ih => exact step hab ih.le

theorem Linked.parents_ne_nil {patch id : Nat} (h : c.Linked patch id) : c.parents patch ≠ [] := by
  intro hnil
  obtain ⟨next, hab, -⟩ := TransGen.head'_iff.mp h
  rcases hab with hp | ⟨hlt, -, hback⟩
  · rw [hnil] at hp
    cases hp
  · exact absurd (hback.lt hc) hlt.asymm

/-- Whoever has parents inherits from a document without. -/
theorem exists_inherits_root {id : Nat} (h : c.parents id ≠ []) :
    ∃ root, c.parents root = [] ∧ c.Inherits id root := by
  induction id using Nat.strong_induction_on with
  | _ id ih =>
    obtain ⟨parent, hparent⟩ := List.exists_mem_of_ne_nil _ h
    by_cases hnil : c.parents parent = []
    · exact ⟨parent, hnil, .single hparent⟩
    · obtain ⟨root, hroot, hinherits⟩ := ih parent (hc _ _ hparent) hnil
      exact ⟨root, hroot, .head hparent hinherits⟩

/-- Links can be gone back from a document without parents. -/
theorem Linked.back {earlier root patch : Nat} (h : c.Linked earlier root)
    (hroot : c.parents root = []) (hlt : earlier < patch) :
    TransGen (c.Leads patch) root earlier := by
  -- From where a way to the root starts, all that inherit from there can be come to from the root.
  have back : ∀ x, TransGen (c.Leads earlier) x root → ∀ y, y < patch → c.parents y ≠ [] →
      y = x ∨ c.Inherits y x → TransGen (c.Leads patch) root y := by
    have step {x next : Nat} (hx : c.Leads earlier x next)
        (hnext : ∀ y, y < patch → c.parents y ≠ [] → y = next ∨ c.Inherits y next →
          TransGen (c.Leads patch) root y) :
        ∀ y, y < patch → c.parents y ≠ [] → y = x ∨ c.Inherits y x →
          TransGen (c.Leads patch) root y := by
      intro y hy hne hyx
      rcases hx with hp | ⟨hbefore, hnil, hback⟩
      · refine hnext y hy hne (.inr ?_)
        rcases hyx with rfl | hyx
        · exact .single hp
        · exact .tail hyx hp
      · have hyx : c.Inherits y x := by
          rcases hyx with rfl | hyx
          · exact absurd hnil hne
          · exact hyx
        have hto : TransGen (c.Leads patch) root next :=
          hnext next (hbefore.trans hlt) hback.parents_ne_nil (.inl rfl)
        have hdown : TransGen (c.Leads patch) root x :=
          hto.trans (TransGen.mono (fun _ _ hp => .inl hp) _ _ hback)
        exact .tail hdown (.inr ⟨hy, hnil, hyx⟩)
    intro x hx
    induction hx using TransGen.head_induction_on with
    | single hx =>
      refine step hx fun y hy hne hyr => ?_
      rcases hyr with rfl | hyr
      · exact absurd hroot hne
      · exact .single (.inr ⟨hy, hroot, hyr⟩)
    | head hx _ ih => exact step hx ih
  exact back earlier h earlier hlt (h.parents_ne_nil hc) (.inl rfl)

end

end Corpus

namespace Assembly

/-! ## Runs -/

/-- What has become of a corpus when the documents below a number have been taken in. -/
structure Upto (c : Corpus) (k : Nat) (a : Assembly) : Prop where
  size : a.corpus.size = c.size
  result : a.result = (List.range k).filter fun id => (c.parents id).isEmpty
  data : ∀ id, k ≤ id → a.corpus.data id = c.data id
  parents : ∀ id n, n ∈ a.corpus.parents id ↔
    n ∈ c.parents id ∨ id ∈ a.result ∧ n < k ∧ c.Linked n id

theorem upto_zero (c : Corpus) : Upto c 0 ⟨c, []⟩ := by
  refine ⟨rfl, rfl, fun _ _ => rfl, fun id n => ?_⟩
  simp

section
variable {c : Corpus} {k : Nat} {a : Assembly} (h : Upto c k a)
include h

theorem Upto.mem_result {id : Nat} : id ∈ a.result ↔ id < k ∧ c.parents id = [] := by
  rw [h.result]
  simp

theorem Upto.inherits_iff (hc : c.Ordered) {target : Nat} :
    a.corpus.Inherits k target ↔ c.Linked k target := by
  constructor
  · apply TransGen.closed
    intro id n hn
    rcases (h.parents id n).mp hn with hp | ⟨hid, hlt, hlinked⟩
    · exact .single (.inl hp)
    · exact hlinked.back hc (h.mem_result.mp hid).2 hlt
  · apply TransGen.closed
    rintro id n (hp | ⟨hlt, hnil, hinherits⟩)
    · exact .single ((h.parents id n).mpr (.inl hp))
    · have hid : id < k := (hinherits.lt hc).trans hlt
      exact .single ((h.parents id n).mpr
        (.inr ⟨h.mem_result.mpr ⟨hid, hnil⟩, hlt, hinherits.linked⟩))

theorem Upto.result_lt (hk : k < c.size) : ∀ id ∈ a.result, id < a.corpus.size := by
  intro id hid
  rw [h.size]
  exact (h.mem_result.mp hid).1.trans hk

theorem Upto.heritage_nodup : (a.heritage k).Nodup := by
  have hresult : a.result.Nodup := by
    rw [h.result]
    exact List.nodup_range.filter _
  exact hresult.filter _

theorem Upto.selection (hselect : Unselecting (c.data k)) :
    Assembly.selection (a.corpus.data k) = .ok (withoutParent (c.data k), .lineage) := by
  rw [h.data k le_rfl]
  exact selection_of_unselecting hselect

section
variable (hc : c.Ordered) (hk : k < c.size)
include hc hk

theorem Upto.mem_heritage {id : Nat} : id ∈ a.heritage k ↔ id ∈ a.result ∧ c.Linked k id := by
  rw [Assembly.mem_heritage (h.result_lt hk), h.inherits_iff hc]
  constructor
  · rintro ⟨hid, hlinked, -⟩
    exact ⟨hid, hlinked⟩
  · rintro ⟨hid, hlinked⟩
    exact ⟨hid, hlinked, (hlinked.lt hc).ne⟩

theorem Upto.not_mem_heritage : k ∉ a.heritage k := by
  intro hmem
  exact (((h.mem_heritage hc hk).mp hmem).2.lt hc).false

theorem Upto.heritage_ne_nil (hparents : c.parents k ≠ []) : a.heritage k ≠ [] := by
  obtain ⟨root, hnil, hinherits⟩ := Corpus.exists_inherits_root hc hparents
  have hroot : root ∈ a.result := h.mem_result.mpr ⟨hinherits.lt hc, hnil⟩
  exact List.ne_nil_of_mem ((h.mem_heritage hc hk).mpr ⟨hroot, hinherits.linked⟩)

variable (hselect : Unselecting (c.data k))
include hselect

/-- A document without parents joins the outcome. -/
theorem Upto.takeIn_root (hparents : c.parents k = []) : a.takeIn k =
    (fun fresh => ⟨a.corpus.setData k fresh, a.result ++ [k]⟩) <$>
      (withoutParent (c.data k)).normalize "" := by
  have hnil : a.heritage k = [] := by
    rw [List.eq_nil_iff_forall_not_mem]
    intro id hid
    exact ((h.mem_heritage hc hk).mp hid).2.parents_ne_nil hc hparents
  have htargets := targets_lineage a k
  rw [hnil] at htargets
  exact takeIn_of_nil (h.selection hselect) htargets

/-- Any other is merged into what it inherits from. -/
theorem Upto.absorbed (hparents : c.parents k ≠ []) {b : Assembly} (hb : a.takeIn k = .ok b) :
    Absorbed k (withoutParent (c.data k)) (a.heritage k) a b := by
  refine absorbed_of_takeIn (h.selection hselect) (targets_lineage a k)
    (h.heritage_ne_nil hc hk hparents) h.heritage_nodup ?_ (h.not_mem_heritage hc hk) hb
  intro id hid
  exact h.result_lt hk id ((h.mem_heritage hc hk).mp hid).1

theorem Upto.step {b : Assembly} (hb : a.takeIn k = .ok b) : Upto c (k + 1) b := by
  by_cases hparents : c.parents k = []
  · rw [h.takeIn_root hc hk hselect hparents] at hb
    obtain ⟨fresh, -, rfl⟩ := Result.map_eq_ok.mp hb
    refine ⟨?_, ?_, fun id hid => ?_, fun id n => ?_⟩
    · simpa using h.size
    · rw [List.range_succ, List.filter_append, ← h.result]
      simp [hparents]
    · rw [Corpus.data_setData_ne (Nat.ne_of_gt hid), h.data id (Nat.le_of_succ_le hid)]
    · rw [Corpus.parents_setData, h.parents, List.mem_append, List.mem_singleton]
      refine or_congr_right ⟨?_, ?_⟩
      · rintro ⟨hid, hn, hlinked⟩
        exact ⟨.inl hid, Nat.lt_succ_of_lt hn, hlinked⟩
      -- The document that joins has no patches yet, and is none itself.
      · rintro ⟨hid | rfl, hn, hlinked⟩
        · have hne : n ≠ k := fun hnk => hlinked.parents_ne_nil hc (hnk ▸ hparents)
          exact ⟨hid, by omega, hlinked⟩
        · have := hlinked.lt hc
          omega
  · have hb := h.absorbed hc hk hselect hparents hb
    refine ⟨hb.size.trans h.size, ?_, fun id hid => ?_, fun id n => ?_⟩
    · rw [hb.result, h.result, List.range_succ, List.filter_append]
      simp [hparents]
    · have hid' : id ∉ a.heritage k := by
        intro hmem
        have := (h.mem_result.mp ((h.mem_heritage hc hk).mp hmem).1).1
        omega
      rw [hb.kept id hid' (Nat.ne_of_gt hid), h.data id (Nat.le_of_succ_le hid)]
    · rw [hb.parents, h.parents, hb.result, h.mem_heritage hc hk, or_assoc]
      refine or_congr_right ⟨?_, ?_⟩
      · rintro (⟨hid, hn, hlinked⟩ | ⟨⟨hid, hlinked⟩, rfl⟩)
        · exact ⟨hid, Nat.lt_succ_of_lt hn, hlinked⟩
        · exact ⟨hid, Nat.lt_succ_self _, hlinked⟩
      · rintro ⟨hid, hn, hlinked⟩
        rcases Nat.lt_succ_iff_lt_or_eq.mp hn with hn | rfl
        · exact .inl ⟨hid, hn, hlinked⟩
        · exact .inr ⟨⟨hid, hlinked⟩, rfl⟩

end

end

theorem foldlM_range_succ_eq_ok {c : Corpus} {k : Nat} {b : Assembly} :
    (List.range (k + 1)).foldlM add ⟨c, []⟩ = .ok b ↔
      ∃ a, (List.range k).foldlM add ⟨c, []⟩ = .ok a ∧ a.takeIn k = .ok b := by
  rw [List.range_succ, List.foldlM_append, Result.bind_eq_ok]
  simp only [List.foldlM_cons, List.foldlM_nil, bind_pure, add_eq_ok]

theorem upto_of_foldlM {c : Corpus} (hc : c.Ordered) (hselect : ∀ id, Unselecting (c.data id)) :
    ∀ {k : Nat} {a : Assembly}, k ≤ c.size → (List.range k).foldlM add ⟨c, []⟩ = .ok a →
      Upto c k a
  | 0, a, _, h => by
    cases h
    exact upto_zero c
  | k + 1, a, hk, h => by
    obtain ⟨b, hb, hstep⟩ := foldlM_range_succ_eq_ok.mp h
    exact (upto_of_foldlM hc hselect (Nat.le_of_succ_le hk) hb).step hc hk (hselect k) hstep

/-- A patch is merged into the documents of the outcome that links lead to from it. These are
documents that it inherits from, exactly if earlier documents that share one of these with it share
all of theirs. -/
theorem merged_iff_linked {c : Corpus} (hc : c.Ordered) (hselect : ∀ id, Unselecting (c.data id))
    {a : Assembly} (hrun : ofCorpus c (List.range c.size) = .ok a) (patch : Nat) :
    (∀ target ∈ a.result, patch ∈ a.corpus.parents target ∧ patch ∉ c.parents target ↔
      c.Linked patch target) ∧
    ((∀ target ∈ a.result, patch ∈ a.corpus.parents target → patch ∉ c.parents target →
        c.Inherits patch target) ↔
      ∀ earlier < patch, ∀ shared ∈ a.result, ∀ other ∈ a.result, c.Inherits patch shared →
        c.Inherits earlier shared → c.Inherits earlier other → c.Inherits patch other) := by
  have h : Upto c c.size a := upto_of_foldlM hc hselect le_rfl hrun
  have hmerged : ∀ target ∈ a.result, patch ∈ a.corpus.parents target ∧ patch ∉ c.parents target ↔
      c.Linked patch target := by
    intro target htarget
    have hnil := (h.mem_result.mp htarget).2
    rw [h.parents, hnil]
    constructor
    · rintro ⟨hp | ⟨-, -, hlinked⟩, -⟩
      · cases hp
      · exact hlinked
    · intro hlinked
      refine ⟨.inr ⟨htarget, ?_, hlinked⟩, List.not_mem_nil⟩
      refine Nat.lt_of_not_le fun hle => ?_
      exact hlinked.parents_ne_nil hc (Corpus.parents_of_size_le hle)
  refine ⟨hmerged, ⟨?_, ?_⟩⟩
  · intro hall earlier hlt shared hshared other hother hp hearlier hinherits
    have hnil := (h.mem_result.mp hshared).2
    have hto : TransGen (c.Leads patch) patch earlier :=
      .tail hp.linked (.inr ⟨hlt, hnil, hearlier⟩)
    have hlinked : c.Linked patch other :=
      hto.trans (TransGen.mono (fun _ _ hp => .inl hp) _ _ hinherits)
    obtain ⟨hin, hout⟩ := (hmerged other hother).mpr hlinked
    exact hall other hother hin hout
  · intro hshare target htarget hin hout
    have hlinked := (hmerged target htarget).mp ⟨hin, hout⟩
    have hpatch : patch < c.size := by
      refine Nat.lt_of_not_le fun hle => ?_
      exact hlinked.parents_ne_nil hc (Corpus.parents_of_size_le hle)
    -- Along the way, a document leads to nothing of the outcome that the patch does not inherit from.
    have along : ∀ id, c.Linked patch id → ∀ root ∈ a.result, root = id ∨ c.Inherits id root →
        c.Inherits patch root := by
      intro id hid
      induction hid with
      | single hab =>
        intro root hroot hidroot
        rcases hab with hp | ⟨hlt, -, hback⟩
        · rcases hidroot with rfl | hidroot
          · exact .single hp
          · exact .head hp hidroot
        · exact absurd (hback.lt hc) hlt.asymm
      | @tail between id hbetween hab ih =>
        intro root hroot hidroot
        rcases hab with hp | ⟨hlt, hnil, hback⟩
        · refine ih root hroot (.inr ?_)
          rcases hidroot with rfl | hidroot
          · exact .single hp
          · exact .head hp hidroot
        · have hshared : between ∈ a.result :=
            h.mem_result.mpr ⟨((Corpus.Linked.lt hc hbetween).trans hpatch), hnil⟩
          have hidroot : c.Inherits id root := by
            rcases hidroot with rfl | hidroot
            · exact absurd (h.mem_result.mp hroot).2 hback.parents_ne_nil
            · exact hidroot
          exact hshare id hlt between hshared root hroot (ih between hshared (.inl rfl)) hback hidroot
    exact along target hlinked target htarget (.inl rfl)

theorem merged_iff_linked_of_shared_parent :
    ∃ c : Corpus, ∃ a, ofCorpus c (List.range c.size) = .ok a ∧ a.result = [0, 1] ∧
      c.parents 3 = [0] ∧ c.Linked 3 1 := by
  let c : Corpus := ⟨[⟨"0", .map [("a", .int 1)], []⟩, ⟨"1", .map [("b", .int 1)], []⟩,
    ⟨"2", .map [("q", .int 1)], [0, 1]⟩, ⟨"3", .map [("p", .int 1)], [0]⟩]⟩
  let a : Assembly := ⟨⟨[⟨"0", .map [("a", .int 1), ("p", .int 1), ("q", .int 1)], [2, 3]⟩,
    ⟨"1", .map [("b", .int 1), ("p", .int 1), ("q", .int 1)], [2, 3]⟩,
    ⟨"2", .map [("q", .int 1)], [0, 1]⟩, ⟨"3", .map [("p", .int 1)], [0]⟩]⟩, [0, 1]⟩
  have hrun : ofCorpus c (List.range 4) = .ok a := by cbv
  have hmerged := (merged_iff_linked (show c.Ordered by decide)
    (Corpus.forall_data (by decide) (by decide)) hrun 3).1
  exact ⟨c, a, hrun, rfl, rfl, (hmerged 1 (by decide)).mp (by decide)⟩

/-- So a layer need not inherit from what it is merged into: a layer before it that inherits from
two documents ties one to the other. -/
theorem merged_without_inheriting :
    ¬ ∀ (c : Corpus) (a : Assembly), c.Ordered → (∀ id, Unselecting (c.data id)) →
      ofCorpus c (List.range c.size) = .ok a → ∀ patch, ∀ target ∈ a.result,
        patch ∈ a.corpus.parents target → patch ∉ c.parents target → c.Inherits patch target := by
  intro h
  let c : Corpus := ⟨[⟨"0", .map [("a", .int 1)], []⟩, ⟨"1", .map [("b", .int 1)], []⟩,
    ⟨"2", .map [("q", .int 1)], [0, 1]⟩, ⟨"3", .map [("p", .int 1)], [0]⟩]⟩
  let a : Assembly := ⟨⟨[⟨"0", .map [("a", .int 1), ("p", .int 1), ("q", .int 1)], [2, 3]⟩,
    ⟨"1", .map [("b", .int 1), ("p", .int 1), ("q", .int 1)], [2, 3]⟩,
    ⟨"2", .map [("q", .int 1)], [0, 1]⟩, ⟨"3", .map [("p", .int 1)], [0]⟩]⟩, [0, 1]⟩
  have hrun : ofCorpus c (List.range 4) = .ok a := by cbv
  have hinherits : c.Inherits 3 1 := h c a (by decide) (Corpus.forall_data (by decide) (by decide))
    hrun 3 1 (by decide) (by decide) (by decide)
  have hancestors : c.ancestors 3 = [0] := by cbv
  have hmem := Corpus.mem_ancestors_of_inherits hinherits (by decide) (by decide)
  rw [hancestors] at hmem
  revert hmem
  decide

end Assembly

end Overlay
