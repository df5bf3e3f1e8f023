/-
  A packet that was received, and its encoding after `Split` has cleared the split fields.

  * `Carries n fs`: the expanded node `n` is written as the fields `fs`, from its value as long as that
    is up to date, and else metas first.
  * `dropChildren`: what removing the children with a tag makes of the fields.
  * `decode_bodiesPacket`: what is decoded from a packet with a header and some bodies.
  * `Packs.clearSplit`, `Packs.encode`: its encoding is the packet without split fields.
-/
import MysqlProxy.Knv.SplitCount

namespace MysqlProxy

namespace KnvNode

/-! ## A node that is written as its fields -/

/-- **The expanded node `n` is written as the fields `fs`**: from its value, if that is up to date, and
    else metas first. -/
structure Carries (n : KnvNode) (fs : List PbField) : Prop where
  kept : KeepsAll n ((metaFields fs).map sized) ((childFields fs).map sized) (messageBytes fs).length
    (pbEvalStringLength n.tag (messageBytes fs).length)
  folded : n.isFolded = true → n.val = .string (messageBytes fs)
  ordered : n.isFolded = false → metaFields fs ++ childFields fs = fs
  dirty : n.subnode_dirty = true → n.val = .string []

section Carries

variable {n : KnvNode} {fs : List PbField}

theorem map_sized_fst (fs : List PbField) : (fs.map sized).map Prod.fst = fs := by
  rw [List.map_map]
  exact List.map_id fs

theorem Carries.size (h : Carries n fs) :
    (evaluateSize n).1 = ((⟨n.tag, .string (messageBytes fs)⟩ : PbField).size : Int) := by
  rw [h.kept.evaluateSize]
  rfl

/-- It is a field for the node above it. -/
theorem Carries.writes (h : Carries n fs) (h0 : ∀ f ∈ fs, f.tag ≠ 0) :
    Writes n ⟨n.tag, .string (messageBytes fs)⟩ := by
  refine ⟨⟨rfl, fun len hlen => ?_⟩, h.size⟩
  cases hfold : n.isFolded with
  | true => exact (Shown.puts ⟨rfl, h.folded hfold, hfold⟩ h.kept.tag).bytes len hlen
  | false =>
    have hfst : ((metaFields fs).map sized ++ (childFields fs).map sized).map Prod.fst = fs := by
      rw [← List.map_append, map_sized_fst, h.ordered hfold]
    have hser := h.kept.serialize hfold (fun p hp => h0 p.1 (by
      rw [← hfst]
      exact List.mem_map_of_mem hp)) (by rw [← length_messageBytes_needed, hfst]) rfl hlen
    rw [hfst] at hser
    exact hser

end Carries

/-! ## Children with a tag less -/

/-- The fields without the children with a tag.  If there are any, the metas come first afterwards. -/
def dropChildren (tag : UInt32) (fs : List PbField) : List PbField :=
  if ∃ f ∈ childFields fs, f.tag = tag then
    metaFields fs ++ (childFields fs).filter (fun f => f.tag ≠ tag)
  else fs

section Drop

variable {tag : UInt32} {fs : List PbField}

theorem mem_dropChildren {f : PbField} (h : f ∈ dropChildren tag fs) : f ∈ fs := by
  unfold dropChildren at h
  split at h
  · rcases List.mem_append.mp h with h | h
    · exact List.mem_of_mem_filter h
    · exact List.mem_of_mem_filter (List.mem_of_mem_filter h)
  · exact h

theorem fields_dropChildren : metaFields (dropChildren tag fs) = metaFields fs ∧
    childFields (dropChildren tag fs) = (childFields fs).filter fun f => f.tag ≠ tag := by
  unfold dropChildren
  split
  · have hm := metaFields_le fs
    have hc : ∀ f ∈ (childFields fs).filter (fun f => f.tag ≠ tag), UC_MAX_META_NUM < f.tag.toNat :=
      fun f hf => childFields_gt fs f (List.mem_of_mem_filter hf)
    exact ⟨metaFields_append hm hc, childFields_append hm hc⟩
  · rename_i h
    refine ⟨rfl, (List.filter_eq_self.mpr fun f hf => ?_).symm⟩
    exact decide_eq_true fun he => h ⟨f, hf, he⟩

end Drop

section Remove

variable {n : KnvNode} {fs : List PbField}

theorem taken_fields (fs : List PbField) :
    taken ((metaFields fs).map sized ++ (childFields fs).map sized) = (messageBytes fs).length := by
  have hsum := taken_filter (fs.map sized) isMeta
  rw [(filter_sized fs).1, (filter_sized fs).2] at hsum
  rw [← taken_sized fs, ← hsum, taken_append]

theorem filter_ne_sized (tag : UInt32) (fs : List PbField) :
    (fs.map sized).filter (fun p => p.1.tag ≠ tag) = (fs.filter fun f => f.tag ≠ tag).map sized := by
  rw [List.filter_map]
  rfl

theorem length_dropChildren (tag : UInt32) (fs : List PbField) :
    (messageBytes (dropChildren tag fs)).length +
      taken (((childFields fs).map sized).filter fun p => p.1.tag = tag) = (messageBytes fs).length := by
  obtain ⟨hmf, hcf⟩ := @fields_dropChildren tag fs
  have hsum := taken_filter_tag ((childFields fs).map sized) tag
  rw [filter_ne_sized] at hsum
  rw [← taken_fields fs, ← taken_fields (dropChildren tag fs), hmf, hcf, taken_append, taken_append]
  omega

theorem taken_pos {ps : List (PbField × Nat)} (hne : ps ≠ []) (h : ∀ p ∈ ps, p.1.size ≤ p.2) :
    0 < taken ps := by
  cases ps with
  | nil => exact absurd rfl hne
  | cons p ps =>
    have hp := h p List.mem_cons_self
    have hpos := p.1.size_pos
    rw [taken, List.map_cons, List.sum_cons]
    omega

/-- A node without a value is folded only if it has no fields. -/
theorem KeepsAll.nothing {ms cs : List (PbField × Nat)} {v e : Nat} (h : KeepsAll n ms cs v e)
    (hval : n.val = .string []) (hfold : n.isFolded = true) : ms = [] ∧ cs = [] := by
  have hflat : n.isFlat = true := by
    rw [isFolded, str, hval] at hfold
    simpa [FieldVal.str] using hfold
  rw [isFlat, h.isString, h.indexed.child_num] at hflat
  have hnil : n.childlist = [] ∧ n.metalist = [] := by
    simpa using hflat
  have hm := h.metalist
  have hc := h.childlist
  rw [hnil.2, List.forall₂_nil_left_iff] at hm
  rw [hnil.1, List.forall₂_nil_left_iff] at hc
  exact ⟨hm, hc⟩

/-- What removing children does to a node and tells its parent. -/
theorem Carries.removeChildren (h : Carries n fs) (tag : UInt32) : ∃ n' offs,
    n.removeChildrenByTag tag = .ok (n', offs) ∧ Carries n' (dropChildren tag fs) ∧ Patched n n' ∧
      (offs = [] ∧ n' = n ∧ dropChildren tag fs = fs ∨ n'.val = .string [] ∧ offs =
        [((⟨n.tag, .string (messageBytes (dropChildren tag fs))⟩ : PbField).size : Int) -
          (⟨n.tag, .string (messageBytes fs)⟩ : PbField).size]) := by
  obtain ⟨hmf, hcf⟩ := @fields_dropChildren tag fs
  have hk := h.kept
  obtain ⟨gone, hgone⟩ : ∃ gone, gone = n.childlist.filter fun c => c.tag = tag := ⟨_, rfl⟩
  obtain ⟨lost, hlost⟩ : ∃ lost, lost = ((childFields fs).map sized).filter fun p => p.1.tag = tag :=
    ⟨_, rfl⟩
  have hgo : List.Forall₂ Keeps gone lost := by
    rw [hgone, hlost]
    exact forall₂_filter (fun c p hc => by rw [hc.tag]) hk.childlist
  have hstay : List.Forall₂ Keeps (n.childlist.filter fun c => c.tag ≠ tag)
      ((childFields (dropChildren tag fs)).map sized) := by
    rw [hcf, ← filter_ne_sized]
    exact forall₂_filter (fun c p hc => by rw [hc.tag]) hk.childlist
  have hstaying : List.Forall₂ Keeps n.metalist ((metaFields (dropChildren tag fs)).map sized) := by
    rw [hmf]
    exact hk.metalist
  have hlen := length_dropChildren tag fs
  rw [← hlost] at hlen
  rw [KnvNode.removeChildrenByTag, if_neg hk.tag, hk.innerExpand]
  by_cases hnil : gone = []
  · -- nothing to remove
    have hnone : ¬ ∃ f ∈ childFields fs, f.tag = tag := by
      rintro ⟨f, hf, hft⟩
      rw [hnil, List.forall₂_nil_left_iff] at hgo
      rw [hgo] at hlost
      have hmem : sized f ∈ ((childFields fs).map sized).filter fun p => p.1.tag = tag :=
        List.mem_filter.mpr ⟨List.mem_map_of_mem hf, decide_eq_true hft⟩
      rw [← hlost] at hmem
      cases hmem
    have hdrop : dropChildren tag fs = fs := if_neg hnone
    rw [hdrop]
    refine ⟨n, [], ?_, h, ⟨rfl, rfl, .inl rfl⟩, .inl ⟨rfl, rfl, rfl⟩⟩
    by_cases hnum : n.child_num.getD 0 = 0
    · simp only [if_pos hnum]
    · rw [hgone] at hnil
      simp only [if_neg hnum, if_pos hnil]
  · have hnum : ¬ n.child_num.getD 0 = 0 := by
      intro hnum
      rw [hk.indexed.child_num] at hnum
      rw [hgone, List.length_eq_zero_iff.mp hnum] at hnil
      exact hnil rfl
    have hpos : 0 < taken lost := by
      refine taken_pos ?_ fun p hp => ?_
      · rintro rfl
        exact hnil (List.forall₂_nil_right_iff.mp hgo)
      · rw [hlost] at hp
        obtain ⟨f, -, rfl⟩ := List.mem_map.mp (List.mem_of_mem_filter hp)
        exact Nat.le_refl _
    have ho : -(taken lost : Int) ≠ 0 := by omega
    subst hgone
    have hkm := hk.edited (m := { n with
        ht := (n.childlist.filter fun c => c.tag = tag).foldl
          (fun ht c => (ht.remove n.childView c.ref).getD ht) n.ht
        childlist := n.childlist.filter fun c => c.tag ≠ tag
        child_num := n.child_num.map (· - (n.childlist.filter fun c => c.tag = tag).length) })
      ⟨rfl, rfl, rfl, rfl, rfl⟩ ((removes_byTag n tag).indexed hk.indexed)
      ⟨hk.metas.known, hk.metas.complete⟩ hstaying hstay
      (by rw [hmf]; exact hk.key) (o := -(taken lost : Int))
      (w := (messageBytes (dropChildren tag fs)).length) (by omega) (by rw [taken_fields])
    rw [if_neg ho] at hkm
    simp only [if_neg hnum, if_neg hnil, evaluateSizes_keeps hgo]
    generalize hm : ({ n with
        ht := (n.childlist.filter fun c => c.tag = tag).foldl
          (fun ht c => (ht.remove n.childView c.ref).getD ht) n.ht
        childlist := n.childlist.filter fun c => c.tag ≠ tag
        child_num := n.child_num.map (· - (n.childlist.filter fun c => c.tag = tag).length) } : KnvNode)
      = m at hkm
    have hp := patched_edited m (-(taken lost : Int))
    have hval : (edited m (-(taken lost : Int))).1.val = .string [] := rfl
    have htag : (edited m (-(taken lost : Int))).1.tag = n.tag := by
      rw [← hm]
      exact congrArg (fun i => i.2.1) (patched_edited _ _).ident
    have hdrop : metaFields (dropChildren tag fs) ++ childFields (dropChildren tag fs) =
        dropChildren tag fs := by
      obtain ⟨p, hp⟩ := List.exists_mem_of_length_pos (l := lost) (List.length_pos_iff.mpr (by
        rintro rfl
        exact hnil (List.forall₂_nil_right_iff.mp hgo)))
      rw [hlost] at hp
      obtain ⟨hmem, hpt⟩ := List.mem_filter.mp hp
      obtain ⟨f, hf, rfl⟩ := List.mem_map.mp hmem
      rw [hmf, hcf, dropChildren, if_pos ⟨f, hf, of_decide_eq_true hpt⟩]
    refine ⟨_, _, rfl, ⟨?_, fun hfold => ?_, fun _ => hdrop, fun _ => hval⟩, ?_, .inr ⟨hval, ?_⟩⟩
    · rw [htag]
      exact hkm
    · obtain ⟨hms, hcs⟩ := hkm.nothing hval hfold
      rw [hval, ← hdrop, List.map_eq_nil_iff.mp hms, List.map_eq_nil_iff.mp hcs]
      rfl
    · rw [← hm] at hp ⊢
      exact ⟨hp.ident, hp.key, hp.val⟩
    · have hsz : m.eval_sz = (pbEvalStringLength n.tag (messageBytes fs).length : Nat) := by
        rw [← hm]
        exact hk.sz
      have hvsz : m.eval_val_sz = ((messageBytes fs).length : Nat) := by
        rw [← hm]
        exact hk.val_sz
      have hmt : m.tag = n.tag := by rw [← hm]
      rw [KnvNode.edited, if_pos (by rw [hsz]; omega), updateEvalSz, if_neg ho, hsz, hvsz, hmt,
        show (((messageBytes fs).length : Int) + -(taken lost : Int)) =
          ((messageBytes (dropChildren tag fs)).length : Int) by omega]
      rfl

/-! ## The node above -/

/-- A round above a node that was edited is an edit, too. -/
theorem parentRound_edited (h : n.subnode_dirty = true → n.val = .string []) (o : Int) :
    (n.parentRound o true).1 = (KnvNode.edited n o).1 := by
  have hq : (if 0 ≤ n.eval_sz then n.updateEvalSz o else (n, 0)).1.subnode_dirty = true →
      (if 0 ≤ n.eval_sz then n.updateEvalSz o else (n, 0)).1.val = .string [] := by
    split
    · rw [updateEvalSz]
      split
      · exact h
      · exact h
    · exact h
  rw [parentRound, KnvNode.edited]
  generalize (if 0 ≤ n.eval_sz then n.updateEvalSz o else (n, 0)) = q at hq
  obtain ⟨⟨d, metalist, childlist⟩, o'⟩ := q
  dsimp only at hq ⊢
  rw [if_pos rfl]
  by_cases hd : d.subnode_dirty = true
  · rw [if_pos hd]
    have hv := hq hd
    obtain ⟨ref, tag, val, key, child_num, ht, metas, subnode_dirty, child_has_key, no_key, eval_sz,
      eval_val_sz, next_ref⟩ := d
    dsimp only at hd hv
    rw [hd, hv]
    rfl
  · rw [if_neg hd]

theorem replaceRef_head {h h' : KnvNode} {l : List KnvNode}
    (hnd : ((h :: l).map fun x => x.ref).Nodup) (href : h'.ref = h.ref) :
    replaceRef h' (h :: l) = h' :: l := by
  have hnot := (List.nodup_cons.mp hnd).1
  rw [replaceRef, List.map_cons, if_pos href.symm]
  congr 1
  refine (List.map_congr_left fun x hx => ?_).trans (List.map_id l)
  rw [if_neg]
  · rfl
  · rintro he
    exact hnot (List.mem_map.mpr ⟨x, hx, he.trans href⟩)

/-- **The node above a node that was edited.** -/
theorem Carries.childEdited {T h h' : KnvNode} {l : List KnvNode} {f f' : PbField} {bs : List PbField}
    {offs : List Int} (hT : Carries T (f :: bs)) (hch : ∀ g ∈ f :: bs, UC_MAX_META_NUM < g.tag.toNat)
    (htag : f'.tag = f.tag) (hlist : T.childlist = h :: l) (hp : Patched h h')
    (hk : Keeps h' (sized f'))
    (hoffs : offs = [] ∧ f' = f ∨ offs = [(f'.size : Int) - f.size]) :
    Carries (parentRounds { T with childlist := replaceRef h' T.childlist }
      (offs.map fun offset => (offset, true))).1 (f' :: bs) ∧
    (parentRounds { T with childlist := replaceRef h' T.childlist }
      (offs.map fun offset => (offset, true))).1.childlist = h' :: l := by
  have hkT := hT.kept
  have hmem : h ∈ T.childlist := by
    rw [hlist]
    exact List.mem_cons_self
  have hsame : SameIndex T { T with childlist := replaceRef h' T.childlist } :=
    ⟨rfl, rfl, Nat.le_refl _, map_ident_replaceRef hkT.indexed.listed.nodup hmem hp.ident, rfl⟩
  have hrep : replaceRef h' T.childlist = h' :: l := by
    rw [hlist]
    exact replaceRef_head (by rw [← hlist]; exact hkT.indexed.nodup)
      (congrArg (fun i => i.1) hp.ident)
  have hch' : ∀ g ∈ f' :: bs, UC_MAX_META_NUM < g.tag.toNat := by
    intro g hg
    rcases List.mem_cons.mp hg with rfl | hg
    · rw [htag]
      exact hch f List.mem_cons_self
    · exact hch g (List.mem_cons_of_mem _ hg)
  have hfields : ∀ fs : List PbField, (∀ g ∈ fs, UC_MAX_META_NUM < g.tag.toNat) →
      metaFields fs = [] ∧ childFields fs = fs := fun fs h =>
    ⟨metaFields_append (List.forall_mem_nil _) h, childFields_append (List.forall_mem_nil _) h⟩
  obtain ⟨hm, hc⟩ := hfields _ hch
  obtain ⟨hm', hc'⟩ := hfields _ hch'
  have hkids : List.Forall₂ Keeps (h' :: l) ((f' :: bs).map sized) := by
    have hold := hkT.childlist
    rw [hc, hlist, List.map_cons, List.forall₂_cons] at hold
    exact List.forall₂_cons.mpr ⟨hk, hold.2⟩
  have hix := hsame.indexed hkT.indexed
  rw [hrep] at hix ⊢
  rcases hoffs with ⟨rfl, rfl⟩ | rfl
  · refine ⟨⟨⟨hkT.tag, hkT.isString, hix, ⟨hkT.metas.known, hkT.metas.complete⟩, hkT.metalist, ?_,
      hkT.key, hkT.val_sz, hkT.sz, hkT.taken_le, hkT.le⟩, hT.folded, hT.ordered, hT.dirty⟩, rfl⟩
    rw [hc]
    exact hkids
  · obtain ⟨o, ho⟩ : ∃ o, o = (f'.size : Int) - f.size := ⟨_, rfl⟩
    have hlen : ∀ g : PbField, (messageBytes (g :: bs)).length = g.size + (messageBytes bs).length := by
      intro g
      rw [messageBytes_cons, List.length_append, length_fieldBytes]
      rfl
    have hv := hlen f
    have hw := hlen f'
    have hround : (parentRounds { T with childlist := h' :: l }
        ([o].map fun offset => (offset, true))).1 =
        (KnvNode.edited { T with childlist := h' :: l } o).1 :=
      parentRound_edited (n := { T with childlist := h' :: l }) hT.dirty o
    rw [← ho, hround]
    have hmetas : List.Forall₂ Keeps T.metalist ((metaFields (f' :: bs)).map sized) := by
      rw [hm', ← hm]
      exact hkT.metalist
    have hchildren : List.Forall₂ Keeps (h' :: l) ((childFields (f' :: bs)).map sized) := by
      rw [hc']
      exact hkids
    have hkm := hkT.edited (m := { T with childlist := h' :: l })
      ⟨rfl, rfl, rfl, rfl, rfl⟩ hix ⟨hkT.metas.known, hkT.metas.complete⟩ hmetas hchildren
      (by rw [hm', ← hm]; exact hkT.key) (o := o) (w := (messageBytes (f' :: bs)).length)
      (by omega) (by rw [taken_fields])
    rw [snug_edited rfl (by omega)] at hkm
    have hval : (KnvNode.edited { T with childlist := h' :: l } o).1.val = .string [] := rfl
    have htagT : (KnvNode.edited { T with childlist := h' :: l } o).1.tag = T.tag :=
      congrArg (fun i => i.2.1) (patched_edited _ _).ident
    refine ⟨⟨?_, fun hfold => ?_, fun _ => by rw [hm', hc', List.nil_append], fun _ => hval⟩,
      childlist_edited _ _⟩
    · rw [htagT]
      exact hkm
    · have hnone := (hkm.nothing hval hfold).2
      rw [hc'] at hnone
      cases hnone

end Remove

end KnvNode

open KnvNode

/-! ## A packet that was received -/

/-- A header that can be sent: it is not empty, its fields fit the wire, and its key a key. -/
structure HeaderOk (hs : List PbField) : Prop where
  ne : hs ≠ []
  fields : ∀ f ∈ hs, FieldOk f.tag f.val
  key : ∀ f ∈ hs.head?, f.tag = 1 → f.val.str.length < 2 ^ 16

/-- The fields of a packet with some bodies. -/
def bodiesFields (hs : List PbField) (ws : List (List UInt8)) : List PbField :=
  ⟨KNV_PKG_HDR_TAG, .string (messageBytes hs)⟩ :: ws.map fun w => ⟨KNV_PKG_BDY_TAG, .string w⟩

/-- A packet with some bodies. -/
def bodiesPacket (hs : List PbField) (ws : List (List UInt8)) : List UInt8 :=
  fieldBytes KNV_PKG_TAG (.string (messageBytes (bodiesFields hs ws)))

section Receive

variable {hs fs : List PbField} {ws : List (List UInt8)} {n : KnvNode}

/-- A node with canonical bytes. -/
theorem carries_fresh {sz : Nat} (hn : Fresh n (messageBytes fs) (keyOfValue (messageBytes fs)).1 sz)
    (hsz : sz = pbEvalStringLength n.tag (messageBytes fs).length) (hne : fs ≠ [])
    (hok : ∀ f ∈ fs, FieldOk f.tag f.val) (hlen : (messageBytes fs).length < 2 ^ 31)
    (hkey : ∀ f ∈ fs.head?, f.tag = 1 → f.val.str.length < 2 ^ 16) :
    Carries (n.innerExpand false false) fs := by
  have hfs : pbFields (messageBytes fs) = some (fs.map sized, true) := by
    cases fs with
    | nil => exact absurd rfl hne
    | cons f fs => exact pbFields_messageBytes hok hlen
  obtain ⟨hg, hclean⟩ := hn.grown hfs
  have hval : (n.innerExpand false false).val = .string (messageBytes fs) :=
    (congrArg (fun x => x.2.2.1) hg.head).trans hn.val
  have htag : (n.innerExpand false false).tag = n.tag := congrArg (fun x => x.2.1) hg.head
  have hkeep := keepsAll_of_fresh hn hfs (keyFirst_of_key hn hfs (by
    intro p hp
    rw [List.head?_map] at hp
    obtain ⟨f, hf, rfl⟩ := Option.map_eq_some_iff.mp hp
    exact hkey f hf))
  rw [(filter_sized fs).1, (filter_sized fs).2, hsz] at hkeep
  have hfold : (n.innerExpand false false).isFolded = true := by
    have hstr : (n.innerExpand false false).str ≠ [] := by
      rw [str, hval]
      cases fs with
      | nil => exact absurd rfl hne
      | cons f fs => exact messageBytes_ne_nil f fs
    rw [isFolded, hclean, decide_eq_true hstr]
    simp
  refine ⟨by rw [htag]; exact hkeep, fun _ => hval, fun h => ?_, fun h => ?_⟩
  · rw [hfold] at h
    cases h
  · rw [hclean] at h
    cases h

/-- A child that holds a message. -/
theorem OfField.fresh {c : KnvNode} {tag : UInt32} {s : List UInt8} {sz : Nat}
    {gs : List (PbField × Nat)} {eom : Bool} (hof : OfField false c (⟨tag, .string s⟩, sz))
    (hgs : pbFields s = some (gs, eom)) (h0 : tag ≠ 0)
    (hle : (⟨tag, .string s⟩ : PbField).size ≤ sz) : Fresh c s (keyOfValue s).1 sz := by
  obtain ⟨r, rfl⟩ := hof
  have hpos := (⟨tag, .string s⟩ : PbField).size_pos
  have hne : s ≠ [] := by
    rintro rfl
    cases hgs
  exact
    { tag := h0
      val := rfl
      child_num := @initNode_num tag _ sz _ _ hgs
      ht := rfl
      no_key := rfl
      key := initNode_key hne tag sz
      eval_sz := initNode_eval_sz (Nat.lt_of_lt_of_le hpos hle) tag _ false
      eval_val_sz := rfl
      le := hle }

theorem bodiesFields_tag : ∀ f ∈ bodiesFields hs ws, UC_MAX_META_NUM < f.tag.toNat ∧
    f.tag.toNat < 2 ^ 29 := by
  intro f hf
  rcases List.mem_cons.mp hf with rfl | hf
  · show UC_MAX_META_NUM < KNV_PKG_HDR_TAG.toNat ∧ KNV_PKG_HDR_TAG.toNat < 2 ^ 29
    decide
  · obtain ⟨w, -, rfl⟩ := List.mem_map.mp hf
    show UC_MAX_META_NUM < KNV_PKG_BDY_TAG.toNat ∧ KNV_PKG_BDY_TAG.toNat < 2 ^ 29
    decide

/-- **What is decoded from a packet.** -/
theorem decode_bodiesPacket (hsmall : (bodiesPacket hs ws).length < 2 ^ 31) : ∃ T h l,
    KnvProtocol.decode (bodiesPacket hs ws) =
      some ⟨T, h.ref, l.head?.map fun b => b.ref, initHeaderInfo h⟩ ∧
    Holder T h.ref h ∧ T.childlist = h :: l ∧ Carries T (bodiesFields hs ws) ∧
    OfField false h (sized ⟨KNV_PKG_HDR_TAG, .string (messageBytes hs)⟩) ∧
    Hold l (ws.map fun w => ⟨KNV_PKG_BDY_TAG, .string w⟩) := by
  have htags := @bodiesFields_tag hs ws
  have hlen : (messageBytes (bodiesFields hs ws)).length < 2 ^ 31 := by
    refine Nat.lt_of_le_of_lt ?_ hsmall
    rw [bodiesPacket, length_fieldBytes]
    exact str_le_size
  have hok : ∀ f ∈ bodiesFields hs ws, FieldOk f.tag f.val := fun f hf =>
    fieldOk_of_mem hlen hf (Nat.lt_of_le_of_lt (Nat.zero_le _) (htags f hf).1) (htags f hf).2
  obtain ⟨fs, hfs⟩ : ∃ fs, fs = bodiesFields hs ws := ⟨_, rfl⟩
  have hne : fs ≠ [] := by
    rw [hfs]
    exact List.cons_ne_nil _ _
  have hdec := decode_pkg hsmall
  have hnew := newFromData_pkg hsmall
  obtain ⟨n, hn⟩ : ∃ n, n = initNode KNV_PKG_TAG (.string (messageBytes fs)) true
    (bodiesPacket hs ws).length false := ⟨_, rfl⟩
  rw [← hfs] at htags hlen hok
  have hpf : pbFields (messageBytes fs) = some (fs.map sized, true) := by
    cases fs with
    | nil => exact absurd rfl hne
    | cons f fs => exact pbFields_messageBytes hok hlen
  have hpos : 0 < (bodiesPacket hs ws).length := by
    rw [bodiesPacket, length_fieldBytes]
    exact PbField.size_pos ⟨_, _⟩
  have hnt : n.tag = KNV_PKG_TAG := by rw [hn]; rfl
  obtain ⟨sz, -, hfresh⟩ : ∃ sz, sz < 2 ^ 31 ∧
      Fresh n (messageBytes fs) (keyOfValue (messageBytes fs)).1 sz := by
    refine @fresh_newFromData (bodiesPacket hs ws) n _ _ ?_ (by rw [hnt]; decide)
      (by rw [hn]; rfl) hpf
    rw [hn, hfs]
    exact hnew
  have hsz : sz = pbEvalStringLength n.tag (messageBytes fs).length := by
    have he := hfresh.eval_sz
    rw [hn, initNode_eval_sz hpos, Int.natCast_inj] at he
    rw [← he, bodiesPacket, length_fieldBytes, hnt, hfs]
    rfl
  have hkey : ∀ f ∈ fs.head?, f.tag = 1 → f.val.str.length < 2 ^ 16 := by
    intro f hf he
    have hgt := (htags f (List.mem_of_mem_head? hf)).1
    rw [he] at hgt
    exact absurd hgt (by decide)
  have hcarries := carries_fresh hfresh hsz hne hok hlen hkey
  obtain ⟨hg, -⟩ := hfresh.grown hpf
  have htree : (n.innerExpand false false).tag = KNV_PKG_TAG :=
    (congrArg (fun x => x.2.1) hg.head).trans hnt
  have hchild : childFields fs = fs := by
    rw [childFields, List.filter_eq_self]
    intro f hf
    have := (htags f hf).1
    rw [Bool.not_eq_true', decide_eq_false_iff_not]
    omega
  have hold := hg.ofField_childlist
  rw [hchild, hfs, bodiesFields, List.map_cons] at hold
  obtain ⟨h, l, hh, hl, hlist⟩ := List.forall₂_cons_right_iff.mp hold
  have hl' := hold_of_ofField hl
  have hht : h.tag = KNV_PKG_HDR_TAG := hh.stands.tag
  have hlt : ∀ c ∈ l, c.tag = KNV_PKG_BDY_TAG := by
    intro c hc
    obtain ⟨f, hf, hst⟩ := forall₂_mem hl' hc
    obtain ⟨w, -, rfl⟩ := List.mem_map.mp hf
    exact hst.tag
  have hmem : h ∈ (n.innerExpand false false).childlist := by
    rw [hlist]
    exact List.mem_cons_self
  have hfind : (n.innerExpand false false).findChildByTag KNV_PKG_HDR_TAG = some h := by
    rw [findChildByTag_eq (by rw [htree]; decide),
      innerExpand_expanded (innerExpand_num n false false), ← hht]
    apply hg.indexed.lookupChild_unique hmem
    intro c hc he
    rw [hlist] at hc
    rcases List.mem_cons.mp hc with rfl | hc
    · rfl
    · rw [hlt c hc, hht] at he
      exact absurd he (by decide)
  have hbody : findFirstBody (n.innerExpand false false).childlist = l.head? := by
    rw [findFirstBody, hlist, List.find?_cons_of_neg (by
      rw [hht]
      decide)]
    cases l with
    | nil => rfl
    | cons b l => exact List.find?_cons_of_pos (decide_eq_true (hlt b List.mem_cons_self))
  refine ⟨n.innerExpand false false, h, l, ?_, ⟨⟨htree, hcarries.kept.isString, hg.indexed⟩,
    findRef_of_mem hg.indexed.nodup hmem, hht⟩, hlist, by rw [← hfs]; exact hcarries, hh, hl'⟩
  rw [bodiesPacket, hdec, ← bodiesPacket, ← hfs, ← hn, initProtocol_eq rfl hfind, hbody]

/-- The object's header holds the fields `hs`, and the tree is written with it and what is behind it. -/
structure Packs (P : KnvProtocol) (hs bs : List PbField) : Prop where
  tags : ∀ f ∈ bs, UC_MAX_META_NUM < f.tag.toNat
  nonzero : ∀ f ∈ hs, f.tag ≠ 0
  header : ∃ h l, Holder P.tree P.header h ∧ P.tree.childlist = h :: l ∧
    Carries (h.innerExpand false false) hs ∧
    Carries P.tree (⟨KNV_PKG_HDR_TAG, .string (messageBytes hs)⟩ :: bs)

variable {P : KnvProtocol} {bs : List PbField}

theorem Packs.removeHeaderChildren (hP : Packs P hs bs) (tag : UInt32) :
    ∃ T', P.removeHeaderChildren tag = { P with tree := T' } ∧
      Packs { P with tree := T' } (dropChildren tag hs) bs := by
  obtain ⟨h, l, hT, hlist, hh, htree⟩ := hP.header
  obtain ⟨h', offs, hrem, hh', hp, hoffs⟩ := hh.removeChildren tag
  rw [removeChildrenByTag_innerExpand] at hrem
  have hpat := (patched_innerExpand h false false).trans hp
  obtain ⟨T', hedit, hT', -⟩ := hT.edit (f := (removeChildrenByTag · tag)) hrem hpat
  have htag : (h.innerExpand false false).tag = KNV_PKG_HDR_TAG :=
    (congrArg (fun x => x.2.1) (innerExpand_head h false false)).trans hT.tag
  have htag' : h'.tag = KNV_PKG_HDR_TAG := hT'.tag
  have hnz : ∀ f ∈ dropChildren tag hs, f.tag ≠ 0 := fun f hf => hP.nonzero f (mem_dropChildren hf)
  have hkeep : Keeps h' (sized ⟨KNV_PKG_HDR_TAG, .string (messageBytes (dropChildren tag hs))⟩) := by
    rw [← htag']
    exact (hh'.writes hnz).keeps
  have hround : T' = (parentRounds { P.tree with childlist := replaceRef h' P.tree.childlist }
      (offs.map fun offset => (offset, true))).1 := by
    have he := hedit
    rw [KnvNode.editChild, hT.header] at he
    simp only [hrem] at he
    exact (Except.ok.inj he).symm
  rw [htag] at hoffs
  obtain ⟨htree', hlist'⟩ := @Carries.childEdited P.tree h h' l _
      ⟨KNV_PKG_HDR_TAG, .string (messageBytes (dropChildren tag hs))⟩ bs offs htree (by
      intro g hg
      rcases List.mem_cons.mp hg with rfl | hg
      · show UC_MAX_META_NUM < KNV_PKG_HDR_TAG.toNat
        decide
      · exact hP.tags g hg) rfl hlist hpat hkeep (by
      rcases hoffs with ⟨ho, -, hd⟩ | ⟨-, ho⟩
      · exact .inl ⟨ho, by rw [hd]⟩
      · exact .inr ho)
  rw [← hround] at htree' hlist'
  refine ⟨T', by rw [KnvProtocol.removeHeaderChildren, hedit], hP.tags, hnz, h', l, hT', hlist', ?_,
    htree'⟩
  rw [hh'.kept.innerExpand]
  exact hh'

/-- The fields without the ones that `Split` sets. -/
def unsplit (hs : List PbField) : List PbField :=
  dropChildren KNV_PKG_HDR_CURR_SPLIT_INDEX (dropChildren KNV_PKG_HDR_TOTAL_SPLIT_COUNT hs)

theorem Packs.clearSplit (hP : Packs P hs bs) : ∃ T', P.clearSplit =
    { P with tree := T', info := { P.info with total_split_count := 1 } } ∧
    Packs P.clearSplit (unsplit hs) bs := by
  obtain ⟨T₁, h₁, hP₁⟩ := Packs.removeHeaderChildren
    (P := { P with info := { P.info with total_split_count := 1 } })
    ⟨hP.tags, hP.nonzero, hP.header⟩ KNV_PKG_HDR_TOTAL_SPLIT_COUNT
  obtain ⟨T₂, h₂, hP₂⟩ := hP₁.removeHeaderChildren KNV_PKG_HDR_CURR_SPLIT_INDEX
  have he : P.clearSplit =
      { P with tree := T₂, info := { P.info with total_split_count := 1 } } := by
    rw [KnvProtocol.clearSplit, h₁, h₂]
  exact ⟨T₂, he, by rw [he]; exact hP₂⟩

/-- **The encoding of the object.** -/
theorem Packs.encode (hP : Packs P hs bs) (hret : P.info.retcode = 0) (mem : Nat → UInt8) :
    P.encode mem = .ok (fieldBytes KNV_PKG_TAG (.string (messageBytes
      (⟨KNV_PKG_HDR_TAG, .string (messageBytes hs)⟩ :: bs)))) := by
  obtain ⟨h, l, hT, -, -, htree⟩ := hP.header
  have htag : P.tree.tag = KNV_PKG_TAG := hT.tree.tag
  have hw := htree.writes (by
    intro f hf he
    rcases List.mem_cons.mp hf with rfl | hf
    · exact absurd he (by show KNV_PKG_HDR_TAG ≠ 0; decide)
    · have := hP.tags f hf
      rw [he] at this
      exact absurd this (by decide))
  have hsz := hw.size
  rw [htag] at hsz
  have hser := hw.bytes (⟨KNV_PKG_TAG, .string (messageBytes
    (⟨KNV_PKG_HDR_TAG, .string (messageBytes hs)⟩ :: bs))⟩ : PbField).size (by rw [htag])
  rw [KnvProtocol.encode, if_neg (not_not_intro hret), KnvProtocol.encodeAll, hT.isValid,
    if_neg (by decide), hsz, Int.toNat_natCast]
  generalize messageBytes (⟨KNV_PKG_HDR_TAG, .string (messageBytes hs)⟩ :: bs) = v at hser ⊢
  have hsize : (⟨KNV_PKG_TAG, .string v⟩ : PbField).size =
      (fieldBytes KNV_PKG_TAG (.string v)).length := (length_fieldBytes _ _).symm
  simp only [hser, htag]
  rw [hsize, placed_full]

end Receive

section Complete

variable {hs : List PbField} {ws : List (List UInt8)}

/-- A packet with a body is a complete object, which is written as it came. -/
theorem complete_bodiesPacket (hsmall : (bodiesPacket hs ws).length < 2 ^ 31) (hws : ws ≠ []) :
    ∃ n Q, newFromData (bodiesPacket hs ws) = .ok n ∧ initProtocol n = some Q ∧
      KnvProtocol.decode (bodiesPacket hs ws) = some Q ∧ Q.isComplete = true ∧
      Q.tree.serializeString = .ok (bodiesPacket hs ws) := by
  obtain ⟨T, h, l, hdec, hT, hlist, htree, -, hl⟩ := decode_bodiesPacket hsmall
  have hnew := newFromData_pkg hsmall
  have hinit := (decode_pkg hsmall).symm.trans hdec
  refine ⟨_, _, hnew, hinit, hdec, ?_, ?_⟩
  · obtain ⟨b, l', rfl⟩ : ∃ b l', l = b :: l' := by
      cases l with
      | nil =>
        have hnil := List.forall₂_nil_left_iff.mp hl
        exact absurd (List.map_eq_nil_iff.mp hnil) hws
      | cons b l' => exact ⟨b, l', rfl⟩
    have hbody : findRef T.childlist b.ref = some b :=
      findRef_of_mem hT.tree.indexed.nodup (by
        rw [hlist]
        exact List.mem_cons_of_mem _ List.mem_cons_self)
    rw [KnvProtocol.isComplete, KnvProtocol.isValid, decide_eq_true hT.tree.tag, KnvProtocol.getBody]
    simp [hbody]
  · have htag : T.tag = KNV_PKG_TAG := hT.tree.tag
    have hw := htree.writes fun f hf he => by
      have := (bodiesFields_tag f hf).1
      rw [he] at this
      exact absurd this (by decide)
    have hsz := hw.size
    have hser := hw.bytes _ (Nat.le_refl _)
    rw [htag] at hsz hser
    have hlen : (⟨KNV_PKG_TAG, .string (messageBytes (bodiesFields hs ws))⟩ : PbField).size =
        (bodiesPacket hs ws).length := (length_fieldBytes _ _).symm
    have hser' : serialize T (bodiesPacket hs ws).length true = .ok (bodiesPacket hs ws) := by
      rw [← hlen]
      exact hser
    rw [serializeString, hsz, hlen, Int.toNat_natCast]
    simp only [hser']
    rw [if_neg (not_not_intro rfl)]

end Complete

/-! ## What is read of a header -/

section Header

variable {h : KnvNode} {fs ms : List PbField}

theorem varint?_congr {o o' : Option KnvNode} (h : o.map (fun m => m.val) = o'.map fun m => m.val) :
    varint? o = varint? o' := by
  cases o with
  | none =>
    cases o' with
    | none => rfl
    | some m' => cases h
  | some m =>
    cases o' with
    | none => cases h
    | some m' =>
      have hv : m.val = m'.val := Option.some.inj h
      rw [varint?, varint?, Option.bind_some, Option.bind_some, hv]

/-- A meta of a header that was received: the last one with its tag. -/
theorem received_meta (hof : OfField false h (sized ⟨KNV_PKG_HDR_TAG, .string (messageBytes fs)⟩))
    (hne : fs ≠ []) (hok : ∀ f ∈ fs, FieldOk f.tag f.val) (hlen : (messageBytes fs).length < 2 ^ 31)
    {t : UInt32} (ht : t.toNat ≤ UC_MAX_META_NUM) :
    (h.getMeta t).map (fun m => m.val) = (lastField (metaFields fs) t.toNat).map fun f => f.val := by
  cases fs with
  | nil => exact absurd rfl hne
  | cons f fs =>
    obtain ⟨htag, hval, hht, hnum⟩ := OfField.unread hof (pbFields_messageBytes hok hlen)
    have hgrown := innerExpand_message (p := false) hnum hval hht hok hlen
      (fun h => absurd h.2 Bool.false_ne_true) false
    rw [getMeta_eq (by rw [htag]; decide) ht]
    have hrel := hgrown.lookupMeta_rel t.toNat
    generalize (h.innerExpand false false).lookupMeta t.toNat = o,
      lastField (metaFields (f :: fs)) t.toNat = o' at hrel ⊢
    cases hrel with
    | some hst => exact congrArg some hst.val
    | none => rfl

theorem lastField_filter {t t' : UInt32} (h : t ≠ t') :
    lastField (fs.filter fun f => f.tag ≠ t') t.toNat = lastField fs t.toNat := by
  rw [lastField, lastField, ← List.filter_reverse, List.find?_filter]
  congr 1
  funext f
  by_cases he : f.tag.toNat = t.toNat
  · have : f.tag ≠ t' := by
      rw [UInt32.toNat_inj.mp he]
      exact h
    simp [this]
  · simp [he]

end Header

end MysqlProxy
