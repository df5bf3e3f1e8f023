/-
  The two ways to look a tag up (`FindChildByTag`, `InnerGetSubTree`).

  A node that has a child with a key is SCANNED: the children are compared one by one.  If
  `child_has_key` is clear then the index is asked instead, for the tag and no key.  The two agree
  if

  * the flag is clear only when no child has a key, and
  * no two children without a key have the same tag: a bucket is filled from the front, so the index
    finds the LAST of them.

  Nothing in the code sees to either.  `Sound` says of a node that the two ways agree, and every
  call on the node or on one of its children keeps it if it does not bring in a second child with
  the same tag, or a key behind the back of the flag (`Safe`).
-/
import MysqlProxy.Knv.Recycle
import Mathlib.Data.List.Nodup

namespace MysqlProxy

open KnvNode

namespace KnvHt

variable {α : Type} {view : α → UInt32 × List UInt8}

theorem Holds.mem_of_bucket {h : KnvHt α} {l : List α} (hh : Holds view h l) {i : Nat} {c : α}
    (hi : i < h.sz) (hbm : h.bm i = true) (hc : c ∈ h.ht i) : c ∈ l :=
  hh.perm.mem_iff.mp (mem_nodes.mpr ⟨i, hi, hbm, hc⟩)

theorem Holds.nodup_bucket {h : KnvHt α} {l : List α} (hh : Holds view h l) (hnd : l.Nodup)
    {i : Nat}
    (hi : i < h.sz) (hbm : h.bm i = true) : (h.ht i).Nodup := by
  have hnodes : h.nodes.Nodup := hh.perm.nodup_iff.mpr hnd
  rw [nodes, List.nodup_flatMap] at hnodes
  have hb := hnodes.1 i (List.mem_range.mpr hi)
  rw [if_pos hbm] at hb
  exact hb

/-- What `dropWhile` skips is not kept by the filter either. -/
theorem filter_dropWhile {p q : α → Bool} {l : List α} (h : ∀ c ∈ l, p c = true → q c = false) :
    (l.dropWhile q).filter p = l.filter p := by
  induction l with
  | nil => rfl
  | cons c l ih =>
    cases hq : q c with
    | false => rw [List.dropWhile_cons_of_neg (by rw [hq]; exact Bool.false_ne_true)]
    | true =>
      have hp : ¬ p c = true := fun hp => by
        rw [h c List.mem_cons_self hp] at hq
        exact Bool.false_ne_true hq
      rw [List.dropWhile_cons_of_pos hq, List.filter_cons_of_neg hp]
      exact ih fun x hx => h x (List.mem_cons_of_mem _ hx)

/-- **The chain of a tag without a key**, when no node has a key: the nodes with the tag, in the
    order of the bucket. -/
theorem Holds.chain_perm {h : KnvHt α} {l : List α} (hh : Holds view h l) (hnd : l.Nodup)
    (hkey : ∀ c ∈ l, (view c).2 = []) (t : UInt32) :
    ((h.chain view t []).filter fun c => (view c).1 = t).Perm (l.filter fun c =>
      (view c).1 = t) := by
  have hview : ∀ c ∈ l, (view c).1 = t → view c = (t, []) := fun c hc he =>
    Prod.ext he (hkey c hc)
  have hlt : getKeyhash t [] h.sz < h.sz := Nat.mod_lt _ hh.sz_pos
  rw [chain]
  by_cases hbm : h.bm (getKeyhash t [] h.sz) = true
  · rw [if_pos hbm, filter_dropWhile]
    · refine (List.perm_ext_iff_of_nodup ((hh.nodup_bucket hnd hlt hbm).filter _)
        (hnd.filter _)).mpr fun c => ?_
      rw [List.mem_filter, List.mem_filter, decide_eq_true_iff]
      constructor
      · rintro ⟨hc, he⟩
        exact ⟨hh.mem_of_bucket hlt hbm hc, he⟩
      · rintro ⟨hc, he⟩
        obtain ⟨i, _, _, hmem⟩ := mem_nodes.mp (hh.perm.mem_iff.mpr hc)
        have hi := hh.placed i c ‹_› hmem
        rw [bucket, hview c hc he] at hi
        rw [hi]
        exact ⟨hmem, he⟩
    · intro c hc he
      have hmem := hh.mem_of_bucket hlt hbm hc
      exact decide_eq_false (not_not_intro (hview c hmem (of_decide_eq_true he)))
  · rw [if_neg hbm, List.filter_nil, List.nil_perm, List.filter_eq_nil_iff]
    intro c hc he
    obtain ⟨i, _, hbm', hmem⟩ := mem_nodes.mp (hh.perm.mem_iff.mpr hc)
    have hi := hh.placed i c hbm' hmem
    rw [bucket, hview c hc (of_decide_eq_true he)] at hi
    rw [hi] at hbm
    exact hbm hbm'

/-- When no two nodes have the same tag there is at most one such node. -/
theorem Holds.chain_filter {h : KnvHt α} {l : List α} (hh : Holds view h l) (hnd : l.Nodup)
    (hkey : ∀ c ∈ l, (view c).2 = []) (htag : ∀ c ∈ l, ∀ c' ∈ l, (view c).1 = (view c').1 → c = c')
    (t : UInt32) : (h.chain view t []).filter (fun c => (view c).1 = t) =
      l.filter fun c => (view c).1 = t := by
  have hperm := hh.chain_perm hnd hkey t
  have hall : ∀ l' : List α, l'.Pairwise fun _ _ => True := fun l' =>
    List.pairwise_of_forall fun _ _ => trivial
  refine List.Perm.eq_of_pairwise (fun c c' hc hc' _ _ => ?_) (hall _) (hall _) hperm
  obtain ⟨hc, hct⟩ := List.mem_filter.mp (hperm.mem_iff.mp hc)
  obtain ⟨hc', hct'⟩ := List.mem_filter.mp hc'
  exact htag c hc c' hc' ((of_decide_eq_true hct).trans (of_decide_eq_true hct').symm)

/-- Several nodes less. -/
theorem Holds.foldl_remove [DecidableEq α] {cs : List α} : ∀ {h : KnvHt α} {l : List α},
    Holds view h l → cs.Nodup → (∀ c ∈ cs, c ∈ l) → l.Nodup →
    Holds view (cs.foldl (fun h c => (h.remove view c).getD h) h) (l.diff cs) := by
  induction cs with
  | nil => exact fun hh _ _ _ => hh
  | cons c cs ih =>
    intro h l hh hnd hsub hl
    obtain ⟨h', hr, hh'⟩ := hh.remove _ (hsub c List.mem_cons_self)
    rw [List.nodup_cons] at hnd
    rw [List.foldl_cons, hr, Option.getD_some, List.diff_cons]
    refine ih hh' hnd.2 (fun x hx => ?_) (hl.erase c)
    rw [hl.mem_erase_iff]
    exact ⟨fun he => hnd.1 (he ▸ hx), hsub x (List.mem_cons_of_mem _ hx)⟩

end KnvHt

/-! ## Nodes for which the two ways agree -/

namespace KnvNode

/-- The list of an expanded node: it is counted, and the pointers are different. -/
structure Listed (n : KnvNode) : Prop where
  child_num : n.child_num = some n.childlist.length
  refs : ∀ x ∈ n.childlist, x.ref < n.next_ref
  nodup : (n.childlist.map fun x => x.ref).Nodup

/-- No child has a key, each has a tag of its own, and the index holds them. -/
structure Keyless (n : KnvNode) : Prop where
  keyless : ∀ c ∈ n.childlist, c.key.val = []
  tags : (n.childlist.map fun x => x.tag).Nodup
  ht : KnvHt.Holds n.childView n.ht (n.childlist.map fun c => c.ref)

/-- **The two ways agree**: the list is scanned, or the index is one of tags. -/
def Sound (n : KnvNode) : Prop :=
  n.child_num ≠ none → Listed n ∧ (n.child_has_key = true ∨ Keyless n)

theorem Indexed.listed {n : KnvNode} (h : Indexed n) : Listed n := ⟨h.child_num, h.refs, h.nodup⟩

theorem Keyless.indexed {n : KnvNode} (h : Keyless n) (hl : Listed n) : Indexed n where
  child_num := hl.child_num
  child_has_key := fun c hc hne => absurd (h.keyless c hc) hne
  refs := hl.refs
  nodup := hl.nodup
  ht := h.ht

/-- A child is known by its tag. -/
theorem Keyless.unique {n : KnvNode} (h : Keyless n) {c c' : KnvNode} (hc : c ∈ n.childlist)
    (hc' : c' ∈ n.childlist) (ht : c.tag = c'.tag) : c = c' :=
  List.inj_on_of_nodup_map h.tags hc hc' ht

theorem find?_of_unique {α : Type} {l : List α} {p : α → Bool} {c : α} (hc : c ∈ l)
    (hp : p c = true)
    (huniq : ∀ x ∈ l, p x = true → x = c) : l.find? p = some c := by
  cases hf : l.find? p with
  | none => exact absurd hp (List.find?_eq_none.mp hf c hc)
  | some x => rw [huniq x (List.mem_of_find?_eq_some hf) (List.find?_some hf)]

/-- The index finds what the scan finds. -/
theorem Keyless.lookupChild {n : KnvNode} (h : Keyless n) (hl : Listed n) (t : UInt32) :
    n.lookupChild t = n.childlist.find? fun c => c.tag = t := by
  have hix := h.indexed hl
  by_cases ht : ∃ c ∈ n.childlist, c.tag = t
  · obtain ⟨c, hc, rfl⟩ := ht
    rw [hix.lookupChild_unique hc fun c' hc' he => h.unique hc' hc he]
    symm
    exact find?_of_unique hc (decide_eq_true rfl)
      fun x hx he => h.unique hx hc (of_decide_eq_true he)
  · have hnone : ∀ c ∈ n.childlist, c.tag ≠ t := fun c hc he => ht ⟨c, hc, he⟩
    rw [hix.lookupChild_none hnone]
    symm
    rw [List.find?_eq_none]
    exact fun c hc he => hnone c hc (of_decide_eq_true he)

theorem Listed.lookupChild {n : KnvNode} (hl : Listed n) (hkey : n.child_has_key = true)
    (t : UInt32) :
    n.lookupChild t = n.childlist.find? fun c => c.tag = t := by
  rw [KnvNode.lookupChild, hl.child_num, Option.getD_some, hkey]
  by_cases h0 : n.childlist.length = 0
  · rw [if_pos h0, List.length_eq_zero_iff.mp h0]
    rfl
  · rw [if_neg h0, if_pos rfl]

/-- The refs of the children with a tag. -/
theorem filter_childView {n : KnvNode} (hnd : (n.childlist.map fun x => x.ref).Nodup) (t : UInt32) :
    (n.childlist.map fun c => c.ref).filter (fun r => (n.childView r).1 = t) =
      (n.childlist.filter fun c => c.tag = t).map fun c => c.ref := by
  rw [List.filter_map]
  congr 1
  apply List.filter_congr
  intro c hc
  rw [Function.comp_apply, childView_of_mem hnd hc]

/-- The chain of a tag holds the children with the tag. -/
theorem Keyless.chain {n : KnvNode} (h : Keyless n) (hl : Listed n) (t : UInt32) :
    (n.ht.chain n.childView t []).filter (fun r => (n.childView r).1 = t) =
      (n.childlist.filter fun c => c.tag = t).map fun c => c.ref := by
  rw [← filter_childView hl.nodup]
  apply h.ht.chain_filter hl.nodup
  · intro r hr
    obtain ⟨c, hc, rfl⟩ := List.mem_map.mp hr
    rw [childView_of_mem hl.nodup hc]
    exact h.keyless c hc
  · intro r hr r' hr' he
    obtain ⟨c, hc, rfl⟩ := List.mem_map.mp hr
    obtain ⟨c', hc', rfl⟩ := List.mem_map.mp hr'
    rw [childView_of_mem hl.nodup hc, childView_of_mem hl.nodup hc'] at he
    rw [h.unique hc hc' he]

/-- **What a keyless lookup must return**: the first child in the list, or all of them in the order
    of the list. -/
def ListOrder (n : KnvNode) : Prop :=
  (∀ t, n.findChildByTag t = n.childlist.find? fun c => c.tag = t) ∧
  ∀ sub_req : KnvNode, sub_req.key.val = [] →
    n.matchRefs sub_req = (n.childlist.filter fun c => c.tag = sub_req.tag).map fun c => c.ref

theorem Sound.lookupChild {n : KnvNode} (h : Sound n) (hnum : n.child_num ≠ none) (t : UInt32) :
    n.lookupChild t = n.childlist.find? fun c => c.tag = t := by
  obtain ⟨hl, hkey⟩ := h hnum
  rcases hkey with hkey | hkey
  · exact hl.lookupChild hkey t
  · exact hkey.lookupChild hl t

theorem Sound.listOrder {n : KnvNode} (h : Sound n) (h0 : n.tag ≠ 0) (hnum : n.child_num ≠ none) :
    ListOrder n := by
  obtain ⟨hl, hkey⟩ := h hnum
  constructor
  · intro t
    rw [findChildByTag_eq h0, innerExpand_expanded hnum]
    exact h.lookupChild hnum t
  · intro sub_req hnone
    rw [matchRefs, if_neg (not_not_intro hnone)]
    cases hflag : n.child_has_key with
    | true => rfl
    | false =>
      have hk : Keyless n := hkey.resolve_left (by rw [hflag]; exact Bool.false_ne_true)
      exact hk.chain hl sub_req.tag

/-! ## Changes beside the index -/

/-- What the index knows of a child, and what a pointer to it holds. -/
def ident (c : KnvNode) : Nat × UInt32 × List UInt8 := (c.ref, c.tag, c.key.val)

/-- The index and the list are as before, up to what is below the children. -/
structure SameIndex (n n' : KnvNode) : Prop where
  child_num : n'.child_num = n.child_num
  child_has_key : n'.child_has_key = n.child_has_key
  next_ref : n.next_ref ≤ n'.next_ref
  childlist : n'.childlist.map ident = n.childlist.map ident
  ht : n'.ht = n.ht

theorem SameIndex.trans {n n' n'' : KnvNode} (h : SameIndex n n') (h' : SameIndex n' n'') :
    SameIndex n n'' where
  child_num := h'.child_num.trans h.child_num
  child_has_key := h'.child_has_key.trans h.child_has_key
  next_ref := Nat.le_trans h.next_ref h'.next_ref
  childlist := h'.childlist.trans h.childlist
  ht := h'.ht.trans h.ht

theorem childView_ident (n : KnvNode) (r : Nat) : n.childView r =
    (((n.childlist.map ident).find? fun i => i.1 = r).map Prod.snd).getD (0, []) := by
  rw [childView, List.find?_map, Option.map_map]
  show _ = ((n.childlist.find? fun c => decide (c.ref = r)).map _).getD _
  cases n.childlist.find? fun c => decide (c.ref = r) with
  | none => rfl
  | some c => rfl

theorem SameIndex.childView {n n' : KnvNode} (h : SameIndex n n') : n'.childView = n.childView := by
  funext r
  rw [childView_ident, childView_ident, h.childlist]

theorem map_ref_ident (l : List KnvNode) : (l.map ident).map Prod.fst = l.map fun c => c.ref := by
  rw [List.map_map]
  rfl

theorem map_tag_ident (l : List KnvNode) :
    (l.map ident).map (fun i => i.2.1) = l.map fun c => c.tag := by
  rw [List.map_map]
  rfl

theorem SameIndex.map_ref {n n' : KnvNode} (h : SameIndex n n') :
    (n'.childlist.map fun c => c.ref) = n.childlist.map fun c => c.ref := by
  rw [← map_ref_ident, ← map_ref_ident, h.childlist]

theorem SameIndex.listed {n n' : KnvNode} (h : SameIndex n n') (hl : Listed n) : Listed n' where
  child_num := by
    have hlen := congrArg List.length h.map_ref
    rw [List.length_map, List.length_map] at hlen
    rw [h.child_num, hl.child_num, hlen]
  refs := by
    intro x hx
    have hmem : x.ref ∈ n.childlist.map fun c => c.ref := by
      rw [← h.map_ref]
      exact List.mem_map.mpr ⟨x, hx, rfl⟩
    obtain ⟨y, hy, he⟩ := List.mem_map.mp hmem
    have hlt := hl.refs y hy
    have hle := h.next_ref
    omega
  nodup := by
    rw [h.map_ref]
    exact hl.nodup

theorem SameIndex.mem {n n' c : KnvNode} (h : SameIndex n n') (hc : c ∈ n'.childlist) :
    ∃ c₀ ∈ n.childlist, ident c₀ = ident c := by
  have hmem : ident c ∈ n.childlist.map ident := by
    rw [← h.childlist]
    exact List.mem_map.mpr ⟨c, hc, rfl⟩
  exact List.mem_map.mp hmem

theorem SameIndex.indexed {n n' : KnvNode} (h : SameIndex n n') (hi : Indexed n) : Indexed n' where
  child_num := (h.listed ⟨hi.child_num, hi.refs, hi.nodup⟩).child_num
  child_has_key := by
    intro c hc hk
    obtain ⟨c₀, hc₀, he⟩ := h.mem hc
    have hkey : c₀.key.val = c.key.val := congrArg (fun i => i.2.2) he
    rw [h.child_has_key]
    exact hi.child_has_key c₀ hc₀ (by rw [hkey]; exact hk)
  refs := (h.listed ⟨hi.child_num, hi.refs, hi.nodup⟩).refs
  nodup := (h.listed ⟨hi.child_num, hi.refs, hi.nodup⟩).nodup
  ht := by
    rw [h.childView, h.ht, h.map_ref]
    exact hi.ht

theorem SameIndex.keyless {n n' : KnvNode} (h : SameIndex n n') (hk : Keyless n) : Keyless n' where
  keyless := by
    intro c hc
    obtain ⟨y, hy, he⟩ := h.mem hc
    have hkey : y.key.val = c.key.val := congrArg (fun i => i.2.2) he
    rw [← hkey]
    exact hk.keyless y hy
  tags := by
    rw [← map_tag_ident, h.childlist, map_tag_ident]
    exact hk.tags
  ht := by
    rw [h.childView, h.ht, h.map_ref]
    exact hk.ht

/-- What only changes a node beside the index keeps the two ways in agreement. -/
theorem Sound.same {n n' : KnvNode} (h : Sound n) (hs : SameIndex n n') : Sound n' := by
  intro hnum
  rw [hs.child_num] at hnum
  obtain ⟨hl, hkey⟩ := h hnum
  exact ⟨hs.listed hl, hkey.imp (fun hf => by rw [hs.child_has_key, hf]) hs.keyless⟩

/-- The members that `SameIndex` does not speak of. -/
theorem sameIndex_of_eq {n n' : KnvNode} (hnum : n'.child_num = n.child_num)
    (hflag : n'.child_has_key = n.child_has_key) (hnext : n.next_ref ≤ n'.next_ref)
    (hlist : n'.childlist = n.childlist) (hht : n'.ht = n.ht) : SameIndex n n' :=
  ⟨hnum, hflag, hnext, by rw [hlist], hht⟩

theorem sameIndex_edited (n : KnvNode) (offset : Int) : SameIndex n (edited n offset).1 := by
  obtain ⟨sz, val_sz, he⟩ := edited_eq n offset
  rw [he]
  exact sameIndex_of_eq rfl rfl (Nat.le_refl _) rfl rfl

theorem sameIndex_hangMeta (n m : KnvNode) (front : Bool) : SameIndex n (n.hangMeta m front) :=
  sameIndex_of_eq rfl rfl (Nat.le_succ _) rfl rfl

/-! ## A child more -/

/-- `n'` is `n` with the new child `c`, wherever it is in the list. -/
structure Inserts (n c n' : KnvNode) : Prop where
  childlist : n'.childlist.Perm (c :: n.childlist)
  ref : c.ref = n.next_ref
  child_num : n'.child_num = n.child_num.map (· + 1)
  child_has_key : n'.child_has_key = (n.child_has_key || c.key.val ≠ [])
  next_ref : n'.next_ref = n.next_ref + 1
  ht : n'.ht = n.ht.put n'.childView c.ref

theorem inserts_hangChild (n c : KnvNode) :
    Inserts n { c with ref := n.next_ref } (n.hangChild c) where
  childlist := List.perm_append_singleton _ _
  ref := rfl
  child_num := rfl
  child_has_key := rfl
  next_ref := rfl
  ht := rfl

theorem inserts_hangChildFront (n c : KnvNode) :
    Inserts n { c with ref := n.next_ref } (n.hangChildFront c) where
  childlist := List.Perm.refl _
  ref := rfl
  child_num := rfl
  child_has_key := rfl
  next_ref := rfl
  ht := rfl

section Inserts

variable {n c n' : KnvNode} (hi : Inserts n c n')
include hi

theorem Inserts.listed (h : Listed n) : Listed n' where
  child_num := by
    rw [hi.child_num, h.child_num, hi.childlist.length_eq]
    rfl
  refs := by
    intro x hx
    rw [hi.next_ref]
    rcases List.mem_cons.mp (hi.childlist.mem_iff.mp hx) with rfl | hx
    · rw [hi.ref]
      exact Nat.lt_succ_self _
    · exact Nat.lt_succ_of_lt (h.refs x hx)
  nodup := by
    refine ((hi.childlist.map fun x => x.ref).nodup_iff).mpr ?_
    rw [List.map_cons, List.nodup_cons]
    refine ⟨fun hmem => ?_, h.nodup⟩
    obtain ⟨x, hx, he⟩ := List.mem_map.mp hmem
    have hlt := h.refs x hx
    have href := hi.ref
    omega

/-- A child without a key, whose tag is new. -/
theorem Inserts.keyless (hl : Listed n) (h : Keyless n) (hkey : c.key.val = [])
    (hfresh : ∀ x ∈ n.childlist, x.tag ≠ c.tag) : Keyless n' where
  keyless := by
    intro x hx
    rcases List.mem_cons.mp (hi.childlist.mem_iff.mp hx) with rfl | hx
    · exact hkey
    · exact h.keyless x hx
  tags := by
    refine ((hi.childlist.map fun x => x.tag).nodup_iff).mpr ?_
    rw [List.map_cons, List.nodup_cons]
    refine ⟨fun hmem => ?_, h.tags⟩
    obtain ⟨x, hx, he⟩ := List.mem_map.mp hmem
    exact hfresh x hx he
  ht := by
    have hl' := hi.listed hl
    have hview : ∀ r ∈ n.childlist.map (fun x => x.ref), n'.childView r = n.childView r := by
      intro r hr
      obtain ⟨x, hx, rfl⟩ := List.mem_map.mp hr
      rw [childView_of_mem hl'.nodup (hi.childlist.mem_iff.mpr (List.mem_cons_of_mem _ hx)),
        childView_of_mem hl.nodup hx]
    have hp : (c.ref :: n.childlist.map fun x => x.ref).Perm (n'.childlist.map fun x => x.ref) :=
      (hi.childlist.map fun x : KnvNode => x.ref).symm
    rw [hi.ht]
    exact ((h.ht.congr _ hview).put _ c.ref).of_perm _ hp

/-- **A child more** that has a key, or a new tag. -/
theorem Inserts.sound (hnum : n.child_num ≠ none) (h : Sound n)
    (hc : n.child_has_key = true ∨ c.key.val ≠ [] ∨ ∀ x ∈ n.childlist, x.tag ≠ c.tag) :
      Sound n' := by
  obtain ⟨hl, hkey⟩ := h hnum
  refine fun _ => ⟨hi.listed hl, ?_⟩
  rw [hi.child_has_key]
  by_cases hne : c.key.val = []
  · rcases hkey with hkey | hkey
    · rw [hkey]
      exact .inl rfl
    · rcases hc with hc | hc | hc
      · rw [hc]
        exact .inl rfl
      · exact absurd hne hc
      · exact .inr (hi.keyless hl hkey hne hc)
  · rw [decide_eq_true hne, Bool.or_true]
    exact .inl rfl

end Inserts

/-! ## Some children less -/

/-- `n'` is `n` with the children that are kept. -/
structure Removes (keep : KnvNode → Bool) (n n' : KnvNode) : Prop where
  childlist : n'.childlist = n.childlist.filter keep
  child_num : n'.child_num = n.child_num.map (· - (n.childlist.filter (!keep ·)).length)
  child_has_key : n'.child_has_key = n.child_has_key
  next_ref : n'.next_ref = n.next_ref
  ht : n'.ht = ((n.childlist.filter (!keep ·)).map fun c => c.ref).foldl
    (fun ht r => (ht.remove n.childView r).getD ht) n.ht

section Removes

variable {keep : KnvNode → Bool} {n n' : KnvNode} (hr : Removes keep n n')
include hr

theorem Removes.listed (h : Listed n) : Listed n' where
  child_num := by
    have hlen : (n.childlist.filter keep).length + (n.childlist.filter (!keep ·)).length =
        n.childlist.length := by
      rw [← List.length_append]
      exact (List.filter_append_perm keep n.childlist).length_eq
    rw [hr.child_num, h.child_num, hr.childlist]
    show some (n.childlist.length - _) = _
    congr 1
    omega
  refs := by
    intro x hx
    rw [hr.childlist] at hx
    rw [hr.next_ref]
    exact h.refs x (List.mem_of_mem_filter hx)
  nodup := by
    rw [hr.childlist]
    exact h.nodup.sublist (List.filter_sublist.map _)

/-- The index forgets the children that go. -/
theorem Removes.holds (hl : Listed n)
    (h : KnvHt.Holds n.childView n.ht (n.childlist.map fun c => c.ref)) :
    KnvHt.Holds n'.childView n'.ht (n'.childlist.map fun c => c.ref) := by
  have hl' := hr.listed hl
  have hgone : ((n.childlist.filter (!keep ·)).map fun c => c.ref).Nodup :=
    hl.nodup.sublist (List.filter_sublist.map _)
  have hh := h.foldl_remove hgone (fun r hm => by
    obtain ⟨x, hx, rfl⟩ := List.mem_map.mp hm
    exact List.mem_map.mpr ⟨x, List.mem_of_mem_filter hx, rfl⟩) hl.nodup
  -- a pointer stays if its child is kept
  have hdiff : (n.childlist.map fun c => c.ref).diff
      ((n.childlist.filter (!keep ·)).map fun c => c.ref) =
        (n.childlist.filter keep).map fun c => c.ref := by
    rw [hl.nodup.sdiff_eq_filter, List.filter_map]
    congr 1
    apply List.filter_congr
    intro x hx
    rw [Function.comp_apply, Bool.eq_iff_iff, decide_eq_true_iff]
    constructor
    · intro hn
      by_contra hk
      exact hn (List.mem_map.mpr ⟨x, List.mem_filter.mpr ⟨hx, by simpa using hk⟩, rfl⟩)
    · intro hk hm
      obtain ⟨y, hy, he⟩ := List.mem_map.mp hm
      obtain ⟨hy, hyk⟩ := List.mem_filter.mp hy
      have hxy : y = x := List.inj_on_of_nodup_map hl.nodup hy hx he
      rw [hxy, hk] at hyk
      cases hyk
  rw [hdiff] at hh
  rw [hr.ht, hr.childlist]
  refine hh.congr _ fun r hm => ?_
  obtain ⟨x, hx, rfl⟩ := List.mem_map.mp hm
  rw [childView_of_mem hl.nodup (List.mem_of_mem_filter hx),
    childView_of_mem hl'.nodup (by rw [hr.childlist]; exact hx)]

theorem Removes.keyless (hl : Listed n) (h : Keyless n) : Keyless n' where
  keyless := by
    intro x hx
    rw [hr.childlist] at hx
    exact h.keyless x (List.mem_of_mem_filter hx)
  tags := by
    rw [hr.childlist]
    exact h.tags.sublist (List.filter_sublist.map _)
  ht := hr.holds hl h.ht

theorem Removes.indexed (h : Indexed n) : Indexed n' where
  child_num := (hr.listed h.listed).child_num
  child_has_key := by
    intro x hx hk
    rw [hr.childlist] at hx
    rw [hr.child_has_key]
    exact h.child_has_key x (List.mem_of_mem_filter hx) hk
  refs := (hr.listed h.listed).refs
  nodup := (hr.listed h.listed).nodup
  ht := hr.holds h.listed h.ht

/-- **Some children less.** -/
theorem Removes.sound (hnum : n.child_num ≠ none) (h : Sound n) : Sound n' := by
  obtain ⟨hl, hkey⟩ := h hnum
  refine fun _ => ⟨hr.listed hl, hkey.imp (fun hf => ?_) (hr.keyless hl)⟩
  rw [hr.child_has_key, hf]

end Removes

theorem filter_eq_singleton {α : Type} {l : List α} {p : α → Bool} {c : α} (hnd : l.Nodup)
    (hc : c ∈ l)
    (hp : p c = true) (huniq : ∀ x ∈ l, p x = true → x = c) : l.filter p = [c] := by
  rw [← List.perm_singleton, List.perm_ext_iff_of_nodup (hnd.filter p) (List.nodup_singleton c)]
  intro x
  rw [List.mem_filter, List.mem_singleton]
  constructor
  · rintro ⟨hx, he⟩
    exact huniq x hx he
  · rintro rfl
    exact ⟨hc, hp⟩

/-- `RemoveChildByPos` takes one child. -/
theorem removes_child {n c : KnvNode} (h : Listed n) (hc : c ∈ n.childlist) :
    Removes (fun x => x.ref ≠ c.ref) n { n with
      ht := (n.ht.remove n.childView c.ref).getD n.ht
      childlist := n.childlist.filter fun x => x.ref ≠ c.ref
      child_num := n.child_num.map (· - 1) } := by
  have hgone : (n.childlist.filter fun x => !decide (x.ref ≠ c.ref)) = [c] := by
    refine filter_eq_singleton h.nodup.of_map hc (by simp) fun x hx he => ?_
    exact List.inj_on_of_nodup_map h.nodup hx hc (by simpa using he)
  refine ⟨rfl, ?_, rfl, rfl, ?_⟩
  · rw [hgone]
    rfl
  · rw [hgone, List.map_singleton, List.foldl_cons, List.foldl_nil]

/-- `RemoveChildrenByTag` takes the children with the tag. -/
theorem removes_byTag (n : KnvNode) (tag : UInt32) : Removes (fun c => c.tag ≠ tag) n { n with
    ht := (n.childlist.filter fun c => c.tag = tag).foldl
      (fun ht c => (ht.remove n.childView c.ref).getD ht) n.ht
    childlist := n.childlist.filter fun c => c.tag ≠ tag
    child_num := n.child_num.map (· - (n.childlist.filter fun c => c.tag = tag).length) } := by
  have hgone : (n.childlist.filter fun c => c.tag = tag) =
      n.childlist.filter fun c => !decide (c.tag ≠ tag) := by
    apply List.filter_congr
    intro c _
    rw [decide_not, Bool.not_not]
  refine ⟨rfl, ?_, rfl, rfl, ?_⟩
  · rw [← hgone]
  · rw [← hgone, List.foldl_map]

/-! ## Expanding -/

/-- The fields that the value holds, and whether it ends behind them. -/
def pending (n : KnvNode) : List (PbField × Nat) × Bool :=
  if n.isString then (pbFields n.str).getD ([], true) else ([], true)

/-- The fields that become children. -/
def childPart (fs : List (PbField × Nat)) : List (PbField × Nat) := fs.filter (!isMeta ·)

theorem childPart_meta {f : PbField × Nat} (hf : f.1.tag.toNat ≤ UC_MAX_META_NUM)
    (fs : List (PbField × Nat)) : childPart (f :: fs) = childPart fs :=
  List.filter_cons_of_neg (by simp [isMeta, hf])

theorem childPart_child {f : PbField × Nat} (hf : ¬ f.1.tag.toNat ≤ UC_MAX_META_NUM)
    (fs : List (PbField × Nat)) : childPart (f :: fs) = f :: childPart fs :=
  List.filter_cons_of_pos (by simpa [isMeta] using hf)

/-- **Expanding in the mode `k` leaves a node for which the two ways agree**: a child gets a key, or
    the index is empty before and the children have different tags. -/
def ExpandsWell (k : Bool) (n : KnvNode) : Prop :=
  (k = false ∧ ∃ f ∈ childPart n.pending.1, (keyOfValue f.1.val.str).1.val ≠ []) ∨
  (KnvHt.Holds n.childView n.ht [] ∧ ((childPart n.pending.1).map fun f => f.1.tag).Nodup ∧
    (n.pending.2 = true ∨ childPart n.pending.1 = []))

/-- The node is expanded already, or expands well. -/
def Ready (k : Bool) (n : KnvNode) : Prop := n.child_num = none → ExpandsWell k n

theorem Listed.hangChild {n : KnvNode} (h : Listed n) (c : KnvNode) : Listed (n.hangChild c) :=
  (inserts_hangChild n c).listed h

theorem Listed.expandFields {k : Bool} (fs : List (PbField × Nat)) : ∀ {n : KnvNode}, Listed n →
    Listed (fs.foldl (expandField k) n) := by
  induction fs with
  | nil => exact fun h => h
  | cons f fs ih =>
    intro n h
    rw [List.foldl_cons, expandField]
    split
    · exact ih ((sameIndex_hangMeta n _ _).listed h)
    · exact ih (h.hangChild _)

theorem Indexed.expandFields {k : Bool} (fs : List (PbField × Nat)) : ∀ {n : KnvNode}, Indexed n →
    Indexed (fs.foldl (expandField k) n) := by
  induction fs with
  | nil => exact fun h => h
  | cons f fs ih =>
    intro n h
    rw [List.foldl_cons, expandField]
    split
    · have hs := sameIndex_hangMeta n (initNode f.1.tag f.1.val true f.2 true) false
      have hl := hs.listed h.listed
      exact ih ⟨hl.child_num, h.child_has_key, hl.refs, hl.nodup, h.ht⟩
    · exact ih (h.hangChild _)

/-- The tags of the children. -/
theorem tags_expandFields {k : Bool} (fs : List (PbField × Nat)) : ∀ (n : KnvNode),
    ((fs.foldl (expandField k) n).childlist.map fun c => c.tag) =
      (n.childlist.map fun c => c.tag) ++ (childPart fs).map fun f => f.1.tag := by
  induction fs with
  | nil => exact fun n => (List.append_nil _).symm
  | cons f fs ih =>
    intro n
    rw [List.foldl_cons, ih, expandField]
    by_cases hf : f.1.tag.toNat ≤ UC_MAX_META_NUM
    · rw [if_pos hf, childPart_meta hf]
      rfl
    · rw [if_neg hf, childPart_child hf]
      show ((n.childlist ++ [_]).map fun c : KnvNode => c.tag) ++ _ = _
      rw [List.map_append, List.append_assoc]
      rfl

theorem flag_expandField {k : Bool} {n : KnvNode} {f : PbField × Nat} (h : n.child_has_key = true) :
    (expandField k n f).child_has_key = true := by
  rw [expandField]
  split
  · exact h
  · show (n.child_has_key || _) = true
    rw [h, Bool.true_or]

/-- The key of a child that is expanded with its key. -/
theorem key_initNode (tag : UInt32) (val : FieldVal) (sz : Nat) :
    (initNode tag val true sz false).key = (keyOfValue val.str).1 := by
  rw [initNode]
  by_cases hs : val.str = []
  · rw [hs]
    rfl
  · simp only [if_pos hs, if_true]
    rfl

/-- A child with a key sets the flag. -/
theorem flag_expandFields (fs : List (PbField × Nat)) : ∀ (n : KnvNode), (n.child_has_key = true ∨
    ∃ f ∈ childPart fs, (keyOfValue f.1.val.str).1.val ≠ []) →
    (fs.foldl (expandField false) n).child_has_key = true := by
  induction fs with
  | nil =>
    rintro n (h | ⟨f, hf, _⟩)
    · exact h
    · exact absurd hf List.not_mem_nil
  | cons g fs ih =>
    intro n h
    rw [List.foldl_cons]
    apply ih
    rcases h with h | ⟨f, hf, hne⟩
    · exact .inl (flag_expandField h)
    · by_cases hg : g.1.tag.toNat ≤ UC_MAX_META_NUM
      · rw [childPart_meta hg] at hf
        exact .inr ⟨f, hf, hne⟩
      · rw [childPart_child hg] at hf
        rcases List.mem_cons.mp hf with rfl | hf
        · refine .inl ?_
          rw [expandField, if_neg hg]
          show (n.child_has_key || decide ((initNode f.1.tag f.1.val true f.2 false).key.val ≠ []))
            = true
          rw [key_initNode, decide_eq_true hne, Bool.or_true]
        · exact .inr ⟨f, hf, hne⟩

/-- What the loop of `InnerExpand` and the end of the loop leave. -/
theorem expandTail_pending (k : Bool) (n : KnvNode) : SameIndex
    (if n.pending.2 then n.pending.1.foldl (expandField k) n
      else (n.pending.1.foldl (expandField k) n).initChildList (some 0))
        (expandTail false k n) := by
  rw [expandTail, pending]
  cases hs : n.isString with
  | false => exact sameIndex_of_eq rfl rfl (Nat.le_refl _) rfl rfl
  | true =>
    simp only [Bool.not_true, Bool.false_eq_true, and_false, if_false, if_true]
    cases pbFields n.str with
    | none => exact sameIndex_of_eq rfl rfl (Nat.le_refl _) rfl rfl
    | some q =>
      obtain ⟨fs, eom⟩ := q
      cases eom with
      | false => exact sameIndex_of_eq rfl rfl (Nat.le_refl _) rfl rfl
      | true => exact sameIndex_of_eq rfl rfl (Nat.le_refl _) rfl rfl

/-- **A node that expands well.** -/
theorem Sound.innerExpand {k : Bool} {n : KnvNode} (h : Sound n) (hr : Ready k n) :
    Sound (n.innerExpand false k) := by
  by_cases hnum : n.child_num = none
  · rw [innerExpand_none hnum]
    have hwell := hr hnum
    generalize hn : ({ n.initChildList (some 0) with child_has_key := false } : KnvNode) = n₁
    have hlist : n₁.childlist = [] ∧ n₁.pending = n.pending ∧ n₁.ht = n.ht := by
      rw [← hn]
      exact ⟨rfl, rfl, rfl⟩
    have hl₁ : Listed n₁ := by
      rw [← hn]
      exact ⟨rfl, fun x hx => absurd hx List.not_mem_nil, List.nodup_nil⟩
    refine Sound.same (fun _ => ?_) (expandTail_pending k n₁)
    rw [hlist.2.1]
    have hl : Listed (n.pending.1.foldl (expandField k) n₁) := hl₁.expandFields _
    have hempty : Listed ((n.pending.1.foldl (expandField k) n₁).initChildList (some 0)) :=
      ⟨rfl, fun x hx => absurd hx List.not_mem_nil, List.nodup_nil⟩
    rcases hwell with ⟨rfl, f, hf, hne⟩ | ⟨hht, hnd, heom⟩
    · have hflag : (n.pending.1.foldl (expandField false) n₁).child_has_key = true :=
        flag_expandFields _ n₁ (.inr ⟨f, hf, hne⟩)
      split
      · exact ⟨hl, .inl hflag⟩
      · exact ⟨hempty, .inl hflag⟩
    · have hix : Indexed (n.pending.1.foldl (expandField k) n₁) := by
        refine Indexed.expandFields _ ⟨hl₁.child_num, ?_, hl₁.refs, hl₁.nodup, ?_⟩
        · intro c hc
          rw [hlist.1] at hc
          exact absurd hc List.not_mem_nil
        · rw [hlist.1, hlist.2.2]
          exact hht.congr _ fun c hc => absurd hc List.not_mem_nil
      have htags := tags_expandFields (k := k) n.pending.1 n₁
      rw [hlist.1, List.map_nil, List.nil_append] at htags
      cases hflag : (n.pending.1.foldl (expandField k) n₁).child_has_key with
      | true =>
        split
        · exact ⟨hl, .inl hflag⟩
        · exact ⟨hempty, .inl hflag⟩
      | false =>
        have hkeyless : ∀ c ∈ (n.pending.1.foldl (expandField k) n₁).childlist, c.key.val = [] := by
          intro c hc
          by_contra hne
          rw [hix.child_has_key c hc hne] at hflag
          cases hflag
        split
        · exact ⟨hl, .inr ⟨hkeyless, by rw [htags]; exact hnd, hix.ht⟩⟩
        · -- the value breaks off, but before any child
          rename_i he
          rw [heom.resolve_left he, List.map_nil, List.map_eq_nil_iff] at htags
          refine ⟨hempty, .inr ⟨fun c hc => absurd hc List.not_mem_nil, List.nodup_nil, ?_⟩⟩
          have hh := hix.ht
          rw [htags] at hh
          exact hh.congr _ fun c hc => absurd hc List.not_mem_nil
  · rw [innerExpand_expanded hnum]
    exact h

/-! ## Edits of the metas -/

/-- The edit fails, or leaves a node for which the two ways agree. -/
def SoundEdit {α : Type} (r : Except KnvError (KnvNode × α)) : Prop := ∀ p, r = .ok p → Sound p.1

theorem soundEdit_error {α : Type} (e : KnvError) :
    SoundEdit (.error e : Except KnvError (KnvNode × α)) := fun _ he => nomatch he

theorem Sound.ok {α : Type} {n : KnvNode} (h : Sound n) (a : α) : SoundEdit (.ok (n, a)) := by
  rintro p ⟨⟩
  exact h

theorem SoundEdit.mapError {α : Type} {r : Except KnvError (KnvNode × α)} (h : SoundEdit r)
    (f : KnvError → KnvError) : SoundEdit (r.mapError f) := by
  cases r with
  | error e => exact soundEdit_error _
  | ok p => exact h

theorem SoundEdit.once {r : Except KnvError (KnvNode × Int)} (h : SoundEdit r) :
    SoundEdit (once r) := by
  cases r with
  | error e => exact soundEdit_error _
  | ok p => exact (h p rfl).ok _

theorem Sound.edited {n : KnvNode} (h : Sound n) (offset : Int) :
    SoundEdit (.ok (edited n offset)) := by
  rintro p ⟨⟩
  exact h.same (sameIndex_edited n offset)

/-! ### Edits of the metas

They leave the children alone, so that they keep whatever is about the children. -/

/-- The children and their index are the same. -/
structure KeepsList (n n' : KnvNode) : Prop where
  ref : n'.ref = n.ref
  child_num : n'.child_num = n.child_num
  child_has_key : n'.child_has_key = n.child_has_key
  next_ref : n.next_ref ≤ n'.next_ref
  childlist : n'.childlist = n.childlist
  ht : n'.ht = n.ht

theorem KeepsList.sameIndex {n n' : KnvNode} (h : KeepsList n n') : SameIndex n n' :=
  sameIndex_of_eq h.child_num h.child_has_key h.next_ref h.childlist h.ht

theorem keepsList_edited (n : KnvNode) (offset : Int) : KeepsList n (edited n offset).1 := by
  obtain ⟨sz, val_sz, he⟩ := edited_eq n offset
  rw [he]
  exact ⟨rfl, rfl, rfl, Nat.le_refl _, rfl, rfl⟩

theorem keepsList_hangMeta (n m : KnvNode) (front : Bool) : KeepsList n (n.hangMeta m front) :=
  ⟨rfl, rfl, rfl, Nat.le_succ _, rfl, rfl⟩

section Keeps

variable {P : KnvNode → Prop} (hP : ∀ {n n' : KnvNode}, KeepsList n n' → P n → P n')

/-- An edit that does not fail leaves a node with `P`. -/
def EditKeeps {α : Type} (P : KnvNode → Prop) (r : Except KnvError (KnvNode × α)) : Prop :=
  ∀ p, r = .ok p → P p.1

theorem editKeeps_error {α : Type} (e : KnvError) :
    EditKeeps P (.error e : Except KnvError (KnvNode × α)) := fun _ he => nomatch he

theorem editKeeps_ok {α : Type} {n : KnvNode} (h : P n) (a : α) : EditKeeps P (.ok (n, a)) := by
  rintro p ⟨⟩
  exact h

theorem EditKeeps.mapError {α : Type} {r : Except KnvError (KnvNode × α)} (h : EditKeeps P r)
    (f : KnvError → KnvError) : EditKeeps P (r.mapError f) := by
  cases r with
  | error e => exact editKeeps_error _
  | ok p => exact h

theorem EditKeeps.once {r : Except KnvError (KnvNode × Int)} (h : EditKeeps P r) :
    EditKeeps P (once r) := by
  cases r with
  | error e => exact editKeeps_error _
  | ok p => exact editKeeps_ok (h p rfl) _

include hP

theorem editKeeps_edited {n : KnvNode} (h : P n) (offset : Int) :
    EditKeeps P (.ok (edited n offset)) := by
  rintro p ⟨⟩
  exact hP (keepsList_edited n offset) h

theorem editKeeps_setMeta {n : KnvNode} (hx : P (n.innerExpand false false)) (t : UInt32)
    (val : FieldVal) : EditKeeps P (n.setMeta t val) := by
  rw [KnvNode.setMeta]
  split
  · exact editKeeps_error _
  · split
    · exact editKeeps_error _
    · split
      · exact editKeeps_error _
      · simp only
        cases (n.innerExpand false false).getMeta t with
        | none => exact editKeeps_edited hP (hP (keepsList_hangMeta _ _ _) hx) _
        | some m =>
          refine editKeeps_edited hP (hP ?_ hx) _
          exact ⟨rfl, rfl, rfl, Nat.le_refl _, rfl, rfl⟩

theorem editKeeps_innerRemoveMeta {n : KnvNode} (hx : P (n.innerExpand false false)) (t : UInt32) :
    EditKeeps P (n.innerRemoveMeta t) := by
  rw [KnvNode.innerRemoveMeta]
  split
  · exact editKeeps_error _
  · split
    · exact editKeeps_error _
    · simp only
      cases (if (n.innerExpand false false).metalist = [] then none
        else (n.innerExpand false false).getMeta t) with
      | none => exact editKeeps_ok hx _
      | some m =>
        refine editKeeps_edited hP (hP ?_ hx) _
        exact ⟨rfl, rfl, rfl, Nat.le_refl _, rfl, rfl⟩

/-- The end of `SetKey`. -/
theorem EditKeeps.keyed {r : Except KnvError (KnvNode × Int)} (h : EditKeeps P r) :
    EditKeeps P (do let (n, offset) ← r; return ({ n with no_key := false }, offset)) := by
  cases r with
  | error e => exact editKeeps_error _
  | ok p =>
    refine editKeeps_ok ?_ p.2
    exact hP (n := p.1) ⟨rfl, rfl, rfl, Nat.le_refl _, rfl, rfl⟩ (h p rfl)

theorem editKeeps_dropMetas {n : KnvNode} (h : P n) (tag : UInt32) (offsets : List Int) :
    P (MysqlProxy.dropMetas tag n offsets).1 := by
  have hd : P { n with
      metalist := n.metalist.filter fun m => m.tag ≠ tag
      metas := fun t => if t = tag.toNat then none else n.metas t } :=
    hP (n := n) ⟨rfl, rfl, rfl, Nat.le_refl _, rfl, rfl⟩ h
  exact editKeeps_edited hP hd _ _ rfl

section Keyed

-- the key is set before the node is expanded
variable {n : KnvNode} (hx : ∀ key : KnvKey, P ({ n with key := key }.innerExpand false false))
include hx

omit hP in
theorem keeps_own_key : P (n.innerExpand false false) := by
  have h := hx n.key
  cases n
  exact h

theorem editKeeps_setKey (key : FieldVal) : EditKeeps P (n.setKey key) := by
  rw [KnvNode.setKey]
  show EditKeeps P (if (KnvKey.init key).val ≠ [] then _ else _)
  split
  · exact ((editKeeps_setMeta hP (hx _) 1 _).mapError _).keyed hP
  · exact ((editKeeps_innerRemoveMeta hP (hx _) 1).mapError _).keyed hP

theorem editKeeps_setMetaOrKey (t : UInt32) (val : FieldVal) :
    EditKeeps P (n.setMetaOrKey t val) := by
  rw [KnvNode.setMetaOrKey]
  split
  · exact editKeeps_setKey hP hx val
  · exact editKeeps_setMeta hP (keeps_own_key hx) t val

theorem editKeeps_addMeta (t : UInt32) (val : FieldVal) : EditKeeps P (n.addMeta t val) := by
  rw [KnvNode.addMeta]
  cases n.getMeta t with
  | none => exact (editKeeps_setMetaOrKey hP hx t val).once
  | some m =>
    refine EditKeeps.once (editKeeps_edited hP (hP ?_ (keeps_own_key hx)) _)
    exact ⟨rfl, rfl, rfl, Nat.le_succ _, rfl, rfl⟩

theorem editKeeps_clearKey : EditKeeps P n.clearKey :=
  ((editKeeps_innerRemoveMeta hP (hx (KnvKey.none n.key.type)) 1).mapError _).keyed hP

end Keyed

/-- The key of an expanded node is cleared first. -/
theorem editKeeps_removeMetaByTag {n : KnvNode} (hx : P (n.innerExpand false false))
    (tag : UInt32) :
    EditKeeps P (n.removeMetaByTag tag) := by
  have hnum := innerExpand_num n false false
  rw [removeMetaByTag_eq]
  generalize n.innerExpand false false = e at hx hnum ⊢
  have hkey : ∀ key : KnvKey, P ({ e with key := key }.innerExpand false false) := by
    intro key
    rw [innerExpand_expanded (n := { e with key := key }) hnum]
    exact hP (n := e) ⟨rfl, rfl, rfl, Nat.le_refl _, rfl, rfl⟩ hx
  split
  · exact editKeeps_error _
  · split
    · exact editKeeps_error _
    · simp only
      split
      · exact editKeeps_ok hx _
      · split
        · have hk := (editKeeps_clearKey hP hkey).once
          cases hc : once e.clearKey with
          | error er => exact editKeeps_error _
          | ok p => exact editKeeps_ok (editKeeps_dropMetas hP (hk p hc) tag p.2) _
        · exact editKeeps_ok (editKeeps_dropMetas hP hx tag []) _

end Keeps

section Metas

variable {n : KnvNode} (h : Sound n) (hr : Ready false n)
include h

theorem Sound.keepsList {n' : KnvNode} (hk : KeepsList n n') : Sound n' := h.same hk.sameIndex

theorem Sound.with_key (key : KnvKey) : Sound { n with key := key } :=
  h.keepsList ⟨rfl, rfl, rfl, Nat.le_refl _, rfl, rfl⟩

include hr

theorem Sound.setMeta (t : UInt32) (val : FieldVal) : SoundEdit (n.setMeta t val) :=
  editKeeps_setMeta (fun hk hs => hs.keepsList hk) (h.innerExpand hr) t val

theorem Sound.keyed_innerExpand (key : KnvKey) :
    Sound ({ n with key := key }.innerExpand false false) :=
  (h.with_key key).innerExpand hr

theorem Sound.setKey (key : FieldVal) : SoundEdit (n.setKey key) :=
  editKeeps_setKey (fun hk hs => hs.keepsList hk) (h.keyed_innerExpand hr) key

theorem Sound.setMetaOrKey (t : UInt32) (val : FieldVal) : SoundEdit (n.setMetaOrKey t val) :=
  editKeeps_setMetaOrKey (fun hk hs => hs.keepsList hk) (h.keyed_innerExpand hr) t val

theorem Sound.initKey (key : FieldVal) : SoundEdit (n.initKey key) := by
  have hk := h.with_key (KnvKey.init key)
  have hr' : Ready false { n with key := KnvKey.init key } := hr
  rw [KnvNode.initKey]
  show SoundEdit (if (KnvKey.init key).val = [] then _ else _)
  split
  · exact hk.ok _
  · exact hk.setMeta hr' 1 _

theorem Sound.addMeta (t : UInt32) (val : FieldVal) : SoundEdit (n.addMeta t val) :=
  editKeeps_addMeta (fun hk hs => hs.keepsList hk) (h.keyed_innerExpand hr) t val

theorem Sound.removeMetaByTag (tag : UInt32) : SoundEdit (n.removeMetaByTag tag) :=
  editKeeps_removeMetaByTag (fun hk hs => hs.keepsList hk) (h.innerExpand hr) tag

end Metas

/-! ## Edits of the list -/

/-- A child that may come in: the list is scanned anyway, or the child has a key, or its tag is
new. -/
def MayInsert (n c : KnvNode) : Prop :=
  n.child_has_key = true ∨ c.key.val ≠ [] ∨ ∀ x ∈ n.childlist, x.tag ≠ c.tag

section Inserting

variable {n : KnvNode} (h : Sound n) (hr : Ready false n)
include h hr

theorem Sound.insertNode {c : KnvNode} (hc : MayInsert (n.innerExpand false false) c) :
    SoundEdit (n.insertNode c) := by
  have hx := (inserts_hangChild _ c).sound (innerExpand_num n false false) (h.innerExpand hr) hc
  rw [KnvNode.insertNode]
  split
  · exact soundEdit_error _
  · split
    · exact soundEdit_error _
    · exact (hx.edited _).once

theorem Sound.insertFront {c : KnvNode} (hc : MayInsert (n.innerExpand false false) c) :
    SoundEdit (n.insertFront c) := by
  have hx :=
    (inserts_hangChildFront _ c).sound (innerExpand_num n false false) (h.innerExpand hr) hc
  rw [KnvNode.insertFront]
  split
  · exact soundEdit_error _
  · split
    · exact soundEdit_error _
    · exact (hx.edited _).once

theorem Sound.insertChild {t : UInt32} {val : FieldVal} (hc : n.tag ≠ 0 →
    ∀ c, newNode t none val = .ok c → MayInsert (n.innerExpand false false) c) :
    SoundEdit (n.insertChild t val) := by
  rw [KnvNode.insertChild]
  cases hn : newNode t none val with
  | error e => exact soundEdit_error _
  | ok c =>
    simp only [bind, Except.bind]
    split
    · exact soundEdit_error _
    · rename_i h0
      split
      · exact soundEdit_error _
      · exact ((inserts_hangChild _ c).sound (innerExpand_num n false false) (h.innerExpand hr)
          (hc h0 c hn)).edited _

theorem Sound.removeChildrenByTag (tag : UInt32) : SoundEdit (n.removeChildrenByTag tag) := by
  have hx := h.innerExpand hr
  have hnum := innerExpand_num n false false
  rw [KnvNode.removeChildrenByTag]
  split
  · exact soundEdit_error _
  · generalize n.innerExpand false false = e at hx hnum
    simp only
    split
    · exact hx.ok _
    · split
      · exact hx.ok _
      · refine SoundEdit.once (Sound.edited ?_ _)
        exact (removes_byTag e tag).sound hnum hx

end Inserting

/-- A child less. -/
theorem Sound.removeChild {n : KnvNode} (h : Sound n) (hnum : n.child_num ≠ none) (r : Nat) :
    Sound (MysqlProxy.removeChild n r) := by
  rw [MysqlProxy.removeChild]
  cases hf : findRef n.childlist r with
  | none => exact h
  | some c =>
    have hc : c ∈ n.childlist := List.mem_of_find?_eq_some hf
    have href : c.ref = r :=
      of_decide_eq_true (List.find?_some (p := fun x : KnvNode => decide (x.ref = r)) hf)
    subst href
    exact ((removes_child (h hnum).1 hc).sound hnum h).same (sameIndex_edited _ _)

/-! ## Edits of a child -/

/-- `SetValue` of a string, on the child `c`. -/
def setChildValue (n c : KnvNode) (s : List UInt8) : KnvNode × Int :=
  let c := c.checkKey s
  let n := { n with childlist := replaceRef c n.childlist }
  let ht := if c.writesKey then (n.ht.remove n.childView c.ref).getD n.ht else n.ht
  let (c', offset) := c.setStrValue s
  let n := { n with childlist := replaceRef c' n.childlist }
  childEdited { n with ht := if c.writesKey then ht.put n.childView c.ref else ht } offset

/-- The parent after the edits of a child, one round of `UpdateParentEvalueAndSetDirty` for each. -/
def told (n : KnvNode) (offsets : List Int) : KnvNode :=
  offsets.foldl (fun n offset => (n.childEdited offset).1) n

/-- The child `c` leaves the index, becomes `c'` and comes back under its new key. -/
def rekey (n c c' : KnvNode) (offsets : List Int) : KnvNode :=
  let ht := (n.ht.remove n.childView c.ref).getD n.ht
  let n := told { n with childlist := replaceRef c' n.childlist } offsets
  { n with ht := ht.put n.childView c.ref }

/-- What `SetKey` does to the child itself, and what the parents are told.  If there is no key to
    remove then nothing is out of date. -/
def setOwnKey (c : KnvNode) (key : FieldVal) : KnvNode × List Int :=
  match c.setKey key with
  | .ok p => (p.1, if (KnvKey.init key).val = [] ∧ c.getMeta 1 = none then [] else [p.2])
  | .error _ => ({ c with key := KnvKey.init key }, [])

/-- `SetMeta` of the child `c`. -/
def setChildMeta (n c : KnvNode) (tag : UInt32) (val : FieldVal) : KnvNode :=
  if !c.no_key && tag = 1 then n.rekey c (c.setOwnKey val).1 (c.setOwnKey val).2
  else match c.setMeta tag val with
    | .ok p => told { n with childlist := replaceRef p.1 n.childlist } [p.2]
    | .error _ => n

/-- `RemoveMetaByTag` of the child `c`.  A key that is there is removed by `SetKey`. -/
def removeChildMeta (n c : KnvNode) (tag : UInt32) : KnvNode :=
  match c.removeMetaByTag tag with
  | .ok p =>
    if !c.no_key && tag = 1 && p.2 ≠ [] then n.rekey c p.1 p.2
    else told { n with childlist := replaceRef p.1 n.childlist } p.2
  | .error _ => n

theorem sameIndex_childEdited (n : KnvNode) (offset : Int) :
    SameIndex n (n.childEdited offset).1 := by
  rw [childEdited, updateEvalSz]
  by_cases hsz : 0 ≤ n.eval_sz
  · by_cases ho : offset = 0
    · simp only [if_pos hsz, if_pos ho]
      split
      · exact sameIndex_of_eq rfl rfl (Nat.le_refl _) rfl rfl
      · exact sameIndex_of_eq rfl rfl (Nat.le_refl _) rfl rfl
    · simp only [if_pos hsz, if_neg ho]
      split
      · exact sameIndex_of_eq rfl rfl (Nat.le_refl _) rfl rfl
      · exact sameIndex_of_eq rfl rfl (Nat.le_refl _) rfl rfl
  · simp only [if_neg hsz]
    split
    · exact sameIndex_of_eq rfl rfl (Nat.le_refl _) rfl rfl
    · exact sameIndex_of_eq rfl rfl (Nat.le_refl _) rfl rfl

theorem sameIndex_told (offsets : List Int) : ∀ n : KnvNode, SameIndex n (n.told offsets) := by
  induction offsets with
  | nil => exact fun n => sameIndex_of_eq rfl rfl (Nat.le_refl _) rfl rfl
  | cons offset offsets ih => exact fun n => (sameIndex_childEdited n offset).trans (ih _)

/-- A list in which a node has been replaced holds the same pointers, -/
theorem map_ref_replaceRef (m : KnvNode) (l : List KnvNode) :
    ((replaceRef m l).map fun x => x.ref) = l.map fun x => x.ref := by
  rw [replaceRef, List.map_map]
  apply List.map_congr_left
  intro x _
  rw [Function.comp_apply]
  split
  · exact Eq.symm ‹_›
  · rfl

/-- and they lead to the same tags and keys if the new node has those of the old one. -/
theorem map_ident_replaceRef {l : List KnvNode} {c c' : KnvNode}
    (hnd : (l.map fun x => x.ref).Nodup) (hc : c ∈ l) (hid : ident c' = ident c) :
    (replaceRef c' l).map ident = l.map ident := by
  rw [replaceRef, List.map_map]
  apply List.map_congr_left
  intro x hx
  rw [Function.comp_apply]
  have href : c'.ref = c.ref := congrArg Prod.fst hid
  split
  · rename_i he
    rw [hid, List.inj_on_of_nodup_map hnd hx hc (he.trans href)]
  · rfl

theorem mem_replaceRef {l : List KnvNode} {c c' : KnvNode} (hc : c ∈ l) (href : c'.ref = c.ref) :
    c' ∈ replaceRef c' l := by
  rw [replaceRef, List.mem_map]
  exact ⟨c, hc, if_pos href.symm⟩

theorem Listed.of_refs {n n' : KnvNode} (h : Listed n) (hnum : n'.child_num = n.child_num)
    (hnext : n'.next_ref = n.next_ref)
    (hlist : (n'.childlist.map fun x => x.ref) = n.childlist.map fun x => x.ref) : Listed n' where
  child_num := by
    have hlen := congrArg List.length hlist
    rw [List.length_map, List.length_map] at hlen
    rw [hnum, h.child_num, hlen]
  refs := by
    intro x hx
    have hmem : x.ref ∈ n.childlist.map fun x => x.ref := by
      rw [← hlist]
      exact List.mem_map.mpr ⟨x, hx, rfl⟩
    obtain ⟨y, hy, he⟩ := List.mem_map.mp hmem
    rw [hnext, ← he]
    exact h.refs y hy
  nodup := by
    rw [hlist]
    exact h.nodup

/-- **A child changes**: it keeps its tag, and its key unless the list is scanned anyway. -/
theorem Sound.replaceRef {n c c' : KnvNode} (h : Sound n) (hnum : n.child_num ≠ none)
    (hc : c ∈ n.childlist) (href : c'.ref = c.ref) (htag : c'.tag = c.tag)
    (hkey : n.child_has_key = true ∨ c'.key.val = c.key.val) :
    Sound { n with childlist := KnvNode.replaceRef c' n.childlist } := by
  obtain ⟨hl, _⟩ := h hnum
  rcases hkey with hflag | hkey
  · exact fun _ => ⟨hl.of_refs rfl rfl (map_ref_replaceRef c' n.childlist), .inl hflag⟩
  · have hid : ident c' = ident c := by rw [ident, ident, href, htag, hkey]
    exact h.same ⟨rfl, rfl, Nat.le_refl _, map_ident_replaceRef hl.nodup hc hid, rfl⟩

theorem checkKey_of_writes {c : KnvNode} (h : c.writesKey = false) (s : List UInt8) :
    c.checkKey s = c := by
  rw [checkKey, h]
  simp only [Bool.false_eq_true, if_false, ite_self]

theorem setStrValue_eq (c : KnvNode) (s : List UInt8) : ∃ num sz val_sz ms cs,
    (c.setStrValue s).1 = { c with
      val := .string s
      key := if c.writesKey then (keyOfValue s).1 else c.key
      subnode_dirty := true
      child_num := num
      eval_sz := sz
      eval_val_sz := val_sz
      metalist := ms
      childlist := cs } := by
  rw [setStrValue]
  generalize (if c.writesKey then (keyOfValue s).1 else c.key) = k
  simp only [updateEvalSz, initChildList]
  split_ifs
  all_goals exact ⟨_, _, _, _, _, rfl⟩

theorem Sound.setChildValue {n c : KnvNode} (h : Sound n) (hnum : n.child_num ≠ none)
    (hc : c ∈ n.childlist) (s : List UInt8) : Sound (n.setChildValue c s).1 := by
  obtain ⟨hl, hkey⟩ := h hnum
  rw [KnvNode.setChildValue]
  by_cases hflag : n.child_has_key = true
  · generalize c.checkKey s = c₁
    generalize c₁.setStrValue s = q
    obtain ⟨c', offset⟩ := q
    refine Sound.same ?_ (sameIndex_childEdited _ _)
    refine fun _ => ⟨hl.of_refs rfl rfl ?_, .inl hflag⟩
    rw [map_ref_replaceRef, map_ref_replaceRef]
  · -- a child without a key is not taken out of the index
    have hk : Keyless n := hkey.resolve_left hflag
    have hw : c.writesKey = false := by
      rw [writesKey, hk.keyless c hc]
      exact Bool.and_false _
    obtain ⟨num, sz, val_sz, ms, cs, he⟩ := setStrValue_eq c s
    rw [hw] at he
    rw [checkKey_of_writes hw, hw]
    generalize c.setStrValue s = q at he
    obtain ⟨c', offset⟩ := q
    have h₁ : Sound { n with childlist := KnvNode.replaceRef c n.childlist } :=
      h.replaceRef hnum hc rfl rfl (.inr rfl)
    refine Sound.same ?_ (sameIndex_childEdited _ _)
    replace he : c' = _ := he
    refine h₁.replaceRef (c := c) hnum (mem_replaceRef hc rfl) ?_ ?_ (.inr ?_)
    all_goals rw [he]
    rfl

/-! ### The key of a child -/

/-- The tag, the key and the pointer are as before. -/
def SameFace (n n' : KnvNode) : Prop := n'.ref = n.ref ∧ n'.tag = n.tag ∧ n'.key = n.key

theorem sameFace_innerExpand (n : KnvNode) (p k : Bool) : SameFace n (n.innerExpand p k) := by
  have hh := innerExpand_head n p k
  rw [head, head] at hh
  injection hh with href hh
  injection hh with htag hh
  injection hh with _ hh
  injection hh with hkey _
  exact ⟨href, htag, hkey⟩

theorem SameFace.edited {n n' : KnvNode} (h : SameFace n n') (offset : Int) :
    SameFace n (edited n' offset).1 := by
  obtain ⟨sz, val_sz, he⟩ := edited_eq n' offset
  rw [he]
  exact h

theorem setMeta_sameFace {n : KnvNode} {t : UInt32} {val : FieldVal} {p : KnvNode × Int}
    (h : n.setMeta t val = .ok p) : SameFace n p.1 := by
  have hx := sameFace_innerExpand n false false
  rw [setMeta] at h
  split at h
  · cases h
  · split at h
    · cases h
    · split at h
      · cases h
      · generalize n.innerExpand false false = e at h hx
        simp only at h
        split at h
        · cases h
          refine SameFace.edited ?_ _
          exact hx
        · cases h
          refine SameFace.edited ?_ _
          exact hx

theorem innerRemoveMeta_sameFace {n : KnvNode} {t : UInt32} {p : KnvNode × Int}
    (h : n.innerRemoveMeta t = .ok p) : SameFace n p.1 := by
  have hx := sameFace_innerExpand n false false
  rw [innerRemoveMeta] at h
  split at h
  · cases h
  · split at h
    · cases h
    · generalize n.innerExpand false false = e at h hx
      simp only at h
      split at h
      · cases h
        exact hx
      · cases h
        refine SameFace.edited ?_ _
        exact hx

theorem setKey_head {c : KnvNode} {key : FieldVal} {p : KnvNode × Int} (h : c.setKey key = .ok p) :
    p.1.ref = c.ref ∧ p.1.tag = c.tag ∧ p.1.key = KnvKey.init key := by
  have hend : ∀ {r : Except KnvError (KnvNode × Int)} {f : KnvError → KnvError},
      (∀ q, r = .ok q → SameFace { c with key := KnvKey.init key } q.1) →
      (do let (n, offset) ← r.mapError f; return ({ n with no_key := false }, offset)) = .ok p →
      p.1.ref = c.ref ∧ p.1.tag = c.tag ∧ p.1.key = KnvKey.init key := by
    intro r f hr he
    cases r with
    | error e => cases he
    | ok q =>
      cases he
      exact hr q rfl
  rw [setKey] at h
  change (if (KnvKey.init key).val ≠ [] then _ else _) = Except.ok p at h
  split at h
  · exact hend (fun q hq => setMeta_sameFace hq) h
  · exact hend (fun q hq => innerRemoveMeta_sameFace hq) h

theorem setOwnKey_head (c : KnvNode) (key : FieldVal) : (c.setOwnKey key).1.ref = c.ref ∧
    (c.setOwnKey key).1.tag = c.tag ∧ (c.setOwnKey key).1.key = KnvKey.init key := by
  rw [setOwnKey]
  cases h : c.setKey key with
  | error e => exact ⟨rfl, rfl, rfl⟩
  | ok p => exact setKey_head h

/-- **A new key of a child**: the list is scanned anyway, or the key is removed. -/
theorem Sound.rekey {n c c' : KnvNode} (h : Sound n) (hnum : n.child_num ≠ none)
    (hc : c ∈ n.childlist) (href : c'.ref = c.ref) (htag : c'.tag = c.tag)
    (hkey : n.child_has_key = true ∨ c'.key.val = []) (offsets : List Int) :
    Sound (n.rekey c c' offsets) := by
  obtain ⟨hl, hor⟩ := h hnum
  rw [KnvNode.rekey]
  generalize hn₁ : ({ n with childlist := KnvNode.replaceRef c' n.childlist } : KnvNode) = n₁
  have htold := sameIndex_told offsets n₁
  generalize n₁.told offsets = n₂ at htold ⊢
  by_cases hflag : n.child_has_key = true
  · have hl₁ : Listed n₁ := by
      rw [← hn₁]
      exact hl.of_refs rfl rfl (map_ref_replaceRef c' n.childlist)
    have hl₂ := htold.listed hl₁
    refine fun _ => ⟨⟨hl₂.child_num, hl₂.refs, hl₂.nodup⟩, .inl ?_⟩
    show n₂.child_has_key = true
    rw [htold.child_has_key, ← hn₁]
    exact hflag
  · -- the child has no key before and no key afterwards, so it is back in the same bucket
    have hnil := hkey.resolve_left hflag
    have hkl : Keyless n := hor.resolve_left hflag
    have hid : ident c' = ident c := by
      rw [ident, ident, href, htag, hnil, hkl.keyless c hc]
    have hs : SameIndex n n₂ := by
      refine SameIndex.trans ?_ htold
      rw [← hn₁]
      exact ⟨rfl, rfl, Nat.le_refl _, map_ident_replaceRef hl.nodup hc hid, rfl⟩
    have hmem : c.ref ∈ n.childlist.map fun x => x.ref := List.mem_map.mpr ⟨c, hc, rfl⟩
    obtain ⟨ht, hht, hholds⟩ := hkl.ht.remove _ hmem
    have hl₂ := hs.listed hl
    have hk₂ := hs.keyless hkl
    rw [hht, Option.getD_some]
    refine fun _ => ⟨⟨hl₂.child_num, hl₂.refs, hl₂.nodup⟩, .inr ⟨hk₂.keyless, hk₂.tags, ?_⟩⟩
    show KnvHt.Holds n₂.childView (ht.put n₂.childView c.ref) (n₂.childlist.map fun x => x.ref)
    rw [hs.childView, hs.map_ref]
    exact (hholds.put _ c.ref).of_perm _ (List.perm_cons_erase hmem).symm

theorem Sound.setChildMeta {n c : KnvNode} (h : Sound n) (hnum : n.child_num ≠ none)
    (hc : c ∈ n.childlist) {tag : UInt32} {val : FieldVal} (hkey : c.no_key = false → tag = 1 →
      n.child_has_key = true ∨ (KnvKey.init val).val = []) : Sound (n.setChildMeta c tag val) := by
  rw [KnvNode.setChildMeta]
  split
  · rename_i he
    rw [Bool.and_eq_true, Bool.not_eq_true', decide_eq_true_iff] at he
    obtain ⟨href, htag, hk⟩ := setOwnKey_head c val
    exact h.rekey hnum hc href htag (by rw [hk]; exact hkey he.1 he.2) _
  · cases hm : c.setMeta tag val with
    | error e => exact h
    | ok p =>
      obtain ⟨href, htag, hk⟩ := setMeta_sameFace hm
      exact (h.replaceRef hnum hc href htag (.inr (by rw [hk]))).same (sameIndex_told _ _)

/-- A removed meta leaves the key as it is, or takes it away. -/
theorem removeMetaByTag_head {c : KnvNode} {tag : UInt32} {p : KnvNode × List Int}
    (h : c.removeMetaByTag tag = .ok p) :
    p.1.ref = c.ref ∧ p.1.tag = c.tag ∧ (p.1.key = c.key ∨ p.1.key.val = []) := by
  have hdrop : ∀ {e : KnvNode} {offsets : List Int}, e.ref = c.ref ∧ e.tag = c.tag ∧
      (e.key = c.key ∨ e.key.val = []) → (dropMetas tag e offsets).1.ref = c.ref ∧
        (dropMetas tag e offsets).1.tag = c.tag ∧
        ((dropMetas tag e offsets).1.key = c.key ∨ (dropMetas tag e offsets).1.key.val = []) := by
    intro e offsets he
    rw [dropMetas]
    obtain ⟨sz, val_sz, hed⟩ := edited_eq { e with
        metalist := e.metalist.filter fun m => m.tag ≠ tag
        metas := fun t => if t = tag.toNat then none else e.metas t }
      (-(evaluateSizes (e.metalist.filter fun m => m.tag = tag) false))
    simp only [hed]
    exact he
  obtain ⟨href, htag, hk⟩ := sameFace_innerExpand c false false
  rw [removeMetaByTag_eq] at h
  generalize c.innerExpand false false = e at h href htag hk
  split at h
  · cases h
  · split at h
    · cases h
    · simp only at h
      split at h
      · cases h
        exact ⟨href, htag, .inl hk⟩
      · split at h
        · cases hc : e.clearKey with
          | error er =>
            rw [hc] at h
            cases h
          | ok q =>
            rw [hc] at h
            cases h
            refine hdrop ?_
            rw [clearKey] at hc
            cases hr : ({ e with key := KnvKey.none e.key.type } : KnvNode).innerRemoveMeta 1 with
            | error er =>
              rw [hr] at hc
              cases hc
            | ok q' =>
              rw [hr] at hc
              cases hc
              obtain ⟨href', htag', hk'⟩ := innerRemoveMeta_sameFace hr
              refine ⟨href'.trans href, htag'.trans htag, .inr ?_⟩
              show q'.1.key.val = []
              rw [hk']
              rfl
        · cases h
          exact hdrop ⟨href, htag, .inl hk⟩

theorem Sound.removeChildMeta {n c : KnvNode} (h : Sound n) (hnum : n.child_num ≠ none)
    (hc : c ∈ n.childlist) (tag : UInt32) : Sound (n.removeChildMeta c tag) := by
  rw [KnvNode.removeChildMeta]
  cases hm : c.removeMetaByTag tag with
  | error e => exact h
  | ok p =>
    obtain ⟨href, htag, hk⟩ := removeMetaByTag_head hm
    -- the keys only matter if no child has one
    have hkey : n.child_has_key = true ∨ p.1.key.val = [] ∧ c.key.val = [] := by
      refine (h hnum).2.imp_right fun hkl => ?_
      have hnil := hkl.keyless c hc
      rcases hk with hk | hk
      · rw [hk]
        exact ⟨hnil, hnil⟩
      · exact ⟨hk, hnil⟩
    simp only
    split
    · exact h.rekey hnum hc href htag (hkey.imp_right fun hn => hn.1) _
    · refine (h.replaceRef hnum hc href htag (hkey.imp_right fun hn => ?_)).same
        (sameIndex_told _ _)
      rw [hn.1, hn.2]

/-- An integer for a child. -/
theorem Sound.setChildInt {n c : KnvNode} (h : Sound n) (hnum : n.child_num ≠ none)
    (hc : c ∈ n.childlist) (i64 : UInt64) : SoundEdit (.ok (childEdited
      { n with childlist := KnvNode.replaceRef (c.setIntValue i64).1 n.childlist }
      (c.setIntValue i64).2)) := by
  rintro p ⟨⟩
  refine Sound.same ?_ (sameIndex_childEdited _ _)
  exact h.replaceRef hnum hc rfl rfl (.inr rfl)

theorem newNode_tag {t : UInt32} {val : FieldVal} {c : KnvNode} (h : newNode t none val = .ok c) :
    c.tag = t := by
  rw [newNode] at h
  by_cases h0 : t = 0
  · rw [if_pos h0] at h
    cases h
  · rw [if_neg h0] at h
    cases h
    rfl

/-- `SetChild` brings in a child only if there is none with the tag. -/
theorem Sound.setChild {n : KnvNode} (h : Sound n) (hr : Ready false n) (t : UInt32)
    (val : FieldVal) :
    SoundEdit (n.setChild t val) := by
  have hx := h.innerExpand hr
  have hnum := innerExpand_num n false false
  rw [KnvNode.setChild]
  cases hf : n.findChildByTag t with
  | none =>
    refine (h.insertChild hr fun h0 c hn => .inr (.inr ?_)).mapError _
    rw [findChildByTag_eq h0, hx.lookupChild hnum, List.find?_eq_none] at hf
    rw [newNode_tag hn]
    exact fun x hx he => hf x hx (decide_eq_true he)
  | some c =>
    have hc : c ∈ (n.innerExpand false false).childlist := by
      have h0 : n.tag ≠ 0 := by
        intro h0
        rw [findChildByTag, if_pos h0] at hf
        cases hf
      rw [findChildByTag_eq h0, hx.lookupChild hnum] at hf
      exact List.mem_of_find?_eq_some hf
    generalize n.innerExpand false false = e at hx hnum hc
    cases val with
    | string s =>
      simp only
      split
      · exact soundEdit_error _
      · rintro p ⟨⟩
        exact hx.setChildValue hnum hc s
    | varint i64 =>
      simp only
      split
      · exact soundEdit_error _
      · exact hx.setChildInt hnum hc i64
    | fixed64 i64 =>
      simp only
      split
      · exact soundEdit_error _
      · exact hx.setChildInt hnum hc i64
    | fixed32 i32 =>
      simp only
      split
      · exact soundEdit_error _
      · exact hx.setChildInt hnum hc i32.toUInt64

/-! ## Requests -/

/-- The data that a loop leaves. -/
def dataOf : Except (Int × KnvNode) Found → KnvNode
  | .ok st => st.data
  | .error e => e.2

/-- A loop over the children leaves the node with another list, in which each child is known as
    before if the visits see to it (`P`). -/
def Passed (P : Prop) (n n' : KnvNode) : Prop :=
  ∃ l, n' = { n with childlist := l } ∧ (P → Listed n → l.map ident = n.childlist.map ident)

theorem Passed.refl (P : Prop) (n : KnvNode) : Passed P n n := by
  obtain ⟨d, ms, cs⟩ := n
  exact ⟨cs, rfl, fun _ _ => rfl⟩

theorem Passed.sameIndex {P : Prop} {n n' : KnvNode} (h : Passed P n n') (hP : P) (hl : Listed n) :
    SameIndex n n' := by
  obtain ⟨l, rfl, hid⟩ := h
  exact ⟨rfl, rfl, Nat.le_refl _, hid hP hl, rfl⟩

theorem Passed.trans {P : Prop} {n n' n'' : KnvNode} (h : Passed P n n') (h' : Passed P n' n'') :
    Passed P n n'' := by
  have hs := h.sameIndex
  obtain ⟨l, rfl, hid⟩ := h
  obtain ⟨l', rfl, hid'⟩ := h'
  exact ⟨l', rfl, fun hP hl => (hid' hP ((hs hP hl).listed hl)).trans (hid hP hl)⟩

section Requests

variable (no_empty : Bool) (req_tree : KnvNode)

theorem visit_passed (get : KnvNode → SubTrees) (st : Found) (r : Nat) :
    Passed (∀ x, SameFace x (get x).1) st.data (dataOf (visit no_empty req_tree get st r)) := by
  rw [visit]
  cases hf : findRef st.data.childlist r with
  | none => exact Passed.refl _ _
  | some c =>
    have hc : c ∈ st.data.childlist := List.mem_of_find?_eq_some hf
    have hpass : Passed (∀ x, SameFace x (get x).1) st.data
        { st.data with childlist := replaceRef (get c).1 st.data.childlist } := by
      refine ⟨_, rfl, fun hP hl => map_ident_replaceRef hl.nodup hc ?_⟩
      obtain ⟨href, htag, hk⟩ := hP c
      rw [ident, ident, href, htag, hk]
    simp only
    generalize get c = q at hpass
    obtain ⟨c', res⟩ := q
    cases res with
    | error e => exact hpass
    | ok p => exact hpass

theorem visits_passed (get : KnvNode → SubTrees) (refs : List Nat) : ∀ st : Found,
    Passed (∀ x, SameFace x (get x).1) st.data
      (dataOf (refs.foldlM (visit no_empty req_tree get) st)) := by
  induction refs with
  | nil => exact fun st => Passed.refl _ _
  | cons r refs ih =>
    intro st
    have hv := visit_passed no_empty req_tree get st r
    rw [List.foldlM_cons]
    cases hq : visit no_empty req_tree get st r with
    | error e =>
      rw [hq] at hv
      exact hv
    | ok st' =>
      rw [hq] at hv
      exact hv.trans (ih st')

theorem missed_passed (P : Prop) (sub_req : KnvNode) (st : Found) :
    Passed P st.data (dataOf (missed no_empty req_tree sub_req st)) := by
  rw [missed]
  split
  · exact Passed.refl _ _
  · cases sub_req.innerDuplicate true with
    | none => exact Passed.refl _ _
    | some c => exact Passed.refl _ _

/-- The visits keep what a child is known by. -/
def KeepsHeads : Prop := ∀ (req : KnvNode) (p : Bool) (x : KnvNode),
  SameFace x (innerGetSubTree no_empty req p x).1

theorem subRequests_passed (l : List KnvNode) : ∀ st : Found,
    Passed (KeepsHeads no_empty) st.data (dataOf (subRequests no_empty req_tree l st)) := by
  induction l with
  | nil =>
    intro st
    rw [subRequests]
    exact Passed.refl _ _
  | cons sub_req l ih =>
    intro st
    rw [subRequests]
    have hv : Passed (KeepsHeads no_empty) st.data (dataOf
        (if st.data.matchRefs sub_req = [] then missed no_empty req_tree sub_req st
          else (st.data.matchRefs sub_req).foldlM (visit no_empty req_tree
            (innerGetSubTree no_empty sub_req (st.data.key.val ≠ []))) st)) := by
      split
      · exact missed_passed no_empty req_tree _ sub_req st
      · obtain ⟨l', he, hid⟩ := visits_passed no_empty req_tree
          (innerGetSubTree no_empty sub_req (st.data.key.val ≠ [])) (st.data.matchRefs sub_req) st
        exact ⟨l', he, fun hP hl => hid (hP sub_req _) hl⟩
    generalize (if st.data.matchRefs sub_req = [] then missed no_empty req_tree sub_req st
      else (st.data.matchRefs sub_req).foldlM (visit no_empty req_tree
        (innerGetSubTree no_empty sub_req (st.data.key.val ≠ []))) st) = q at hv ⊢
    cases q with
    | error e => exact hv
    | ok st' => exact hv.trans (ih st')

/-- What a request does to the data: nothing, or it is expanded and its children are visited. -/
theorem innerGetSubTree_data (p : Bool) (data : KnvNode) :
    (innerGetSubTree no_empty req_tree p data).1 = data ∨
    req_tree.child_num.getD 0 ≠ 0 ∧ Passed (KeepsHeads no_empty)
      (data.innerExpand p (!req_tree.child_has_key)) (innerGetSubTree no_empty req_tree p data).1
        := by
  obtain ⟨d, metalist, childlist⟩ := req_tree
  rw [innerGetSubTree]
  show _ ∨ d.child_num.getD 0 ≠ 0 ∧ Passed _ (data.innerExpand p (!d.child_has_key)) _
  generalize data.innerExpand p (!d.child_has_key) = e
  generalize (⟨d, metalist, childlist⟩ : KnvNode) = req
  split
  · exact .inl rfl
  · split
    · cases data.copyWithKey with
      | none => exact .inl rfl
      | some out => exact .inl rfl
    · rename_i hnum
      refine .inr ⟨hnum, ?_⟩
      simp only
      split
      · split
        · exact Passed.refl _ _
        · cases req.copyWithKey with
          | none => exact Passed.refl _ _
          | some empty => exact Passed.refl _ _
      · cases metalist.foldlM (requestMeta e) none with
        | error code => exact Passed.refl _ _
        | ok out =>
          have hp := subRequests_passed no_empty req childlist ⟨e, out, none⟩
          simp only
          generalize subRequests no_empty req childlist ⟨e, out, none⟩ = q at hp
          cases q with
          | error er => exact hp
          | ok st => exact hp

theorem keepsHeads : KeepsHeads no_empty := by
  intro req p x
  rcases innerGetSubTree_data no_empty req p x with he | ⟨_, l, he, _⟩
  · rw [he]
    exact ⟨rfl, rfl, rfl⟩
  · rw [he]
    exact sameFace_innerExpand x p _

end Requests

/-- The mode in which a request expands the data, if it does. -/
def requestMode (data req_tree : KnvNode) : Option Bool :=
  if req_tree.tag = 0 ∨
    (data.tag ≠ req_tree.tag ∨ (req_tree.key.val ≠ [] ∧ data.key ≠ req_tree.key)) ∨
    req_tree.child_num.getD 0 = 0 then none
  else some (!req_tree.child_has_key)

/-- **A request** leaves a node for which the two ways agree. -/
theorem Sound.getSubTree {n : KnvNode} (h : Sound n) (req_tree : KnvNode) (no_empty : Bool)
    (hr : ∀ k, n.requestMode req_tree = some k → Ready k n) :
    Sound (n.getSubTree req_tree no_empty).1 := by
  rw [KnvNode.getSubTree]
  split
  · exact h
  · split
    · exact h
    · rename_i h0 hmatch
      rcases innerGetSubTree_data no_empty req_tree false n with he | ⟨hnum, hp⟩
      · rw [he]
        exact h
      · have hmode : n.requestMode req_tree = some (!req_tree.child_has_key) := by
          rw [requestMode, if_neg]
          rintro (he | he | he)
          · exact h0 he
          · exact hmatch he
          · exact hnum he
        have hx := h.innerExpand (hr _ hmode)
        exact hx.same (hp.sameIndex (keepsHeads no_empty) (hx (innerExpand_num n false _)).1)

/-! ## Calls that drop the lists -/

theorem Sound.fold {n l : KnvNode} (h : Sound n) (hf : n.fold = .ok l) : Sound l := by
  rw [KnvNode.fold] at hf
  split at hf
  · cases hf
  · split at hf
    · cases hf
      exact h
    · simp only at hf
      split at hf
      · cases hf
      · split at hf
        · cases hf
        · cases hf
          exact fun hnum => absurd rfl hnum

theorem setStrValue_num (n : KnvNode) (s : List UInt8) : (n.setStrValue s).1.child_num = none := by
  rw [setStrValue]
  by_cases hnum : n.child_num = none
  · simp only [updateEvalSz, if_pos hnum]
    split_ifs
    all_goals exact hnum
  · simp only [updateEvalSz, if_neg hnum]
    split_ifs
    all_goals rfl

theorem soundEdit_setValue (n : KnvNode) (s : List UInt8) : SoundEdit (n.setValue s) := by
  rw [setValue]
  split
  · exact soundEdit_error _
  · split
    · exact soundEdit_error _
    · rintro p ⟨⟩
      exact fun hnum => absurd (setStrValue_num _ s) hnum

theorem Sound.setMetaQuiet {n n' : KnvNode} (h : Sound n) (hr : Ready false n) {tag : UInt32}
    {val : FieldVal} (he : n.setMetaQuiet tag val = .ok n') : Sound n' := by
  have hx := h.innerExpand hr
  rw [KnvNode.setMetaQuiet] at he
  split at he
  · cases he
  · split at he
    · cases he
    · split at he
      · cases he
      · generalize n.innerExpand false false = e at hx he
        simp only at he
        split at he
        · cases he
          exact hx.same (sameIndex_of_eq rfl rfl (Nat.le_succ _) rfl rfl)
        · cases he
          exact hx.same (sameIndex_of_eq rfl rfl (Nat.le_refl _) rfl rfl)

end KnvNode

/-! ## Runs -/

namespace NodeCall

/-- The mode in which a call expands the node, if it looks at the lists. -/
def mode : NodeCall → KnvNode → Option Bool
  | evaluateSize, _ => none
  | serialize, _ => none
  | duplicate, _ => none
  | getValue, _ => none
  | setValue _, _ => none
  | getSubTree req_tree _, n => n.requestMode req_tree
  | _, _ => some false

/-- The node expands well if the call expands it, and a child that comes in may do so. -/
def Safe (call : NodeCall) (n : KnvNode) : Prop :=
  (∀ k, call.mode n = some k → Ready k n) ∧
  ∀ c at_tail, call = insertChild c at_tail → MayInsert (n.innerExpand false false) c

end NodeCall

theorem SoundEdit.edit {α : Type} {n : KnvNode} {r : Except KnvError (KnvNode × α)} (h : Sound n)
    (hr : SoundEdit r) : Sound (NodeCall.edit n r).1 := by
  cases r with
  | error e => exact h
  | ok p => exact hr p rfl

theorem KnvNode.Sound.expanded {n : KnvNode} (h : Sound n) (hr : Ready false n) :
    Sound (NodeCall.expanded n) := by
  rw [NodeCall.expanded]
  split
  · exact h
  · exact h.innerExpand hr

/-- **Every call on the node itself.** -/
theorem KnvNode.Sound.exec {n : KnvNode} (h : Sound n) (call : NodeCall) (hsafe : call.Safe n) :
    Sound (call.exec n).1 := by
  obtain ⟨hr, hins⟩ := hsafe
  cases call with
  | initKey key => exact SoundEdit.edit h (h.initKey (hr false rfl) key)
  | getMeta tag =>
    rw [NodeCall.exec]
    split
    · exact h
    · exact h.expanded (hr false rfl)
  | findChildByTag tag => exact h.expanded (hr false rfl)
  | findChild tag key => exact h.expanded (hr false rfl)
  | iterate => exact h.expanded (hr false rfl)
  | evaluateSize => exact h
  | serialize => exact h
  | duplicate => exact h
  | getValue =>
    rw [NodeCall.exec]
    cases hf : n.fold with
    | error e => exact h
    | ok l => exact h.fold hf
  | getSubTree req_tree no_empty => exact h.getSubTree req_tree no_empty hr
  | setMeta tag val => exact SoundEdit.edit h (h.setMetaOrKey (hr false rfl) tag val)
  | addMeta tag val => exact SoundEdit.edit h (h.addMeta (hr false rfl) tag val)
  | removeMetaByTag tag => exact SoundEdit.edit h (h.removeMetaByTag (hr false rfl) tag)
  | setChild tag val => exact SoundEdit.edit h (h.setChild (hr false rfl) tag val)
  | removeChildrenByTag tag => exact SoundEdit.edit h (h.removeChildrenByTag (hr false rfl) tag)
  | insertChild c at_tail =>
    have hc := hins c at_tail rfl
    cases at_tail with
    | true => exact SoundEdit.edit h (h.insertNode (hr false rfl) hc)
    | false => exact SoundEdit.edit h (h.insertFront (hr false rfl) hc)
  | setValue s => exact SoundEdit.edit h (soundEdit_setValue n s)

/-- A call on the node or on one of its children, which is given by its `ref`. -/
inductive ChildCall where
  | own (call : NodeCall)
  | setMetaQuiet (tag : UInt32) (val : FieldVal)
  | insertQuiet (c : KnvNode)
  | removeChild (r : Nat)
  | setMeta (r : Nat) (tag : UInt32) (val : FieldVal)
  | removeMetaByTag (r : Nat) (tag : UInt32)
  | setValue (r : Nat) (s : List UInt8)
  /-- Anything else that is done to the child or to a node below it: the child is now `c`, and the
      node is told the offset. -/
  | below (c : KnvNode) (offset : Int)

namespace ChildCall

/-- What is done to the child with a `ref`, if there is one.  A node that is not expanded has
none. -/
def onChild (n : KnvNode) (r : Nat) (f : KnvNode → KnvNode) : KnvNode :=
  if n.child_num = none then n
  else match findRef n.childlist r with
    | none => n
    | some c => f c

/-- The node after a call. -/
def exec : ChildCall → KnvNode → KnvNode
  | own call, n => (call.exec n).1
  | setMetaQuiet tag val, n => (n.setMetaQuiet tag val).toOption.getD n
  | insertQuiet c, n => n.insertQuiet c
  | removeChild r, n => onChild n r fun _ => MysqlProxy.removeChild n r
  | setMeta r tag val, n => onChild n r fun c => n.setChildMeta c tag val
  | removeMetaByTag r tag, n => onChild n r fun c => n.removeChildMeta c tag
  | setValue r s, n => onChild n r fun c => if c.isString then (n.setChildValue c s).1 else n
  | below c' offset, n => onChild n c'.ref fun c =>
    if c'.tag = c.tag ∧ c'.key = c.key then
      (childEdited { n with childlist := replaceRef c' n.childlist } offset).1
    else n

/-- **No call brings in a second child with the same tag, or a key behind the back of the flag.** -/
def Safe : ChildCall → KnvNode → Prop
  | own call, n => call.Safe n
  | setMetaQuiet _ _, n => Ready false n
  | insertQuiet c, n => n.child_num ≠ none ∧ MayInsert n c
  | setMeta r tag val, n => ∀ c, findRef n.childlist r = some c → c.no_key = false → tag = 1 →
    n.child_has_key = true ∨ (KnvKey.init val).val = []
  | _, _ => True

/-- The node after a sequence of calls. -/
def run : List ChildCall → KnvNode → KnvNode
  | [], n => n
  | call :: calls, n => run calls (call.exec n)

/-- Every call of a sequence is safe. -/
def AllSafe : List ChildCall → KnvNode → Prop
  | [], _ => True
  | call :: calls, n => call.Safe n ∧ AllSafe calls (call.exec n)

theorem sound_onChild {n : KnvNode} (h : Sound n) (r : Nat) {f : KnvNode → KnvNode}
    (hf : n.child_num ≠ none → ∀ c, findRef n.childlist r = some c → c ∈ n.childlist →
      Sound (f c)) :
    Sound (onChild n r f) := by
  rw [onChild]
  by_cases hnum : n.child_num = none
  · rw [if_pos hnum]
    exact h
  · rw [if_neg hnum]
    cases hc : findRef n.childlist r with
    | none => exact h
    | some c => exact hf hnum c hc (List.mem_of_find?_eq_some hc)

/-- **Every call on the node or on a child.** -/
theorem sound_exec {n : KnvNode} (h : Sound n) (call : ChildCall) (hsafe : call.Safe n) :
    Sound (call.exec n) := by
  cases call with
  | own call => exact h.exec call hsafe
  | setMetaQuiet tag val =>
    rw [exec]
    cases he : n.setMetaQuiet tag val with
    | error e => exact h
    | ok n' => exact h.setMetaQuiet hsafe he
  | insertQuiet c =>
    have hx := (inserts_hangChild n c).sound hsafe.1 h hsafe.2
    exact hx.same (sameIndex_of_eq rfl rfl (Nat.le_refl _) rfl rfl)
  | removeChild r => exact sound_onChild h r fun hnum _ _ _ => h.removeChild hnum r
  | setMeta r tag val =>
    exact sound_onChild h r fun hnum c hf hc => h.setChildMeta hnum hc (hsafe c hf)
  | removeMetaByTag r tag =>
    exact sound_onChild h r fun hnum c _ hc => h.removeChildMeta hnum hc tag
  | setValue r s =>
    refine sound_onChild h r fun hnum c _ hc => ?_
    split
    · exact h.setChildValue hnum hc s
    · exact h
  | below c' offset =>
    refine sound_onChild h c'.ref fun hnum c hf hc => ?_
    have href : c'.ref = c.ref :=
      (of_decide_eq_true (List.find?_some (p := fun x : KnvNode =>
        decide (x.ref = c'.ref)) hf)).symm
    split
    · rename_i he
      exact (h.replaceRef hnum hc href he.1 (.inr (by rw [he.2]))).same (sameIndex_childEdited _ _)
    · exact h

theorem sound_run (calls : List ChildCall) : ∀ {n : KnvNode}, Sound n → AllSafe calls n →
    Sound (run calls n) := by
  induction calls with
  | nil => exact fun h _ => h
  | cons call calls ih => exact fun h hsafe => ih (sound_exec h call hsafe.1) hsafe.2

/-- A node as `InitNode` leaves it: without children, and with a new index. -/
structure Made (n : KnvNode) : Prop where
  num : n.child_num = none ∨ n.child_num = some 0
  childlist : n.childlist = []
  ht : n.ht = KnvHt.clear

/-- `InitNode` is the only way to begin, on a new object or on one from the pool. -/
theorem made_initNode (old : KnvNode) (tag : UInt32) (val : FieldVal) (update_eval : Bool)
    (field_sz : Nat) (force_no_key : Bool) :
    Made (recycled old (initNode tag val update_eval field_sz force_no_key)) := by
  refine ⟨?_, rfl, rfl⟩
  show (initNode tag val update_eval field_sz force_no_key).child_num = none ∨ _ = some 0
  rw [initNode]
  simp only
  split_ifs
  all_goals first | exact .inl rfl | exact .inr rfl

theorem made_dupEmptyNode (n : KnvNode) : Made n.dupEmptyNode := ⟨.inr rfl, rfl, rfl⟩

theorem Made.sound {n : KnvNode} (h : Made n) : Sound n := by
  intro hnum
  have hzero := h.num.resolve_left hnum
  refine ⟨⟨?_, ?_, ?_⟩, .inr ⟨?_, ?_, ?_⟩⟩
  all_goals rw [h.childlist]
  · exact hzero
  · exact fun x hx => absurd hx List.not_mem_nil
  · exact List.nodup_nil
  · exact fun x hx => absurd hx List.not_mem_nil
  · exact List.nodup_nil
  · rw [h.ht]
    exact KnvHt.holds_clear _

/-- **In a run of safe calls the index agrees with the list.**  This holds for every state in which
    the node is expanded, and for what the loop of a request passes on the way, where only the
    children change. -/
theorem run_listOrder {n : KnvNode} (hmade : Made n) {calls : List ChildCall}
    (hsafe : AllSafe calls n)
    (hnum : (run calls n).child_num ≠ none) {m : KnvNode} (hm : SameIndex (run calls n) m)
    (h0 : m.tag ≠ 0) : ListOrder m :=
  ((sound_run calls hmade.sound hsafe).same hm).listOrder h0 (by rw [hm.child_num]; exact hnum)

/-- A new tree with the tag 11. -/
def sapling : KnvNode := initNode 11 (.string []) true 0 false

/-- A leaf. -/
def leaf (tag : UInt32) (i64 : UInt64) : KnvNode := initNode tag (.varint i64) true 0 false

/-- Leaves come and go, at both ends. -/
def different : List ChildCall :=
  [own (.insertChild (leaf 12 1) true), own (.insertChild (leaf 13 2) false), removeChild 0,
    own (.insertChild (leaf 12 3) true)]

theorem run_listOrder_different : Made sapling ∧ AllSafe different sapling ∧
    ListOrder (run different sapling) := by
  have hmade : Made sapling := made_initNode sapling 11 (.string []) true 0 false
  have hins : ∀ {n c : KnvNode} {at_tail : Bool}, n.child_num ≠ none → MayInsert n c →
      (NodeCall.insertChild c at_tail).Safe n := by
    intro n c at_tail hnum hc
    refine ⟨fun _ _ he => absurd he hnum, fun _ _ he => ?_⟩
    cases he
    rw [innerExpand_expanded hnum]
    exact hc
  have hsafe : AllSafe different sapling := by
    refine ⟨hins ?_ (.inr (.inr ?_)), hins ?_ (.inr (.inr ?_)), trivial, hins ?_ (.inr (.inr ?_)),
      trivial⟩
    all_goals decide +kernel
  exact ⟨hmade, hsafe, run_listOrder hmade hsafe (by decide +kernel)
    (sameIndex_of_eq rfl rfl (Nat.le_refl _) rfl rfl) (by decide +kernel)⟩

/-- Two leaves with the same tag. -/
def twins : List ChildCall :=
  [own (.insertChild (leaf 12 1) true), own (.insertChild (leaf 12 2) true)]

/-- A child that gets its key when it is in the list already. -/
def keyed : List ChildCall :=
  [own (.insertChild (initNode 12 (.string []) true 0 false) true), setMeta 0 1 (.varint 7)]

/-- Of two leaves the second one is found, and the child with the key is not found at all. -/
theorem index_differs : ¬ ListOrder (run twins sapling) ∧ ¬ ListOrder (run keyed sapling) := by
  constructor
  · intro h
    have hval := congrArg (Option.map fun c : KnvNode => c.val) (h.1 12)
    revert hval
    decide +kernel
  · intro h
    have hval := congrArg (Option.map fun c : KnvNode => c.val) (h.1 12)
    revert hval
    decide +kernel

end ChildCall

end MysqlProxy
