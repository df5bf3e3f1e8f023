/-
  Nodes that are only looked at.

  A read expands nodes on its way, and that is all it does to them.  `Expands` is one such step: some
  node of the tree, a meta or a child at any depth, is expanded, in any mode.

  * `Everywhere P n`: the node `n` and all nodes below it are `P`.
  * `Everywhere.expands`: what holds of a node when it is expanded, and of the nodes this makes, stays
    true of the whole tree.
-/
import MysqlProxy.Knv.Opened

namespace MysqlProxy

namespace KnvNode

/-- **One expansion**, of the node itself or of a node below it. -/
inductive Expands : KnvNode → KnvNode → Prop
  | here {n : KnvNode} (p k : Bool) : Expands n (n.innerExpand p k)
  | inMeta {n m m' : KnvNode} {l r : List KnvNode} : n.metalist = l ++ m :: r → Expands m m' →
    Expands n { n with metalist := l ++ m' :: r }
  | inChild {n c c' : KnvNode} {l r : List KnvNode} : n.childlist = l ++ c :: r → Expands c c' →
    Expands n { n with childlist := l ++ c' :: r }

/-- The node and all nodes below it. -/
inductive Everywhere (P : KnvNode → Prop) : KnvNode → Prop
  | intro {n : KnvNode} : P n → (∀ m ∈ n.metalist, Everywhere P m) →
    (∀ c ∈ n.childlist, Everywhere P c) → Everywhere P n

variable {P : KnvNode → Prop}

theorem Everywhere.self {n : KnvNode} (h : Everywhere P n) : P n := by
  cases h with
  | intro hn _ _ => exact hn

theorem Everywhere.inside {x n : KnvNode} (hx : Inside x n) : Everywhere P n → Everywhere P x := by
  induction hx with
  | self => exact id
  | metas hm _ ih =>
    rintro ⟨_, hms, _⟩
    exact ih (hms _ hm)
  | children hc _ ih =>
    rintro ⟨_, _, hcs⟩
    exact ih (hcs _ hc)

theorem everywhere_of_flat {n : KnvNode} (h : P n) (hm : n.metalist = []) (hc : n.childlist = []) :
    Everywhere P n := by
  refine .intro h ?_ ?_
  · rw [hm]
    exact fun m hm => absurd hm List.not_mem_nil
  · rw [hc]
    exact fun c hc => absurd hc List.not_mem_nil

/-- What a property has to do so that reads keep it. -/
structure Lasting (P : KnvNode → Prop) : Prop where
  /-- A node that is expanded keeps it, and the new nodes have it. -/
  expand : ∀ (n : KnvNode) (p k : Bool), P n → n.child_num = none → P (n.innerExpand p k) ∧
    ∀ m ∈ (n.innerExpand p k).metalist ++ (n.innerExpand p k).childlist, Everywhere P m
  /-- It does not look into the lists. -/
  lists : ∀ (n : KnvNode) (ms cs : List KnvNode), P n → (ms = [] ↔ n.metalist = []) →
    P { n with metalist := ms, childlist := cs }

theorem Everywhere.replaced {l r : List KnvNode} {m m' : KnvNode}
    (h : ∀ x ∈ l ++ m :: r, Everywhere P x) (hm : Everywhere P m') :
    ∀ x ∈ l ++ m' :: r, Everywhere P x := by
  intro x hx
  rcases List.mem_append.mp hx with hx | hx
  · exact h x (List.mem_append_left _ hx)
  · rcases List.mem_cons.mp hx with rfl | hx
    · exact hm
    · exact h x (List.mem_append_right _ (List.mem_cons_of_mem _ hx))

/-- **A read keeps it.** -/
theorem Everywhere.expands (hP : Lasting P) {n n' : KnvNode} (hx : Expands n n') :
    Everywhere P n → Everywhere P n' := by
  induction hx with
  | @here n p k =>
    intro h
    by_cases hnum : n.child_num = none
    · obtain ⟨hn, hnew⟩ := hP.expand n p k h.self hnum
      exact .intro hn (fun m hm => hnew m (List.mem_append_left _ hm))
        fun c hc => hnew c (List.mem_append_right _ hc)
    · rw [innerExpand_expanded hnum]
      exact h
  | @inMeta n m m' l r hl _ ih =>
    rintro ⟨hn, hms, hcs⟩
    have hm' := ih (hms m (by rw [hl]; exact List.mem_append_right _ List.mem_cons_self))
    rw [hl] at hms
    refine .intro (hP.lists n _ n.childlist hn ?_) (Everywhere.replaced hms hm') hcs
    rw [hl]
    simp
  | @inChild n c c' l r hl _ ih =>
    rintro ⟨hn, hms, hcs⟩
    have hc' := ih (hcs c (by rw [hl]; exact List.mem_append_right _ List.mem_cons_self))
    rw [hl] at hcs
    exact .intro (hP.lists n n.metalist _ hn Iff.rfl) hms (Everywhere.replaced hcs hc')

/-! ## What comes into the lists -/

/-- Each round puts one node behind one of the lists. -/
theorem expandFields_lists (k : Bool) (fs : List (PbField × Nat)) : ∀ n : KnvNode, ∃ ms cs,
    (fs.foldl (expandField k) n).metalist = n.metalist ++ ms ∧
    (fs.foldl (expandField k) n).childlist = n.childlist ++ cs ∧
    List.Forall₂ (OfField true) ms (fs.filter isMeta) ∧
    List.Forall₂ (OfField k) cs (fs.filter (!isMeta ·)) := by
  induction fs with
  | nil => exact fun n => ⟨[], [], (List.append_nil _).symm, (List.append_nil _).symm, .nil, .nil⟩
  | cons f fs ih =>
    intro n
    obtain ⟨ms, cs, hm, hc, hms, hcs⟩ := ih (expandField k n f)
    rw [List.foldl_cons, hm, hc]
    by_cases hf : isMeta f = true
    · have hx : expandField k n f = n.hangMeta (initNode f.1.tag f.1.val true f.2 true) false :=
        if_pos (of_decide_eq_true hf)
      refine ⟨{ initNode f.1.tag f.1.val true f.2 true with ref := n.next_ref } :: ms, cs, ?_, ?_, ?_, ?_⟩
      · rw [hx]
        exact List.append_assoc n.metalist [_] ms
      · rw [hx]
        rfl
      · rw [List.filter_cons_of_pos hf]
        exact .cons ⟨n.next_ref, rfl⟩ hms
      · rw [List.filter_cons_of_neg (by rw [hf]; exact Bool.false_ne_true)]
        exact hcs
    · have hx : expandField k n f = n.hangChild (initNode f.1.tag f.1.val true f.2 k) :=
        if_neg fun h => hf (decide_eq_true h)
      refine ⟨ms, { initNode f.1.tag f.1.val true f.2 k with ref := n.next_ref } :: cs, ?_, ?_, ?_, ?_⟩
      · rw [hx]
        rfl
      · rw [hx]
        exact List.append_assoc n.childlist [_] cs
      · rw [List.filter_cons_of_neg hf]
        exact hms
      · rw [List.filter_cons_of_pos (by rw [Bool.eq_false_of_not_eq_true hf]; rfl)]
        exact .cons ⟨n.next_ref, rfl⟩ hcs

/-- The lists are the fields of the value. -/
structure Unfolded (no_key : Bool) (n : KnvNode) (fs : List (PbField × Nat)) : Prop where
  fields : pbFields n.str = some (fs, true)
  metalist : List.Forall₂ (OfField true) n.metalist (fs.filter isMeta)
  childlist : List.Forall₂ (OfField no_key) n.childlist (fs.filter (!isMeta ·))
  clean : n.subnode_dirty = false

/-- **A node is expanded to nothing or to its fields.** -/
theorem innerExpand_lists {n : KnvNode} (hnum : n.child_num = none) (p k : Bool) :
    ((n.innerExpand p k).child_num = some 0 ∧ (n.innerExpand p k).metalist = [] ∧
      (n.innerExpand p k).childlist = []) ∨ ∃ fs, Unfolded k (n.innerExpand p k) fs := by
  have hstr : (n.innerExpand p k).str = n.str := by
    have h := innerExpand_head n p k
    simp only [head, Prod.mk.injEq] at h
    rw [str, str, h.2.2.1]
  rw [innerExpand_none hnum] at hstr ⊢
  generalize hn : ({ n.initChildList (some 0) with child_has_key := false } : KnvNode) = n₁ at hstr ⊢
  have hempty : n₁.child_num = some 0 ∧ n₁.metalist = [] ∧ n₁.childlist = [] := by
    rw [← hn]
    exact ⟨rfl, rfl, rfl⟩
  have hval : n₁.str = n.str := by
    rw [← hn]
    rfl
  unfold expandTail at hstr ⊢
  split
  · exact .inl hempty
  · split
    · exact .inl hempty
    · split
      · exact .inl hempty
      · rename_i fs eom hf
        simp only at hstr ⊢
        split
        · rename_i heom
          obtain ⟨ms, cs, hm, hc, hms, hcs⟩ := expandFields_lists k fs n₁
          rw [hempty.2.1, List.nil_append] at hm
          rw [hempty.2.2, List.nil_append] at hc
          refine .inr ⟨fs, ?_, ?_, ?_, rfl⟩
          · have hsame := head_expandFields (k := k) fs n₁
            simp only [head, Prod.mk.injEq] at hsame
            show pbFields (fs.foldl (expandField k) n₁).str = _
            rw [str, hsame.2.2.1]
            rw [heom] at hf
            exact hf
          · show List.Forall₂ _ (fs.foldl (expandField k) n₁).metalist _
            rw [hm]
            exact hms
          · show List.Forall₂ _ (fs.foldl (expandField k) n₁).childlist _
            rw [hc]
            exact hcs
        · exact .inl ⟨rfl, rfl, rfl⟩

/-- The nodes that come in when a node is expanded are those of its fields. -/
theorem mem_innerExpand {n m : KnvNode} {p k : Bool} (hnum : n.child_num = none)
    (hm : m ∈ (n.innerExpand p k).metalist ++ (n.innerExpand p k).childlist) :
    ∃ fs q b, pbFields n.str = some (fs, true) ∧ q ∈ fs ∧ OfField b m q := by
  have hhead := innerExpand_head n p k
  simp only [head, Prod.mk.injEq] at hhead
  have hstr : (n.innerExpand p k).str = n.str := by rw [str, str, hhead.2.2.1]
  rcases innerExpand_lists hnum p k with ⟨-, hms, hcs⟩ | ⟨fs, h⟩
  · rw [hms, hcs] at hm
    exact absurd hm List.not_mem_nil
  · have hfs := h.fields
    rw [hstr] at hfs
    rcases List.mem_append.mp hm with hm | hm
    · obtain ⟨q, hq, ho⟩ := forall₂_mem h.metalist hm
      exact ⟨fs, q, true, hfs, List.mem_of_mem_filter hq, ho⟩
    · obtain ⟨q, hq, ho⟩ := forall₂_mem h.childlist hm
      exact ⟨fs, q, k, hfs, List.mem_of_mem_filter hq, ho⟩

/-- A node of a field is written from its value, and not expanded. -/
theorem OfField.fresh {b : Bool} {m : KnvNode} {q : PbField × Nat} (h : OfField b m q) :
    m.isFolded = true ∧ m.tag = q.1.tag ∧ m.val = q.1.val ∧ m.metalist = [] ∧ m.childlist = [] ∧
      (0 < q.2 → m.eval_sz = q.2) := by
  obtain ⟨r, rfl⟩ := h
  refine ⟨?_, rfl, rfl, rfl, rfl, fun hpos => ?_⟩
  · exact isFolded_of_isFlat (isFlat_of_nothing (initNode_child_num q.1.tag q.1.val q.2 b) rfl)
  · show (if true = true then (if 0 < q.2 then (q.2 : Int) else _) else 0) = _
    rw [if_pos rfl, if_pos hpos]

/-! ## Reads and what is written -/

theorem SameWriting.refl (n : KnvNode) : SameWriting n n := ⟨rfl, fun _ _ => rfl⟩

theorem SameWriting.trans {n m o : KnvNode} (h : SameWriting n m) (h' : SameWriting m o) :
    SameWriting n o :=
  ⟨h'.1.trans h.1, fun len header => (h'.2 len header).trans (h.2 len header)⟩

theorem SameWriting.serializeString {n n' : KnvNode} (h : SameWriting n n') :
    n'.serializeString = n.serializeString := by
  rw [KnvNode.serializeString, KnvNode.serializeString, h.1, h.2]

/-- A node with metas that are written alike, under the same tags. -/
theorem sameWriting_withMetas (n : KnvNode) {l : List KnvNode}
    (h : List.Forall₂ (fun m m' => SameWriting m m' ∧ m'.tag = m.tag) n.metalist l) :
    SameWriting n { n with metalist := l } := by
  have halike := h.imp fun _ _ hm => hm.1
  obtain ⟨d, ms, cs⟩ := n
  have hempty : l.isEmpty = ms.isEmpty := by
    cases h with
    | nil => rfl
    | cons _ _ => rfl
  have hfold : isFolded ⟨d, l, cs⟩ = isFolded ⟨d, ms, cs⟩ := by
    rw [isFolded, isFolded, isFlat, isFlat]
    show (_ || _ || (_ && l.isEmpty) || _) = (_ || _ || (_ && ms.isEmpty) || _)
    rw [hempty]
    rfl
  have hfirst : firstIsKey l = firstIsKey ms := by
    cases h with
    | nil => rfl
    | cons hm _ => rw [firstIsKey, firstIsKey, hm.2]
  have hskip : skipsFirst ⟨d, l, cs⟩ = skipsFirst ⟨d, ms, cs⟩ := by
    rw [skipsFirst, skipsFirst]
    show (_ && firstIsKey l) = (_ && firstIsKey ms)
    rw [hfirst]
    rfl
  have hsz : evaluateSize ⟨d, l, cs⟩ = evaluateSize ⟨d, ms, cs⟩ := by
    rw [evaluateSize, evaluateSize, evaluateSizes_alike halike]
    simp only [hfold, hskip]
    rfl
  refine ⟨hsz, fun len header => ?_⟩
  show serialize ⟨d, l, cs⟩ len header = serialize ⟨d, ms, cs⟩ len header
  rw [serialize, serialize, hsz]
  simp only [hfold, hskip, serializeList_alike halike]
  rfl

theorem forall₂_replaced {R : KnvNode → KnvNode → Prop} (hrefl : ∀ m, R m m) {m m' : KnvNode}
    (h : R m m') (l r : List KnvNode) : List.Forall₂ R (l ++ m :: r) (l ++ m' :: r) :=
  List.rel_append (List.forall₂_same.mpr fun x _ => hrefl x)
    (.cons h (List.forall₂_same.mpr fun x _ => hrefl x))

/-- **A node that is expanded somewhere is written as before**, and looks the same from outside. -/
theorem Expands.same {n n' : KnvNode} (h : Expands n n') : SameWriting n n' ∧ n'.head = n.head := by
  have htag : ∀ {m m' : KnvNode}, m'.head = m.head → m'.tag = m.tag := by
    intro m m' hh
    simp only [head, Prod.mk.injEq] at hh
    exact hh.2.1
  induction h with
  | @here n p k =>
    refine ⟨?_, innerExpand_head n p k⟩
    by_cases hnum : n.child_num = none
    · exact sameWriting_of_folded (isFolded_of_isFlat (by rw [isFlat, hnum]; simp))
        (isFolded_innerExpand hnum p k) (innerExpand_head n p k)
    · rw [innerExpand_expanded hnum]
      exact SameWriting.refl n
  | @inMeta n m m' l r hl _ ih =>
    refine ⟨sameWriting_withMetas n ?_, rfl⟩
    rw [hl]
    exact forall₂_replaced (fun m => ⟨SameWriting.refl m, rfl⟩) ⟨ih.1, htag ih.2⟩ l r
  | @inChild n c c' l r hl _ ih =>
    refine ⟨sameWriting_withChildren n ?_, rfl⟩
    rw [hl]
    exact forall₂_replaced SameWriting.refl ih.1 l r

end KnvNode

end MysqlProxy
