/-
  Edits of a tree under construction.

  `Refines f e` says that the edit `f` of a node in memory does what the edit `e` does to the tree that
  is meant, and that the offsets it hands on to the parents add up to the difference the node's field
  makes on the wire.  Every edit of the builder refines its counterpart: insertions, metas, and
  removals of any field but the key.

  `means_editAt` lifts this to any depth.  One level up, the rounds of
  `UpdateParentEvalueAndSetDirty` turn the difference a child makes into the difference the parent
  makes (`means_parentRounds`); the induction is on the path.
-/
import MysqlProxy.Knv.Tree

namespace MysqlProxy

namespace KnvNode

/-! ## Edits of one node -/

/-- The edit `f` of a node does what the edit `e` does to the tree, and the offsets it hands on are the
    difference the tree's field makes. -/
def Refines (f : KnvNode → Except KnvError (KnvNode × List Int)) (e : Tree → Option Tree) : Prop :=
  ∀ n t t', Means n t → e t = some t' → ∃ n' offsets, f n = .ok (n', offsets) ∧ Means n' t' ∧
    offsets.sum = (t'.field.size : Int) - t.field.size

theorem Tree.size_node (tag : UInt32) (key : Option FieldVal) (ms : List PbField) (ts : List Tree) :
    (Tree.node tag key ms ts).field.size = pbEvalStringLength tag
      (messageBytes (Tree.keyFields key ++ ms ++ ts.map Tree.field)).length := by
  rw [Tree.field, Tree.fieldList_eq]
  rfl

/-- **The end of an edit**: the lists have changed, the sizes are brought up to date by the offset. -/
theorem trunk_edited {n : KnvNode} {t : UInt32} {k : Option FieldVal} {ms cs : List PbField}
    (h : Branch n t k ms cs) {old : Nat} {offset : Int} (hv : n.eval_val_sz = old)
    (hs : n.eval_sz = pbEvalStringLength t old)
    (hnew : (old : Int) + offset = (messageBytes (Tree.keyFields k ++ ms ++ cs)).length) :
    Trunk (edited n offset).1 t k ms cs ∧ (edited n offset).1.childlist = n.childlist ∧
      (edited n offset).2 = (pbEvalStringLength t
        (messageBytes (Tree.keyFields k ++ ms ++ cs)).length : Int) - pbEvalStringLength t old := by
  unfold edited
  rw [if_pos (by rw [hs]; omega)]
  by_cases h0 : offset = 0
  · subst h0
    have hlen : old = (messageBytes (Tree.keyFields k ++ ms ++ cs)).length := by omega
    rw [updateEvalSz, if_pos rfl]
    refine ⟨⟨⟨h.tag, h.tag_ne, h.no_key, h.child_num, h.key, h.key_ok, h.metalist,
      ⟨h.metas.known, h.metas.complete⟩⟩, rfl, ?_, ?_⟩, rfl, ?_⟩
    · rw [← hlen]
      exact hv
    · rw [← hlen]
      exact hs
    · rw [← hlen]
      exact (Int.sub_self _).symm
  · have hval : n.eval_val_sz + offset =
        ((messageBytes (Tree.keyFields k ++ ms ++ cs)).length : Int) := by rw [hv]; exact hnew
    rw [updateEvalSz, if_neg h0]
    refine ⟨⟨⟨h.tag, h.tag_ne, h.no_key, h.child_num, h.key, h.key_ok, h.metalist,
      ⟨h.metas.known, h.metas.complete⟩⟩, rfl, hval, ?_⟩, rfl, ?_⟩
    · show ((pbEvalStringLength n.tag (n.eval_val_sz + offset).toNat : Nat) : Int) = _
      rw [hval, h.tag]
      rfl
    · show ((pbEvalStringLength n.tag (n.eval_val_sz + offset).toNat : Nat) : Int) - n.eval_sz = _
      rw [hval, h.tag, hs]
      rfl

theorem Leaf.with_ref {n : KnvNode} {f : PbField} (h : Leaf n f) (r : Nat) :
    Leaf { n with ref := r } f :=
  ⟨h.toStands.with_ref r, h.tag_ne, h.metalist, h.childlist⟩

theorem Means.with_ref {n : KnvNode} {t : Tree} (h : Means n t) (r : Nat) :
    Means { n with ref := r } t := by
  cases h with
  | leaf h => exact .leaf (h.with_ref r)
  | node ht hlen hall =>
    exact .node ⟨⟨ht.tag, ht.tag_ne, ht.no_key, ht.child_num, ht.key, ht.key_ok, ht.metalist,
      ⟨ht.metas.known, ht.metas.complete⟩⟩, ht.val, ht.val_sz, ht.sz⟩ hlen hall

/-- A new node is a leaf. -/
theorem initNode_leaf {f : PbField} (htag : f.tag ≠ 0) (no_key : Bool) :
    Leaf (initNode f.tag f.val true 0 no_key) f :=
  ⟨initNode_stands f (.inl rfl) no_key, htag, rfl, rfl⟩

/-- The length of the value of a node. -/
def valLen (key : Option FieldVal) (ms : List PbField) (ts : List Tree) : Nat :=
  (messageBytes (Tree.keyFields key ++ ms ++ ts.map Tree.field)).length

/-- An edit that ends with `edited`: the lists are those of the new tree, and the offset is the
    difference in length. -/
theorem means_edited {n n₁ : KnvNode} {tag : UInt32} {key : Option FieldVal} {ms ms' : List PbField}
    {ts ts' : List Tree} (h : Trunk n tag key ms (ts.map Tree.field))
    (h₁ : Branch n₁ tag key ms' (ts'.map Tree.field)) (hch : List.Forall₂ Means n₁.childlist ts')
    (hv : n₁.eval_val_sz = n.eval_val_sz) (hs : n₁.eval_sz = n.eval_sz) {offset : Int}
    (hoff : (valLen key ms ts : Int) + offset = valLen key ms' ts') :
    Means (edited n₁ offset).1 (.node tag key ms' ts') ∧
      [(edited n₁ offset).2].sum = ((Tree.node tag key ms' ts').field.size : Int) -
        (Tree.node tag key ms ts).field.size := by
  obtain ⟨htr, hlist, hdiff⟩ := trunk_edited h₁ (hv.trans h.val_sz) (hs.trans h.sz) hoff
  refine ⟨means_node.mpr ⟨htr, by rw [hlist]; exact hch⟩, ?_⟩
  rw [List.sum_singleton, hdiff, Tree.size_node, Tree.size_node]

/-- A child is appended. -/
theorem Branch.hangChild {n c : KnvNode} {t : UInt32} {k : Option FieldVal} {ms cs : List PbField}
    (h : Branch n t k ms cs) (f : PbField) : Branch (n.hangChild c) t k ms (cs ++ [f]) where
  tag := h.tag
  tag_ne := h.tag_ne
  no_key := h.no_key
  child_num := by
    show n.child_num.map (· + 1) = _
    rw [h.child_num, List.length_append]
    rfl
  key := h.key
  key_ok := h.key_ok
  metalist := h.metalist
  metas := ⟨h.metas.known, h.metas.complete⟩

/-- **A node is inserted as the last child.** -/
theorem refines_insertNode {c : KnvNode} {tc : Tree} (hc : Means c tc) :
    Refines (fun n => n.insertNode c) (Tree.insert tc) := by
  intro n t t' hn ht
  cases t with
  | leaf f => cases ht
  | node tag key ms ts =>
    cases ht
    obtain ⟨htr, hch⟩ := means_node.mp hn
    have hbr : Branch (n.hangChild c) tag key ms ((ts ++ [tc]).map Tree.field) := by
      rw [List.map_append]
      exact htr.toBranch.hangChild tc.field
    have hlen : (valLen key ms ts : Int) + (evaluateSize c).1 = valLen key ms (ts ++ [tc]) := by
      unfold valLen
      rw [hc.writes.size, List.map_append, ← List.append_assoc, messageBytes_append _ (List.map _ [tc]),
        List.length_append, length_messageBytes (List.map _ [tc])]
      simp
    obtain ⟨hm, hsum⟩ := means_edited htr hbr
      (List.rel_append hch (.cons (hc.with_ref n.next_ref) .nil)) rfl rfl hlen
    refine ⟨_, _, ?_, hm, hsum⟩
    show n.insertNode c = .ok (_, _)
    unfold insertNode
    rw [if_neg (by rw [htr.tag]; exact htr.tag_ne), if_neg (by rw [htr.isString]; decide),
      htr.innerExpand]

/-! ### Metas -/

/-- `GetMeta` finds a meta with a tag if there is one. -/
theorem MetasOk.lookup {n : KnvNode} (h : MetasOk n) (t : Nat) :
    n.lookupMeta t = none ↔ ∀ m ∈ n.metalist, m.tag.toNat ≠ t := by
  unfold lookupMeta
  by_cases hnil : n.metalist = []
  · rw [if_pos hnil, hnil]
    exact ⟨fun _ m hm => absurd hm List.not_mem_nil, fun _ => rfl⟩
  · rw [if_neg hnil]
    cases hr : n.metas t with
    | none => exact ⟨fun _ => h.complete hnil t hr, fun _ => rfl⟩
    | some r =>
      obtain ⟨m, hm, href, htag⟩ := h.known hnil t r hr
      constructor
      · intro hfind
        rw [Option.bind_some, findRef, List.find?_eq_none] at hfind
        exact absurd (decide_eq_true href) (hfind m hm)
      · exact fun hall => absurd htag (hall m hm)

/-- The same, for the slot. -/
theorem MetasOk.slot {n : KnvNode} (h : MetasOk n) (t : Nat) :
    n.metalist = [] ∨ n.metas t = none ↔ ∀ m ∈ n.metalist, m.tag.toNat ≠ t := by
  constructor
  · rintro (hnil | hnone) m hm
    · rw [hnil] at hm
      exact absurd hm List.not_mem_nil
    · exact h.complete (List.ne_nil_of_mem hm) t hnone m hm
  · intro hall
    by_cases hnil : n.metalist = []
    · exact .inl hnil
    · right
      cases hr : n.metas t with
      | none => rfl
      | some r =>
        obtain ⟨m, hm, _, htag⟩ := h.known hnil t r hr
        exact absurd htag (hall m hm)

/-- Related lists: what holds of all of one holds of all of the other. -/
theorem forall₂_forall {α β : Type*} {R : α → β → Prop} {P : α → Prop} {Q : β → Prop}
    (hpq : ∀ a b, R a b → (P a ↔ Q b)) {l : List α} {l' : List β} (h : List.Forall₂ R l l') :
    (∀ a ∈ l, P a) ↔ ∀ b ∈ l', Q b := by
  induction h with
  | nil => simp
  | @cons a b l l' hab _ ih => rw [List.forall_mem_cons, List.forall_mem_cons, hpq a b hab, ih]

theorem Branch.no_meta_iff {n : KnvNode} {t : UInt32} {k : Option FieldVal} {ms cs : List PbField}
    (h : Branch n t k ms cs) {tag : UInt32} (htag : tag ≠ 1) :
    (∀ m ∈ n.metalist, m.tag.toNat ≠ tag.toNat) ↔ ∀ f ∈ ms, f.tag ≠ tag := by
  have hall := forall₂_forall (P := fun m => m.tag.toNat ≠ tag.toNat) (Q := fun f => f.tag ≠ tag)
    (fun m f (hm : Leaf m f) => by rw [hm.tag, Ne, UInt32.toNat_inj]) h.metalist
  rw [hall, List.forall_mem_append]
  refine ⟨fun h => h.2, fun hms => ⟨?_, hms⟩⟩
  cases k with
  | none => exact fun f hf => absurd hf List.not_mem_nil
  | some v =>
    intro f hf
    rw [List.mem_singleton.mp hf]
    exact fun he => htag he.symm

theorem Trunk.getMeta {n : KnvNode} {t : UInt32} {k : Option FieldVal} {ms cs : List PbField}
    (h : Trunk n t k ms cs) {tag : UInt32} (hle : tag.toNat ≤ UC_MAX_META_NUM) (htag : tag ≠ 1) :
    n.getMeta tag = none ↔ ∀ f ∈ ms, f.tag ≠ tag := by
  rw [getMeta_eq (by rw [h.tag]; exact h.tag_ne) hle, h.innerExpand, h.metas.lookup,
    h.toBranch.no_meta_iff htag]

/-- A meta at the end of the list, which `metas` may know or not. -/
theorem Branch.addMeta {n n' m : KnvNode} {t : UInt32} {k : Option FieldVal} {ms cs : List PbField}
    {f : PbField} (h : Branch n t k ms cs) (hmetas : MetasOk n') (hm : Leaf m f)
    (hn' : n'.tag = n.tag ∧ n'.no_key = n.no_key ∧ n'.child_num = n.child_num ∧ n'.key = n.key)
    (hlist : n'.metalist = n.metalist ++ [m]) : Branch n' t k (ms ++ [f]) cs where
  tag := hn'.1.trans h.tag
  tag_ne := h.tag_ne
  no_key := hn'.2.1.trans h.no_key
  child_num := hn'.2.2.1.trans h.child_num
  key := hn'.2.2.2.trans h.key
  key_ok := h.key_ok
  metalist := by
    rw [hlist, ← List.append_assoc]
    exact List.rel_append h.metalist (.cons hm .nil)
  metas := hmetas

theorem mem_hangMeta {n m x : KnvNode} {front : Bool} :
    x ∈ (n.hangMeta m front).metalist ↔ x = { m with ref := n.next_ref } ∨ x ∈ n.metalist := by
  cases front with
  | true => exact List.mem_cons
  | false =>
    show x ∈ n.metalist ++ [_] ↔ _
    rw [List.mem_append, List.mem_singleton, or_comm]

/-- `metas` after a meta was hung in. -/
theorem MetasOk.hangMeta {n : KnvNode} (h : MetasOk n) (m : KnvNode) (front : Bool) :
    MetasOk (n.hangMeta m front) := by
  have hmetas : ∀ t, (n.hangMeta m front).metas t = if t = m.tag.toNat then some n.next_ref
      else if n.metalist = [] then none else n.metas t := fun _ => rfl
  constructor
  · intro _ t r hr
    rw [hmetas] at hr
    by_cases ht : t = m.tag.toNat
    · rw [if_pos ht] at hr
      cases hr
      exact ⟨_, mem_hangMeta.mpr (.inl rfl), rfl, ht.symm⟩
    · rw [if_neg ht] at hr
      by_cases hnil : n.metalist = []
      · rw [if_pos hnil] at hr
        cases hr
      · rw [if_neg hnil] at hr
        obtain ⟨x, hx, hxr⟩ := h.known hnil t r hr
        exact ⟨x, mem_hangMeta.mpr (.inr hx), hxr⟩
  · intro _ t ht x hx
    rw [hmetas] at ht
    have hne : ¬ t = m.tag.toNat := by
      intro he
      rw [if_pos he] at ht
      cases ht
    rw [if_neg hne] at ht
    rcases mem_hangMeta.mp hx with rfl | hx
    · exact fun he => hne he.symm
    · rw [if_neg (List.ne_nil_of_mem hx)] at ht
      exact h.complete (List.ne_nil_of_mem hx) t ht x hx

/-- The length with a meta more. -/
theorem valLen_addMeta (key : Option FieldVal) (ms : List PbField) (ts : List Tree) (f : PbField) :
    (valLen key ms ts : Int) + f.size = valLen key (ms ++ [f]) ts := by
  unfold valLen
  simp only [messageBytes_append, List.length_append, length_messageBytes [f]]
  simp
  omega

/-- The metas a builder adds: no keys. -/
def MetaTag (t : UInt32) : Prop := t ≠ 0 ∧ t ≠ 1 ∧ t.toNat ≤ UC_MAX_META_NUM

/-- A new meta is set. -/
theorem means_setMeta {n : KnvNode} {tag : UInt32} {key : Option FieldVal} {ms : List PbField}
    {ts : List Tree} (h : Means n (.node tag key ms ts)) {f : PbField} (hf : MetaTag f.tag)
    (hnew : ∀ g ∈ ms, g.tag ≠ f.tag) : ∃ n' offsets,
      once (n.setMetaOrKey f.tag f.val) = .ok (n', offsets) ∧ Means n' (.node tag key (ms ++ [f]) ts) ∧
      offsets.sum = ((Tree.node tag key (ms ++ [f]) ts).field.size : Int) -
        (Tree.node tag key ms ts).field.size := by
  obtain ⟨htr, hch⟩ := means_node.mp h
  have hleaf := (initNode_leaf hf.1 true).with_ref n.next_ref
  have hbr : Branch (n.hangMeta (initNode f.tag f.val true 0 true) false) tag key (ms ++ [f])
      (ts.map Tree.field) :=
    htr.toBranch.addMeta (htr.metas.hangMeta _ false) hleaf ⟨rfl, rfl, rfl, rfl⟩ rfl
  obtain ⟨hm, hsum⟩ := means_edited htr hbr hch rfl rfl (valLen_addMeta key ms ts f)
  refine ⟨_, _, ?_, hm, hsum⟩
  have hset := setMeta_new (by rw [htr.tag]; exact htr.tag_ne) htr.isString
    (htr.innerExpand false false) hf.2.2 ((htr.getMeta hf.2.2 hf.2.1).mpr hnew)
  rw [decide_eq_false hf.2.1] at hset
  unfold setMetaOrKey
  rw [if_neg (by simp [hf.2.1]), hset]
  rfl

end KnvNode

/-- A meta with a tag that is not there yet. -/
def Tree.setMeta (f : PbField) : Tree → Option Tree
  | .leaf _ => none
  | .node tag key ms ts => if ∀ g ∈ ms, g.tag ≠ f.tag then some (.node tag key (ms ++ [f]) ts) else none

namespace KnvNode

/-- **`SetMeta` of a tag that is not there appends a meta.** -/
theorem refines_setMeta {f : PbField} (hf : MetaTag f.tag) :
    Refines (fun n => once (n.setMetaOrKey f.tag f.val)) (Tree.setMeta f) := by
  intro n t t' hn ht
  cases t with
  | leaf g => cases ht
  | node tag key ms ts =>
    rw [Tree.setMeta] at ht
    split at ht
    · cases ht
      exact means_setMeta hn hf ‹_›
    · cases ht

/-- **`AddMeta` appends a meta**, whether there is one with the tag or not. -/
theorem refines_addMeta {f : PbField} (hf : MetaTag f.tag) :
    Refines (fun n => n.addMeta f.tag f.val) (Tree.addMeta f) := by
  intro n t t' hn ht
  cases t with
  | leaf g => cases ht
  | node tag key ms ts =>
    cases ht
    obtain ⟨htr, hch⟩ := means_node.mp hn
    show ∃ n' offsets, n.addMeta f.tag f.val = _ ∧ _
    unfold addMeta
    by_cases hnew : ∀ g ∈ ms, g.tag ≠ f.tag
    · rw [(htr.getMeta hf.2.2 hf.2.1).mpr hnew]
      exact means_setMeta hn hf hnew
    · obtain ⟨m, hm⟩ := Option.ne_none_iff_exists'.mp
        (fun h => hnew ((htr.getMeta hf.2.2 hf.2.1).mp h))
      rw [hm]
      simp only [htr.innerExpand]
      -- `metas` has a slot for the tag, so that it knows as much as before
      have hmetas : MetasOk { n with
          metalist := n.metalist ++ [{ initNode f.tag f.val true 0 true with ref := n.next_ref }]
          next_ref := n.next_ref + 1 } := by
        have hthere := hnew
        rw [← htr.toBranch.no_meta_iff hf.2.1, ← htr.metas.slot, not_or] at hthere
        constructor
        · intro _ t r hr
          obtain ⟨x, hx, hxr⟩ := htr.metas.known hthere.1 t r hr
          exact ⟨x, List.mem_append_left _ hx, hxr⟩
        · intro _ t ht x hx
          rcases List.mem_append.mp hx with hx | hx
          · exact htr.metas.complete hthere.1 t ht x hx
          · rw [List.mem_singleton.mp hx]
            intro he
            exact hthere.2 (he ▸ ht)
      have hbr := htr.toBranch.addMeta hmetas ((initNode_leaf hf.1 true).with_ref n.next_ref)
        ⟨rfl, rfl, rfl, rfl⟩ rfl
      obtain ⟨hm, hsum⟩ := means_edited htr hbr hch rfl rfl (valLen_addMeta key ms ts f)
      exact ⟨_, _, rfl, hm, hsum⟩

/-! ### Removing fields -/

/-- The fields that stay and the fields that go make up the whole. -/
theorem length_messageBytes_filter (fs : List PbField) (p : PbField → Bool) :
    (messageBytes (fs.filter p)).length + (messageBytes (fs.filter (!p ·))).length =
      (messageBytes fs).length := by
  induction fs with
  | nil => rfl
  | cons f fs ih =>
    rw [messageBytes_cons, List.length_append]
    cases hp : p f with
    | true =>
      rw [List.filter_cons_of_pos hp, List.filter_cons_of_neg (by simp [hp]), messageBytes_cons,
        List.length_append]
      omega
    | false =>
      rw [List.filter_cons_of_neg (by simp [hp]), List.filter_cons_of_pos (by simp [hp]),
        messageBytes_cons, List.length_append]
      omega

theorem keyFields_filter {tag : UInt32} (htag : tag ≠ 1) (key : Option FieldVal) :
    (Tree.keyFields key).filter (fun f => f.tag ≠ tag) = Tree.keyFields key := by
  cases key with
  | none => rfl
  | some k => exact List.filter_cons_of_pos (decide_eq_true fun he => htag he.symm)

theorem filter_tag_not (l : List PbField) (tag : UInt32) :
    l.filter (fun f => f.tag = tag) = l.filter (fun f => !decide (f.tag ≠ tag)) := by
  refine List.filter_congr fun f _ => ?_
  by_cases h : f.tag = tag <;> simp [h]

/-- `metas` after all metas with a tag are gone. -/
theorem MetasOk.remove {n : KnvNode} (h : MetasOk n) (tag : UInt32) : MetasOk { n with
    metalist := n.metalist.filter fun m => m.tag ≠ tag
    metas := fun t => if t = tag.toNat then none else n.metas t } := by
  constructor
  · intro hne t r hr
    replace hr : (if t = tag.toNat then none else n.metas t) = some r := hr
    have hold : n.metalist ≠ [] := by
      rintro hnil
      exact hne (by show n.metalist.filter _ = []; rw [hnil]; rfl)
    split at hr
    · cases hr
    · rename_i hne'
      obtain ⟨m, hm, href, ht⟩ := h.known hold t r hr
      refine ⟨m, List.mem_filter.mpr ⟨hm, decide_eq_true ?_⟩, href, ht⟩
      rintro rfl
      exact hne' ht.symm
  · intro hne t ht m hm
    replace ht : (if t = tag.toNat then none else n.metas t) = none := ht
    obtain ⟨hm, htag⟩ := List.mem_filter.mp hm
    split at ht
    · rename_i he
      rw [he, Ne, UInt32.toNat_inj]
      exact of_decide_eq_true htag
    · exact h.complete (List.ne_nil_of_mem hm) t ht m hm

/-- **`RemoveMetaByTag` removes the metas with the tag**, unless it is the key's. -/
theorem refines_removeMetaByTag {tag : UInt32} (hle : tag.toNat ≤ UC_MAX_META_NUM) (htag : tag ≠ 1) :
    Refines (fun n => n.removeMetaByTag tag) (Tree.removeField tag) := by
  intro n t t' hn ht
  cases t with
  | leaf f => cases ht
  | node tg key ms ts =>
    rw [Tree.removeField, if_pos hle] at ht
    cases ht
    obtain ⟨htr, hch⟩ := means_node.mp hn
    show ∃ n' offsets, n.removeMetaByTag tag = _ ∧ _
    unfold removeMetaByTag
    rw [if_neg (by rw [htr.tag]; exact htr.tag_ne), if_neg (by omega)]
    simp only [htr.innerExpand]
    by_cases hnone : n.metalist = [] ∨ n.metas tag.toNat = none
    · rw [if_pos hnone]
      have hall := (htr.toBranch.no_meta_iff htag).mp ((htr.metas.slot tag.toNat).mp hnone)
      have hsame : ms.filter (fun f => f.tag ≠ tag) = ms :=
        List.filter_eq_self.mpr fun f hf => decide_eq_true (hall f hf)
      rw [hsame]
      exact ⟨n, [], rfl, hn, by simp⟩
    · rw [if_neg hnone, if_neg (by simp [htag])]
      have hstay : List.Forall₂ Leaf (n.metalist.filter fun m => m.tag ≠ tag)
          (Tree.keyFields key ++ ms.filter fun f => f.tag ≠ tag) := by
        rw [← keyFields_filter htag key, ← List.filter_append]
        exact forall₂_filter (fun m f (h : Leaf m f) => by rw [h.tag]) htr.metalist
      have hgo : List.Forall₂ Writes (n.metalist.filter fun m => m.tag = tag)
          ((Tree.keyFields key ++ ms).filter fun f => f.tag = tag) :=
        forall₂_filter (fun m f (h : Writes m f) => by rw [h.tag]) htr.metalist_writes
      have hbr : Branch { n with
          metalist := n.metalist.filter fun m => m.tag ≠ tag
          metas := fun t => if t = tag.toNat then none else n.metas t } tg key
          (ms.filter fun f => f.tag ≠ tag) (ts.map Tree.field) :=
        ⟨htr.tag, htr.tag_ne, htr.no_key, htr.child_num, htr.key, htr.key_ok, hstay,
          htr.metas.remove tag⟩
      have hlen : (valLen key ms ts : Int) +
          (-(evaluateSizes (n.metalist.filter fun m => m.tag = tag) false)) =
            valLen key (ms.filter fun f => f.tag ≠ tag) ts := by
        have hsplit := length_messageBytes_filter (Tree.keyFields key ++ ms) fun f => f.tag ≠ tag
        rw [← filter_tag_not, List.filter_append, keyFields_filter htag] at hsplit
        rw [evaluateSizes_writes hgo]
        unfold valLen
        rw [messageBytes_append _ (ts.map _), messageBytes_append _ (ts.map _), List.length_append,
          List.length_append]
        omega
      obtain ⟨hm, hsum⟩ := means_edited htr hbr hch rfl rfl hlen
      exact ⟨_, _, rfl, hm, hsum⟩

/-- **`RemoveChildrenByTag` removes the children with the tag.** -/
theorem refines_removeChildrenByTag {tag : UInt32} (hgt : UC_MAX_META_NUM < tag.toNat) :
    Refines (fun n => n.removeChildrenByTag tag) (Tree.removeField tag) := by
  intro n t t' hn ht
  cases t with
  | leaf f => cases ht
  | node tg key ms ts =>
    rw [Tree.removeField, if_neg (by omega)] at ht
    cases ht
    obtain ⟨htr, hch⟩ := means_node.mp hn
    show ∃ n' offsets, n.removeChildrenByTag tag = _ ∧ _
    have hgone : List.Forall₂ Means (n.childlist.filter fun c => c.tag = tag)
        (ts.filter fun c => c.tag = tag) :=
      forall₂_filter (fun c t (h : Means c t) => by rw [h.tag]) hch
    have hstay : List.Forall₂ Means (n.childlist.filter fun c => c.tag ≠ tag)
        (ts.filter fun c => c.tag ≠ tag) :=
      forall₂_filter (fun c t (h : Means c t) => by rw [h.tag]) hch
    -- without a match nothing changes
    have hsame : ts.filter (fun c => c.tag = tag) = [] → ts.filter (fun c => c.tag ≠ tag) = ts := by
      intro hnil
      rw [List.filter_eq_self]
      rw [List.filter_eq_nil_iff] at hnil
      intro c hc
      simpa using hnil c hc
    unfold removeChildrenByTag
    rw [if_neg (by rw [htr.tag]; exact htr.tag_ne)]
    simp only [htr.innerExpand, htr.child_num]
    by_cases hzero : (some (ts.map Tree.field).length).getD 0 = 0
    · have hnil : ts = [] := by simpa using hzero
      rw [if_pos hzero, hsame (by rw [hnil]; rfl)]
      exact ⟨n, [], rfl, hn, by simp⟩
    · rw [if_neg hzero]
      by_cases hnone : n.childlist.filter (fun c => c.tag = tag) = []
      · have hnil := hgone
        rw [hnone] at hnil
        rw [if_pos hnone, hsame (List.forall₂_nil_left_iff.mp hnil)]
        exact ⟨n, [], rfl, hn, by simp⟩
      · rw [if_neg hnone]
        have hcount : (ts.map Tree.field).length -
            (n.childlist.filter fun c => c.tag = tag).length =
              ((ts.filter fun c => c.tag ≠ tag).map Tree.field).length := by
          have hsplit := List.length_eq_length_filter_add (l := ts) fun c => decide (c.tag = tag)
          have hnot : ts.filter (fun c => !decide (c.tag = tag)) = ts.filter fun c => c.tag ≠ tag :=
            List.filter_congr fun c _ => by simp
          rw [hnot] at hsplit
          rw [List.length_map, List.length_map, hgone.length_eq]
          omega
        have hwrites : List.Forall₂ Writes (n.childlist.filter fun c => c.tag = tag)
            ((ts.map Tree.field).filter fun f => f.tag = tag) := by
          refine forall₂_filter (fun c f (h : Writes c f) => by rw [h.tag]) ?_
          rw [List.forall₂_map_right_iff]
          exact hch.imp fun c t h => h.writes
        have hfields : (ts.filter fun c => c.tag ≠ tag).map Tree.field =
            (ts.map Tree.field).filter fun f => f.tag ≠ tag := by
          rw [List.filter_map]
          congr 1
          exact List.filter_congr fun c _ => by rw [Function.comp_apply, Tree.field_tag]
        have hlen : (valLen key ms ts : Int) +
            (-(evaluateSizes (n.childlist.filter fun c => c.tag = tag) false)) =
              valLen key ms (ts.filter fun c => c.tag ≠ tag) := by
          have hsplit := length_messageBytes_filter (ts.map Tree.field) fun f => f.tag ≠ tag
          rw [← filter_tag_not, ← hfields] at hsplit
          rw [evaluateSizes_writes hwrites]
          unfold valLen
          rw [messageBytes_append, messageBytes_append _ (List.map _ (ts.filter _)),
            List.length_append, List.length_append]
          omega
        have hbr : Branch { n with
            ht := (n.childlist.filter fun c => c.tag = tag).foldl
              (fun ht c => (ht.remove n.childView c.ref).getD ht) n.ht
            childlist := n.childlist.filter fun c => c.tag ≠ tag
            child_num := (some (ts.map Tree.field).length).map
              (· - (n.childlist.filter fun c => c.tag = tag).length) } tg key ms
            ((ts.filter fun c => c.tag ≠ tag).map Tree.field) :=
          ⟨htr.tag, htr.tag_ne, htr.no_key, congrArg some hcount, htr.key, htr.key_ok, htr.metalist,
            ⟨htr.metas.known, htr.metas.complete⟩⟩
        obtain ⟨hm, hsum⟩ := means_edited htr hbr hstay rfl rfl hlen
        exact ⟨_, _, rfl, hm, hsum⟩

theorem refines_removeField {tag : UInt32} (htag : tag ≠ 1) :
    Refines (fun n => n.removeField tag) (Tree.removeField tag) := by
  intro n t t' hn ht
  show ∃ n' offsets, n.removeField tag = _ ∧ _
  unfold removeField
  by_cases hle : tag.toNat ≤ UC_MAX_META_NUM
  · rw [if_pos hle]
    exact refines_removeMetaByTag hle htag n t t' hn ht
  · rw [if_neg hle]
    exact refines_removeChildrenByTag (by omega) n t t' hn ht

/-! ## Edits inside a tree -/

/-- The node with other sizes, and out of date or not. -/
def resized (p : KnvNode) (val_sz : Int) (dirty : Bool) : KnvNode :=
  { p with
    eval_val_sz := val_sz
    eval_sz := (pbEvalStringLength p.tag val_sz.toNat : Nat)
    subnode_dirty := dirty }

/-- A round changes the parent's sizes by the offset, and hands on the difference this makes. -/
theorem parentRound_resized {p : KnvNode} (hval : p.val = .string []) (v : Int) (dirty : Bool)
    (offset : Int) (d : Bool) : ∃ dirty' d', (p.resized v dirty).parentRound offset d =
      (p.resized (v + offset) dirty', (p.resized (v + offset) dirty').eval_sz -
        (p.resized v dirty).eval_sz, d') := by
  have hsz : 0 ≤ (p.resized v dirty).eval_sz := Int.natCast_nonneg _
  have hup : (p.resized v dirty).updateEvalSz offset = (p.resized (v + offset) dirty,
      (p.resized (v + offset) dirty).eval_sz - (p.resized v dirty).eval_sz) := by
    unfold updateEvalSz
    by_cases h0 : offset = 0
    · rw [if_pos h0, h0, Int.add_zero, Int.sub_self]
    · rw [if_neg h0]
      rfl
  unfold parentRound
  rw [if_pos hsz, hup]
  cases d with
  | false => exact ⟨dirty, false, rfl⟩
  | true =>
    cases dirty with
    | true => exact ⟨true, false, rfl⟩
    | false =>
      refine ⟨true, true, ?_⟩
      show (setValueDirty _, _, _) = _
      rw [show (p.resized (v + offset) false).setValueDirty = p.resized (v + offset) true by
        unfold setValueDirty resized
        rw [hval]]
      rfl

/-- The rounds for one parent add up. -/
theorem parentRounds_resized {p : KnvNode} (hval : p.val = .string []) (l : List (Int × Bool)) :
    ∀ (v : Int) (dirty : Bool), ∃ dirty' l', (p.resized v dirty).parentRounds l =
      (p.resized (v + (l.map Prod.fst).sum) dirty', l') ∧
      (l'.map Prod.fst).sum = (p.resized (v + (l.map Prod.fst).sum) dirty').eval_sz -
        (p.resized v dirty).eval_sz := by
  induction l with
  | nil =>
    intro v dirty
    refine ⟨dirty, [], ?_, ?_⟩
    · rw [List.map_nil, List.sum_nil, Int.add_zero]
      rfl
    · rw [List.map_nil, List.sum_nil, Int.add_zero, Int.sub_self]
  | cons x l ih =>
    intro v dirty
    obtain ⟨offset, d⟩ := x
    obtain ⟨dirty₁, d₁, hround⟩ := parentRound_resized hval v dirty offset d
    obtain ⟨dirty', l', hrest, hsum⟩ := ih (v + offset) dirty₁
    have hv : v + offset + (l.map Prod.fst).sum = v + (((offset, d) :: l).map Prod.fst).sum := by
      rw [List.map_cons, List.sum_cons, Int.add_assoc]
    rw [hv] at hrest hsum
    refine ⟨dirty', ((p.resized (v + offset) dirty₁).eval_sz - (p.resized v dirty).eval_sz, d₁) :: l',
      ?_, ?_⟩
    · rw [parentRounds, hround]
      show (Prod.fst (parentRounds _ l), _ :: Prod.snd (parentRounds _ l)) = _
      rw [hrest]
    · rw [List.map_cons, List.sum_cons, hsum]
      omega

theorem forall₂_set {α β : Type*} {R : α → β → Prop} {l : List α} {l' : List β}
    (h : List.Forall₂ R l l') {a : α} {b : β} (hab : R a b) :
    ∀ i, List.Forall₂ R (l.set i a) (l'.set i b) := by
  induction h with
  | nil => exact fun _ => .nil
  | cons hxy hl ih =>
    intro i
    cases i with
    | zero => exact .cons hab hl
    | succ i => exact .cons hxy (ih i)

/-- Replacing a field changes the length by the difference of the two. -/
theorem valLen_set {key : Option FieldVal} {ms : List PbField} {ts : List Tree} {i : Nat} {t t' : Tree}
    (hi : ts[i]? = some t) :
    (valLen key ms ts : Int) + ((t'.field.size : Int) - t.field.size) = valLen key ms (ts.set i t') := by
  unfold valLen
  obtain ⟨hlt, hget⟩ := List.getElem?_eq_some_iff.mp hi
  have hsplit : ts = ts.take i ++ t :: ts.drop (i + 1) := by
    rw [← hget, List.getElem_cons_drop, List.take_append_drop]
  have hset : ts.set i t' = ts.take i ++ t' :: ts.drop (i + 1) := List.set_eq_take_cons_drop t' hlt
  rw [hset]
  conv_lhs => rw [hsplit]
  simp only [messageBytes_append, List.map_append, List.map_cons, messageBytes_cons,
    List.length_append, length_fieldBytes]
  have hs : pbEvalFieldLength t.field.tag t.field.val = t.field.size := rfl
  have hs' : pbEvalFieldLength t'.field.tag t'.field.val = t'.field.size := rfl
  omega

/-- A node with the right sizes. -/
theorem Branch.trunk_resized {p : KnvNode} {tag : UInt32} {key : Option FieldVal} {ms : List PbField}
    {ts : List Tree} (h : Branch p tag key ms (ts.map Tree.field)) (hval : p.val = .string [])
    (dirty : Bool) : Trunk (p.resized (valLen key ms ts) dirty) tag key ms (ts.map Tree.field) where
  tag := h.tag
  tag_ne := h.tag_ne
  no_key := h.no_key
  child_num := h.child_num
  key := h.key
  key_ok := h.key_ok
  metalist := h.metalist
  metas := ⟨h.metas.known, h.metas.complete⟩
  val := hval
  val_sz := rfl
  sz := by
    show ((pbEvalStringLength p.tag _ : Nat) : Int) = _
    rw [h.tag]
    rfl

theorem eq_resized {p : KnvNode} {v : Int} (hv : p.eval_val_sz = v)
    (hs : p.eval_sz = (pbEvalStringLength p.tag v.toNat : Nat)) :
    p = p.resized v p.subnode_dirty := by
  obtain ⟨d, metalist, childlist⟩ := p
  subst hv
  have hs' : d.eval_sz = (pbEvalStringLength d.tag d.eval_val_sz.toNat : Nat) := hs
  unfold resized
  rw [← hs']

/-- **One level up**: a child was edited, and the offsets are the difference its field makes.  The
    rounds make the parent's sizes right, and the offsets they hand on are the difference the
    parent's field makes. -/
theorem means_parentRounds {n c' : KnvNode} {tag : UInt32} {key : Option FieldVal}
    {ms : List PbField} {ts : List Tree} {i : Nat} {tc tc' : Tree} {out : List (Int × Bool)}
    (h : Means n (.node tag key ms ts)) (htc : ts[i]? = some tc) (hc' : Means c' tc')
    (hout : (out.map Prod.fst).sum = (tc'.field.size : Int) - tc.field.size) :
    ∃ n' out', parentRounds { n with childlist := n.childlist.set i c' } out = (n', out') ∧
      Means n' (.node tag key ms (ts.set i tc')) ∧ (out'.map Prod.fst).sum =
        ((Tree.node tag key ms (ts.set i tc')).field.size : Int) -
          (Tree.node tag key ms ts).field.size := by
  obtain ⟨htr, hch⟩ := means_node.mp h
  generalize hp : ({ n with childlist := n.childlist.set i c' } : KnvNode) = p
  have hlist : p.childlist = n.childlist.set i c' := by rw [← hp]
  have hval : p.val = .string [] := by rw [← hp]; exact htr.val
  have hbr : Branch p tag key ms ((ts.set i tc').map Tree.field) := by
    rw [← hp]
    refine ⟨htr.tag, htr.tag_ne, htr.no_key, ?_, htr.key, htr.key_ok, htr.metalist,
      ⟨htr.metas.known, htr.metas.complete⟩⟩
    show n.child_num = _
    rw [htr.child_num, List.length_map, List.length_map, List.length_set]
  have hsz : p.eval_sz = (pbEvalStringLength tag (valLen key ms ts) : Nat) := by
    rw [← hp]
    exact htr.sz
  have hold : p = p.resized (valLen key ms ts) p.subnode_dirty :=
    eq_resized (by rw [← hp]; exact htr.val_sz) (by rw [hbr.tag]; exact hsz)
  obtain ⟨dirty', out', hrounds, hsum⟩ :=
    parentRounds_resized hval out (valLen key ms ts) p.subnode_dirty
  rw [← hold, hout, valLen_set htc] at hrounds hsum
  have htr' := hbr.trunk_resized hval dirty'
  refine ⟨_, out', hrounds, means_node.mpr ⟨htr', ?_⟩, ?_⟩
  · show List.Forall₂ Means p.childlist _
    rw [hlist]
    exact forall₂_set hch hc' i
  · rw [hsum, htr'.sz, hsz, Tree.size_node, Tree.size_node]
    rfl

/-- **An edit at any depth**: the tree in memory follows the tree that is meant, with all the sizes
    above the edited node patched. -/
theorem means_editAt {f : KnvNode → Except KnvError (KnvNode × List Int)} {e : Tree → Option Tree}
    (hfe : Refines f e) (path : List Nat) : ∀ {n : KnvNode} {t t' : Tree}, Means n t →
      Tree.editAt e path t = some t' → ∃ n' out, editAt f path n = .ok (n', out) ∧ Means n' t' ∧
        (out.map Prod.fst).sum = (t'.field.size : Int) - t.field.size := by
  induction path with
  | nil =>
    intro n t t' hn ht
    obtain ⟨n', offsets, hf, hn', hsum⟩ := hfe n t t' hn ht
    refine ⟨n', offsets.map fun offset => (offset, true), ?_, hn', ?_⟩
    · rw [editAt, hf]
      rfl
    · rw [List.map_map]
      show (offsets.map fun x => x).sum = _
      rw [List.map_id', hsum]
  | cons i path ih =>
    intro n t t' hn ht
    cases t with
    | leaf g => cases ht
    | node tag key ms ts =>
      obtain ⟨tc, htc, ht⟩ := Option.bind_eq_some_iff.mp ht
      obtain ⟨tc', htc', ht⟩ := Option.map_eq_some_iff.mp ht
      subst ht
      obtain ⟨_, hch⟩ := means_node.mp hn
      obtain ⟨hlt', hget'⟩ := List.getElem?_eq_some_iff.mp htc
      have hlt : i < n.childlist.length := by rw [hch.length_eq]; exact hlt'
      have hc : Means n.childlist[i] tc := by
        rw [← hget']
        exact hch.get hlt hlt'
      obtain ⟨c', out, hedit, hc', hout⟩ := ih hc htc'
      obtain ⟨n', out', hrounds, hn', hout'⟩ := means_parentRounds hn htc hc' hout
      refine ⟨n', out', ?_, hn', hout'⟩
      rw [editAt, List.getElem?_eq_getElem hlt]
      show Except.map _ (editAt f path n.childlist[i]) = _
      rw [hedit]
      exact congrArg Except.ok hrounds

end KnvNode

end MysqlProxy
