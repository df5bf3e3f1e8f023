/-
  Reading twice (`GetSubTree`, `FindChild`).

  A request expands the data on its way: with the keys of the children if a child of the request has
  one, without them otherwise.  A node that is expanded stays so, and with it the MODE in which it was
  expanded.  A later request of the other kind finds children without their keys, or children in
  another order.

  * `Twin n n'`: the two nodes have been made from the same field, perhaps in two modes.
  * `Ahead p P n n'`: the requests in `P` are answered by `n'` as by `n`, although `n'` may have been
    expanded further.  It holds of twins, it is kept when a request of `P` is put to both
    (`Ahead.answer`), and when a request that agrees with those in `P` is put to `n'` only
    (`Ahead.right`).
  * `Agree p R P n`: the requests in `R` and in `P` do not differ about the mode of any node where it
    makes a difference.
-/
import MysqlProxy.Knv.FastPath
import MysqlProxy.Knv.PbRaw

namespace MysqlProxy

namespace KnvNode

/-! ## Nodes that look the same -/

/-- A node whose value is up to date. -/
structure Plain (n : KnvNode) : Prop where
  hollow : n.isString = true → n.str = [] → n.child_num = some 0 ∧ n.metalist = []
  sz : 0 ≤ n.eval_sz

/-- The two nodes differ in what is below them only. -/
structure Face (n n' : KnvNode) : Prop where
  ref : n'.ref = n.ref
  tag : n'.tag = n.tag
  val : n'.val = n.val
  key : n'.key = n.key
  eval_sz : n'.eval_sz = n.eval_sz
  eval_val_sz : n'.eval_val_sz = n.eval_val_sz
  plain : Plain n
  plain' : Plain n'

/-- A copy of such a node is made from its value. -/
theorem Plain.innerDuplicate {n : KnvNode} (h : Plain n) (k : Bool) : n.innerDuplicate k =
    if (n.isString = true ∧ n.str = []) ∧ (n.tag = 0 ∨ n.eval_val_sz ≠ 0) then none
    else some (initNode n.tag n.val true n.eval_sz.toNat k) := by
  rw [KnvNode.innerDuplicate]
  by_cases hs : n.isString = true ∧ n.str = []
  · obtain ⟨hnum, hm⟩ := h.hollow hs.1 hs.2
    have hval : n.val = .string [] := by
      obtain ⟨ht, he⟩ := hs
      rw [isString] at ht
      rw [str] at he
      cases hv : n.val with
      | string s =>
        rw [hv] at he
        exact congrArg _ he
      | varint i => rw [hv] at ht; cases ht
      | fixed64 i => rw [hv] at ht; cases ht
      | fixed32 i => rw [hv] at ht; cases ht
    have hfold : n.isFolded = true := by
      rw [isFolded, isFlat, hnum, hm]
      simp
    have halloc : 0 < allocSize n.eval_sz.toNat := by
      rw [allocSize]
      cases hf : [64, 256, 1024, 4096, 16384, 65536, 262144, 1048576, 4194304].find?
        (n.eval_sz.toNat ≤ ·) with
      | none =>
        have := List.find?_eq_none.mp hf 64 (by simp)
        simp at this ⊢
        omega
      | some sz =>
        have hmem := List.mem_of_find?_eq_some hf
        simp at hmem ⊢
        omega
    have hser : serialize n (allocSize n.eval_sz.toNat) false =
        if n.tag = 0 then .error ⟨-1, "node is invalid"⟩ else .ok [] := by
      obtain ⟨d, ms, cs⟩ := n
      replace hval : d.val = .string [] := hval
      replace halloc : 0 < allocSize d.eval_sz.toNat := halloc
      rw [serialize]
      by_cases h0 : d.tag = 0
      · rw [if_pos h0, if_pos h0]
        rfl
      · rw [if_neg h0, if_neg h0]
        simp only [hfold, hval, if_true, List.length_nil, if_pos halloc]
        rfl
    rw [if_pos ⟨hs.1, hs.2, by rw [hnum]; exact Option.some_ne_none 0⟩, evaluateSize_cached h.sz]
    simp only [hser]
    by_cases h0 : n.tag = 0
    · rw [if_pos h0, if_pos ⟨hs, .inl h0⟩]
    · rw [if_neg h0]
      simp only [List.length_nil, Nat.cast_zero]
      by_cases hv : n.eval_val_sz = 0
      · rw [if_neg (not_not_intro hv), if_neg fun hc => hc.2.elim h0 fun hne => hne hv, hval]
      · rw [if_pos hv, if_pos ⟨hs, .inr hv⟩]
  · rw [if_neg fun hc => hs ⟨hc.1, hc.2.1⟩, if_neg fun hc => hs hc.1]

theorem Face.copyWithKey {n n' : KnvNode} (h : Face n n') : n'.copyWithKey = n.copyWithKey := by
  have hs : n'.isString = n.isString ∧ n'.str = n.str := by
    rw [isString, isString, str, str, h.val]
    exact ⟨rfl, rfl⟩
  rw [KnvNode.copyWithKey, KnvNode.copyWithKey, h.plain.innerDuplicate, h.plain'.innerDuplicate, hs.1,
    hs.2, h.tag, h.val, h.key, h.eval_sz, h.eval_val_sz]

theorem Face.dupEmptyNode {n n' : KnvNode} (h : Face n n') : n'.dupEmptyNode = n.dupEmptyNode := by
  rw [KnvNode.dupEmptyNode, KnvNode.dupEmptyNode, h.tag, h.val, h.key]

theorem Face.ident {n n' : KnvNode} (h : Face n n') : ident n' = ident n := by
  rw [KnvNode.ident, KnvNode.ident, h.ref, h.tag, h.key]

/-! ## Twins -/

/-- The two nodes have been made from the field `f`, perhaps in two modes. -/
def TwinOf (f : PbField × Nat) (n n' : KnvNode) : Prop :=
  ∃ r k k', n = { initNode f.1.tag f.1.val true f.2 k with ref := r } ∧
    n' = { initNode f.1.tag f.1.val true f.2 k' with ref := r } ∧
    (k = k' ∨ (keyOfValue f.1.val.str).1.val = [])

def Twin (n n' : KnvNode) : Prop := ∃ f, TwinOf f n n'

/-- A key without bytes is no key. -/
theorem keyOfValue_nil {s : List UInt8} (h : (keyOfValue s).1.val = []) :
    (keyOfValue s).1 = KnvKey.none .string := by
  rw [keyOfValue] at h ⊢
  cases hb : pbBegin s with
  | error e => rfl
  | ok p =>
    simp only [hb] at h ⊢
    split at h
    · rw [if_pos ‹_›]
      cases hv : p.1.val with
      | string t =>
        rw [hv] at h
        exact congrArg _ h
      | varint i =>
        rw [hv] at h
        exact absurd h (leBytes_succ_ne_nil 7 _)
      | fixed64 i =>
        rw [hv] at h
        exact absurd h (leBytes_succ_ne_nil 7 _)
      | fixed32 i =>
        rw [hv] at h
        exact absurd h (leBytes_succ_ne_nil 3 _)
    · rw [if_neg ‹_›]

/-- The key of a child that is expanded in the mode `k`. -/
theorem key_initNode_mode (tag : UInt32) (val : FieldVal) (sz : Nat) (k : Bool) :
    (initNode tag val true sz k).key = if k then KnvKey.none .string else (keyOfValue val.str).1 := by
  cases k with
  | false => exact key_initNode tag val sz
  | true =>
    rw [initNode]
    by_cases hs : val.str = []
    · rw [hs]
      rfl
    · simp only [if_pos hs, if_true]

theorem plain_initNode (tag : UInt32) (val : FieldVal) (sz : Nat) (k : Bool) (r : Nat) :
    Plain { initNode tag val true sz k with ref := r } where
  hollow := by
    intro _ hs
    replace hs : val.str = [] := hs
    refine ⟨?_, rfl⟩
    show (initNode tag val true sz k).child_num = some 0
    rw [initNode, if_pos rfl, if_neg (not_not_intro hs)]
  sz := by
    show 0 ≤ (initNode tag val true sz k).eval_sz
    rw [initNode]
    simp only [if_true]
    split <;> omega

theorem TwinOf.face {f : PbField × Nat} {n n' : KnvNode} (h : TwinOf f n n') : Face n n' := by
  obtain ⟨r, k, k', rfl, rfl, hk⟩ := h
  refine ⟨rfl, rfl, rfl, ?_, rfl, rfl, plain_initNode _ _ _ _ _, plain_initNode _ _ _ _ _⟩
  show (initNode f.1.tag f.1.val true f.2 k').key = (initNode f.1.tag f.1.val true f.2 k).key
  rw [key_initNode_mode, key_initNode_mode]
  rcases hk with rfl | hk
  · rfl
  · rw [keyOfValue_nil hk, ite_self, ite_self]

theorem Twin.face {n n' : KnvNode} (h : Twin n n') : Face n n' := by
  obtain ⟨f, h⟩ := h
  exact h.face

/-! ## Twins expanded -/

/-- The two nodes are expanded alike, up to their children. -/
structure Shape (n n' : KnvNode) : Prop where
  child_num : n'.child_num = n.child_num
  child_has_key : n'.child_has_key = n.child_has_key
  next_ref : n'.next_ref = n.next_ref
  metalist : n'.metalist = n.metalist
  metas : n'.metas = n.metas
  ht : n'.ht = n.ht

theorem map_ident_faces {l l' : List KnvNode} (h : List.Forall₂ Face l l') :
    l'.map ident = l.map ident := by
  induction h with
  | nil => rfl
  | cons h _ ih => rw [List.map_cons, List.map_cons, h.ident, ih]

theorem childView_of_idents {n n' : KnvNode} (h : n'.childlist.map ident = n.childlist.map ident) :
    n'.childView = n.childView := by
  funext r
  rw [childView_ident, childView_ident, h]

/-- No child that is still in the value begins with a key. -/
def NoKeys (fs : List (PbField × Nat)) : Prop :=
  ∀ f ∈ childPart fs, (keyOfValue f.1.val.str).1.val = []

/-- The loop of `InnerExpand`, in two modes that make no difference. -/
theorem Shape.expandFields {k k' : Bool} (fs : List (PbField × Nat)) : ∀ {n n' : KnvNode},
    Shape n n' → List.Forall₂ Twin n.childlist n'.childlist → (k = k' ∨ NoKeys fs) →
    Shape (fs.foldl (expandField k) n) (fs.foldl (expandField k') n') ∧
      List.Forall₂ Twin (fs.foldl (expandField k) n).childlist
        (fs.foldl (expandField k') n').childlist := by
  induction fs with
  | nil => exact fun h hc _ => ⟨h, hc⟩
  | cons f fs ih =>
    intro n n' h hc hk
    rw [List.foldl_cons, List.foldl_cons, expandField, expandField]
    by_cases hf : f.1.tag.toNat ≤ UC_MAX_META_NUM
    · rw [if_pos hf, if_pos hf]
      refine ih ⟨h.child_num, h.child_has_key, ?_, ?_, ?_, h.ht⟩ hc ?_
      · show n'.next_ref + 1 = n.next_ref + 1
        rw [h.next_ref]
      · show n'.metalist ++ [_] = n.metalist ++ [_]
        rw [h.metalist, h.next_ref]
      · simp only [KnvNode.hangMeta, h.metalist, h.next_ref, h.metas]
      · rw [NoKeys, childPart_meta hf] at hk
        exact hk
    · rw [if_neg hf, if_neg hf]
      rw [NoKeys, childPart_child hf] at hk
      have htwin : Twin { initNode f.1.tag f.1.val true f.2 k with ref := n.next_ref }
          { initNode f.1.tag f.1.val true f.2 k' with ref := n'.next_ref } := by
        rw [h.next_ref]
        exact ⟨f, n.next_ref, k, k', rfl, rfl, hk.imp_right fun hk => hk f List.mem_cons_self⟩
      have hlist : List.Forall₂ Twin (n.hangChild (initNode f.1.tag f.1.val true f.2 k)).childlist
          (n'.hangChild (initNode f.1.tag f.1.val true f.2 k')).childlist :=
        List.rel_append hc (.cons htwin .nil)
      have hview := childView_of_idents (map_ident_faces (hlist.imp fun _ _ ht => ht.face))
      refine ih ⟨?_, ?_, ?_, h.metalist, h.metas, ?_⟩ hlist
        (hk.imp_right fun hk g hg => hk g (List.mem_cons_of_mem _ hg))
      · show n'.child_num.map (· + 1) = n.child_num.map (· + 1)
        rw [h.child_num]
      · show (n'.child_has_key || decide ((initNode f.1.tag f.1.val true f.2 k').key.val ≠ [])) =
          (n.child_has_key || decide ((initNode f.1.tag f.1.val true f.2 k).key.val ≠ []))
        have hkey : (initNode f.1.tag f.1.val true f.2 k').key =
          (initNode f.1.tag f.1.val true f.2 k).key := htwin.face.key
        rw [h.child_has_key, hkey]
      · show n'.next_ref + 1 = n.next_ref + 1
        rw [h.next_ref]
      · show n'.ht.put (n'.hangChild (initNode f.1.tag f.1.val true f.2 k')).childView n'.next_ref =
          n.ht.put (n.hangChild (initNode f.1.tag f.1.val true f.2 k)).childView n.next_ref
        rw [hview, h.ht, h.next_ref]

/-- A node that was just made is expanded from its value, even if `InitNode` has seen that there is
    nothing in it. -/
theorem innerExpand_initNode (tag : UInt32) (val : FieldVal) (sz : Nat) (k₀ : Bool) (r : Nat)
    (p k : Bool) (n : KnvNode) (hn : n = { initNode tag val true sz k₀ with ref := r }) :
    n.innerExpand p k = expandTail p k { n.initChildList (some 0) with child_has_key := false } := by
  by_cases hnum : n.child_num = none
  · exact innerExpand_none hnum p k
  · rw [innerExpand_expanded hnum]
    have hzero : n.child_num = some 0 ∧ (val.str = [] ∨ (keyOfValue val.str).2 = false) := by
      rw [hn] at hnum ⊢
      show (initNode tag val true sz k₀).child_num = some 0 ∧ _
      replace hnum : (initNode tag val true sz k₀).child_num ≠ none := hnum
      rw [initNode] at hnum ⊢
      simp only [if_true] at hnum ⊢
      by_cases hs : val.str = []
      · rw [if_neg (not_not_intro hs)]
        exact ⟨rfl, .inl hs⟩
      · rw [if_pos hs] at hnum ⊢
        cases k₀ with
        | true => exact absurd rfl hnum
        | false =>
          simp only [Bool.false_eq_true, if_false] at hnum ⊢
          cases hkv : (keyOfValue val.str).2 with
          | true => rw [hkv] at hnum; exact absurd rfl hnum
          | false => exact ⟨rfl, .inr rfl⟩
    have hbase : ({ n.initChildList (some 0) with child_has_key := false } : KnvNode) = n := by
      rw [hn] at hzero ⊢
      have hz : (initNode tag val true sz k₀).child_num = some 0 := hzero.1
      simp only [initChildList, ← hz]
      rfl
    have hnone : pbFields val.str = none := by
      have hbad : ∃ e, pbBegin val.str = .error e := by
        rcases hzero.2 with hs | hs
        · rw [hs]
          exact ⟨_, rfl⟩
        · rw [keyOfValue] at hs
          cases hb : pbBegin val.str with
          | error e => exact ⟨e, rfl⟩
          | ok q => rw [hb] at hs; cases hs
      obtain ⟨e, hb⟩ := hbad
      rw [pbFields, hb]
    have hstr : n.str = val.str := by
      rw [hn]
      rfl
    rw [hbase, expandTail, hstr, hnone]
    simp only [ite_self]

theorem Shape.expandTail {n n' : KnvNode} (h : Shape n n') (htag : n'.tag = n.tag)
    (hval : n'.val = n.val) (hn : n.childlist = []) (hn' : n'.childlist = []) (p : Bool) {k k' : Bool}
    (hk : k = k' ∨ NoKeys n.pending.1) :
    Shape (expandTail p k n) (MysqlProxy.expandTail p k' n') ∧ List.Forall₂ Twin
      (MysqlProxy.expandTail p k n).childlist (MysqlProxy.expandTail p k' n').childlist := by
  have hnil : List.Forall₂ Twin n.childlist n'.childlist := by
    rw [hn, hn']
    exact .nil
  have hs : n'.isString = n.isString ∧ n'.str = n.str := by
    rw [isString, isString, str, str, hval]
    exact ⟨rfl, rfl⟩
  rw [MysqlProxy.expandTail, MysqlProxy.expandTail, hs.1, hs.2, htag]
  split
  · exact ⟨h, hnil⟩
  · rename_i hstr
    split
    · exact ⟨h, hnil⟩
    · cases hf : pbFields n.str with
      | none => exact ⟨h, hnil⟩
      | some q =>
        obtain ⟨fs, eom⟩ := q
        have hk' : k = k' ∨ NoKeys fs := by
          rw [pending, if_pos (by simpa using hstr), hf] at hk
          exact hk
        obtain ⟨hx, hc⟩ := h.expandFields fs hnil hk'
        cases eom with
        | true => exact ⟨⟨hx.child_num, hx.child_has_key, hx.next_ref, hx.metalist, hx.metas, hx.ht⟩, hc⟩
        | false =>
          refine ⟨⟨?_, hx.child_has_key, hx.next_ref, ?_, hx.metas, hx.ht⟩, .nil⟩
          · exact Eq.refl (some 0)
          · exact Eq.refl []

/-- **Twins expand alike**, in modes that make no difference. -/
theorem Twin.innerExpand {n n' : KnvNode} (h : Twin n n') (p : Bool) {k k' : Bool}
    (hk : k = k' ∨ NoKeys n.pending.1) :
    Shape (n.innerExpand p k) (n'.innerExpand p k') ∧ List.Forall₂ Twin
      (n.innerExpand p k).childlist (n'.innerExpand p k').childlist := by
  obtain ⟨f, r, k₀, k₀', hn, hn', _⟩ := h
  rw [innerExpand_initNode _ _ _ _ _ p k n hn, innerExpand_initNode _ _ _ _ _ p k' n' hn']
  apply Shape.expandTail
  · rw [hn, hn']
    exact ⟨rfl, rfl, rfl, rfl, rfl, rfl⟩
  · rw [hn, hn']
    rfl
  · rw [hn, hn']
    rfl
  · rfl
  · rfl
  · exact hk

theorem Plain.innerExpand {n : KnvNode} (h : Plain n) (p k : Bool) : Plain (n.innerExpand p k) := by
  by_cases hnum : n.child_num = none
  · have hh := innerExpand_head n p k
    rw [head, head] at hh
    injection hh with _ hh
    injection hh with _ hh
    injection hh with hval hh
    injection hh with _ hh
    injection hh with _ hh
    injection hh with hsz _
    refine ⟨fun hs he => ?_, by rw [hsz]; exact h.sz⟩
    rw [isString, hval] at hs
    rw [str, hval] at he
    have hz := (h.hollow hs he).1
    rw [hnum] at hz
    cases hz
  · rw [innerExpand_expanded hnum]
    exact h

theorem Face.symm {n n' : KnvNode} (h : Face n n') : Face n' n :=
  ⟨h.ref.symm, h.tag.symm, h.val.symm, h.key.symm, h.eval_sz.symm, h.eval_val_sz.symm, h.plain',
    h.plain⟩

/-- Expanding shows another list only. -/
theorem Face.opened {n n' : KnvNode} (h : Face n n') (p k : Bool) : Face n (n'.innerExpand p k) := by
  have hh := innerExpand_head n' p k
  rw [head, head] at hh
  simp only [Prod.mk.injEq] at hh
  obtain ⟨href, htag, hval, hkey, _, hsz, hvsz⟩ := hh
  exact ⟨href.trans h.ref, htag.trans h.tag, hval.trans h.val, hkey.trans h.key, hsz.trans h.eval_sz,
    hvsz.trans h.eval_val_sz, h.plain, h.plain'.innerExpand p k⟩

theorem Face.innerExpand {n n' : KnvNode} (h : Face n n') (p k k' : Bool) :
    Face (n.innerExpand p k) (n'.innerExpand p k') :=
  ((h.opened p k').symm.opened p k).symm

theorem Face.with_list {n n' : KnvNode} (h : Face n n') (l : List KnvNode) :
    Face n { n' with childlist := l } :=
  ⟨h.ref, h.tag, h.val, h.key, h.eval_sz, h.eval_val_sz, h.plain, ⟨h.plain'.hollow, h.plain'.sz⟩⟩

/-! ### The children of a new node -/

theorem mem_expandFields {k : Bool} (fs : List (PbField × Nat)) : ∀ {n c : KnvNode},
    c ∈ (fs.foldl (expandField k) n).childlist → c ∈ n.childlist ∨
      ∃ f ∈ fs, ∃ r, c = { initNode f.1.tag f.1.val true f.2 k with ref := r } := by
  induction fs with
  | nil => exact fun hc => .inl hc
  | cons f fs ih =>
    intro n c hc
    rw [List.foldl_cons] at hc
    rcases ih hc with hc | ⟨g, hg, he⟩
    · rw [expandField] at hc
      split at hc
      · exact .inl hc
      · rcases List.mem_append.mp hc with hc | hc
        · exact .inl hc
        · exact .inr ⟨f, List.mem_cons_self, n.next_ref, List.mem_singleton.mp hc⟩
    · exact .inr ⟨g, List.mem_cons_of_mem _ hg, he⟩

/-- What is expanded from a value is new, and the values are shorter. -/
theorem mem_expandTail {p k : Bool} {n c : KnvNode} (hn : n.childlist = [])
    (hc : c ∈ (expandTail p k n).childlist) :
    ∃ f : PbField × Nat, ∃ r, c = { initNode f.1.tag f.1.val true f.2 k with ref := r } ∧
      f.1.val.str.length < n.str.length := by
  have hnil : c ∉ n.childlist := by
    rw [hn]
    exact List.not_mem_nil
  rw [expandTail] at hc
  split at hc
  · exact absurd hc hnil
  · split at hc
    · exact absurd hc hnil
    · cases hf : pbFields n.str with
      | none =>
        rw [hf] at hc
        exact absurd hc hnil
      | some q =>
        obtain ⟨fs, eom⟩ := q
        obtain ⟨_, _, _, hall⟩ := pbFields_taken hf
        rw [hf] at hc
        simp only at hc
        split at hc
        · rcases mem_expandFields fs hc with hc | ⟨f, hf, r, he⟩
          · exact absurd hc hnil
          · have hlt := str_lt_size f.1
            obtain ⟨h1, h2⟩ := hall f hf
            exact ⟨f, r, he, by omega⟩
        · exact absurd hc List.not_mem_nil

/-- What is expanded from a value: the list is in order, and the values in it are shorter. -/
theorem expandTail_children (p k : Bool) {n : KnvNode} (hn : n.childlist = []) (hl : Listed n) :
    Listed (expandTail p k n) ∧ ∀ c ∈ (expandTail p k n).childlist, c.str.length < n.str.length := by
  constructor
  · rw [expandTail]
    split
    · exact hl
    · split
      · exact hl
      · cases hf : pbFields n.str with
        | none => exact hl
        | some q =>
          obtain ⟨fs, eom⟩ := q
          have hx : Listed (fs.foldl (expandField k) n) := hl.expandFields fs
          simp only
          split
          · exact ⟨hx.child_num, hx.refs, hx.nodup⟩
          · exact ⟨rfl, fun x hx => absurd hx List.not_mem_nil, List.nodup_nil⟩
  · intro c hc
    obtain ⟨f, r, rfl, hlt⟩ := mem_expandTail hn hc
    exact hlt

theorem Twin.children {n n' : KnvNode} (h : Twin n n') (p k : Bool) :
    (n.innerExpand p k).Listed ∧
      ∀ c ∈ (n.innerExpand p k).childlist, c.str.length < n.str.length := by
  obtain ⟨f, r, k₀, _, hn, _, _⟩ := h
  rw [innerExpand_initNode _ _ _ _ _ p k n hn]
  exact expandTail_children p k rfl ⟨rfl, fun x hx => absurd hx List.not_mem_nil, List.nodup_nil⟩

/-! ## Requests that are answered alike -/

/-- The request goes into a node: it asks for it, and has children of its own. -/
def Opens (req : KnvNode) : Prop :=
  ¬ (!req.isString && req.getIntVal = 0) = true ∧ req.child_num.getD 0 ≠ 0

/-- The requests that reach the child with the `ref` of an expanded node. -/
def Reach (P : KnvNode → Prop) (e : KnvNode) (r : Nat) (sub_req : KnvNode) : Prop :=
  ∃ req, P req ∧ Opens req ∧ sub_req ∈ req.childlist ∧ r ∈ e.matchRefs sub_req

/-- **The requests in `P` are answered by `n'` as by `n`**, although `n'` may have been expanded by
    others; `p` says whether there is a parent with a key. -/
inductive Ahead : Bool → (KnvNode → Prop) → KnvNode → KnvNode → Prop
  | mk {p : Bool} {P : KnvNode → Prop} {n n' : KnvNode} (face : Face n n')
    (twin : n'.child_num = none → Twin n n')
    (shape : ∀ req, P req → Opens req →
      Shape (n.innerExpand p (!req.child_has_key)) (n'.innerExpand p (!req.child_has_key)))
    (listed : ∀ req, P req → Opens req → Listed (n.innerExpand p (!req.child_has_key)))
    (length : ∀ req, P req → Opens req → (n.innerExpand p (!req.child_has_key)).childlist.length =
      (n'.innerExpand p (!req.child_has_key)).childlist.length)
    (children : ∀ req, P req → Opens req →
      ∀ i (h : i < (n.innerExpand p (!req.child_has_key)).childlist.length)
        (h' : i < (n'.innerExpand p (!req.child_has_key)).childlist.length),
      Ahead (n.key.val ≠ []) (Reach P (n.innerExpand p (!req.child_has_key))
          ((n.innerExpand p (!req.child_has_key)).childlist.get ⟨i, h⟩).ref)
        ((n.innerExpand p (!req.child_has_key)).childlist.get ⟨i, h⟩)
        ((n'.innerExpand p (!req.child_has_key)).childlist.get ⟨i, h'⟩)) : Ahead p P n n'

/-- The children of two expanded nodes, each with the requests that may reach it. -/
def Children (p : Bool) (Q : Nat → KnvNode → Prop) (n n' : KnvNode) : Prop :=
  List.Forall₂ (fun c c' => Ahead p (Q c.ref) c c') n.childlist n'.childlist

/-- Two expanded nodes that answer alike. -/
structure Alongside (p : Bool) (Q : Nat → KnvNode → Prop) (n n' : KnvNode) : Prop where
  face : Face n n'
  shape : Shape n n'
  listed : Listed n
  children : Children p Q n n'

theorem Ahead.face {p : Bool} {P : KnvNode → Prop} {n n' : KnvNode} (h : Ahead p P n n') : Face n n' := by
  cases h with
  | mk face => exact face

theorem Ahead.twin {p : Bool} {P : KnvNode → Prop} {n n' : KnvNode} (h : Ahead p P n n')
    (hnum : n'.child_num = none) : Twin n n' := by
  cases h with
  | mk _ twin => exact twin hnum

/-- What a request finds in the two nodes when it goes in. -/
theorem Ahead.alongside {p : Bool} {P : KnvNode → Prop} {n n' req : KnvNode} (h : Ahead p P n n')
    (hP : P req) (ho : Opens req) : Alongside (n.key.val ≠ [])
      (Reach P (n.innerExpand p (!req.child_has_key)))
      (n.innerExpand p (!req.child_has_key)) (n'.innerExpand p (!req.child_has_key)) := by
  cases h with
  | mk face _ shape listed length children =>
    exact ⟨face.innerExpand p _ _, shape req hP ho, listed req hP ho,
      List.forall₂_iff_get.mpr ⟨length req hP ho, children req hP ho⟩⟩

theorem ahead_intro {p : Bool} {P : KnvNode → Prop} {n n' : KnvNode} (face : Face n n')
    (twin : n'.child_num = none → Twin n n')
    (h : ∀ req, P req → Opens req → Alongside (n.key.val ≠ [])
      (Reach P (n.innerExpand p (!req.child_has_key)))
      (n.innerExpand p (!req.child_has_key)) (n'.innerExpand p (!req.child_has_key))) :
    Ahead p P n n' := by
  refine .mk face twin (fun req hP ho => (h req hP ho).shape) (fun req hP ho => (h req hP ho).listed)
    (fun req hP ho => ?_) (fun req hP ho => ?_)
  · exact (List.forall₂_iff_get.mp (h req hP ho).children).1
  · exact (List.forall₂_iff_get.mp (h req hP ho).children).2

/-- **Twins answer every request alike.** -/
theorem Twin.ahead (p : Bool) (P : KnvNode → Prop) {n n' : KnvNode} (h : Twin n n') :
    Ahead p P n n' := by
  generalize hlen : n.str.length = len
  induction len using Nat.strongRecOn generalizing p P n n' with
  | ind len ih =>
    refine ahead_intro h.face (fun _ => h) fun req _ _ => ?_
    obtain ⟨hs, hc⟩ := h.innerExpand p (.inl (Eq.refl (!req.child_has_key)))
    obtain ⟨hl, hlt⟩ := h.children p (!req.child_has_key)
    refine ⟨h.face.innerExpand p _ _, hs, hl, ?_⟩
    refine ((List.forall₂_and_left _ _).mpr ⟨fun c hc => hlt c hc, hc⟩).imp fun c c' hcc => ?_
    exact ih c.str.length (by rw [← hlen]; exact hcc.1) _ _ hcc.2 rfl

/-! ## The loops, on both sides -/

/-- What a request is matched with depends on the index and on the tags and keys of the children. -/
theorem matchRefs_congr {n n' : KnvNode} (hht : n'.ht = n.ht)
    (hflag : n'.child_has_key = n.child_has_key)
    (hlist : n'.childlist.map ident = n.childlist.map ident) (sub_req : KnvNode) :
    n'.matchRefs sub_req = n.matchRefs sub_req := by
  have hfilter : ∀ l : List KnvNode, ((l.filter fun c => c.tag = sub_req.tag).map fun c => c.ref) =
      ((l.map ident).filter fun i => i.2.1 = sub_req.tag).map Prod.fst := by
    intro l
    rw [List.filter_map, List.map_map]
    rfl
  rw [matchRefs, matchRefs, childView_of_idents hlist, hht, hflag, hfilter, hfilter, hlist]

theorem SameIndex.matchRefs {n n' : KnvNode} (h : SameIndex n n') (sub_req : KnvNode) :
    n'.matchRefs sub_req = n.matchRefs sub_req :=
  matchRefs_congr h.ht h.child_has_key h.childlist sub_req

theorem Children.idents {p : Bool} {Q : Nat → KnvNode → Prop} {n n' : KnvNode}
    (h : Children p Q n n') : n'.childlist.map ident = n.childlist.map ident :=
  map_ident_faces (List.Forall₂.imp (fun _ _ h => h.face) h)

theorem Alongside.matchRefs {p : Bool} {Q : Nat → KnvNode → Prop} {n n' : KnvNode}
    (h : Alongside p Q n n') (sub_req : KnvNode) : n'.matchRefs sub_req = n.matchRefs sub_req :=
  matchRefs_congr h.shape.ht h.shape.child_has_key h.children.idents sub_req

/-- The child behind a pointer, on both sides. -/
theorem findRef_forall₂ {R : KnvNode → KnvNode → Prop} (href : ∀ {c c'}, R c c' → c'.ref = c.ref)
    {l l' : List KnvNode} (h : List.Forall₂ R l l') (r : Nat) :
    (findRef l r = none ∧ findRef l' r = none) ∨
      ∃ c c', findRef l r = some c ∧ findRef l' r = some c' ∧ R c c' := by
  induction h with
  | nil => exact .inl ⟨rfl, rfl⟩
  | @cons c c' l l' h _ ih =>
    rw [findRef, findRef]
    by_cases hr : c.ref = r
    · rw [List.find?_cons_of_pos (by simpa using hr),
        List.find?_cons_of_pos (by simpa [href h] using hr)]
      exact .inr ⟨c, c', rfl, rfl, h⟩
    · rw [List.find?_cons_of_neg (by simpa using hr),
        List.find?_cons_of_neg (by simpa [href h] using hr)]
      exact ih

theorem ref_of_findRef {l : List KnvNode} {r : Nat} {c : KnvNode} (h : findRef l r = some c) :
    c.ref = r :=
  of_decide_eq_true (List.find?_some (p := fun x : KnvNode => decide (x.ref = r)) h)

/-- Two children are replaced. -/
theorem Children.replaceRef {p : Bool} {Q : Nat → KnvNode → Prop} {l l' : List KnvNode}
    (h : List.Forall₂ (fun c c' => Ahead p (Q c.ref) c c') l l') {x x' : KnvNode}
    (hx : Ahead p (Q x.ref) x x') :
    List.Forall₂ (fun c c' => Ahead p (Q c.ref) c c') (KnvNode.replaceRef x l)
      (KnvNode.replaceRef x' l') := by
  rw [KnvNode.replaceRef, KnvNode.replaceRef, List.forall₂_map_left_iff, List.forall₂_map_right_iff]
  refine h.imp fun c c' hc => ?_
  by_cases he : c.ref = x.ref
  · rw [if_pos he, if_pos (by rw [hc.face.ref, hx.face.ref, he])]
    exact hx
  · rw [if_neg he, if_neg (by rw [hc.face.ref, hx.face.ref]; exact he)]
    exact hc

/-- Two requests in the making, with the matches that stay the same. -/
structure AlongFound (p : Bool) (Q : Nat → KnvNode → Prop) (M : KnvNode → List Nat)
    (st st' : Found) : Prop where
  data : Alongside p Q st.data st'.data
  matchRefs : ∀ sub_req, st.data.matchRefs sub_req = M sub_req
  key : decide (st.data.key.val ≠ []) = p
  out : st'.out = st.out
  empty : st'.empty = st.empty

inductive AlongLoop (p : Bool) (Q : Nat → KnvNode → Prop) (M : KnvNode → List Nat) :
    Except (Int × KnvNode) Found → Except (Int × KnvNode) Found → Prop
  | ok {st st' : Found} : AlongFound p Q M st st' → AlongLoop p Q M (.ok st) (.ok st')
  | error (code : Int) {n n' : KnvNode} : Alongside p Q n n' → (∀ s, n.matchRefs s = M s) →
    AlongLoop p Q M (.error (code, n)) (.error (code, n'))

/-- What `get` answers is the same for both, and leaves nodes that answer alike. -/
def AnswersAlike (p : Bool) (P : KnvNode → Prop) (get : KnvNode → SubTrees) : Prop :=
  ∀ c c', Ahead p P c c' → (get c').2 = (get c).2 ∧ Ahead p P (get c).1 (get c').1

section Loops

variable {p : Bool} {Q : Nat → KnvNode → Prop} {M : KnvNode → List Nat} (no_empty : Bool)
  (req_tree : KnvNode)

theorem AlongFound.visit {get : KnvNode → SubTrees} (hkeeps : ∀ x, SameFace x (get x).1) {r : Nat}
    (hget : AnswersAlike p (Q r) get) {st st' : Found} (h : AlongFound p Q M st st') :
    AlongLoop p Q M (visit no_empty req_tree get st r) (KnvNode.visit no_empty req_tree get st' r) := by
  have hdup := h.data.face.dupEmptyNode
  rw [KnvNode.visit, KnvNode.visit]
  rcases findRef_forall₂ (fun hc => hc.face.ref) h.data.children r with ⟨hf, hf'⟩ | ⟨c, c', hf, hf', hc⟩
  · rw [hf, hf']
    exact .ok h
  · rw [hf, hf']
    have href := ref_of_findRef hf
    rw [href] at hc
    obtain ⟨hans, hnext⟩ := hget c c' hc
    obtain ⟨hr, ht, hk⟩ := hkeeps c
    have hid : ident (get c).1 = ident c := by rw [ident, ident, hr, ht, hk]
    have hmem : c ∈ st.data.childlist := List.mem_of_find?_eq_some hf
    have hidents := map_ident_replaceRef h.data.listed.nodup hmem hid
    have hpass : SameIndex st.data
        { st.data with childlist := replaceRef (get c).1 st.data.childlist } :=
      ⟨rfl, rfl, Nat.le_refl _, hidents, rfl⟩
    have hdata : Alongside p Q
        { st.data with childlist := replaceRef (get c).1 st.data.childlist }
        { st'.data with childlist := replaceRef (get c').1 st'.data.childlist } := by
      refine ⟨((h.data.face.with_list _).symm.with_list _).symm,
        ⟨h.data.shape.child_num, h.data.shape.child_has_key, h.data.shape.next_ref,
          h.data.shape.metalist, h.data.shape.metas, h.data.shape.ht⟩, hpass.listed h.data.listed, ?_⟩
      exact Children.replaceRef h.data.children (by rw [hr, href]; exact hnext)
    have hmatch : ∀ s, ({ st.data with
        childlist := replaceRef (get c).1 st.data.childlist } : KnvNode).matchRefs s = M s :=
      fun s => (hpass.matchRefs s).trans (h.matchRefs s)
    simp only
    generalize get c = q at hans hdata hmatch
    generalize get c' = q' at hans hdata
    obtain ⟨x, res⟩ := q
    obtain ⟨x', res'⟩ := q'
    replace hans : res' = res := hans
    subst hans
    cases res' with
    | error e => exact .error _ hdata hmatch
    | ok o =>
      refine .ok ⟨hdata, hmatch, h.key, ?_, ?_⟩
      · show collected st'.data st'.out o.1 = collected st.data st.out o.1
        rw [h.out]
        cases o.1 with
        | none => rfl
        | some o => simp only [collected, hdup]
      · show (if no_empty = true then st'.empty else collected req_tree st'.empty o.2) = _
        rw [h.empty]

theorem AlongFound.visits {get : KnvNode → SubTrees} (hkeeps : ∀ x, SameFace x (get x).1)
    (refs : List Nat) (hget : ∀ r ∈ refs, AnswersAlike p (Q r) get) : ∀ {st st' : Found},
    AlongFound p Q M st st' → AlongLoop p Q M (refs.foldlM (KnvNode.visit no_empty req_tree get) st)
      (refs.foldlM (KnvNode.visit no_empty req_tree get) st') := by
  induction refs with
  | nil => exact fun h => .ok h
  | cons r refs ih =>
    intro st st' h
    rw [List.foldlM_cons, List.foldlM_cons]
    have hv := h.visit no_empty req_tree hkeeps (hget r List.mem_cons_self)
    generalize KnvNode.visit no_empty req_tree get st r = q at hv
    generalize KnvNode.visit no_empty req_tree get st' r = q' at hv
    cases hv with
    | ok hv => exact ih (fun x hx => hget x (List.mem_cons_of_mem _ hx)) hv
    | error code hv hm => exact .error code hv hm

theorem AlongFound.missed {st st' : Found} (h : AlongFound p Q M st st') (sub_req : KnvNode) :
    AlongLoop p Q M (missed no_empty req_tree sub_req st)
      (KnvNode.missed no_empty req_tree sub_req st') := by
  rw [KnvNode.missed, KnvNode.missed, h.empty]
  split
  · exact .ok h
  · cases sub_req.innerDuplicate true with
    | none => exact .error _ h.data h.matchRefs
    | some c => exact .ok ⟨h.data, h.matchRefs, h.key, h.out, rfl⟩

/-- The loop over the children of a request that is put to both sides. -/
theorem AlongFound.subRequests (l : List KnvNode)
    (hget : ∀ s ∈ l, ∀ r ∈ M s, AnswersAlike p (Q r) (innerGetSubTree no_empty s p)) :
    ∀ {st st' : Found}, AlongFound p Q M st st' →
      AlongLoop p Q M (subRequests no_empty req_tree l st)
        (KnvNode.subRequests no_empty req_tree l st') := by
  induction l with
  | nil =>
    intro st st' h
    rw [KnvNode.subRequests, KnvNode.subRequests]
    exact .ok h
  | cons s l ih =>
    intro st st' h
    have hkey' : decide (st'.data.key.val ≠ []) = p := by rw [h.data.face.key, h.key]
    rw [KnvNode.subRequests, KnvNode.subRequests]
    simp only [h.data.matchRefs, h.matchRefs, h.key, hkey']
    have hv : AlongLoop p Q M
        (if M s = [] then KnvNode.missed no_empty req_tree s st
          else (M s).foldlM (KnvNode.visit no_empty req_tree (innerGetSubTree no_empty s p)) st)
        (if M s = [] then KnvNode.missed no_empty req_tree s st'
          else (M s).foldlM (KnvNode.visit no_empty req_tree (innerGetSubTree no_empty s p)) st') := by
      split
      · exact h.missed no_empty req_tree s
      · exact AlongFound.visits no_empty req_tree (keepsHeads no_empty s p) (M s)
          (hget s List.mem_cons_self) h
    generalize (if M s = [] then KnvNode.missed no_empty req_tree s st
      else (M s).foldlM (KnvNode.visit no_empty req_tree (innerGetSubTree no_empty s p)) st) = q at hv ⊢
    generalize (if M s = [] then KnvNode.missed no_empty req_tree s st'
      else (M s).foldlM (KnvNode.visit no_empty req_tree (innerGetSubTree no_empty s p)) st') = q' at hv ⊢
    cases hv with
    | ok hv => exact ih (fun x hx => hget x (List.mem_cons_of_mem _ hx)) hv
    | error code hv hm => exact .error code hv hm

end Loops

theorem requestMeta_congr {n n' : KnvNode} (hdup : n'.dupEmptyNode = n.dupEmptyNode)
    (hmetas : n'.metas = n.metas) (hlist : n'.metalist = n.metalist) : requestMeta n' = requestMeta n := by
  funext out m
  rw [requestMeta, requestMeta, hdup, hmetas, hlist]

/-- Expanded nodes that answer alike. -/
theorem Alongside.ahead {p p' : Bool} {P : KnvNode → Prop} {e m m' : KnvNode}
    (h : Alongside p' (Reach P e) m m') (hkey : decide (m.key.val ≠ []) = p')
    (hm : ∀ s, m.matchRefs s = e.matchRefs s) : Ahead p P m m' := by
  have hnum : m.child_num ≠ none := by
    rw [h.listed.child_num]
    exact Option.some_ne_none _
  have hnum' : m'.child_num ≠ none := by
    rw [h.shape.child_num]
    exact hnum
  refine ahead_intro h.face (fun he => absurd he hnum') fun req _ _ => ?_
  rw [innerExpand_expanded hnum, innerExpand_expanded hnum', hkey]
  have hreach : Reach P m = Reach P e := by
    funext r s
    rw [Reach, Reach, hm]
  rw [hreach]
  exact h

/-- **A request that is put to both sides** is answered alike, and they stay alike. -/
theorem Ahead.answer (no_empty : Bool) (req : KnvNode) : ∀ {p : Bool} {P : KnvNode → Prop},
    P req → AnswersAlike p P (innerGetSubTree no_empty req p) := by
  generalize hsz : sizeOf req = size
  induction size using Nat.strongRecOn generalizing req with
  | ind size ih =>
    intro p P hP n n' h
    have hopen := fun ho => h.alongside hP ho
    obtain ⟨d, metalist, childlist⟩ := req
    have hsub : ∀ s ∈ childlist, sizeOf s < size := by
      intro s hs
      have hlt := List.sizeOf_lt_of_mem hs
      rw [← hsz, KnvNode.mk.sizeOf_spec]
      omega
    have hkey : (n.innerExpand p (!d.child_has_key)).key = n.key :=
      (sameFace_innerExpand n p (!d.child_has_key)).2.2
    rw [innerGetSubTree, innerGetSubTree, h.face.copyWithKey]
    generalize hreq : (⟨d, metalist, childlist⟩ : KnvNode) = req at hopen hP
    by_cases hask : (!req.isString && decide (req.getIntVal = 0)) = true
    · rw [if_pos hask, if_pos hask]
      exact ⟨rfl, h⟩
    · rw [if_neg hask, if_neg hask]
      by_cases hnum : d.child_num.getD 0 = 0
      · rw [if_pos hnum, if_pos hnum]
        cases n.copyWithKey with
        | none => exact ⟨rfl, h⟩
        | some out => exact ⟨rfl, h⟩
      · rw [if_neg hnum, if_neg hnum]
        have ha := hopen ⟨hask, by rw [← hreq]; exact hnum⟩
        have hflag : req.child_has_key = d.child_has_key := by rw [← hreq]
        rw [hflag] at ha
        -- what the loop finds in the children is known by induction
        have hget : ∀ s ∈ childlist, ∀ r ∈ (n.innerExpand p (!d.child_has_key)).matchRefs s,
            AnswersAlike (n.key.val ≠ []) (Reach P (n.innerExpand p (!d.child_has_key)) r)
              (innerGetSubTree no_empty s (n.key.val ≠ [])) := by
          intro s hs r hr
          refine ih (sizeOf s) (hsub s hs) s rfl ⟨req, hP, ⟨hask, ?_⟩, ?_, hr⟩
          · rw [← hreq]
            exact hnum
          · rw [← hreq]
            exact hs
        have hstay : ∀ {m m' : KnvNode}, Alongside (n.key.val ≠ [])
            (Reach P (n.innerExpand p (!d.child_has_key))) m m' → m.key = n.key →
            (∀ s, m.matchRefs s = (n.innerExpand p (!d.child_has_key)).matchRefs s) →
            Ahead p P m m' := fun hm hk hr => hm.ahead (by rw [hk]) hr
        have hself := hstay ha hkey fun _ => rfl
        generalize n.innerExpand p (!d.child_has_key) = e at ha hget hstay hkey hself
        generalize n'.innerExpand p (!d.child_has_key) = e' at ha hself
        simp only [requestMeta_congr ha.face.dupEmptyNode ha.shape.metas ha.shape.metalist,
          ha.shape.child_num]
        by_cases hnone : e.child_num.getD 0 = 0
        · rw [if_pos hnone, if_pos hnone]
          split
          · exact ⟨rfl, hself⟩
          · cases req.copyWithKey with
            | none => exact ⟨rfl, hself⟩
            | some empty => exact ⟨rfl, hself⟩
        · rw [if_neg hnone, if_neg hnone]
          cases metalist.foldlM (requestMeta e) none with
          | error code => exact ⟨rfl, hself⟩
          | ok out =>
            have hstart : AlongFound (n.key.val ≠ []) (Reach P e) e.matchRefs ⟨e, out, none⟩
                ⟨e', out, none⟩ := ⟨ha, fun _ => rfl, by rw [hkey], rfl, rfl⟩
            have hl := hstart.subRequests no_empty req childlist hget
            have hk : (dataOf (subRequests no_empty req childlist ⟨e, out, none⟩)).key = n.key := by
              obtain ⟨l, he, _⟩ := subRequests_passed no_empty req childlist ⟨e, out, none⟩
              rw [he]
              exact hkey
            simp only
            generalize subRequests no_empty req childlist ⟨e, out, none⟩ = q at hl hk
            generalize subRequests no_empty req childlist ⟨e', out, none⟩ = q' at hl
            cases hl with
            | error code hl hm => exact ⟨rfl, hstay hl hk hm⟩
            | ok hl => exact ⟨by simp only [hl.out, hl.empty], hstay hl.data hk hl.matchRefs⟩

/-! ## The loops, on one side -/

/-- **The requests in `R` and in `P` do not differ about the mode of a node** that both go into, or no
    child of it begins with a key; and so on for the children that both of them reach. -/
inductive Agree : Bool → (KnvNode → Prop) → (KnvNode → Prop) → KnvNode → Prop
  | mk {p : Bool} {R P : KnvNode → Prop} {n : KnvNode}
    (mode : ∀ r s, R r → Opens r → P s → Opens s →
      r.child_has_key = s.child_has_key ∨ NoKeys n.pending.1)
    (children : ∀ r s, R r → Opens r → P s → Opens s →
      ∀ c ∈ (n.innerExpand p (!s.child_has_key)).childlist,
        Agree (n.key.val ≠ []) (Reach R (n.innerExpand p (!s.child_has_key)) c.ref)
          (Reach P (n.innerExpand p (!s.child_has_key)) c.ref) c) : Agree p R P n

/-- What `get` leaves of the right one answers as before. -/
def KeepsAhead (p : Bool) (P : KnvNode → Prop) (c : KnvNode) (get : KnvNode → SubTrees) : Prop :=
  ∀ c', Ahead p P c c' → Ahead p P c (get c').1

/-- The left node `e` is expanded, or would be; the right one is visited. -/
structure OnRight (p : Bool) (Q : Nat → KnvNode → Prop) (e n' : KnvNode) : Prop extends
    Alongside p Q e n' where
  listed' : Listed n'

section RightLoops

variable {p : Bool} {Q : Nat → KnvNode → Prop} {e : KnvNode} (no_empty : Bool) (req_tree : KnvNode)

omit e in
/-- The data after a visit. -/
theorem dataOf_visit (get : KnvNode → SubTrees) (st : Found) (r : Nat) :
    dataOf (visit no_empty req_tree get st r) = match findRef st.data.childlist r with
      | none => st.data
      | some c => { st.data with childlist := replaceRef (get c).1 st.data.childlist } := by
  rw [visit]
  cases findRef st.data.childlist r with
  | none => rfl
  | some c =>
    simp only
    generalize get c = q
    obtain ⟨c', res⟩ := q
    cases res with
    | error e => rfl
    | ok o => rfl

omit e in
theorem dataOf_missed (sub_req : KnvNode) (st : Found) :
    dataOf (missed no_empty req_tree sub_req st) = st.data := by
  rw [missed]
  split
  · rfl
  · cases sub_req.innerDuplicate true with
    | none => rfl
    | some c => rfl

/-- A child of the right node is visited. -/
theorem OnRight.replaceRef {n' c' x' : KnvNode} (h : OnRight p Q e n') (hc' : c' ∈ n'.childlist)
    (hx' : SameFace c' x') (hget : ∀ c ∈ e.childlist, c.ref = c'.ref → Ahead p (Q c.ref) c c' →
      Ahead p (Q c.ref) c x') :
    OnRight p Q e { n' with childlist := KnvNode.replaceRef x' n'.childlist } := by
  obtain ⟨href, htag, hk⟩ := hx'
  have hid : ident x' = ident c' := by rw [ident, ident, href, htag, hk]
  have hpass : SameIndex n' { n' with childlist := KnvNode.replaceRef x' n'.childlist } :=
    ⟨rfl, rfl, Nat.le_refl _, map_ident_replaceRef h.listed'.nodup hc' hid, rfl⟩
  refine ⟨⟨h.face.with_list _, ⟨h.shape.child_num, h.shape.child_has_key, h.shape.next_ref, h.shape.metalist, h.shape.metas,
      h.shape.ht⟩, h.listed, ?_⟩, hpass.listed h.listed'⟩
  show List.Forall₂ _ e.childlist (KnvNode.replaceRef x' n'.childlist)
  rw [KnvNode.replaceRef, List.forall₂_map_right_iff]
  have hall : List.Forall₂ (fun y c => y ∈ n'.childlist ∧ c ∈ e.childlist ∧ Ahead p (Q c.ref) c y)
      n'.childlist e.childlist := by
    refine (List.forall₂_and_left _ _).mpr ⟨fun y hy => hy, ?_⟩
    exact ((List.forall₂_and_left _ _).mpr ⟨fun c hc => hc, h.children⟩).flip
  refine hall.flip.imp fun c y hcy => ?_
  obtain ⟨hy, hc, hcy⟩ := hcy
  by_cases he : y.ref = x'.ref
  · -- the visited child is the only one with its pointer
    have hyc : y = c' := List.inj_on_of_nodup_map h.listed'.nodup hy hc' (he.trans href)
    rw [if_pos he]
    rw [hyc] at hcy
    exact hget c hc hcy.face.ref.symm hcy
  · rw [if_neg he]
    exact hcy

theorem OnRight.visit {get : KnvNode → SubTrees} (hkeeps : ∀ x, SameFace x (get x).1) {r : Nat}
    (hget : ∀ c ∈ e.childlist, c.ref = r → KeepsAhead p (Q r) c get) {st : Found}
    (h : OnRight p Q e st.data) : OnRight p Q e (dataOf (visit no_empty req_tree get st r)) := by
  rw [dataOf_visit]
  cases hf : findRef st.data.childlist r with
  | none => exact h
  | some c' =>
    refine h.replaceRef (List.mem_of_find?_eq_some hf) (hkeeps c') fun c hc he ha => ?_
    have hr := he.trans (ref_of_findRef hf)
    rw [hr] at ha ⊢
    exact hget c hc hr c' ha

theorem OnRight.visits {get : KnvNode → SubTrees} (hkeeps : ∀ x, SameFace x (get x).1)
    (refs : List Nat) (hget : ∀ r ∈ refs, ∀ c ∈ e.childlist, c.ref = r → KeepsAhead p (Q r) c get) :
    ∀ {st : Found}, OnRight p Q e st.data →
      OnRight p Q e (dataOf (refs.foldlM (KnvNode.visit no_empty req_tree get) st)) := by
  induction refs with
  | nil => exact fun h => h
  | cons r refs ih =>
    intro st h
    have hv := h.visit no_empty req_tree hkeeps (hget r List.mem_cons_self)
    rw [List.foldlM_cons]
    generalize KnvNode.visit no_empty req_tree get st r = q at hv
    cases q with
    | error er => exact hv
    | ok st' => exact ih (fun x hx => hget x (List.mem_cons_of_mem _ hx)) hv

/-- The loop over the children of a request that is put to the right side. -/
theorem OnRight.subRequests (l : List KnvNode)
    (hget : ∀ s ∈ l, ∀ r ∈ e.matchRefs s, ∀ c ∈ e.childlist, c.ref = r →
      KeepsAhead p (Q r) c (innerGetSubTree no_empty s p)) :
    ∀ {st : Found}, OnRight p Q e st.data → decide (st.data.key.val ≠ []) = p →
      OnRight p Q e (dataOf (subRequests no_empty req_tree l st)) := by
  induction l with
  | nil =>
    intro st h _
    rw [KnvNode.subRequests]
    exact h
  | cons s l ih =>
    intro st h hkey
    rw [KnvNode.subRequests]
    simp only [h.matchRefs, hkey]
    have hv : OnRight p Q e (dataOf (if e.matchRefs s = [] then missed no_empty req_tree s st
        else (e.matchRefs s).foldlM (KnvNode.visit no_empty req_tree (innerGetSubTree no_empty s p)) st)) ∧
        (dataOf (if e.matchRefs s = [] then missed no_empty req_tree s st
        else (e.matchRefs s).foldlM (KnvNode.visit no_empty req_tree (innerGetSubTree no_empty s p)) st)).key =
          st.data.key := by
      split
      · rw [dataOf_missed]
        exact ⟨h, rfl⟩
      · obtain ⟨l', he, _⟩ := visits_passed no_empty req_tree (innerGetSubTree no_empty s p)
          (e.matchRefs s) st
        exact ⟨OnRight.visits no_empty req_tree (keepsHeads no_empty s p) (e.matchRefs s)
          (hget s List.mem_cons_self) h, by rw [he]⟩
    generalize (if e.matchRefs s = [] then missed no_empty req_tree s st
      else (e.matchRefs s).foldlM (KnvNode.visit no_empty req_tree (innerGetSubTree no_empty s p)) st) = q
      at hv ⊢
    cases q with
    | error er => exact hv.1
    | ok st' =>
      refine ih (fun x hx => hget x (List.mem_cons_of_mem _ hx)) hv.1 ?_
      rw [show st'.data.key = st.data.key from hv.2]
      exact hkey

omit e in
/-- What a request does to the data, if it goes in. -/
theorem innerGetSubTree_cases (p : Bool) (data : KnvNode) :
    (innerGetSubTree no_empty req_tree p data).1 = data ∨
    Opens req_tree ∧
      ((innerGetSubTree no_empty req_tree p data).1 = data.innerExpand p (!req_tree.child_has_key) ∨
      ∃ out, (innerGetSubTree no_empty req_tree p data).1 = dataOf (KnvNode.subRequests no_empty req_tree
        req_tree.childlist ⟨data.innerExpand p (!req_tree.child_has_key), out, none⟩)) := by
  obtain ⟨d, metalist, childlist⟩ := req_tree
  rw [innerGetSubTree]
  show _ ∨ _ ∧ (_ = data.innerExpand p (!d.child_has_key) ∨ ∃ out, _ = dataOf
    (KnvNode.subRequests no_empty ⟨d, metalist, childlist⟩ childlist
      ⟨data.innerExpand p (!d.child_has_key), out, none⟩))
  generalize data.innerExpand p (!d.child_has_key) = e
  by_cases hask : (!(⟨d, metalist, childlist⟩ : KnvNode).isString &&
      decide ((⟨d, metalist, childlist⟩ : KnvNode).getIntVal = 0)) = true
  · rw [if_pos hask]
    exact .inl rfl
  · rw [if_neg hask]
    by_cases hnum : d.child_num.getD 0 = 0
    · rw [if_pos hnum]
      cases data.copyWithKey with
      | none => exact .inl rfl
      | some out => exact .inl rfl
    · rw [if_neg hnum]
      refine .inr ⟨⟨hask, hnum⟩, ?_⟩
      generalize (⟨d, metalist, childlist⟩ : KnvNode) = req
      simp only
      split
      · split
        · exact .inl rfl
        · cases req.copyWithKey with
          | none => exact .inl rfl
          | some empty => exact .inl rfl
      · cases metalist.foldlM (requestMeta e) none with
        | error code => exact .inl rfl
        | ok out =>
          refine .inr ⟨out, ?_⟩
          simp only
          cases KnvNode.subRequests no_empty req childlist ⟨e, out, none⟩ with
          | error er => rfl
          | ok st => rfl

end RightLoops

theorem Shape.sameIndex {n n' : KnvNode} (h : Shape n n')
    (hlist : n'.childlist.map ident = n.childlist.map ident) : SameIndex n n' :=
  ⟨h.child_num, h.child_has_key, Nat.le_of_eq h.next_ref.symm, hlist, h.ht⟩

/-- What a request of `P` finds on the right after it has been opened by a request that agrees. -/
theorem Ahead.onRight {p : Bool} {R P : KnvNode → Prop} {n n' r s : KnvNode} (h : Ahead p P n n')
    (hagree : Agree p R P n) (hR : R r) (hr : Opens r) (hP : P s) (hs : Opens s) :
    OnRight (n.key.val ≠ []) (Reach P (n.innerExpand p (!s.child_has_key)))
      (n.innerExpand p (!s.child_has_key)) (n'.innerExpand p (!r.child_has_key)) := by
  have ha : Alongside (n.key.val ≠ []) (Reach P (n.innerExpand p (!s.child_has_key)))
      (n.innerExpand p (!s.child_has_key)) (n'.innerExpand p (!r.child_has_key)) := by
    by_cases hnum : n'.child_num = none
    · -- nobody has been here before: the mode is the one of `r`
      have htwin := h.twin hnum
      cases hagree with
      | mk mode _ =>
        have hmode := mode r s hR hr hP hs
        have hk : (!s.child_has_key) = (!r.child_has_key) ∨ NoKeys n.pending.1 :=
          hmode.imp_left fun he => by rw [he]
        obtain ⟨hshape, hc⟩ := htwin.innerExpand p hk
        exact ⟨h.face.innerExpand p _ _, hshape, (htwin.children p _).1,
          hc.imp fun c c' hcc => hcc.ahead _ _⟩
    · have ha := h.alongside hP hs
      rw [innerExpand_expanded hnum] at ha ⊢
      exact ha
  exact ⟨ha, (ha.shape.sameIndex ha.children.idents).listed ha.listed⟩

/-- **A request that is put to the right side only** does not change what it answers to the others. -/
theorem Ahead.right (no_empty : Bool) (req : KnvNode) : ∀ {p : Bool} {R P : KnvNode → Prop}
    {n n' : KnvNode}, R req → Agree p R P n → Ahead p P n n' →
      Ahead p P n (innerGetSubTree no_empty req p n').1 := by
  generalize hsz : sizeOf req = size
  induction size using Nat.strongRecOn generalizing req with
  | ind size ih =>
    intro p R P n n' hR hagree h
    have hsub : ∀ s ∈ req.childlist, sizeOf s < size := by
      intro s hs
      have hlt := List.sizeOf_lt_of_mem hs
      obtain ⟨d, metalist, childlist⟩ := req
      rw [← hsz, KnvNode.mk.sizeOf_spec]
      replace hlt : sizeOf s < sizeOf childlist := hlt
      omega
    rcases innerGetSubTree_cases no_empty req p n' with he | ⟨ho, hdata⟩
    · rw [he]
      exact h
    · -- what the other requests find, before and after the loop
      have hstart : ∀ s, P s → Opens s → OnRight (n.key.val ≠ [])
          (Reach P (n.innerExpand p (!s.child_has_key))) (n.innerExpand p (!s.child_has_key))
          (n'.innerExpand p (!req.child_has_key)) := fun s hP hs => h.onRight hagree hR ho hP hs
      have hloop : ∀ out s, P s → Opens s → OnRight (n.key.val ≠ [])
          (Reach P (n.innerExpand p (!s.child_has_key))) (n.innerExpand p (!s.child_has_key))
          (dataOf (subRequests no_empty req req.childlist
            ⟨n'.innerExpand p (!req.child_has_key), out, none⟩)) := by
        intro out s hP hs
        refine OnRight.subRequests no_empty req req.childlist ?_ (hstart s hP hs) ?_
        · intro s₁ hs₁ r hr c hc href c' hcc
          cases hagree with
          | mk _ children =>
            have hchild := children req s hR ho hP hs c hc
            rw [href] at hchild
            exact ih (sizeOf s₁) (hsub s₁ hs₁) s₁ rfl ⟨req, hR, ho, hs₁, hr⟩ hchild hcc
        · show decide ((n'.innerExpand p (!req.child_has_key)).key.val ≠ []) = decide (n.key.val ≠ [])
          rw [(sameFace_innerExpand n' p _).2.2, h.face.key]
      have hnum := innerExpand_num n' p (!req.child_has_key)
      have hend : ∀ {m : KnvNode}, Face n m → m.child_num ≠ none → (∀ s, P s → Opens s →
          OnRight (n.key.val ≠ []) (Reach P (n.innerExpand p (!s.child_has_key)))
            (n.innerExpand p (!s.child_has_key)) m) → Ahead p P n m := by
        intro m hface hm hall
        refine ahead_intro hface (fun he => absurd he hm) fun s hP hs => ?_
        rw [innerExpand_expanded hm]
        exact (hall s hP hs).toAlongside
      rcases hdata with he | ⟨out, he⟩
      · rw [he]
        exact hend (h.face.opened p _) hnum hstart
      · have hpass := subRequests_passed no_empty req req.childlist
          ⟨n'.innerExpand p (!req.child_has_key), out, none⟩
        have hall := hloop out
        rw [he]
        obtain ⟨l, hl, _⟩ := hpass
        rw [hl] at hall ⊢
        exact hend ((h.face.opened p _).with_list l) hnum hall

/-! ## Reading twice -/

/-- The request is one for this root. -/
def Meets (data req_tree : KnvNode) : Prop :=
  req_tree.tag ≠ 0 ∧ ¬ (data.tag ≠ req_tree.tag ∨ (req_tree.key.val ≠ [] ∧ data.key ≠ req_tree.key))

theorem getSubTree_of_meets {data req_tree : KnvNode} (h : Meets data req_tree) (no_empty : Bool) :
    data.getSubTree req_tree no_empty = innerGetSubTree no_empty req_tree false data := by
  rw [getSubTree, if_neg h.1, if_neg h.2]

/-- A request for another root changes nothing. -/
theorem getSubTree_of_not_meets {data req_tree : KnvNode} (h : ¬ Meets data req_tree) (no_empty : Bool) :
    data.getSubTree req_tree no_empty =
      (data, if req_tree.tag = 0 then .error (-1) else .ok (none, none)) := by
  rw [getSubTree]
  by_cases h0 : req_tree.tag = 0
  · rw [if_pos h0, if_pos h0]
  · rw [if_neg h0, if_neg h0, if_pos]
    by_contra hne
    exact h ⟨h0, hne⟩

/-- The root, as a request for it. -/
def RootOf (data req_tree : KnvNode) : KnvNode → Prop := fun r => r = req_tree ∧ Meets data req_tree

/-- What a request leaves answers as before. -/
theorem Ahead.getSubTree {P : KnvNode → Prop} {n r₁ : KnvNode} (h : Ahead false P n n)
    (hagree : Agree false (RootOf n r₁) P n) (no_empty : Bool) :
    Ahead false P n (n.getSubTree r₁ no_empty).1 := by
  by_cases hm : Meets n r₁
  · rw [getSubTree_of_meets hm]
    exact Ahead.right no_empty r₁ ⟨rfl, hm⟩ hagree h
  · rw [getSubTree_of_not_meets hm]
    exact h

theorem newFromData_twin {data : List UInt8} {n : KnvNode} (h : newFromData data = .ok n) :
    Twin n n := by
  rw [newFromData] at h
  cases hb : pbBegin data with
  | error e =>
    rw [hb] at h
    cases h
  | ok q =>
    obtain ⟨f, rest⟩ := q
    rw [hb] at h
    cases h
    exact ⟨(f, data.length - rest.length), 0, false, false, rfl, rfl, .inl rfl⟩

/-- What a caller sees of a child that was found. -/
def shown (c : KnvNode) : Nat × UInt32 × KnvKey × FieldVal := (c.ref, c.tag, c.key, c.val)

theorem Face.shown {n n' : KnvNode} (h : Face n n') : n'.shown = n.shown := by
  rw [KnvNode.shown, KnvNode.shown, h.ref, h.tag, h.key, h.val]

/-- A request that goes in with keys, and nowhere else: it finds what `FindChild` finds. -/
def probe : KnvNode :=
  { initNode 11 (.string []) true 0 false with child_num := some 1, child_has_key := true }

theorem opens_probe : Opens probe := ⟨by decide, by decide⟩

theorem Ahead.findChild {n n' : KnvNode} (h : Ahead false (· = probe) n n') (t : UInt32)
    (k : List UInt8) : (n'.findChild t k).map shown = (n.findChild t k).map shown := by
  have ha := h.alongside rfl opens_probe
  rw [KnvNode.findChild, KnvNode.findChild, h.face.tag]
  split
  · rfl
  · replace ha : Alongside (n.key.val ≠ []) (Reach (· = probe) (n.innerExpand false false))
      (n.innerExpand false false) (n'.innerExpand false false) := ha
    simp only [ha.shape.child_num, ha.shape.ht, childView_of_idents ha.children.idents]
    split
    · rfl
    · cases KnvHt.get (n.innerExpand false false).childView (n.innerExpand false false).ht t k with
      | none => rfl
      | some r =>
        rw [Option.bind_some, Option.bind_some]
        rcases findRef_forall₂ (fun hc => hc.face.ref) ha.children r with ⟨hf, hf'⟩ | ⟨c, c', hf, hf', hc⟩
        · rw [hf, hf']
        · rw [hf, hf']
          exact congrArg some hc.face.shown

/-- **Reading a sub tree does not change later answers** if the later request agrees with it about the
    modes, and `FindChild` finds the same child if the root was not expanded without its keys. -/
theorem getSubTree_reread {data : List UInt8} {n : KnvNode} (h : newFromData data = .ok n)
    (r₁ : KnvNode) (no_empty₁ : Bool) :
    (∀ r₂ no_empty₂, Agree false (RootOf n r₁) (RootOf n r₂) n →
      ((n.getSubTree r₁ no_empty₁).1.getSubTree r₂ no_empty₂).2 = (n.getSubTree r₂ no_empty₂).2) ∧
    ((Meets n r₁ → Opens r₁ → r₁.child_has_key = true ∨ NoKeys n.pending.1) →
      ∀ t k, ((n.getSubTree r₁ no_empty₁).1.findChild t k).map shown = (n.findChild t k).map shown) := by
  have htwin := newFromData_twin h
  constructor
  · intro r₂ no_empty₂ hagree
    have ha := (htwin.ahead false (RootOf n r₂)).getSubTree hagree no_empty₁
    have hmeets : Meets (n.getSubTree r₁ no_empty₁).1 r₂ ↔ Meets n r₂ := by
      rw [Meets, Meets, ha.face.tag, ha.face.key]
    by_cases hm : Meets n r₂
    · rw [getSubTree_of_meets (hmeets.mpr hm), getSubTree_of_meets hm]
      exact (Ahead.answer no_empty₂ r₂ (P := RootOf n r₂) ⟨rfl, hm⟩ _ _ ha).1
    · rw [getSubTree_of_not_meets (hmeets.not.mpr hm), getSubTree_of_not_meets hm]
  · intro hkeys t k
    refine Ahead.findChild ((htwin.ahead false (· = probe)).getSubTree ?_ no_empty₁) t k
    refine .mk ?_ ?_
    · rintro r s ⟨rfl, hm⟩ ho rfl _
      exact hkeys hm ho
    · rintro r s _ _ rfl _ c _
      refine .mk ?_ ?_
      all_goals
        rintro r' s' _ _ ⟨req, rfl, _, hmem, _⟩
        exact absurd hmem List.not_mem_nil

/-- A root with one child, which has the key 7. -/
def keyedData : List UInt8 := [0x5a, 4, 0x62, 2, 8, 7]

/-- The key 7. -/
def keySeven : List UInt8 := [7, 0, 0, 0, 0, 0, 0, 0]

/-- The child is asked for by its tag, -/
def byTag : Except KnvError KnvNode := do
  return (← (← newTree 11 none).insertIntLeaf 12 1).1

/-- or by its tag and its key. -/
def byKey : Except KnvError KnvNode := do
  return (← (← newTree 11 none).insertSubNode 12 (some (.varint 7))).1

/-- Requests whose children do not go any further. -/
theorem agree_flat {p : Bool} {R P : KnvNode → Prop} {n : KnvNode}
    (mode : ∀ r s, R r → P s → r.child_has_key = s.child_has_key)
    (flat : ∀ r, R r → ∀ s ∈ r.childlist, ¬ Opens s) : Agree p R P n := by
  refine .mk (fun r s hR _ hP _ => .inl (mode r s hR hP)) fun r s _ _ _ _ c _ => ?_
  refine .mk ?_ ?_
  all_goals
    rintro r' s' ⟨req, hR, _, hmem, _⟩ ho
    exact absurd ho (flat req hR r' hmem)

theorem getSubTree_reread_byKey : ∃ n r, newFromData keyedData = .ok n ∧ byKey = .ok r ∧
    ((n.getSubTree r false).1.getSubTree r false).2 = (n.getSubTree r false).2 ∧
    ((n.getSubTree r false).1.findChild 12 keySeven).map shown = (n.findChild 12 keySeven).map shown := by
  obtain ⟨n, hn⟩ : ∃ n, newFromData keyedData = .ok n := ⟨_, rfl⟩
  obtain ⟨r, hr, hkey, hflat⟩ : ∃ r, byKey = .ok r ∧ r.child_has_key = true ∧
      ∀ s ∈ r.childlist, s.child_num.getD 0 = 0 := ⟨_, rfl, rfl, by decide +kernel⟩
  refine ⟨n, r, hn, hr, ?_, ?_⟩
  · refine (getSubTree_reread hn r false).1 r false (agree_flat ?_ ?_)
    · rintro r₁ r₂ ⟨rfl, _⟩ ⟨rfl, _⟩
      rfl
    · rintro r₁ ⟨rfl, _⟩ s hs ho
      exact ho.2 (hflat s hs)
  · exact (getSubTree_reread hn r false).2 (fun _ _ => .inl hkey) 12 keySeven

/-- Asked for by its tag, the child has no key any more: it is not found by its key, neither by
    `FindChild` nor by the next request. -/
theorem getSubTree_hides_key : ∃ n r₁ r₂, newFromData keyedData = .ok n ∧ byTag = .ok r₁ ∧
    byKey = .ok r₂ ∧
    (n.findChild 12 keySeven).map shown ≠ ((n.getSubTree r₁ false).1.findChild 12 keySeven).map shown ∧
    (∃ out, (n.getSubTree r₂ false).2 = .ok (some out, none)) ∧
    ∃ empty, ((n.getSubTree r₁ false).1.getSubTree r₂ false).2 = .ok (none, some empty) := by
  refine ⟨_, _, _, rfl, rfl, rfl, ?_, ⟨_, rfl⟩, ⟨_, rfl⟩⟩
  intro h
  have hs := congrArg Option.isSome h
  rw [Option.isSome_map, Option.isSome_map] at hs
  revert hs
  decide +kernel

end KnvNode

end MysqlProxy
