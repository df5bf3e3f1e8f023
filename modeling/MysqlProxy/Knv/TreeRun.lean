/-
  The builder, call by call.

  A run starts with `NewTree` and makes one call after the other, each on some node of the tree that
  `NewTree` or `InsertSubNode` has made.  The state is the root in memory together with the tree it is
  MEANT to be, which the calls edit in the obvious way.

  * In every state the memory is the tree that is meant (`BuildState.run_means`), and every call
    that makes sense succeeds.
  * `Shows n t`: a reader who walks over the fields of `n` sees the tree `t`.  Every tree whose tags
    are in range comes back from its bytes (`shows_ofField`); the induction is on the tree, because
    the value of a node is the concatenation of its fields.
-/
import MysqlProxy.Knv.TreeEdit
import MysqlProxy.Lib.Run

namespace MysqlProxy

namespace KnvNode

/-! ## New nodes -/

theorem newNode_leaf {tag : UInt32} (h : tag ≠ 0) (val : FieldVal) :
    newNode tag none val = .ok (initNode tag val true 0 false) := by
  unfold newNode
  simp only [if_neg h]
  rfl

theorem means_leaf {tag : UInt32} (h : tag ≠ 0) (val : FieldVal) :
    Means (initNode tag val true 0 false) (.leaf ⟨tag, val⟩) :=
  .leaf (initNode_leaf (f := ⟨tag, val⟩) h false)

/-- **`NewTree` makes a node with no fields but the key.** -/
theorem means_newTree {tag : UInt32} (htag : tag ≠ 0) {key : Option FieldVal}
    (hkey : ∀ k, key = some k → KeyOk k) :
    ∃ n, newTree tag key = .ok n ∧ Means n (.node tag key [] []) := by
  have hempty : Trunk (initNode tag (.string []) true 0 false) tag none [] (List.map Tree.field []) :=
    ⟨⟨rfl, htag, rfl, rfl, rfl, (fun _ h => nomatch h), .nil,
      ⟨fun h => absurd rfl h, fun h => absurd rfl h⟩⟩, rfl, rfl, rfl⟩
  cases key with
  | none => exact ⟨_, newNode_leaf htag _, means_node.mpr ⟨hempty, .nil⟩⟩
  | some k =>
    obtain ⟨hne, hget⟩ := (hkey k rfl).init
    -- the node with the new key member, still without the meta
    generalize hn₁ : ({ initNode tag (.string []) true 0 false with key := KnvKey.init k } :
      KnvNode) = n₁
    have hnil : n₁.metalist = [] := by rw [← hn₁]; rfl
    have hexp : n₁.innerExpand false false = n₁ :=
      innerExpand_expanded (by rw [← hn₁]; exact fun he => nomatch he) _ _
    have hset := setMeta_new (n := n₁) (f := ⟨1, k⟩) (by rw [← hn₁]; exact htag)
      (by rw [← hn₁]; rfl) hexp (show (1 : UInt32).toNat ≤ 10 by decide)
      (by unfold getMeta; simp only [hexp, hnil, if_true, ite_self])
    refine ⟨(edited (n₁.hangMeta (initNode 1 k true 0 true) true) (⟨1, k⟩ : PbField).size).1, ?_, ?_⟩
    · show newNode tag (some k) (.string []) = .ok _
      unfold newNode
      simp only [if_neg htag]
      show (if (KnvKey.init k).val = [] then _ else _) = _
      rw [if_neg hne, hget, hn₁, hset]
      rfl
    · have hmetas : MetasOk n₁ := ⟨fun h => absurd hnil h, fun h => absurd hnil h⟩
      have hbr : Branch (n₁.hangMeta (initNode 1 k true 0 true) true) tag (some k) []
          (List.map Tree.field []) := by
        refine ⟨by rw [← hn₁]; rfl, htag, by rw [← hn₁]; rfl, by rw [← hn₁]; rfl,
          by rw [← hn₁]; rfl, hkey, ?_, hmetas.hangMeta _ true⟩
        show List.Forall₂ Leaf (_ :: n₁.metalist) _
        rw [hnil]
        exact .cons ((initNode_leaf (f := ⟨1, k⟩) (show (1 : UInt32) ≠ 0 by decide) true).with_ref n₁.next_ref) .nil
      have hlen : ((0 : Nat) : Int) + (⟨1, k⟩ : PbField).size =
          (messageBytes (Tree.keyFields (some k) ++ [] ++ List.map Tree.field [])).length := by
        rw [length_messageBytes]
        simp [Tree.keyFields]
      obtain ⟨htr, hlist, _⟩ := trunk_edited hbr (by rw [← hn₁]; rfl) (by rw [← hn₁]; rfl) hlen
      refine means_node.mpr ⟨htr, ?_⟩
      rw [hlist, ← hn₁]
      exact .nil

end KnvNode

open KnvNode

/-! ## Calls and runs -/

/-- The calls of the builder. -/
inductive BuildOp where
  | insertSubNode (tag : UInt32) (key : Option FieldVal)
  | insertIntLeaf (tag : UInt32) (val : UInt64)
  | insertStrLeaf (tag : UInt32) (val : List UInt8)
  | setMetaInt (tag : UInt32) (val : UInt64)
  | setMetaStr (tag : UInt32) (val : List UInt8)
  | addMetaInt (tag : UInt32) (val : UInt64)
  | addMetaStr (tag : UInt32) (val : List UInt8)
  | removeField (tag : UInt32)

namespace BuildOp

/-- What a call does to the node it is made on. -/
def exec : BuildOp → KnvNode → Except KnvError (KnvNode × List Int)
  | insertSubNode tag key, n => n.insertSubNode tag key
  | insertIntLeaf tag val, n => n.insertIntLeaf tag val
  | insertStrLeaf tag val, n => n.insertStrLeaf tag val
  | setMetaInt tag val, n => n.setMetaInt tag val
  | setMetaStr tag val, n => n.setMetaStr tag val
  | addMetaInt tag val, n => n.addMetaInt tag val
  | addMetaStr tag val, n => n.addMetaStr tag val
  | removeField tag, n => n.removeField tag

/-- What it is meant to do; `SetMeta` is only called for a meta that is not there yet. -/
def meant : BuildOp → Tree → Option Tree
  | insertSubNode tag key => Tree.insert (.node tag key [] [])
  | insertIntLeaf tag val => Tree.insert (.leaf ⟨tag, .varint val⟩)
  | insertStrLeaf tag val => Tree.insert (.leaf ⟨tag, .string val⟩)
  | setMetaInt tag val => Tree.setMeta ⟨tag, .varint val⟩
  | setMetaStr tag val => Tree.setMeta ⟨tag, .string val⟩
  | addMetaInt tag val => Tree.addMeta ⟨tag, .varint val⟩
  | addMetaStr tag val => Tree.addMeta ⟨tag, .string val⟩
  | removeField tag => Tree.removeField tag

/-- Tags of children. -/
def ChildTag (t : UInt32) : Prop := UC_MAX_META_NUM < t.toNat ∧ t.toNat < 2 ^ 29

/-- The arguments are in range. -/
def Allowed : BuildOp → Prop
  | insertSubNode tag key => ChildTag tag ∧ ∀ k, key = some k → KeyOk k
  | insertIntLeaf tag _ => ChildTag tag
  | insertStrLeaf tag _ => ChildTag tag
  | setMetaInt tag _ => MetaTag tag
  | setMetaStr tag _ => MetaTag tag
  | addMetaInt tag _ => MetaTag tag
  | addMetaStr tag _ => MetaTag tag
  | removeField tag => tag ≠ 1

theorem ChildTag.ne_zero {t : UInt32} (h : ChildTag t) : t ≠ 0 := by
  rintro rfl
  exact absurd h.1 (by decide)

/-- A new node as the last child. -/
theorem refines_insert {make : Except KnvError KnvNode} {c : KnvNode} {t : Tree}
    (hmake : make = .ok c) (hc : Means c t) :
    Refines (fun n => do n.insertNode (← make)) (Tree.insert t) := by
  subst hmake
  exact refines_insertNode hc

/-- **Every call does what it is meant to do.** -/
theorem refines_exec {op : BuildOp} (h : op.Allowed) : Refines op.exec op.meant := by
  cases op with
  | insertSubNode tag key =>
    obtain ⟨c, hnew, hc⟩ := means_newTree h.1.ne_zero h.2
    exact refines_insert hnew hc
  | insertIntLeaf tag val =>
    exact refines_insert (newNode_leaf (ChildTag.ne_zero h) _) (means_leaf (ChildTag.ne_zero h) _)
  | insertStrLeaf tag val =>
    exact refines_insert (newNode_leaf (ChildTag.ne_zero h) _) (means_leaf (ChildTag.ne_zero h) _)
  | setMetaInt tag val => exact refines_setMeta (f := ⟨tag, .varint val⟩) h
  | setMetaStr tag val => exact refines_setMeta (f := ⟨tag, .string val⟩) h
  | addMetaInt tag val => exact refines_addMeta (f := ⟨tag, .varint val⟩) h
  | addMetaStr tag val => exact refines_addMeta (f := ⟨tag, .string val⟩) h
  | removeField tag => exact refines_removeField h

end BuildOp

/-! ## Trees with tags in range -/

namespace Tree

/-- The tags are in range: metas from 2 to 10, children from 11 on. -/
inductive Ok : Tree → Prop
  | leaf {f : PbField} : 0 < f.tag.toNat → f.tag.toNat < 2 ^ 29 → Ok (.leaf f)
  | node {tag : UInt32} {key : Option FieldVal} {ms : List PbField} {ts : List Tree} :
    0 < tag.toNat → tag.toNat < 2 ^ 29 → (∀ k, key = some k → KeyOk k) →
    (∀ f ∈ ms, MetaTag f.tag) → (∀ t ∈ ts, UC_MAX_META_NUM < t.tag.toNat) → (∀ t ∈ ts, Ok t) →
    Ok (.node tag key ms ts)

theorem Ok.tag {t : Tree} (h : Ok t) : 0 < t.tag.toNat ∧ t.tag.toNat < 2 ^ 29 := by
  cases h with
  | leaf h0 h1 => exact ⟨h0, h1⟩
  | node h0 h1 => exact ⟨h0, h1⟩

/-- An edit that keeps the tags in range. -/
def Safe (e : Tree → Option Tree) : Prop := ∀ t t', e t = some t' → Ok t → Ok t' ∧ t'.tag = t.tag

theorem safe_editAt {e : Tree → Option Tree} (he : Safe e) (path : List Nat) : Safe (editAt e path) := by
  induction path with
  | nil => exact he
  | cons i path ih =>
    intro t t' ht hok
    cases hok with
    | leaf h0 h1 => cases ht
    | @node tag key ms ts h0 h1 hkey hms hts hok =>
      obtain ⟨c, hc, ht⟩ := Option.bind_eq_some_iff.mp ht
      obtain ⟨c', hc', rfl⟩ := Option.map_eq_some_iff.mp ht
      have hmem : c ∈ ts := List.mem_of_getElem? hc
      obtain ⟨hok', htag⟩ := ih c c' hc' (hok c hmem)
      refine ⟨.node h0 h1 hkey hms ?_ ?_, rfl⟩
      · intro x hx
        rcases List.mem_or_eq_of_mem_set hx with hx | rfl
        · exact hts x hx
        · rw [htag]
          exact hts c hmem
      · intro x hx
        rcases List.mem_or_eq_of_mem_set hx with hx | rfl
        · exact hok x hx
        · exact hok'

theorem safe_insert {c : Tree} (hc : Ok c) (htag : UC_MAX_META_NUM < c.tag.toNat) :
    Safe (Tree.insert c) := by
  intro t t' ht hok
  cases hok with
  | leaf h0 h1 => cases ht
  | @node tag key ms ts h0 h1 hkey hms hts hok =>
    cases ht
    refine ⟨.node h0 h1 hkey hms ?_ ?_, rfl⟩
    · exact List.forall_mem_append.mpr ⟨hts, List.forall_mem_singleton.mpr htag⟩
    · exact List.forall_mem_append.mpr ⟨hok, List.forall_mem_singleton.mpr hc⟩

theorem safe_addMeta {f : PbField} (hf : MetaTag f.tag) : Safe (Tree.addMeta f) := by
  intro t t' ht hok
  cases hok with
  | leaf h0 h1 => cases ht
  | @node tag key ms ts h0 h1 hkey hms hts hok =>
    cases ht
    exact ⟨.node h0 h1 hkey (List.forall_mem_append.mpr ⟨hms, List.forall_mem_singleton.mpr hf⟩)
      hts hok, rfl⟩

theorem safe_setMeta {f : PbField} (hf : MetaTag f.tag) : Safe (Tree.setMeta f) := by
  intro t t' ht hok
  cases t with
  | leaf g => cases ht
  | node tag key ms ts =>
    rw [Tree.setMeta] at ht
    split at ht
    · exact safe_addMeta hf _ t' ht hok
    · cases ht

theorem safe_removeField (tag : UInt32) : Safe (Tree.removeField tag) := by
  intro t t' ht hok
  cases hok with
  | leaf h0 h1 => cases ht
  | @node tg key ms ts h0 h1 hkey hms hts hok =>
    rw [Tree.removeField] at ht
    split at ht
    · cases ht
      exact ⟨.node h0 h1 hkey (fun f hf => hms f (List.mem_of_mem_filter hf)) hts hok, rfl⟩
    · cases ht
      exact ⟨.node h0 h1 hkey hms (fun c hc => hts c (List.mem_of_mem_filter hc))
        (fun c hc => hok c (List.mem_of_mem_filter hc)), rfl⟩

end Tree

theorem BuildOp.safe_meant {op : BuildOp} (h : op.Allowed) : Tree.Safe op.meant := by
  have hleaf : ∀ {tag : UInt32} (val : FieldVal), ChildTag tag →
      Tree.Safe (Tree.insert (.leaf ⟨tag, val⟩)) := fun val h =>
    Tree.safe_insert (.leaf (Nat.lt_trans (by decide) h.1) h.2) h.1
  cases op with
  | insertSubNode tag key =>
    have hpos : 0 < tag.toNat := Nat.lt_trans (by decide) h.1.1
    exact Tree.safe_insert (.node hpos h.1.2 h.2 (fun f hf => absurd hf List.not_mem_nil)
      (fun t ht => absurd ht List.not_mem_nil) fun t ht => absurd ht List.not_mem_nil) h.1.1
  | insertIntLeaf tag val => exact hleaf _ h
  | insertStrLeaf tag val => exact hleaf _ h
  | setMetaInt tag val => exact Tree.safe_setMeta h
  | setMetaStr tag val => exact Tree.safe_setMeta h
  | addMetaInt tag val => exact Tree.safe_addMeta h
  | addMetaStr tag val => exact Tree.safe_addMeta h
  | removeField tag => exact Tree.safe_removeField tag

/-! ## Reading a tree back -/

namespace KnvNode

/-- The walk over the fields of `n` shows the tree `t`: the same key, then the same metas, then the
    same children.  `p` says whether the parent of `n` has a key. -/
inductive Shows : Bool → KnvNode → Tree → Prop
  | leaf {p : Bool} {n : KnvNode} {f : PbField} : n.tag = f.tag → n.val = f.val → Shows p n (.leaf f)
  | node {p : Bool} {n : KnvNode} {tag : UInt32} {key : Option FieldVal} {ms : List PbField}
    {ts : List Tree} {metas children : List KnvNode} : n.tag = tag → n.key = keyOf key →
    n.fields p = metas ++ children →
    List.Forall₂ (fun m f => m.tag = f.tag ∧ m.val = f.val) metas (Tree.keyFields key ++ ms) →
    children.length = ts.length →
    (∀ i (h : i < children.length) (h' : i < ts.length),
      Shows (n.key.val ≠ []) (children.get ⟨i, h⟩) (ts.get ⟨i, h'⟩)) →
    Shows p n (.node tag key ms ts)

theorem str_le_size {tag : UInt32} {s : List UInt8} :
    s.length ≤ (⟨tag, .string s⟩ : PbField).size := by
  unfold PbField.size
  show _ ≤ pbEvalTagLength .string tag + pbEvalVintLength _ + s.length
  omega

/-- A string in a message that is not too long has a length of 32 bits. -/
theorem str_lt_of_mem {fs : List PbField} (hlen : (messageBytes fs).length < 2 ^ 31) {f : PbField}
    (hf : f ∈ fs) : ∀ str, f.val = .string str → str.length < 2 ^ 32 := by
  intro s hs
  have hle := size_le_of_mem hf
  have hstr : s.length ≤ f.size := by
    obtain ⟨tag, val⟩ := f
    cases hs
    exact str_le_size
  omega

/-- A field of a message that is not too long fits the wire. -/
theorem fieldOk_of_mem {fs : List PbField} (hlen : (messageBytes fs).length < 2 ^ 31) {f : PbField}
    (hf : f ∈ fs) (h0 : 0 < f.tag.toNat) (h1 : f.tag.toNat < 2 ^ 29) : FieldOk f.tag f.val :=
  ⟨h0, h1, str_lt_of_mem hlen hf⟩

/-- What is written as a field is written to a string. -/
theorem Writes.serializeString {n : KnvNode} {f : PbField} (h : Writes n f) :
    n.serializeString = .ok (fieldBytes f.tag f.val) := by
  have hlen : ((fieldBytes f.tag f.val).length : Int) = f.size := by rw [length_fieldBytes]; rfl
  unfold KnvNode.serializeString
  simp only [h.size, Int.toNat_natCast, h.bytes f.size (Nat.le_refl _), hlen]
  exact if_neg (not_not_intro rfl)

/-- The bytes of a field, read as a node. -/
theorem newFromData_fieldBytes {f : PbField} (hsize : f.size < 2 ^ 31) (h0 : 0 < f.tag.toNat)
    (h1 : f.tag.toNat < 2 ^ 29) : newFromData (fieldBytes f.tag f.val) =
      .ok (initNode f.tag f.val true f.size false) := by
  have hlen : (fieldBytes f.tag f.val).length = f.size := length_fieldBytes _ _
  have hmsg : (messageBytes [f]).length < 2 ^ 31 := by
    rw [length_messageBytes, List.map_singleton, List.sum_singleton]
    exact hsize
  have hok : FieldOk f.tag f.val := fieldOk_of_mem hmsg (List.mem_singleton_self f) h0 h1
  have hd := pbDecodeTag_fieldBytes hok []
  rw [List.append_nil] at hd
  unfold newFromData pbBegin
  rw [if_neg (by rw [hlen]; exact Nat.not_le.mpr hsize), hd]
  show Except.ok (initNode f.tag f.val true ((fieldBytes f.tag f.val).length - 0) false) = _
  rw [hlen, Nat.sub_zero]

/-- The fields of a node. -/
def nodeFields (key : Option FieldVal) (ms : List PbField) (ts : List Tree) : List PbField :=
  Tree.keyFields key ++ ms ++ ts.map Tree.field

theorem mem_nodeFields {key : Option FieldVal} {ms : List PbField} {ts : List Tree} {f : PbField} :
    f ∈ nodeFields key ms ts ↔ (∃ k, key = some k ∧ f = ⟨1, k⟩) ∨ f ∈ ms ∨ ∃ t ∈ ts, t.field = f := by
  unfold nodeFields
  rw [List.mem_append, List.mem_append, List.mem_map, or_assoc]
  cases key with
  | none => simp [Tree.keyFields]
  | some k => simp [Tree.keyFields]

section Fields

variable {tag : UInt32} {key : Option FieldVal} {ms : List PbField} {ts : List Tree}

theorem nodeFields_ok (h : Tree.Ok (.node tag key ms ts))
    (hlen : (messageBytes (nodeFields key ms ts)).length < 2 ^ 31) :
    ∀ f ∈ nodeFields key ms ts, FieldOk f.tag f.val := by
  cases h with
  | node _ _ _ hms _ hok =>
    intro f hf
    have hmem := mem_nodeFields.mp hf
    rcases hmem with ⟨k, _, rfl⟩ | hm | ⟨t, ht, rfl⟩
    · exact fieldOk_of_mem hlen hf (show 0 < (1 : UInt32).toNat by decide)
        (show (1 : UInt32).toNat < 2 ^ 29 by decide)
    · have hmeta := hms f hm
      refine fieldOk_of_mem hlen hf ?_ (Nat.lt_of_le_of_lt hmeta.2.2 (by decide))
      exact Nat.pos_of_ne_zero fun h0 => hmeta.1 (UInt32.toNat_inj.mp h0)
    · have htag := (hok t ht).tag
      rw [← Tree.field_tag] at htag
      exact fieldOk_of_mem hlen hf htag.1 htag.2

/-- Metas first, and then children. -/
theorem nodeFields_sorted (h : Tree.Ok (.node tag key ms ts)) :
    (∀ f ∈ Tree.keyFields key ++ ms, f.tag.toNat ≤ UC_MAX_META_NUM) ∧
      ∀ f ∈ ts.map Tree.field, UC_MAX_META_NUM < f.tag.toNat := by
  cases h with
  | node _ _ _ hms hts _ =>
    constructor
    · intro f hf
      rcases List.mem_append.mp hf with hf | hf
      · cases key with
        | none => exact absurd hf List.not_mem_nil
        | some k =>
          rw [List.mem_singleton.mp hf]
          show (1 : UInt32).toNat ≤ 10
          decide
      · exact (hms f hf).2.2
    · intro f hf
      obtain ⟨t, ht, rfl⟩ := List.mem_map.mp hf
      rw [Tree.field_tag]
      exact hts t ht

theorem metaFields_nodeFields (h : Tree.Ok (.node tag key ms ts)) :
    metaFields (nodeFields key ms ts) = Tree.keyFields key ++ ms :=
  metaFields_append (nodeFields_sorted h).1 (nodeFields_sorted h).2

theorem childFields_nodeFields (h : Tree.Ok (.node tag key ms ts)) :
    childFields (nodeFields key ms ts) = ts.map Tree.field :=
  childFields_append (nodeFields_sorted h).1 (nodeFields_sorted h).2

/-- The key that is found at the start of a value is the node's key. -/
theorem keyOfValue_nodeFields (h : Tree.Ok (.node tag key ms ts))
    (hlen : (messageBytes (nodeFields key ms ts)).length < 2 ^ 31)
    (hne : nodeFields key ms ts ≠ []) :
    keyOfValue (messageBytes (nodeFields key ms ts)) = (keyOf key, true) := by
  have hok := nodeFields_ok h hlen
  obtain ⟨f, fs, hfs⟩ := List.exists_cons_of_ne_nil hne
  unfold keyOfValue
  rw [hfs] at hok hlen ⊢
  rw [pbBegin_messageBytes (hok f List.mem_cons_self) hlen]
  cases h with
  | node _ _ _ hms hts _ =>
    cases key with
    | some k =>
      cases hfs
      rfl
    | none =>
      have hne1 : f.tag ≠ 1 := by
        have hmem : f ∈ nodeFields none ms ts := by rw [hfs]; exact List.mem_cons_self
        rcases mem_nodeFields.mp hmem with ⟨k, hk, _⟩ | hm | ⟨t, ht, rfl⟩
        · cases hk
        · exact (hms f hm).2.1
        · intro he
          have := hts t ht
          rw [← Tree.field_tag, he] at this
          exact absurd this (by decide)
      show (if f.tag = 1 then _ else _, _) = _
      rw [if_neg hne1]
      rfl

end Fields

/-- A node with an empty value has no fields. -/
theorem fields_empty {n : KnvNode} (hnum : n.child_num = some 0) (hm : n.metalist = [])
    (hc : n.childlist = []) (p : Bool) : n.fields p = [] := by
  have hexp := innerExpand_expanded (n := n) (by rw [hnum]; exact fun he => nomatch he) p false
  unfold fields
  rw [hexp]
  show fieldsFrom n p (n.metalist.length + n.childlist.length) _ = []
  rw [hm, hc]
  rfl

/-- **A tree comes back from its bytes**: the node a reader makes of the tree's field shows the tree.
    The induction is on the tree, one level of expansion each. -/
theorem shows_ofField {t : Tree} (h : Tree.Ok t) : ∀ {p : Bool} {n : KnvNode} {sz : Nat},
    OfField false n (t.field, sz) → t.field.size < 2 ^ 31 → (p = true → t.tag ≠ 1) → Shows p n t := by
  induction h with
  | @leaf f h0 h1 =>
    rintro p n sz ⟨r, rfl⟩ _ _
    rw [Tree.field]
    exact .leaf rfl rfl
  | @node tag key ms ts h0 h1 hkey hms hts hok ih =>
    intro p n sz hof hsize hp
    have hnode : Tree.Ok (.node tag key ms ts) := .node h0 h1 hkey hms hts hok
    have hfield : (Tree.node tag key ms ts).field =
        ⟨tag, .string (messageBytes (nodeFields key ms ts))⟩ := by
      rw [Tree.field, Tree.fieldList_eq]
      rfl
    rw [hfield] at hof hsize
    have hlen : (messageBytes (nodeFields key ms ts)).length < 2 ^ 31 :=
      Nat.lt_of_le_of_lt str_le_size hsize
    obtain ⟨r, rfl⟩ := hof
    by_cases hempty : nodeFields key ms ts = []
    · -- nothing was written, so nothing is read
      have hts' : ts = [] := by
        cases ts with
        | nil => rfl
        | cons t ts => simp [nodeFields] at hempty
      have hms' : ms = [] := by
        cases ms with
        | nil => rfl
        | cons f ms => simp [nodeFields] at hempty
      have hkey' : key = none := by
        cases key with
        | none => rfl
        | some k => simp [nodeFields, Tree.keyFields] at hempty
      subst hts' hms' hkey'
      exact @Shows.node p _ tag none [] [] [] [] rfl rfl (fields_empty rfl rfl rfl p) .nil rfl
        fun i h => absurd h (Nat.not_lt_zero i)
    · have hk := keyOfValue_nodeFields hnode hlen hempty
      obtain ⟨f, fs, hfs⟩ := List.exists_cons_of_ne_nil hempty
      have hbytes : messageBytes (nodeFields key ms ts) ≠ [] := by
        rw [hfs]
        exact messageBytes_ne_nil f fs
      generalize hn : ({ initNode tag (.string (messageBytes (nodeFields key ms ts))) true sz false with
        ref := r } : KnvNode) = n
      have hntag : n.tag = tag := by rw [← hn]; rfl
      have hnkey : n.key = keyOf key ∧ n.child_num = none := by
        rw [← hn]
        unfold initNode
        simp only [FieldVal.str, hk]
        rw [if_pos trivial, if_pos hbytes]
        exact ⟨rfl, rfl⟩
      have hnval : n.val = .string (messageBytes (f :: fs)) := by rw [← hn, ← hfs]; rfl
      have hnp : ¬ (n.tag = 1 ∧ p = true) := by rw [hntag]; exact fun h => hp h.2 h.1
      have hgrown := innerExpand_message hnkey.2 hnval (by rw [← hn]; rfl)
        (by rw [← hfs]; exact nodeFields_ok hnode hlen) (by rw [← hfs]; exact hlen) hnp false
      rw [← hfs] at hgrown
      have hn0 : n.tag ≠ 0 := by
        rw [hntag]
        rintro rfl
        exact absurd h0 (by decide)
      have hwalk := hgrown.fields rfl hn0 (by
        have := hgrown.head
        rw [show (n.innerExpand p false).tag = n.tag from congrArg (fun x => x.2.1) this]
        exact hn0)
      have hmetas := hgrown.hold_metalist
      rw [metaFields_nodeFields hnode] at hmetas
      have hchildren := hgrown.ofField_childlist
      rw [childFields_nodeFields hnode, List.map_map, List.forall₂_map_right_iff] at hchildren
      obtain ⟨hcl, hcg⟩ := List.forall₂_iff_get.mp hchildren
      refine .node hntag hnkey.1 hwalk (hmetas.imp fun m g hm => ⟨hm.tag, hm.val⟩) hcl ?_
      intro i hi hi'
      have hmem : ts.get ⟨i, hi'⟩ ∈ ts := List.get_mem ts ⟨i, hi'⟩
      refine ih _ hmem (hcg i hi hi') ?_ ?_
      · have hle := size_le_of_mem (mem_nodeFields.mpr (.inr (.inr ⟨_, hmem, rfl⟩)) :
          (ts.get ⟨i, hi'⟩).field ∈ nodeFields key ms ts)
        omega
      · intro _ he
        have := hts _ hmem
        rw [he] at this
        exact absurd this (by decide)

/-! ## Folding -/

/-- **Folding a node that was built**: its value are its fields, and its size stays. -/
theorem fold_means {n : KnvNode} {tag : UInt32} {key : Option FieldVal} {ms : List PbField}
    {ts : List Tree} (h : Means n (.node tag key ms ts)) (hne : nodeFields key ms ts ≠ []) :
    ∃ n', n.fold = .ok n' ∧ n'.str = messageBytes (nodeFields key ms ts) ∧
      Means n' (.leaf (Tree.node tag key ms ts).field) := by
  obtain ⟨htr, hch⟩ := means_node.mp h
  have hn0 : n.tag ≠ 0 := by rw [htr.tag]; exact htr.tag_ne
  have hfold : n.isFolded = false := by rw [htr.isFolded]; exact decide_eq_false hne
  have hwrites : List.Forall₂ Writes n.childlist (ts.map Tree.field) := by
    rw [List.forall₂_map_right_iff]
    exact hch.imp fun _ _ hm => hm.writes
  have hsz : evaluateSize n =
      (((⟨n.tag, .string (messageBytes (nodeFields key ms ts))⟩ : PbField).size : Int),
        ((messageBytes (nodeFields key ms ts)).length : Int)) := by
    rw [htr.evaluateSize, htr.sz, htr.val_sz, htr.tag]
    rfl
  have hser := (serialize_node hn0 hfold (puts_of_writes htr.metalist_writes) (puts_of_writes hwrites)
    htr.keyFirst hsz).1 (allocSize (⟨n.tag, .string (messageBytes (nodeFields key ms ts))⟩ : PbField).size)
    (Nat.le_trans str_le_size (le_allocSize _))
  refine ⟨{ n.initChildList none with
    val := .string (messageBytes (nodeFields key ms ts)), subnode_dirty := false }, ?_, rfl, ?_⟩
  · unfold fold
    rw [if_neg hn0, hfold, if_neg Bool.false_ne_true, hsz]
    simp only [Int.toNat_natCast]
    rw [show serialize n (allocSize (PbField.size ⟨n.tag, .string (messageBytes (nodeFields key ms ts))⟩))
      false = .ok (messageBytes (nodeFields key ms ts)) from hser]
    exact if_neg (not_not_intro rfl)
  · have hfield : (Tree.node tag key ms ts).field =
        ⟨tag, .string (messageBytes (nodeFields key ms ts))⟩ := by
      rw [Tree.field, Tree.fieldList_eq]
      rfl
    rw [hfield]
    refine .leaf ⟨⟨htr.tag, rfl, isFlat_of_nothing (.inl rfl) rfl, ?_⟩, htr.tag_ne, rfl, rfl⟩
    exact htr.sz

/-- **What `GetStrVal` returns for a tree that was built** are its fields. -/
theorem getStrVal_means {n : KnvNode} {tag : UInt32} {key : Option FieldVal} {ms : List PbField}
    {ts : List Tree} (h : Means n (.node tag key ms ts)) (hne : nodeFields key ms ts ≠ []) :
    n.getStrVal = messageBytes (nodeFields key ms ts) := by
  obtain ⟨n', hfold, hstr, _⟩ := fold_means h hne
  unfold getStrVal
  rw [hfold]
  exact hstr

end KnvNode

/-! ## Every run -/

/-- The root in memory, and the tree it is meant to be. -/
structure BuildState where
  root : KnvNode
  tree : Tree

namespace BuildState

/-- A call on the node at a path, which is no leaf, with the total size below `2 ^ 31`. -/
def Call (s : BuildState) (path : List Nat) (op : BuildOp) (s' : BuildState) : Prop :=
  op.Allowed ∧ Tree.editAt op.meant path s.tree = some s'.tree ∧ s'.tree.field.size < 2 ^ 31 ∧
    ∃ out, KnvNode.editAt op.exec path s.root = .ok (s'.root, out)

def Step (s s' : BuildState) : Prop := ∃ path op, s.Call path op s'

/-- A tree with nothing but a key is small. -/
theorem start_size (tag : UInt32) {key : Option FieldVal} (hkey : ∀ k, key = some k → KeyOk k) :
    (⟨tag, .string (messageBytes (Tree.keyFields key ++ [] ++ Tree.fieldList []))⟩ : PbField).size <
      2 ^ 31 := by
  have hnode : ∀ s : List UInt8, s.length < 2 ^ 17 → (⟨tag, .string s⟩ : PbField).size < 2 ^ 31 := by
    intro s hs
    have h1 := pbEvalVintLength_le (tagWord .string tag)
    have h2 := pbEvalVintLength_le (UInt64.ofNat s.length)
    show pbEvalVintLength (tagWord .string tag) + pbEvalVintLength _ + s.length < _
    omega
  apply hnode
  rw [Tree.fieldList, List.append_nil, List.append_nil, length_messageBytes]
  cases key with
  | none => decide
  | some k =>
    have hk := hkey k rfl
    have h1 := pbEvalVintLength_le (tagWord k.type 1)
    show pbEvalFieldLength 1 k + 0 < _
    cases k with
    | string s =>
      have h2 := pbEvalVintLength_le (UInt64.ofNat s.length)
      have hs := hk.2
      show pbEvalVintLength (tagWord .string 1) + pbEvalVintLength _ + s.length + 0 < _
      replace h1 : pbEvalVintLength (tagWord .string 1) ≤ 10 := h1
      omega
    | varint i =>
      have h2 := pbEvalVintLength_le i
      show pbEvalVintLength (tagWord .varint 1) + pbEvalVintLength _ + 0 < _
      replace h1 : pbEvalVintLength (tagWord .varint 1) ≤ 10 := h1
      omega
    | fixed64 i =>
      show pbEvalVintLength (tagWord .fixed64 1) + 8 + 0 < _
      replace h1 : pbEvalVintLength (tagWord .fixed64 1) ≤ 10 := h1
      omega
    | fixed32 i =>
      show pbEvalVintLength (tagWord .fixed32 1) + 4 + 0 < _
      replace h1 : pbEvalVintLength (tagWord .fixed32 1) ≤ 10 := h1
      omega

/-- What `NewTree` returns. -/
structure Start (tag : UInt32) (key : Option FieldVal) (s : BuildState) : Prop where
  tag_pos : 0 < tag.toNat
  tag_lt : tag.toNat < 2 ^ 29
  key_ok : ∀ k, key = some k → KeyOk k
  root : newTree tag key = .ok s.root
  tree : s.tree = .node tag key [] []

/-- The memory is the tree that is meant, which fits the wire. -/
structure Sound (s : BuildState) : Prop where
  means : Means s.root s.tree
  ok : Tree.Ok s.tree
  size : s.tree.field.size < 2 ^ 31

theorem Start.sound {tag : UInt32} {key : Option FieldVal} {s : BuildState} (h : Start tag key s) :
    s.Sound := by
  have htag : tag ≠ 0 := by
    rintro rfl
    exact absurd h.tag_pos (by decide)
  obtain ⟨n, hn, hm⟩ := means_newTree htag h.key_ok
  rw [h.root] at hn
  cases hn
  refine ⟨?_, ?_, ?_⟩
  · rw [h.tree]
    exact hm
  · rw [h.tree]
    exact .node h.tag_pos h.tag_lt h.key_ok (fun f hf => absurd hf List.not_mem_nil)
      (fun t ht => absurd ht List.not_mem_nil) fun t ht => absurd ht List.not_mem_nil
  · rw [h.tree, Tree.field]
    exact start_size tag h.key_ok

theorem Call.sound {s s' : BuildState} {path : List Nat} {op : BuildOp} (h : s.Call path op s')
    (hs : s.Sound) : s'.Sound := by
  obtain ⟨hal, htree, hsize, out, hroot⟩ := h
  obtain ⟨n', out', hedit, hm', _⟩ := means_editAt (BuildOp.refines_exec hal) path hs.means htree
  rw [hroot] at hedit
  cases hedit
  exact ⟨hm', (Tree.safe_editAt (BuildOp.safe_meant hal) path _ _ htree hs.ok).1, hsize⟩

/-- **The memory is the tree that is meant, after every call.** -/
theorem run_sound {tag : UInt32} {key : Option FieldVal} {s s' : BuildState} (h : Start tag key s)
    (hrun : Relation.ReflTransGen Step s s') : s'.Sound :=
  run_invariant hrun h.sound fun hs ⟨_, _, hcall⟩ => hcall.sound hs

end BuildState

/-- The node `x` is the node `n`, or a meta or a child somewhere below it. -/
inductive KnvNode.Inside (x : KnvNode) : KnvNode → Prop
  | self : Inside x x
  | metas {n m : KnvNode} : m ∈ n.metalist → Inside x m → Inside x n
  | children {n c : KnvNode} : c ∈ n.childlist → Inside x c → Inside x n

/-- **Every node of the tree is written in the size it has.** -/
theorem KnvNode.Means.inside {x n : KnvNode} (hx : Inside x n) :
    ∀ {t : Tree}, Means n t → ∃ f, Writes x f := by
  induction hx with
  | self => exact fun h => ⟨_, h.writes⟩
  | @metas n m hm _ ih =>
    intro t h
    cases h with
    | leaf h =>
      rw [h.metalist] at hm
      exact absurd hm List.not_mem_nil
    | node ht _ _ =>
      obtain ⟨f, hf, hleaf⟩ := forall₂_mem ht.metalist hm
      exact ih (.leaf hleaf)
  | @children n c hc _ ih =>
    intro t h
    cases h with
    | leaf h =>
      rw [h.childlist] at hc
      exact absurd hc List.not_mem_nil
    | node _ hlen hall =>
      obtain ⟨t, _, ht⟩ := forall₂_mem (List.forall₂_iff_get.mpr ⟨hlen, hall⟩) hc
      exact ih ht

namespace BuildState

/-- **Builder round trip.**  After every call of every run: each node's size is the length of what it
    is written as, the root is written, and what a reader sees in the bytes is the tree that was
    built.  And every further call that makes sense succeeds. -/
theorem run_roundTrip {tag : UInt32} {key : Option FieldVal} {s s' : BuildState}
    (h : Start tag key s) (hrun : Relation.ReflTransGen Step s s') :
    (∀ x, Inside x s'.root → ∃ bytes, serialize x (evaluateSize x).1.toNat true = .ok bytes ∧
      (evaluateSize x).1 = bytes.length) ∧
    (∃ out, s'.root.serializeString = .ok out ∧ ∃ n, newFromData out = .ok n ∧
      Shows false n s'.tree) ∧
    ∀ path op t, BuildOp.Allowed op → Tree.editAt op.meant path s'.tree = some t →
      t.field.size < 2 ^ 31 → ∃ n, s'.Call path op ⟨n, t⟩ := by
  have hs := run_sound h hrun
  refine ⟨?_, ?_, ?_⟩
  · intro x hx
    obtain ⟨f, hf⟩ := Means.inside hx hs.means
    refine ⟨_, hf.bytes _ (by rw [hf.size]; exact Nat.le_refl _), ?_⟩
    rw [hf.size, length_fieldBytes]
    rfl
  · have htag := hs.ok.tag
    rw [← Tree.field_tag] at htag
    refine ⟨_, hs.means.writes.serializeString, _, newFromData_fieldBytes hs.size htag.1 htag.2, ?_⟩
    exact shows_ofField hs.ok ⟨0, rfl⟩ hs.size fun h => absurd h Bool.false_ne_true
  · intro path op t hal ht hlt
    obtain ⟨n, out, hedit, _⟩ := means_editAt (BuildOp.refines_exec hal) path hs.means ht
    exact ⟨n, hal, ht, hlt, out, hedit⟩

/-- A tree with the key `k` and a leaf below a node below the root, whose value looks like a message
    with a key. -/
theorem run_roundTrip_leaf : ∃ s s' s'', Start 11 (some (.string [107])) s ∧
    s.Call [] (.insertSubNode 12 none) s' ∧ s'.Call [0] (.insertStrLeaf 13 [10, 1, 65]) s'' ∧
    ∃ out, s''.root.serializeString = .ok out ∧ ∃ n, newFromData out = .ok n ∧
      Shows false n (.node 11 (some (.string [107])) []
        [.node 12 none [] [.leaf ⟨13, .string [10, 1, 65]⟩]]) := by
  have hkey : ∀ k, some (FieldVal.string [107]) = some k → KeyOk k := by
    rintro k ⟨⟩
    exact ⟨List.cons_ne_nil _ _, by decide⟩
  have hstart : ∃ s, Start 11 (some (.string [107])) s := by
    obtain ⟨n, hn, _⟩ := means_newTree (show (11 : UInt32) ≠ 0 by decide) hkey
    exact ⟨⟨n, _⟩, by decide, by decide, hkey, hn, rfl⟩
  obtain ⟨s, hs⟩ := hstart
  have h1 : Tree.editAt (BuildOp.insertSubNode 12 none).meant [] s.tree =
      some (.node 11 (some (.string [107])) [] [.node 12 none [] []]) := by rw [hs.tree]; rfl
  obtain ⟨n, hcall⟩ := (run_roundTrip hs .refl).2.2 [] (.insertSubNode 12 none) _
    ⟨⟨by decide, by decide⟩, fun k hk => nomatch hk⟩ h1 (by decide +kernel)
  have hrun := Relation.ReflTransGen.single (r := Step) ⟨_, _, hcall⟩
  obtain ⟨n', hcall'⟩ := (run_roundTrip hs hrun).2.2 [0] (.insertStrLeaf 13 [10, 1, 65]) _
    ⟨by decide, by decide⟩ rfl (by decide +kernel)
  exact ⟨s, _, _, hs, hcall, hcall', (run_roundTrip hs (hrun.tail ⟨_, _, hcall'⟩)).2.1⟩

end BuildState

end MysqlProxy
