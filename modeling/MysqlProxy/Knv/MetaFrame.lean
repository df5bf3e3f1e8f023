/-
  What `SetMeta` leaves alone.

  * `BufNode.Inv`: the pointers of a node are known, and its metas are found at their tags.  Parsing
    keeps it and touches nothing (`Inv.expand`), and every call keeps it (`Inv.setMeta`).
  * `setMeta_framed`: the step; `run_framed`: the run, for every node that was made.
-/
import MysqlProxy.Knv.DynBuffers

namespace MysqlProxy

/-! ## The invariant -/

namespace BufNode

open FieldTree

structure Inv (s : BufNode) : Prop where
  dyn : s.dyn_data.Ok s.node s.toBuffers
  val : s.val.Known s.toBuffers
  metaVals : ∀ m ∈ s.metalist, m.val.Known s.toBuffers
  children : ∀ v ∈ valsList s.childlist, v.Known s.toBuffers
  metaLt : ∀ m ∈ s.metalist, m.node < s.nextNode
  unique : ∀ m ∈ s.metalist, ∀ m' ∈ s.metalist, m.node = m'.node → m = m'
  metas : s.metalist ≠ [] → ∀ t i, s.metas t = some i →
    ∃ m ∈ s.metalist, m.node = i ∧ m.tag.toNat = t

variable {s : BufNode}

theorem findMeta_some {node : Nat} {m : MetaNode} (h : s.findMeta node = some m) :
    m ∈ s.metalist ∧ m.node = node :=
  ⟨List.mem_of_find?_eq_some h,
    of_decide_eq_true (List.find?_some (p := fun x : MetaNode => x.node = node) h)⟩

/-- `metas` points to a meta of the list. -/
theorem Inv.lookup_eq_some (h : s.Inv) {tag : UInt32} {m : MetaNode} :
    s.lookup tag = some m ↔ m ∈ s.metalist ∧ s.metas tag.toNat = some m.node := by
  rw [lookup]
  constructor
  · intro hm
    split at hm
    next => cases hm
    next =>
      obtain ⟨node, hnode, hfind⟩ := Option.bind_eq_some_iff.mp hm
      obtain ⟨hmem, hid⟩ := findMeta_some hfind
      exact ⟨hmem, hid ▸ hnode⟩
  · rintro ⟨hmem, hnode⟩
    rw [if_neg (List.ne_nil_of_mem hmem), hnode, Option.bind_some]
    cases hfind : s.findMeta m.node with
    | none => exact absurd (decide_eq_true rfl) (List.find?_eq_none.mp hfind m hmem)
    | some m' =>
      obtain ⟨hmem', hid⟩ := findMeta_some hfind
      rw [h.unique m' hmem' m hmem hid]

/-- A meta is found at its tag only. -/
theorem Inv.lookup_tag (h : s.Inv) {tag : UInt32} {m : MetaNode} (hm : s.lookup tag = some m) :
    m.tag = tag := by
  obtain ⟨hmem, hnode⟩ := h.lookup_eq_some.mp hm
  obtain ⟨m', hmem', hid, htag⟩ := h.metas (List.ne_nil_of_mem hmem) _ _ hnode
  rw [h.unique m hmem m' hmem' hid.symm]
  exact UInt32.toNat_inj.mp htag

/-- Nothing but buffers that are new. -/
theorem Inv.extends (h : s.Inv) {b : Buffers} (hext : s.toBuffers.Extends b) :
    ({ s with toBuffers := b } : BufNode).Inv where
  dyn := hext.ok h.dyn
  val := h.val.mono hext.le
  metaVals m hm := (h.metaVals m hm).mono hext.le
  children v hv := (h.children v hv).mono hext.le
  metaLt m hm := Nat.lt_of_lt_of_le (h.metaLt m hm) hext.le.1
  unique := h.unique
  metas := h.metas

theorem mem_hangMeta {m x : MetaNode} {front : Bool} :
    x ∈ (s.hangMeta m front).metalist ↔ x = m ∨ x ∈ s.metalist := by
  rw [hangMeta]
  cases front
  · exact (List.mem_append.trans Or.comm).trans (or_congr List.mem_singleton Iff.rfl)
  · exact List.mem_cons

/-- A new meta is hung in. -/
theorem Inv.hangMeta (h : s.Inv) {b : Buffers} (hext : s.toBuffers.Extends b) {m : MetaNode}
    (hnew : m.node = s.nextNode) (hlt : s.nextNode < b.nextNode) (hval : m.val.Known b)
    (front : Bool) : (({ s with toBuffers := b } : BufNode).hangMeta m front).Inv := by
  have hs := h.extends hext
  have hne : ∀ x ∈ s.metalist, x.node ≠ m.node := fun x hx => by
    have := h.metaLt x hx
    omega
  refine ⟨hs.dyn, hs.val, fun x hx => ?_, hs.children, fun x hx => ?_, fun x hx y hy hxy => ?_,
    fun _ t i hi => ?_⟩
  · rcases mem_hangMeta.mp hx with rfl | hx
    · exact hval
    · exact hs.metaVals x hx
  · rcases mem_hangMeta.mp hx with rfl | hx
    · exact hnew ▸ hlt
    · exact hs.metaLt x hx
  · rcases mem_hangMeta.mp hx with hx' | hx' <;> rcases mem_hangMeta.mp hy with hy' | hy'
    · exact hx'.trans hy'.symm
    · exact absurd (hx' ▸ hxy.symm) (hne y hy')
    · exact absurd (hy' ▸ hxy) (hne x hx')
    · exact h.unique x hx' y hy' hxy
  · replace hi : (if t = m.tag.toNat then some m.node
        else if s.metalist = [] then none else s.metas t) = some i := hi
    split at hi
    next ht => exact ⟨m, mem_hangMeta.mpr (.inl rfl), Option.some.inj hi, ht.symm⟩
    next =>
      split at hi
      next => cases hi
      next hnil =>
        obtain ⟨x, hx, hid, htag⟩ := h.metas hnil t i hi
        exact ⟨x, mem_hangMeta.mpr (.inr hx), hid, htag⟩

/-- It is found, and the others still are. -/
theorem Inv.lookup_hangMeta (h : s.Inv) {b : Buffers} (hext : s.toBuffers.Extends b)
    {m : MetaNode} (hnew : m.node = s.nextNode) (hlt : s.nextNode < b.nextNode)
    (hval : m.val.Known b) (front : Bool) :
    let s' := ({ s with toBuffers := b } : BufNode).hangMeta m front
    s'.lookup m.tag = some m ∧ ∀ tag ≠ m.tag, s'.lookup tag = s.lookup tag := by
  intro s'
  have hs' : s'.Inv := h.hangMeta hext hnew hlt hval front
  refine ⟨hs'.lookup_eq_some.mpr ⟨mem_hangMeta.mpr (.inl rfl), if_pos rfl⟩, fun tag htag => ?_⟩
  have hmetas : s'.metas tag.toNat = if s.metalist = [] then none else s.metas tag.toNat :=
    if_neg fun heq => htag (UInt32.toNat_inj.mp heq)
  refine Option.ext fun x => ?_
  rw [hs'.lookup_eq_some, h.lookup_eq_some, hmetas, mem_hangMeta]
  constructor
  · rintro ⟨hx, hnode⟩
    split at hnode
    next => cases hnode
    next hnil =>
      obtain ⟨y, hy, hid, -⟩ := h.metas hnil _ _ hnode
      rcases hx with rfl | hx
      · have := h.metaLt y hy
        omega
      · exact ⟨hx, hnode⟩
  · rintro ⟨hx, hnode⟩
    rw [if_neg (List.ne_nil_of_mem hx)]
    exact ⟨.inr hx, hnode⟩

/-- One meta gets another value. -/
theorem Inv.replaceVal (h : s.Inv) {val : KnvValue} (hval : val.Known s.toBuffers) (node : Nat) :
    (s.replaceVal node val).Inv := by
  have hmem : ∀ x ∈ (s.replaceVal node val).metalist, ∃ y ∈ s.metalist,
      (if y.node = node then { y with val := val } else y) = x := fun x hx => List.mem_map.mp hx
  have hsame : ∀ y : MetaNode, (if y.node = node then { y with val := val } else y).node = y.node ∧
      (if y.node = node then { y with val := val } else y).tag = y.tag := fun y => by
    split <;> exact ⟨rfl, rfl⟩
  refine ⟨h.dyn, h.val, fun x hx => ?_, h.children, fun x hx => ?_, fun x hx y hy hxy => ?_,
    fun hne t i hi => ?_⟩
  · obtain ⟨y, hy, rfl⟩ := hmem x hx
    split
    · exact hval
    · exact h.metaVals y hy
  · obtain ⟨y, hy, rfl⟩ := hmem x hx
    rw [(hsame y).1]
    exact h.metaLt y hy
  · obtain ⟨x', hx', rfl⟩ := hmem x hx
    obtain ⟨y', hy', rfl⟩ := hmem y hy
    rw [(hsame x').1, (hsame y').1] at hxy
    rw [h.unique x' hx' y' hy' hxy]
  · have hnil : s.metalist ≠ [] := fun hnil => hne (List.map_eq_nil_iff.mpr hnil)
    obtain ⟨y, hy, hid, htag⟩ := h.metas hnil t i hi
    exact ⟨_, List.mem_map_of_mem hy, (hsame y).1.trans hid,
      (congrArg UInt32.toNat (hsame y).2).trans htag⟩

theorem Inv.lookup_replaceVal (h : s.Inv) {tag : UInt32} {m : MetaNode}
    (hm : s.lookup tag = some m) {val : KnvValue} (hval : val.Known s.toBuffers) :
    (s.replaceVal m.node val).lookup tag = some { m with val := val } ∧
      ∀ t ≠ tag, (s.replaceVal m.node val).lookup t = s.lookup t := by
  have hs' := h.replaceVal hval m.node
  obtain ⟨hmem, hnode⟩ := h.lookup_eq_some.mp hm
  refine ⟨hs'.lookup_eq_some.mpr ⟨?_, hnode⟩, fun t ht => Option.ext fun x => ?_⟩
  · exact List.mem_map.mpr ⟨m, hmem, if_pos rfl⟩
  · -- what is found at another tag is another meta
    have hother : ∀ y, s.lookup t = some y → y.node ≠ m.node := by
      intro y hy heq
      rw [h.unique y (h.lookup_eq_some.mp hy).1 m hmem heq] at hy
      exact ht ((h.lookup_tag hy).symm.trans (h.lookup_tag hm))
    rw [hs'.lookup_eq_some]
    constructor
    · rintro ⟨hx, hxnode⟩
      obtain ⟨y, hy, rfl⟩ := List.mem_map.mp hx
      have hynode : s.metas t.toNat = some y.node := by
        rw [show s.metas t.toNat = (s.replaceVal m.node val).metas t.toNat from rfl, hxnode]
        split <;> rfl
      have hlook := h.lookup_eq_some.mpr ⟨hy, hynode⟩
      rwa [if_neg (hother y hlook)]
    · intro hx
      obtain ⟨hxmem, hxnode⟩ := h.lookup_eq_some.mp hx
      exact ⟨List.mem_map.mpr ⟨x, hxmem, if_neg (hother x hx)⟩, hxnode⟩

/-! ## Expanding -/

theorem fieldValue_known {b : Buffers} {buf : Buf} (h : b.Known buf) (fin : Nat) (val : FieldVal) :
    (fieldValue buf fin val).Known b := by
  cases val with
  | string str => exact h
  | varint i64 | fixed64 i64 | fixed32 i32 => exact True.intro

/-- What parsing keeps: the invariant, and what was there before. -/
structure Parsed (s s' : BufNode) : Prop where
  inv : s'.Inv
  ext : s.toBuffers.Extends s'.toBuffers
  node : s'.node = s.node
  tag : s'.tag = s.tag
  val : s'.val = s.val
  dyn_data : s'.dyn_data = s.dyn_data

theorem Parsed.refl (h : s.Inv) : Parsed s s := ⟨h, .refl _, rfl, rfl, rfl, rfl⟩

theorem Parsed.trans {s' s'' : BufNode} (h : Parsed s s') (h' : Parsed s' s'') : Parsed s s'' where
  inv := h'.inv
  ext := h.ext.trans h'.ext
  node := h'.node.trans h.node
  tag := h'.tag.trans h.tag
  val := h'.val.trans h.val
  dyn_data := h'.dyn_data.trans h.dyn_data

/-- The lists are given up. -/
theorem Inv.clear (h : s.Inv) (expanded : Bool) :
    ({ s with expanded := expanded, metalist := [], childlist := [] } : BufNode).Inv where
  dyn := h.dyn
  val := h.val
  metaVals _ hm := nomatch hm
  children _ hv := nomatch hv
  metaLt _ hm := nomatch hm
  unique _ hm := nomatch hm
  metas hne := absurd rfl hne

/-- A child is hung in. -/
theorem Inv.hangChild (h : s.Inv) {c : FieldTree KnvValue} (hc : ∀ v ∈ c.vals, v.Known s.toBuffers) :
    ({ s with childlist := s.childlist ++ [c] } : BufNode).Inv where
  dyn := h.dyn
  val := h.val
  metaVals := h.metaVals
  children v hv := by
    rw [valsList_append] at hv
    rcases List.mem_append.mp hv with hv | hv
    · exact h.children v hv
    · rw [valsList, valsList, List.append_nil] at hv
      exact hc v hv
  metaLt := h.metaLt
  unique := h.unique
  metas := h.metas

theorem Parsed.expandField {buf : Buf} (h : s.Inv) (hbuf : s.Known buf) (pos : Nat)
    (f : PbField × Nat) : Parsed s (expandField buf (pos, s) f).2 := by
  rw [BufNode.expandField]
  dsimp only
  split
  · have hext := s.newNode_extends
    exact ⟨h.hangMeta hext rfl (Nat.lt_succ_self _) (fieldValue_known (hbuf.mono hext.le) _ _) false,
      hext, rfl, rfl, rfl, rfl⟩
  · refine ⟨h.hangChild fun v hv => ?_, .refl _, rfl, rfl, rfl, rfl⟩
    rw [vals, valsList, List.mem_singleton] at hv
    exact hv ▸ fieldValue_known hbuf _ _

theorem Parsed.fields {buf : Buf} (fields : List (PbField × Nat)) (h : s.Inv)
    (hbuf : s.Known buf) (pos : Nat) :
    Parsed s (fields.foldl (BufNode.expandField buf) (pos, s)).2 := by
  induction fields generalizing s pos with
  | nil => exact .refl h
  | cons f fields ih =>
    have hfield := Parsed.expandField h hbuf pos f
    exact hfield.trans (ih hfield.inv (hbuf.mono hfield.ext.le) _)

/-- **Expanding touches nothing.** -/
theorem Inv.expand (h : s.Inv) : Parsed s s.expand := by
  rw [BufNode.expand]
  split
  · exact .refl h
  · have hclear : Parsed s { s with expanded := true, metalist := [], childlist := [] } :=
      ⟨h.clear true, .refl _, rfl, rfl, rfl, rfl⟩
    dsimp only
    split
    next buf off len hval =>
      have hbuf : s.Known buf := by
        have := h.val
        rwa [hval] at this
      split
      · exact hclear
      next fields eom hfields =>
        have hparsed := hclear.trans (Parsed.fields fields hclear.inv hbuf off)
        split
        · exact hparsed
        · exact hparsed.trans ⟨hparsed.inv.clear _, .refl _, rfl, rfl, rfl, rfl⟩
    · exact hclear

theorem expanded_foldl (buf : Buf) (fields : List (PbField × Nat)) (r : Nat × BufNode) :
    (fields.foldl (BufNode.expandField buf) r).2.expanded = r.2.expanded := by
  induction fields generalizing r with
  | nil => rfl
  | cons f fields ih =>
    rw [List.foldl_cons, ih, BufNode.expandField]
    dsimp only
    split <;> rfl

theorem expanded_expand (s : BufNode) : s.expand.expanded = true := by
  rw [BufNode.expand]
  split
  · assumption
  · dsimp only
    split
    · split
      · rfl
      · split
        · exact expanded_foldl ..
        · exact expanded_foldl ..
    · rfl

theorem expand_of_expanded (h : s.expanded = true) : s.expand = s := if_pos h

/-! ## One call -/

/-- What a meta holds, if there is one. -/
def metaVal (s : BufNode) (tag : UInt32) : Option (Option FieldVal) :=
  (s.getMeta tag).map fun m => m.val.read s.expand.heap

theorem getMetaStr_eq (s : BufNode) (tag : UInt32) :
    s.getMetaStr tag = match s.metaVal tag with
      | none => some []
      | some val => val.map FieldVal.str := by
  rw [getMetaStr, metaVal]
  cases s.getMeta tag <;> rfl

/-- A string for a meta that is there takes nothing from the other metas and from the children. -/
def SparesOthers (s : BufNode) (tag : UInt32) (val : FieldVal) : Prop :=
  ∀ m str, s.getMeta tag = some m → val = .string str →
    (∀ t ≠ tag, ∀ m', s.getMeta t = some m' → s.dyn_data.Spares s.node str.length m'.val) ∧
      ∀ v ∈ valsList s.expand.childlist, s.dyn_data.Spares s.node str.length v

/-- The meta is set, and nothing else. -/
structure Framed (s s' : BufNode) (tag : UInt32) (val : FieldVal) : Prop where
  set : s'.metaVal tag = some (some val)
  others : ∀ t ≠ tag, s'.metaVal t = s.metaVal t
  children : s'.childVals = s.childVals

/-- A message, which can have metas. -/
def IsMessage (s : BufNode) : Prop := s.tag ≠ 0 ∧ s.val.isString

/-- The call, in an expanded node: what became of the lookups and of the values. -/
structure Sets (s s' : BufNode) (tag : UInt32) (val : FieldVal) : Prop where
  inv : s'.Inv
  same : s'.tag = s.tag ∧ s'.val = s.val ∧ s'.expanded = s.expanded
  set : ∃ m, s'.lookup tag = some m ∧ m.val.read s'.heap = some val
  others : ∀ t ≠ tag, s'.lookup t = s.lookup t ∧
    ∀ m, t.toNat ≤ UC_MAX_META_NUM → s.lookup t = some m → m.val.read s'.heap = m.val.read s.heap
  children : s'.childlist = s.childlist ∧
    ∀ v ∈ valsList s.childlist, v.read s'.heap = v.read s.heap

theorem Inv.addMeta (h : s.Inv) (tag : UInt32) (val : FieldVal) :
    Sets s (s.addMeta tag val) tag val := by
  obtain ⟨hext, hlt, hread, hknown, -⟩ := initOwn_spec s.toBuffers val
  have hlook := h.lookup_hangMeta hext
    (m := ⟨s.nextNode, tag, _, (initOwn s.nextNode val s.newNode.2).2.1⟩) rfl hlt hknown (tag = 1)
  refine ⟨h.hangMeta hext rfl hlt hknown _, ⟨rfl, rfl, rfl⟩, ⟨_, hlook.1, hread⟩,
    fun t ht => ⟨hlook.2 t ht, fun m _ hm => ?_⟩, rfl, fun v hv => ?_⟩
  · exact hext.read_eq (h.metaVals m (h.lookup_eq_some.mp hm).1)
  · exact hext.read_eq (h.children v hv)

/-- No buffer is written to. -/
theorem Inv.updatePlain (h : s.Inv) {tag : UInt32} {m : MetaNode} (hm : s.lookup tag = some m)
    {val : KnvValue} {fval : FieldVal} (hknown : val.Known s.toBuffers)
    (hval : val.read s.heap = some fval) : Sets s (s.replaceVal m.node val) tag fval := by
  have hlook := h.lookup_replaceVal hm hknown
  exact ⟨h.replaceVal hknown m.node, ⟨rfl, rfl, rfl⟩, ⟨_, hlook.1, hval⟩,
    fun t ht => ⟨hlook.2 t ht, fun _ _ _ => rfl⟩, rfl, fun _ _ => rfl⟩

/-- The buffers of the node are written to. -/
theorem Inv.assigned (h : s.Inv) (str : List UInt8) :
    let r := s.dyn_data.assignStr s.node str s.toBuffers
    ({ s with toBuffers := r.2.2, dyn_data := r.2.1 } : BufNode).Inv := by
  intro r
  have hle : s.toBuffers.Le r.2.2 := (DynData.assignStr_le ..).1
  exact {
    dyn := (h.dyn.assignStr str).2.1
    val := h.val.mono hle
    metaVals := fun m hm => (h.metaVals m hm).mono hle
    children := fun v hv => (h.children v hv).mono hle
    metaLt := fun m hm => Nat.lt_of_lt_of_le (h.metaLt m hm) hle.1
    unique := h.unique
    metas := h.metas }

theorem Inv.updateMeta (h : s.Inv) {tag : UInt32} {m : MetaNode} (hm : s.lookup tag = some m)
    {val : FieldVal} (hspares : ∀ str, val = .string str →
      (∀ t ≠ tag, t.toNat ≤ UC_MAX_META_NUM → ∀ m', s.lookup t = some m' →
        s.dyn_data.Spares s.node str.length m'.val) ∧
      ∀ v ∈ valsList s.childlist, s.dyn_data.Spares s.node str.length v) :
    Sets s (s.updateMeta m val) tag val := by
  cases val with
  | varint i64 => exact @Inv.updatePlain s h tag m hm (.varint i64) _ True.intro rfl
  | fixed64 i64 => exact @Inv.updatePlain s h tag m hm (.fixed64 i64) _ True.intro rfl
  | fixed32 i32 => exact @Inv.updatePlain s h tag m hm (.fixed32 i32) _ True.intro rfl
  | string str =>
    obtain ⟨hmetas, hchildren⟩ := hspares str rfl
    obtain ⟨hread, -, hknown⟩ := h.dyn.assignStr str
    have hs := h.assigned str
    have hval : (KnvValue.string (some ((s.dyn_data.assignStr s.node str s.toBuffers).1, 0))
        str.length).Known (s.dyn_data.assignStr s.node str s.toBuffers).2.2 := hknown
    have hlook := @Inv.lookup_replaceVal _ hs tag m hm _ hval
    refine ⟨hs.replaceVal hval m.node, ⟨rfl, rfl, rfl⟩, ⟨_, hlook.1, ?_⟩,
      fun t ht => ⟨hlook.2 t ht, fun m' ht' hm' => ?_⟩, rfl, fun v hv => ?_⟩
    · refine Eq.trans ?_ (congrArg (Option.map FieldVal.string) hread)
      rw [KnvValue.read]
      split
      next hlen =>
        obtain rfl := List.eq_nil_of_length_eq_zero hlen
        rw [hread]
        rfl
      · rfl
    · exact (hmetas t ht ht' m' hm').read_eq (h.metaVals m' (h.lookup_eq_some.mp hm').1)
    · exact (hchildren v hv).read_eq (h.children v hv)

theorem Inv.setValueDirty (h : s.Inv) : s.setValueDirty.Inv := by
  refine { h with val := ?_ }
  have hval := h.val
  rw [BufNode.setValueDirty]
  dsimp only
  split
  next data len hstr =>
    rw [hstr] at hval
    match data, hval with
    | none, _ => exact True.intro
    | some (buf, off), hval => exact hval
  · exact hval

theorem isString_setValueDirty (s : BufNode) :
    s.setValueDirty.val.isString = s.val.isString := by
  rw [BufNode.setValueDirty]
  dsimp only
  split
  next h => rw [h]; rfl
  · rfl

theorem getMeta_eq (hmsg : s.IsMessage) {tag : UInt32} (htag : tag.toNat ≤ UC_MAX_META_NUM) :
    s.getMeta tag = s.expand.lookup tag :=
  if_neg fun h => h.elim hmsg.1 (Nat.not_lt_of_le htag)

/-- What a call does to the lookups is what it does to the metas. -/
theorem Sets.framed {s' : BufNode} {tag : UInt32} {val : FieldVal} (hmsg : s.IsMessage)
    (hinv : s.Inv) (htag : tag.toNat ≤ UC_MAX_META_NUM) (h : Sets s.expand s' tag val) :
    s'.setValueDirty.Inv ∧ s'.setValueDirty.IsMessage ∧ Framed s s'.setValueDirty tag val := by
  have hparsed := hinv.expand
  obtain ⟨hsametag, hsameval, hsameexp⟩ := h.same
  have hmsg' : s'.setValueDirty.IsMessage := by
    refine ⟨?_, ?_⟩
    · rw [show s'.setValueDirty.tag = s'.tag from rfl, hsametag, hparsed.tag]
      exact hmsg.1
    · rw [isString_setValueDirty, hsameval, hparsed.val]
      exact hmsg.2
  have hexp : s'.setValueDirty.expand = s'.setValueDirty :=
    expand_of_expanded (hsameexp.trans (expanded_expand s))
  have hlook : ∀ t : UInt32, t.toNat ≤ UC_MAX_META_NUM →
      s'.setValueDirty.getMeta t = s'.lookup t := fun t ht => by
    rw [getMeta_eq hmsg' ht, hexp]
    rfl
  refine ⟨h.inv.setValueDirty, hmsg', ⟨?_, fun t ht => ?_, ?_⟩⟩
  · obtain ⟨m, hm, hread⟩ := h.set
    rw [metaVal, hlook tag htag, hm, hexp, Option.map_some]
    exact congrArg some hread
  · rw [metaVal, metaVal]
    rcases Nat.lt_or_ge UC_MAX_META_NUM t.toNat with hbig | hsmall
    · rw [show s.getMeta t = none from if_pos (.inr hbig),
        show s'.setValueDirty.getMeta t = none from if_pos (.inr hbig)]
      rfl
    · obtain ⟨hsame, hread⟩ := h.others t ht
      rw [hlook t hsmall, getMeta_eq hmsg hsmall, hsame, hexp]
      cases hm : s.expand.lookup t with
      | none => rfl
      | some m => exact congrArg some (hread m hsmall hm)
  · rw [childVals, childVals, hexp]
    rw [show s'.setValueDirty.childlist = s'.childlist from rfl, h.children.1]
    exact FieldTree.mapList_congr _ h.children.2

/-- **A call that spares the others sets its meta, and nothing else.** -/
theorem setMeta_framed (hinv : s.Inv) (hmsg : s.IsMessage) {tag : UInt32}
    (htag : tag.toNat ≤ UC_MAX_META_NUM) {val : FieldVal} (hspares : s.SparesOthers tag val) :
    ∃ s', s.setMeta tag val = .ok s' ∧ s'.Inv ∧ s'.IsMessage ∧ Framed s s' tag val := by
  have hparsed := hinv.expand
  rw [setMeta, if_neg hmsg.1, if_neg (by rw [hmsg.2]; decide), if_neg (Nat.not_lt_of_le htag)]
  cases hm : s.getMeta tag with
  | none =>
    exact ⟨_, rfl, (hparsed.inv.addMeta tag val).framed hmsg hinv htag⟩
  | some m =>
    refine ⟨_, rfl, (hparsed.inv.updateMeta (getMeta_eq hmsg htag ▸ hm) ?_).framed hmsg hinv htag⟩
    intro str hstr
    obtain ⟨hmetas, hchildren⟩ := hspares m str hm hstr
    rw [hparsed.dyn_data, hparsed.node]
    exact ⟨fun t ht ht' m' hm' => hmetas t ht m' (getMeta_eq hmsg ht' ▸ hm'), hchildren⟩

/-! ## Nodes that were made -/

theorem outside_known {v : KnvValue} (h : Outside v) (b : Buffers) : v.Known b := by
  match v, h with
  | .string (some (.other k, off)) len, _ => exact True.intro
  | .string none len, _ | .varint i64, _ | .fixed64 i64, _ | .fixed32 i32, _ => exact True.intro

/-- A call keeps the invariant, whatever it does to the others. -/
theorem Inv.setMeta (h : s.Inv) {tag : UInt32} {val : FieldVal} {s' : BufNode}
    (hs : s.setMeta tag val = .ok s') : s'.Inv := by
  have hparsed := h.expand
  rw [BufNode.setMeta] at hs
  split at hs
  · cases hs
  split at hs
  · cases hs
  split at hs
  · cases hs
  split at hs
  next =>
    obtain rfl := Except.ok.inj hs
    exact (hparsed.inv.addMeta tag val).inv.setValueDirty
  next m hm =>
    obtain rfl := Except.ok.inj hs
    refine Inv.setValueDirty ?_
    cases val with
    | varint i64 => exact @Inv.replaceVal _ hparsed.inv (.varint i64) True.intro m.node
    | fixed64 i64 => exact @Inv.replaceVal _ hparsed.inv (.fixed64 i64) True.intro m.node
    | fixed32 i32 => exact @Inv.replaceVal _ hparsed.inv (.fixed32 i32) True.intro m.node
    | string str =>
      have hval : (KnvValue.string (some ((s.expand.dyn_data.assignStr s.expand.node str
          s.expand.toBuffers).1, 0)) str.length).Known
            (s.expand.dyn_data.assignStr s.expand.node str s.expand.toBuffers).2.2 :=
        (hparsed.inv.dyn.assignStr str).2.2
      exact (hparsed.inv.assigned str).replaceVal hval m.node

theorem newTree_inv (others : Nat → Option (List UInt8)) (tag : UInt32) {key : Option KnvValue}
    (hkey : ∀ val ∈ key, Outside val) : (newTree others tag key).Inv := by
  have hroot : ∀ s : BufNode, s.toBuffers = (outside others).newNode.2 → s.node = 0 →
      s.dyn_data = .empty → s.val = .string none 0 → s.metalist = [] → s.childlist = [] →
      s.Inv := by
    intro s hb hnode hd hval hmetas hchildren
    refine ⟨?_, by rw [hval]; exact True.intro, ?_, ?_, ?_, ?_, fun hne => absurd hmetas hne⟩
    · rw [hd, hnode, hb]
      exact (outside others).newNode_ok
    · rw [hmetas]
      exact nofun
    · rw [hchildren]
      exact nofun
    · rw [hmetas]
      exact nofun
    · rw [hmetas]
      exact nofun
  cases key with
  | none => exact hroot _ rfl rfl rfl rfl rfl rfl
  | some val =>
    refine Inv.hangMeta (hroot _ rfl rfl rfl rfl rfl rfl) (Buffers.newNode_extends _) rfl
      (Nat.lt_succ_self _) ?_ true
    exact outside_known (hkey val rfl) _

theorem Made.inv {others : Nat → Option (List UInt8)} (h : Made others s) : s.Inv := by
  induction h with
  | @newFromData data s h =>
    rw [BufNode.newFromData] at h
    split at h
    · cases h
    next f rest hf =>
      obtain ⟨hext, hlt, -, hknown, hok⟩ := initOwn_spec (outside others) f.val
      obtain rfl := Option.some.inj h
      exact ⟨hok, hknown, nofun, nofun, nofun, nofun, fun hne => absurd rfl hne⟩
  | newTree tag hkey => exact newTree_inv others tag hkey
  | insertChild hs hc h ih =>
    rw [BufNode.insertChild] at h
    split at h
    · cases h
    split at h
    · cases h
    obtain rfl := Except.ok.inj h
    exact (ih.expand.inv.hangChild fun v hv => outside_known (hc v hv) _).setValueDirty
  | setMeta hs h ih => exact ih.setMeta h

/-! ## Runs -/

theorem exec_eq {s s' : BufNode} {c : Call} (h : s.setMeta c.tag c.val = .ok s') :
    s.exec c = s' := by
  rw [exec, h]

/-- **In a run whose calls spare the others, each sets its meta, and nothing else.** -/
theorem run_framed {others : Nat → Option (List UInt8)} (hmade : Made others s)
    (hmsg : s.IsMessage) {calls : List Call} (htags : ∀ c ∈ calls, 2 ≤ c.tag.toNat ∧ c.tag.toNat ≤ 10)
    (hspares : EachCall (fun s c => s.SparesOthers c.tag c.val) s calls) :
    EachCall (fun s c => ∃ s', s.setMeta c.tag c.val = .ok s' ∧
      s'.getMetaStr c.tag = some c.val.str ∧ (∀ tag ≠ c.tag, s'.getMetaStr tag = s.getMetaStr tag) ∧
        s'.childVals = s.childVals) s calls := by
  induction calls generalizing s with
  | nil => exact True.intro
  | cons c calls ih =>
    obtain ⟨htag, htags⟩ := List.forall_mem_cons.mp htags
    obtain ⟨s', hset, -, hmsg', hframed⟩ := setMeta_framed hmade.inv hmsg htag.2 hspares.1
    have hexec : s.exec c = s' := exec_eq hset
    refine ⟨⟨s', hset, ?_, fun t ht => ?_, hframed.children⟩, ?_⟩
    · rw [getMetaStr_eq, hframed.set]
      rfl
    · rw [getMetaStr_eq, getMetaStr_eq, hframed.others t ht]
    · have hrest := hspares.2
      rw [hexec] at hrest ⊢
      exact ih (hmade.setMeta hset) hmsg' htags hrest

theorem Made.exec {others : Nat → Option (List UInt8)} (h : Made others s) (c : Call) :
    Made others (s.exec c) := by
  rw [BufNode.exec]
  split
  next hset => exact h.setMeta hset
  · exact h

/-- The metas of the list are all there are. -/
theorem Inv.sparesOthers (hinv : s.Inv) {tag : UInt32} {str : List UInt8}
    (hmetas : ∀ m ∈ s.expand.metalist, m.tag ≠ tag →
      s.dyn_data.Spares s.node str.length m.val)
    (hchildren : ∀ v ∈ valsList s.expand.childlist, s.dyn_data.Spares s.node str.length v) :
    s.SparesOthers tag (.string str) := by
  rintro m str' - ⟨⟩
  refine ⟨fun t ht m' hm' => ?_, hchildren⟩
  rw [getMeta] at hm'
  split at hm'
  · cases hm'
  · have hlook := hinv.expand.inv
    exact hmetas m' (hlook.lookup_eq_some.mp hm').1 (by rw [hlook.lookup_tag hm']; exact ht)

/-- Two metas, and one of them set twice. -/
theorem run_framed_twice :
    EachCall (fun s c => ∃ s', s.setMeta c.tag c.val = .ok s' ∧
      s'.getMetaStr c.tag = some c.val.str ∧ (∀ tag ≠ c.tag, s'.getMetaStr tag = s.getMetaStr tag) ∧
        s'.childVals = s.childVals) (newTree (fun _ => none) 20 none)
      [.setMetaStr 2 [97], .setMetaInt 3 5, .setMetaStr 2 [98, 99]] := by
  have hmade : Made (fun _ => none) (newTree (fun _ => none) 20 none) := .newTree 20 nofun
  have hmade2 := (hmade.exec (.setMetaStr 2 [97])).exec (.setMetaInt 3 5)
  refine run_framed hmade ⟨by decide, rfl⟩ (by decide)
    ⟨nofun, nofun, hmade2.inv.sparesOthers ?_ nofun, True.intro⟩
  intro m hm hne
  rcases List.mem_cons.mp hm with rfl | hm
  · exact absurd rfl hne
  · obtain rfl := List.mem_singleton.mp hm
    exact True.intro

/-- Two metas that are set twice: the second update takes the value of the first. -/
theorem update_not_framed :
    let s := [Call.setMetaStr 2 [97], .setMetaStr 3 [98], .setMetaStr 2 [99]].foldl exec
      (newTree (fun _ => none) 20 none)
    s.getMetaStr 2 = some [99] ∧ (s.exec (.setMetaStr 3 [100])).getMetaStr 2 = some [100] := by
  decide

end BufNode

end MysqlProxy
