/-
  Reading a packed result row by row (`mysql_proxy_fetch_row` in `mysql_proxy_api.cpp`).

  The client makes a tree of the message it got and walks over the sets and their rows.  The iterator
  is a pointer to the current row.  When the rows of a set are used up, the set is REMOVED from the
  tree, and when there is no further set the iterator is `NULL` again, so that the next call looks for
  a first row in a tree that has no sets any more.

  * `nextRow` moves the iterator, `fetchRow` returns the cells of the row it is on.
  * `Browsing res sets rest`: the tree still has the sets `sets`, and the rows `rest` come next.  A call
    returns the first of them and leaves the others (`Browsing.fetchRow_cons`), or returns `NULL` and
    leaves none (`Browsing.fetchRow_nil`).
  * `fetchRow_packResult`: the calls return the rows of the result, one after the other, and then
    `NULL` for ever.

  A pointer to a row is a pair of `ref`s: the set in the tree, and the row in the set.
-/
import MysqlProxy.Knv.PbRaw
import MysqlProxy.Proxy.PackResult

namespace MysqlProxy

open KnvNode

def KNV_SETS_TAG : UInt32 := 12

def KNV_ROWS_FIELD_START_TAG : Nat := 11

def KNV_ROW_NUM_TAG : UInt32 := 3

def KNV_FIELD_NUM_TAG : UInt32 := 4

/-- `MYSQL_PROXY_RES`, as far as rows are concerned. -/
structure ProxyRes where
  datatree : KnvNode
  current_row : Option (Nat × Nat)

/-- `GetField`. -/
def getField (n : KnvNode) (tag : UInt32) : Option KnvNode :=
  if tag.toNat ≤ UC_MAX_META_NUM then n.getMeta tag else n.findChildByTag tag

/-- The nodes behind the one with a `ref`, in the order of `GetSibling`. -/
def siblings : List KnvNode → Nat → List KnvNode
  | [], _ => []
  | c :: l, r => if c.ref = r then l else siblings l r

/-- The loop that looks for a set with a row.  `p` says whether the parent of the sets has a key. -/
def firstRow (p : Bool) : List KnvNode → Option (Nat × Nat)
  | [] => none
  | c :: l =>
    if c.tag ≠ KNV_SETS_TAG then firstRow p l
    else match c.getFirstChild p with
      | none => firstRow p l
      | some row => some (c.ref, row.ref)

/-- The node of a set, expanded. -/
def setNode (tree : KnvNode) (s : Nat) : Option KnvNode :=
  (findRef tree.childlist s).map fun c => c.innerExpand (tree.key.val ≠ []) false

/-- The first half of `mysql_proxy_fetch_row`: the iterator moves to the next row. -/
def nextRow (res : ProxyRes) : ProxyRes :=
  let tree := res.datatree.innerExpand false false
  let p : Bool := tree.key.val ≠ []
  match res.current_row with
  | none =>
    ⟨tree, if tree.tag = 0 ∨ tree.child_num.getD 0 = 0 then none else firstRow p tree.childlist⟩
  | some (s, r) =>
    match (setNode tree s).bind fun set => nextIn set.childlist r with
    | some row => ⟨tree, some (s, row.ref)⟩
    -- the rows of this set are used up: it is removed, and the search goes on behind it
    | none => ⟨removeChild tree s, firstRow p (siblings tree.childlist s)⟩

def mysqlProxyNumRows (res : ProxyRes) : UInt64 := res.datatree.getFieldInt KNV_ROW_NUM_TAG

def mysqlProxyNumFields (res : ProxyRes) : UInt32 :=
  (res.datatree.getFieldInt KNV_FIELD_NUM_TAG).toUInt32

/-- The node the iterator points to. -/
def currentRow (res : ProxyRes) : Option KnvNode :=
  res.current_row.bind fun c => (setNode res.datatree c.1).bind fun set => findRef set.childlist c.2

/-- The cells of a row of `n` columns. -/
def readRow (n : Nat) (row : KnvNode) : Row :=
  (List.range n).map fun i =>
    (getField row (UInt32.ofNat (KNV_ROWS_FIELD_START_TAG + i))).map getStrVal

/-- `mysql_proxy_fetch_row`: the iterator moves, and `FetchRow` returns the row. -/
def fetchRow (res : ProxyRes) : ProxyRes × Option Row :=
  let res := nextRow res
  match currentRow res with
  | none => (res, none)
  | some row =>
    let n := (mysqlProxyNumFields res).toNat
    if n = 0 then (res, none) else (res, some (readRow n row))

/-- The state after some calls. -/
def afterFetches : Nat → ProxyRes → ProxyRes
  | 0, res => res
  | k + 1, res => afterFetches k (fetchRow res).1

/-! ## Nodes that were read -/

/-- **A node that was read, expanded**: its metas and its children are the nodes of its fields. -/
theorem grown_node {n : KnvNode} {tag : UInt32} {key : Option FieldVal} {ms : List PbField}
    {ts : List Tree} {sz : Nat} (hn : OfField false n ((Tree.node tag key ms ts).field, sz))
    (hne : nodeFields key ms ts ≠ []) (hlen : (messageBytes (nodeFields key ms ts)).length < 2 ^ 31)
    (htags : ∀ f ∈ nodeFields key ms ts, 0 < f.tag.toNat ∧ f.tag.toNat < 2 ^ 29) {p : Bool}
    (hp : ¬ (tag = 1 ∧ p = true)) :
    Grown false (n.innerExpand p false) n ((nodeFields key ms ts).map sized) := by
  have hok : ∀ f ∈ nodeFields key ms ts, FieldOk f.tag f.val := fun f hf =>
    fieldOk_of_mem hlen hf (htags f hf).1 (htags f hf).2
  have hfield : (Tree.node tag key ms ts).field =
      ⟨tag, .string (messageBytes (nodeFields key ms ts))⟩ := by
    rw [Tree.field, Tree.fieldList_eq]
    rfl
  rw [hfield] at hn
  obtain ⟨r, hr⟩ := hn
  obtain ⟨f, fs, hfs⟩ := List.exists_cons_of_ne_nil hne
  rw [hfs] at hlen hok hr ⊢
  have hnum : n.child_num = none := by
    rw [hr]
    exact @initNode_num tag _ sz _ _ (pbFields_messageBytes hok hlen)
  have hval : n.val = .string (messageBytes (f :: fs)) := by rw [hr]; rfl
  have hht : n.ht = KnvHt.clear := by rw [hr]; rfl
  have hntag : n.tag = tag := by rw [hr]; rfl
  rw [← hntag] at hp
  exact innerExpand_message hnum hval hht hok hlen hp false

/-- The children of such a node. -/
theorem Grown.children {n e : KnvNode} {key : Option FieldVal} {ms : List PbField} {ts : List Tree}
    (h : Grown false e n ((nodeFields key ms ts).map sized))
    (hms : ∀ f ∈ ms, f.tag.toNat ≤ UC_MAX_META_NUM) (hts : ∀ t ∈ ts, UC_MAX_META_NUM < t.tag.toNat) :
    List.Forall₂ (OfField false) e.childlist (ts.map fun t => sized t.field) ∧
      Hold e.metalist (Tree.keyFields key ++ ms) := by
  have hm : ∀ f ∈ Tree.keyFields key ++ ms, f.tag.toNat ≤ UC_MAX_META_NUM := by
    intro f hf
    rcases List.mem_append.mp hf with hf | hf
    · cases key with
      | none => exact absurd hf List.not_mem_nil
      | some k =>
        rw [List.mem_singleton.mp hf]
        show (1 : UInt32).toNat ≤ 10
        decide
    · exact hms f hf
  have hc : ∀ f ∈ ts.map Tree.field, UC_MAX_META_NUM < f.tag.toNat := by
    intro f hf
    obtain ⟨t, ht, rfl⟩ := List.mem_map.mp hf
    rw [Tree.field_tag]
    exact hts t ht
  have hchildren := h.ofField_childlist
  have hmetas := h.hold_metalist
  rw [nodeFields, childFields_append hm hc, List.map_map] at hchildren
  rw [nodeFields, metaFields_append hm hc] at hmetas
  exact ⟨hchildren, hmetas⟩

/-- The fields of a node with children and no metas but the key have tags in range. -/
theorem nodeFields_tags {key : Option FieldVal} {ms : List PbField} {ts : List Tree}
    (hms : ∀ f ∈ ms, 0 < f.tag.toNat ∧ f.tag.toNat < 2 ^ 29)
    (hts : ∀ t ∈ ts, 0 < t.tag.toNat ∧ t.tag.toNat < 2 ^ 29) :
    ∀ f ∈ nodeFields key ms ts, 0 < f.tag.toNat ∧ f.tag.toNat < 2 ^ 29 := by
  intro f hf
  rcases mem_nodeFields.mp hf with ⟨k, _, rfl⟩ | hf | ⟨t, ht, rfl⟩
  · show 0 < (1 : UInt32).toNat ∧ (1 : UInt32).toNat < 2 ^ 29
    decide
  · exact hms f hf
  · rw [Tree.field_tag]
    exact hts t ht

theorem size_field_le {t : Tree} {key : Option FieldVal} {ms : List PbField} {ts : List Tree}
    (h : t ∈ ts) : t.field.size ≤ (messageBytes (nodeFields key ms ts)).length :=
  size_le_of_mem (mem_nodeFields.mpr (.inr (.inr ⟨t, h, rfl⟩)))

theorem length_value_le (tag : UInt32) (key : Option FieldVal) (ms : List PbField) (ts : List Tree) :
    (messageBytes (nodeFields key ms ts)).length ≤ (Tree.node tag key ms ts).field.size := by
  rw [Tree.field, Tree.fieldList_eq]
  exact str_le_size

/-! ## Rows and sets -/

/-- The node of a row. -/
structure RowNode (x : KnvNode) (row : Row) : Prop where
  ofField : ∃ name, name ≠ [] ∧ OfField false x (sized (rowTree (name, row)).field) ∧
    (rowTree (name, row)).field.size < 2 ^ 31

/-- The node of a set. -/
structure SetNode (c : KnvNode) (s : RowSet) : Prop where
  ofField : OfField false c (sized s.tree.field)
  ok : s.Ok
  size : s.tree.field.size < 2 ^ 31

theorem SetNode.tag {c : KnvNode} {s : RowSet} (h : SetNode c s) : c.tag = KNV_SETS_TAG := by
  obtain ⟨r, rfl⟩ := h.ofField
  show s.tree.field.tag = 12
  rw [Tree.field_tag]
  rfl

/-- **The rows of a set.** -/
theorem SetNode.rows {c : KnvNode} {s : RowSet} (h : SetNode c s) (p : Bool) :
    List.Forall₂ RowNode (c.innerExpand p false).childlist (s.rows.map Prod.snd) ∧
      ((c.innerExpand p false).childlist.map fun x => x.ref).Nodup ∧
      (c.innerExpand p false).child_num = some (c.innerExpand p false).childlist.length := by
  have hne : nodeFields (treeKey s.name) [] (s.rows.map rowTree) ≠ [] := by
    intro h0
    rw [nodeFields, List.append_eq_nil_iff, List.map_eq_nil_iff, List.map_eq_nil_iff] at h0
    exact h.ok.rows h0.2
  have hlen := Nat.lt_of_le_of_lt (length_value_le 12 (treeKey s.name) [] (s.rows.map rowTree)) h.size
  have htag : ∀ t ∈ s.rows.map rowTree, t.tag = 11 := by
    intro t ht
    obtain ⟨r, _, rfl⟩ := List.mem_map.mp ht
    rfl
  have hg := grown_node (p := p) h.ofField hne hlen
    (nodeFields_tags (fun f hf => absurd hf List.not_mem_nil) fun t ht => by rw [htag t ht]; decide)
    (fun h1 => absurd h1.1 (by decide))
  have hc := (Grown.children hg (fun f hf => absurd hf List.not_mem_nil)
    fun t ht => by rw [htag t ht]; decide).1
  refine ⟨?_, hg.nodup_childlist, hg.child_num⟩
  rw [List.map_map, List.forall₂_map_right_iff] at hc
  rw [List.forall₂_map_right_iff, List.forall₂_iff_get]
  obtain ⟨hl, hget⟩ := List.forall₂_iff_get.mp hc
  refine ⟨hl, fun i h₁ h₂ => ⟨(s.rows.get ⟨i, h₂⟩).1, ?_, hget i h₁ h₂, ?_⟩⟩
  · exact (h.ok.names _ (List.get_mem _ _)).1
  · exact Nat.lt_of_le_of_lt (size_field_le (List.mem_map_of_mem (List.get_mem _ _))) hlen

/-! ## Cells -/

theorem mem_cellFields {row : Row} {f : PbField} : f ∈ cellFields row ↔
    ∃ i val, row[i]? = some (some val) ∧ f = ⟨UInt32.ofNat (11 + i), .string val⟩ := by
  unfold cellFields
  rw [List.mem_filterMap]
  constructor
  · rintro ⟨⟨cell, i⟩, hc, hf⟩
    obtain ⟨val, rfl, rfl⟩ := Option.map_eq_some_iff.mp hf
    exact ⟨i, val, List.mem_zipIdx_iff_getElem?.mp hc, rfl⟩
  · rintro ⟨i, val, hi, rfl⟩
    exact ⟨(some val, i), List.mem_zipIdx_iff_getElem?.mpr hi, rfl⟩

/-- The tags of the cells differ. -/
theorem cellTag_inj {i j : Nat} (hi : 11 + i < 2 ^ 29) (hj : 11 + j < 2 ^ 29)
    (h : UInt32.ofNat (11 + i) = UInt32.ofNat (11 + j)) : i = j := by
  have := congrArg UInt32.toNat h
  rw [UInt32.toNat_ofNat', UInt32.toNat_ofNat'] at this
  omega

section Cells

variable {x : KnvNode} {row : Row}

theorem RowNode.tag_ne (h : RowNode x row) : x.tag ≠ 0 := by
  obtain ⟨name, _, ⟨r, rfl⟩, _⟩ := h.ofField
  show (rowTree (name, row)).field.tag ≠ 0
  rw [Tree.field_tag]
  exact (by decide : (11 : UInt32) ≠ 0)

theorem toNat_cellTag (hlen : 11 + row.length ≤ 2 ^ 29) {i : Nat} (hi : i < row.length) :
    (UInt32.ofNat (11 + i)).toNat = 11 + i := by
  rw [UInt32.toNat_ofNat']
  omega

/-- The children of a row's node are its cells. -/
theorem RowNode.cells (h : RowNode x row) (hlen : 11 + row.length ≤ 2 ^ 29) :
    ∃ fs, Grown false (x.innerExpand false false) x fs ∧
      Hold (x.innerExpand false false).childlist (cellFields row) := by
  obtain ⟨name, hname, hof, hsize⟩ := h.ofField
  have hcells : ∀ t ∈ (cellFields row).map Tree.leaf, ∃ i, i < row.length ∧ t.tag.toNat = 11 + i := by
    intro t ht
    obtain ⟨f, hf, rfl⟩ := List.mem_map.mp ht
    obtain ⟨i, val, hi, rfl⟩ := mem_cellFields.mp hf
    have hi' := (List.getElem?_eq_some_iff.mp hi).1
    exact ⟨i, hi', toNat_cellTag hlen hi'⟩
  have hne : nodeFields (treeKey name) [] ((cellFields row).map Tree.leaf) ≠ [] := by
    rw [treeKey, if_neg hname]
    exact List.cons_ne_nil _ _
  have hlen' := Nat.lt_of_le_of_lt
    (length_value_le 11 (treeKey name) [] ((cellFields row).map Tree.leaf)) hsize
  have hg := grown_node (p := false) hof hne hlen'
    (nodeFields_tags (fun f hf => absurd hf List.not_mem_nil) fun t ht => by
      obtain ⟨i, hi, he⟩ := hcells t ht
      omega) (fun h1 => absurd h1.2 Bool.false_ne_true)
  have hch := (Grown.children hg (fun f hf => absurd hf List.not_mem_nil) fun t ht => by
    obtain ⟨i, hi, he⟩ := hcells t ht
    rw [he]
    show 10 < 11 + i
    omega).1
  refine ⟨_, hg, ?_⟩
  rw [List.map_map, List.forall₂_map_right_iff] at hch
  refine hch.imp fun c f hcf => ?_
  rw [Function.comp_apply, Tree.field] at hcf
  exact OfField.stands hcf

/-- **A cell comes back** under its tag. -/
theorem RowNode.getField (h : RowNode x row) (hlen : 11 + row.length ≤ 2 ^ 29) {i : Nat}
    {cell : Option (List UInt8)} (hcell : row[i]? = some cell) :
    (MysqlProxy.getField x (UInt32.ofNat (KNV_ROWS_FIELD_START_TAG + i))).map getStrVal = cell := by
  obtain ⟨fs, hg, hold⟩ := h.cells hlen
  have hi := (List.getElem?_eq_some_iff.mp hcell).1
  have hfield : MysqlProxy.getField x (UInt32.ofNat (KNV_ROWS_FIELD_START_TAG + i)) =
      (x.innerExpand false false).lookupChild (UInt32.ofNat (11 + i)) := by
    have hgt : ¬ (UInt32.ofNat (KNV_ROWS_FIELD_START_TAG + i)).toNat ≤ UC_MAX_META_NUM := by
      show ¬ (UInt32.ofNat (11 + i)).toNat ≤ 10
      rw [toNat_cellTag hlen hi]
      omega
    rw [MysqlProxy.getField, if_neg hgt, findChildByTag_eq h.tag_ne]
    rfl
  rw [hfield]
  cases hlook : (x.innerExpand false false).lookupChild (UInt32.ofNat (11 + i)) with
  | some c =>
    -- it is the only cell with this tag
    obtain ⟨hmem, hct⟩ := hg.indexed.lookupChild_some hlook
    obtain ⟨f, hf, hst⟩ := forall₂_mem hold hmem
    obtain ⟨j, val, hj, rfl⟩ := mem_cellFields.mp hf
    have hjl := (List.getElem?_eq_some_iff.mp hj).1
    have hij : i = j := cellTag_inj (by omega) (by omega) (hct.symm.trans hst.tag)
    subst hij
    rw [hcell] at hj
    have hc0 : UInt32.ofNat (11 + i) ≠ 0 := by
      intro h0
      have := toNat_cellTag hlen hi
      rw [h0] at this
      exact absurd this (by show 0 ≠ 11 + i; omega)
    rw [Option.map_some, getStrVal_stands hst hc0, Option.some.inj hj]
    rfl
  | none =>
    cases cell with
    | none => rfl
    | some val =>
      -- a cell that is there is found
      obtain ⟨c, hc, hst⟩ := forall₂_mem hold.flip (mem_cellFields.mpr ⟨i, val, hcell, rfl⟩)
      obtain ⟨c', hc'⟩ := hg.indexed.lookupChild_of_mem hc
      rw [hst.tag, hlook] at hc'
      cases hc'

/-- A cell whose tag needs more than 29 bits is never found. -/
theorem RowNode.findChildByTag_wide (h : RowNode x row) {t : UInt32} (ht : 2 ^ 29 ≤ t.toNat) :
    x.findChildByTag t = none := by
  rw [findChildByTag_eq h.tag_ne]
  obtain ⟨name, _, hof, hsize⟩ := h.ofField
  generalize hfs : nodeFields (treeKey name) [] ((cellFields row).map Tree.leaf) = fs
  have hlen : (messageBytes fs).length < 2 ^ 31 := by
    rw [← hfs]
    exact Nat.lt_of_le_of_lt (length_value_le 11 _ [] _) hsize
  have hstrs : ∀ f ∈ fs, ∀ str, f.val = .string str → str.length < 2 ^ 32 := by
    intro f hf str hstr
    have hle := size_le_of_mem hf
    obtain ⟨tag, val⟩ := f
    subst hstr
    have hstr' : str.length ≤ PbField.size ⟨tag, .string str⟩ := str_le_size
    omega
  have hval : x.val = .string (messageBytes fs) ∧ x.ht = KnvHt.clear := by
    obtain ⟨r, rfl⟩ := hof
    rw [rowTree, Tree.field, Tree.fieldList_eq, ← hfs]
    exact ⟨rfl, rfl⟩
  have hnum0 : x.child_num = none ∨ x.child_num = some 0 := by
    obtain ⟨r, rfl⟩ := hof
    exact initNode_child_num (rowTree (name, row)).field.tag _ (rowTree (name, row)).field.size false
  -- nothing is found in a node that has no children
  have hnone : ∀ e : KnvNode, e.child_num = some 0 → e.lookupChild t = none := by
    intro e he
    rw [lookupChild, he]
    rfl
  by_cases hnum : x.child_num = none
  · by_cases hbad : ∀ gs, pbFields (messageBytes fs) ≠ some (gs, true)
    · exact hnone _ (innerExpand_malformed hnum hval.1 hbad false false).1
    · obtain ⟨gs, hgs⟩ := not_forall.mp hbad
      have hp := not_not.mp hgs
      have hg := (innerExpand_grown hnum hval.1 hval.2 hp
        (p := false) (fun h1 => absurd h1.2 Bool.false_ne_true) false).1
      cases hl : (x.innerExpand false false).lookupChild t with
      | none => rfl
      | some c =>
        obtain ⟨hmem, hct⟩ := hg.indexed.lookupChild_some hl
        obtain ⟨f, hf, r, rfl⟩ := forall₂_mem hg.childlist hmem
        have hlt := pbFields_messageBytes_tag_lt hstrs hp f (List.mem_filter.mp hf).1
        have hct' : f.1.tag = t := hct
        rw [hct'] at hlt
        omega
  · rw [innerExpand_expanded hnum]
    exact hnone _ (hnum0.resolve_left hnum)

/-- **The cells of a row come back**, if their tags fit the wire. -/
theorem RowNode.readRow (h : RowNode x row) (hlen : 11 + row.length ≤ 2 ^ 29) :
    MysqlProxy.readRow row.length x = row := by
  unfold MysqlProxy.readRow
  apply List.ext_getElem?
  intro i
  rw [List.getElem?_map]
  by_cases hi : i < row.length
  · rw [List.getElem?_range hi, Option.map_some, h.getField hlen (List.getElem?_eq_getElem hi),
      List.getElem?_eq_getElem hi]
  · rw [List.getElem?_eq_none (by rw [List.length_range]; omega), List.getElem?_eq_none (by omega)]
    rfl

end Cells

/-! ## The iterator -/

/-- A tree of a result that was read, with the sets that are still in it. -/
structure Opened (N F : UInt64) (e : KnvNode) (sets : List RowSet) : Prop where
  tag : e.tag ≠ 0
  num_rows : (e.lookupMeta 3).map getIntVal = some N
  num_fields : (e.lookupMeta 4).map getIntVal = some F
  child_num : e.child_num = some e.childlist.length
  nodup : (e.childlist.map fun x => x.ref).Nodup
  childlist : ∃ f nodes, e.childlist = f :: nodes ∧ f.tag ≠ KNV_SETS_TAG ∧
    List.Forall₂ SetNode nodes sets

theorem Opened.expanded {N F : UInt64} {e : KnvNode} {sets : List RowSet} (h : Opened N F e sets) :
    e.innerExpand false false = e :=
  innerExpand_expanded (by rw [h.child_num]; exact fun he => nomatch he) false false

theorem getFieldInt_expand {n : KnvNode} {t : UInt32} {v : UInt64} (htag : n.tag ≠ 0)
    (ht : t.toNat ≤ UC_MAX_META_NUM)
    (h : ((n.innerExpand false false).lookupMeta t.toNat).map getIntVal = some v) :
    n.getFieldInt t = v := by
  unfold getFieldInt
  simp only [if_pos ht, getMeta_eq htag ht, h]
  rfl

/-- The iterator, and the rows that come next: before the first set, or on a row of it. -/
def Cursor (e : KnvNode) (sets : List RowSet) (rest : List Row) : Option (Nat × Nat) → Prop
  | none => rest = rowsOf sets
  | some (s, r) => ∃ f c nodes l x l' set sets' left, e.childlist = f :: c :: nodes ∧ c.ref = s ∧
      sets = set :: sets' ∧ (c.innerExpand (e.key.val ≠ []) false).childlist = l ++ x :: l' ∧
      x.ref = r ∧ List.Forall₂ RowNode l' left ∧ rest = left ++ rowsOf sets'

/-- The rows `rest` come next. -/
def Browsing (N F : UInt64) (res : ProxyRes) (rest : List Row) : Prop :=
  res.datatree.tag ≠ 0 ∧ ∃ sets, Opened N F (res.datatree.innerExpand false false) sets ∧
    Cursor (res.datatree.innerExpand false false) sets rest res.current_row

theorem Browsing.num_rows {N F : UInt64} {res : ProxyRes} {rest : List Row}
    (h : Browsing N F res rest) : mysqlProxyNumRows res = N := by
  obtain ⟨htag, sets, ho, _⟩ := h
  exact getFieldInt_expand htag (by decide) ho.num_rows

theorem Browsing.num_fields {N F : UInt64} {res : ProxyRes} {rest : List Row}
    (h : Browsing N F res rest) : mysqlProxyNumFields res = F.toUInt32 := by
  obtain ⟨htag, sets, ho, _⟩ := h
  exact congrArg UInt64.toUInt32 (getFieldInt_expand htag (by decide) ho.num_fields)

/-- The iterator has moved to the first of the rows. -/
def Lands (N F : UInt64) (res : ProxyRes) : List Row → Prop
  | [] => res.current_row = none ∧ Browsing N F res []
  | row :: rest => (∃ x, currentRow res = some x ∧ RowNode x row) ∧ Browsing N F res rest

section Walk

variable {N F : UInt64} {e : KnvNode} {sets : List RowSet}

/-- The iterator on a row of the first set. -/
theorem Opened.lands_row (h : Opened N F e sets) {f c : KnvNode} {nodes l l' : List KnvNode}
    {x : KnvNode} {set : RowSet} {sets' : List RowSet} {row : Row} {left : List Row}
    (he : e.childlist = f :: c :: nodes) (hsets : sets = set :: sets') (hc : SetNode c set)
    (hl : (c.innerExpand (e.key.val ≠ []) false).childlist = l ++ x :: l') (hx : RowNode x row)
    (hleft : List.Forall₂ RowNode l' left) :
    Lands N F ⟨e, some (c.ref, x.ref)⟩ (row :: (left ++ rowsOf sets')) := by
  constructor
  · refine ⟨x, ?_, hx⟩
    have hset : setNode e c.ref = some (c.innerExpand (e.key.val ≠ []) false) := by
      rw [setNode, findRef_of_mem h.nodup (by rw [he]; simp)]
      rfl
    have hrow : findRef (l ++ x :: l') x.ref = some x := by
      refine findRef_of_mem ?_ (by simp)
      rw [← hl]
      exact (hc.rows _).2.1
    show (setNode e c.ref).bind (fun set => findRef set.childlist x.ref) = some x
    rw [hset, Option.bind_some, hl, hrow]
  · refine ⟨h.tag, sets, ?_, ?_⟩
    · show Opened N F (e.innerExpand false false) sets
      rw [h.expanded]
      exact h
    · show Cursor (e.innerExpand false false) sets _ _
      rw [h.expanded]
      exact ⟨f, c, nodes, l, x, l', set, sets', left, he, rfl, hsets, hl, rfl, hleft, rfl⟩

/-- The search for a set with a row. -/
theorem Opened.lands_first (h : Opened N F e sets) {f : KnvNode} {nodes : List KnvNode}
    (he : e.childlist = f :: nodes) (hnodes : List.Forall₂ SetNode nodes sets) :
    Lands N F ⟨e, firstRow (e.key.val ≠ []) nodes⟩ (rowsOf sets) := by
  cases hnodes with
  | nil =>
    refine ⟨rfl, h.tag, [], ?_, ?_⟩
    · show Opened N F (e.innerExpand false false) []
      rw [h.expanded]
      exact h
    · rfl
  | @cons c set nodes sets' hc hrest =>
    obtain ⟨hrows, _, hnum⟩ := hc.rows (e.key.val ≠ [])
    obtain ⟨r, rs, hrs⟩ := List.exists_cons_of_ne_nil hc.ok.rows
    rw [hrs, List.map_cons] at hrows
    obtain ⟨x, l', hx, hl', hlist⟩ := List.forall₂_cons_right_iff.mp hrows
    have hfirst : c.getFirstChild (e.key.val ≠ []) = some x := by
      unfold getFirstChild
      rw [if_neg (by rw [hc.tag]; decide)]
      simp only [hnum, hlist]
      rfl
    have hland := h.lands_row (l := []) he rfl hc hlist hx hl'
    rw [firstRow, if_neg (not_not_intro hc.tag), hfirst]
    rw [show rowsOf (set :: sets') = r.2 :: (rs.map Prod.snd ++ rowsOf sets') by
      simp [rowsOf, hrs]]
    exact hland

/-- Nothing that comes before the sets is one. -/
theorem firstRow_cons (p : Bool) {f : KnvNode} (hf : f.tag ≠ KNV_SETS_TAG) (nodes : List KnvNode) :
    firstRow p (f :: nodes) = firstRow p nodes := by
  rw [firstRow, if_pos hf]

/-- The first set, removed. -/
theorem Opened.removeChild (h : Opened N F e sets) {f c : KnvNode} {nodes : List KnvNode}
    {sets' : List RowSet} (he : e.childlist = f :: c :: nodes)
    (hf : f.tag ≠ KNV_SETS_TAG) (hrest : List.Forall₂ SetNode nodes sets') :
    Opened N F (removeChild e c.ref) sets' ∧ (removeChild e c.ref).childlist = f :: nodes ∧
      (removeChild e c.ref).key = e.key := by
  have hnd := h.nodup
  rw [he, List.map_cons, List.map_cons, List.nodup_cons, List.nodup_cons] at hnd
  obtain ⟨hfr, hcr, hnd'⟩ := hnd
  have hfilter : (e.childlist.filter fun x => x.ref ≠ c.ref) = f :: nodes := by
    have hfc : f.ref ≠ c.ref := fun heq => hfr (by rw [heq]; exact List.mem_cons_self)
    rw [he, List.filter_cons_of_pos (by simpa using hfc), List.filter_cons_of_neg (by simp),
      List.filter_eq_self.mpr]
    intro x hx
    have hxc : x.ref ≠ c.ref := fun heq => hcr (List.mem_map.mpr ⟨x, hx, heq⟩)
    simpa using hxc
  have hfind : findRef e.childlist c.ref = some c := findRef_of_mem h.nodup (by rw [he]; simp)
  obtain ⟨sz, val_sz, hed⟩ := edited_eq { e with
      ht := (e.ht.remove e.childView c.ref).getD e.ht
      childlist := e.childlist.filter fun x => x.ref ≠ c.ref
      child_num := e.child_num.map (· - 1) } (-(evaluateSize c).1)
  rw [MysqlProxy.removeChild, hfind]
  simp only [hed]
  refine ⟨⟨h.tag, h.num_rows, h.num_fields, ?_, ?_, f, nodes, hfilter, hf, hrest⟩, hfilter, trivial⟩
  · show e.child_num.map (· - 1) = some (e.childlist.filter fun x => x.ref ≠ c.ref).length
    rw [hfilter, h.child_num, he]
    rfl
  · show ((e.childlist.filter fun x => x.ref ≠ c.ref).map fun x => x.ref).Nodup
    rw [hfilter, List.map_cons, List.nodup_cons]
    exact ⟨fun hm => hfr (List.mem_cons_of_mem _ hm), hnd'⟩

/-- **The iterator moves to the next row.** -/
theorem Browsing.nextRow {res : ProxyRes} {rest : List Row} (h : Browsing N F res rest) :
    Lands N F (nextRow res) rest := by
  obtain ⟨_, sets, ho, hcur⟩ := h
  unfold MysqlProxy.nextRow
  generalize res.datatree.innerExpand false false = e at ho hcur ⊢
  obtain ⟨f, nodes, he, hf, hnodes⟩ := ho.childlist
  cases hrow : res.current_row with
  | none =>
    rw [hrow] at hcur
    rw [show rest = rowsOf sets from hcur]
    have hnum : ¬ (e.tag = 0 ∨ e.child_num.getD 0 = 0) := by
      rw [ho.child_num, he]
      exact not_or.mpr ⟨ho.tag, Nat.succ_ne_zero _⟩
    simp only [if_neg hnum]
    rw [he, firstRow_cons _ hf]
    exact ho.lands_first he hnodes
  | some cur =>
    obtain ⟨s, r⟩ := cur
    rw [hrow] at hcur
    obtain ⟨f', c, nodes', l, x, l', set, sets', left, he', hs, hsets, hl, hr, hleft, hrest⟩ := hcur
    subst hs hr hsets hrest
    rw [he'] at he
    cases he
    obtain ⟨hc, hrest⟩ := List.forall₂_cons.mp hnodes
    have hset : setNode e c.ref = some (c.innerExpand (e.key.val ≠ []) false) := by
      rw [setNode, findRef_of_mem ho.nodup (by rw [he']; simp)]
      rfl
    have hnext : nextIn (l ++ x :: l') x.ref = l'.head? := by
      apply nextIn_split
      have hnd := (hc.rows (e.key.val ≠ [])).2.1
      rw [hl, List.map_append, List.map_cons, List.nodup_append] at hnd
      exact fun hm => hnd.2.2 _ hm x.ref List.mem_cons_self rfl
    simp only [hset, Option.bind_some, hl, hnext]
    cases hleft with
    | nil =>
      -- the set is used up
      have hsib : siblings e.childlist c.ref = nodes' := by
        have hnd := ho.nodup
        rw [he', List.map_cons, List.nodup_cons] at hnd
        have hfc : f.ref ≠ c.ref := fun heq => hnd.1 (by rw [heq]; exact List.mem_cons_self)
        rw [he', siblings, if_neg hfc, siblings, if_pos rfl]
      obtain ⟨ho', hlist, hkey⟩ := ho.removeChild he' hf hrest
      have hland := ho'.lands_first hlist hrest
      rw [hkey] at hland
      rw [List.head?_nil, hsib]
      exact hland
    | @cons x' row l' left hx' hleft =>
      rw [List.head?_cons]
      have hl' : (c.innerExpand (e.key.val ≠ []) false).childlist = (l ++ [x]) ++ x' :: l' := by
        rw [hl, List.append_assoc]
        rfl
      exact ho.lands_row he' rfl hc hl' hx' hleft

/-- **A call returns the next row**, or `NULL` when there is none. -/
theorem Browsing.fetchRow {res : ProxyRes} {rest : List Row} (h : Browsing N F res rest)
    (hF : F.toUInt32.toNat ≠ 0) :
    Browsing N F (MysqlProxy.fetchRow res).1 rest.tail ∧
      Option.Rel (fun cells row => ∃ x, RowNode x row ∧ cells = readRow F.toUInt32.toNat x)
        (MysqlProxy.fetchRow res).2 rest.head? := by
  have hland := h.nextRow
  unfold MysqlProxy.fetchRow
  generalize MysqlProxy.nextRow res = res' at hland ⊢
  cases rest with
  | nil =>
    obtain ⟨hnone, hbr⟩ := hland
    have hcur : currentRow res' = none := by rw [currentRow, hnone]; rfl
    simp only [hcur]
    exact ⟨hbr, .none⟩
  | cons row rest =>
    obtain ⟨⟨x, hcur, hx⟩, hbr⟩ := hland
    have hnum : mysqlProxyNumFields res' = F.toUInt32 := hbr.num_fields
    simp only [hcur, hnum, if_neg hF]
    exact ⟨hbr, .some ⟨x, hx, rfl⟩⟩

/-- **The calls return the rows, one after the other**, and then `NULL` for ever. -/
theorem Browsing.afterFetches (hF : F.toUInt32.toNat ≠ 0) (k : Nat) : ∀ {res : ProxyRes}
    {rest : List Row}, Browsing N F res rest → Browsing N F (afterFetches k res) (rest.drop k) := by
  induction k with
  | zero => exact fun h => h
  | succ k ih =>
    intro res rest h
    have hnext := ih (h.fetchRow hF).1
    rw [List.drop_tail] at hnext
    exact hnext

end Walk

/-! ## A packed result -/

theorem mem_resultMetas {res : MysqlRes} {time : UInt64} {f : PbField} (h : f ∈ resultMetas res time) :
    0 < f.tag.toNat ∧ f.tag.toNat ≤ UC_MAX_META_NUM := by
  unfold resultMetas at h
  simp only [List.mem_cons, List.not_mem_nil, or_false] at h
  have htag : f.tag = 2 ∨ f.tag = 3 ∨ f.tag = 4 := by
    rcases h with rfl | rfl | rfl
    · exact .inl rfl
    · exact .inr (.inl rfl)
    · exact .inr (.inr rfl)
  rcases htag with h | h | h
  all_goals
    rw [h]
    exact ⟨by decide, by decide⟩

/-- The counts are among the metas. -/
theorem lastField_resultMetas (fs : List PbField) (res : MysqlRes) (time : UInt64) :
    lastField (fs ++ resultMetas res time) 3 =
        some ⟨3, .varint (UInt64.ofNat (res.rows.length % 2 ^ 32))⟩ ∧
      lastField (fs ++ resultMetas res time) 4 =
        some ⟨4, .varint (UInt64.ofNat (res.fields.length % 2 ^ 32))⟩ := by
  unfold lastField resultMetas
  rw [List.reverse_append]
  exact ⟨rfl, rfl⟩

/-- An integer among the metas. -/
theorem getIntVal_meta {k : Bool} {n n₀ : KnvNode} {fs : List (PbField × Nat)} {ms : List PbField}
    {t : Nat} {tag : UInt32} {v : UInt64} (hg : Grown k n n₀ fs) (hms : Hold n.metalist ms)
    (hlast : lastField ms t = some ⟨tag, .varint v⟩) : (n.lookupMeta t).map getIntVal = some v := by
  have hrel : Option.Rel Stands (n.lookupMeta t) (lastField ms t) := by
    rw [hg.metas t]
    exact forall₂_find? (fun m f hm => by rw [hm.tag]) (List.forall₂_reverse_iff.mpr hms)
  rw [hlast] at hrel
  cases hm : n.lookupMeta t with
  | none => rw [hm] at hrel; cases hrel
  | some m =>
    rw [hm] at hrel
    cases hrel with
    | some hs => rw [Option.map_some, getIntVal, hs.val]

/-- Every row takes at least a byte. -/
theorem length_rowsOf_le (sets : List RowSet) :
    (rowsOf sets).length ≤ (sets.map fun s => s.tree.field.size).sum := by
  induction sets with
  | nil => exact Nat.le_refl 0
  | cons s sets ih =>
    have hset : s.rows.length ≤ s.tree.field.size := by
      refine Nat.le_trans ?_ (length_value_le 12 (treeKey s.name) [] (s.rows.map rowTree))
      rw [length_messageBytes, nodeFields, List.map_append, List.sum_append]
      have hsum : ∀ ts : List Tree, ts.length ≤ ((ts.map Tree.field).map PbField.size).sum := by
        intro ts
        induction ts with
        | nil => exact Nat.le_refl 0
        | cons t ts ih =>
          have := t.field.size_pos
          rw [List.map_cons, List.map_cons, List.sum_cons, List.length_cons]
          omega
      have := hsum (s.rows.map rowTree)
      rw [List.length_map] at this
      omega
    have hrows : (rowsOf (s :: sets)).length = s.rows.length + (rowsOf sets).length := by
      simp [rowsOf]
    rw [hrows, List.map_cons, List.sum_cons]
    omega

/-- The size of a node that was built is the size of its field. -/
theorem size_means {n : KnvNode} {tag : UInt32} {key : Option FieldVal} {ms : List PbField}
    {ts : List Tree} (h : Means n (.node tag key ms ts)) :
    (evaluateSize n).1 = ((Tree.node tag key ms ts).field.size : Int) := by
  obtain ⟨htr, _⟩ := means_node.mp h
  rw [htr.evaluateSize]
  show n.eval_sz = _
  rw [htr.sz, Tree.field, Tree.fieldList_eq]
  rfl

/-- The root of a result that is read, expanded. -/
theorem grown_result {n : KnvNode} {res : MysqlRes} {time : UInt64} {key : Option FieldVal}
    {ts : List Tree} {sz : Nat} (hts : ∀ t ∈ ts, t.tag = KNV_SETS_TAG)
    (hn : OfField false n
      ((Tree.node 1 key (resultMetas res time) (fieldsTree res.fields :: ts)).field, sz))
    (hlen : (messageBytes (nodeFields key (resultMetas res time)
      (fieldsTree res.fields :: ts))).length < 2 ^ 31) :
    Grown false (n.innerExpand false false) n
        ((nodeFields key (resultMetas res time) (fieldsTree res.fields :: ts)).map sized) ∧
      List.Forall₂ (OfField false) (n.innerExpand false false).childlist
        ((fieldsTree res.fields :: ts).map fun t => sized t.field) ∧
      Hold (n.innerExpand false false).metalist (Tree.keyFields key ++ resultMetas res time) := by
  have hne : nodeFields key (resultMetas res time) (fieldsTree res.fields :: ts) ≠ [] := by
    rw [nodeFields]
    exact List.append_ne_nil_of_right_ne_nil _ (List.cons_ne_nil _ _)
  have htag : ∀ t ∈ fieldsTree res.fields :: ts,
      UC_MAX_META_NUM < t.tag.toNat ∧ t.tag.toNat < 2 ^ 29 := by
    intro t ht
    rcases List.mem_cons.mp ht with rfl | ht
    · rw [show (fieldsTree res.fields).tag = 11 from rfl]
      exact ⟨by decide, by decide⟩
    · rw [hts t ht]
      exact ⟨by decide, by decide⟩
  have hg := grown_node (p := false) hn hne hlen
    (nodeFields_tags (fun f hf => ⟨(mem_resultMetas hf).1, Nat.lt_of_le_of_lt (mem_resultMetas hf).2
      (by decide)⟩) fun t ht => ⟨Nat.lt_trans (by decide) (htag t ht).1, (htag t ht).2⟩)
    (fun h1 => absurd h1.2 Bool.false_ne_true)
  exact ⟨hg, Grown.children hg (fun f hf => (mem_resultMetas hf).2) fun t ht => (htag t ht).1⟩

/-- The folded sets have the tag of a set. -/
theorem tag_of_sets {ts : List Tree} {sets : List RowSet}
    (hts : ts.map Tree.field = sets.map fun s => s.tree.field) :
    ∀ t ∈ ts, t.tag = KNV_SETS_TAG := by
  intro t ht
  have hmem : t.field ∈ sets.map fun s => s.tree.field := hts ▸ List.mem_map_of_mem ht
  obtain ⟨s, _, he⟩ := List.mem_map.mp hmem
  rw [← Tree.field_tag, ← he, Tree.field_tag]
  rfl

/-- **A packed result, sent and read**: all its rows come next. -/
theorem browsing_packResult (res : MysqlRes) (hF : 11 + res.fields.length ≤ 2 ^ 32)
    (reqkey : List UInt8) (time : UInt64) : ∃ tree, packResult res reqkey time = some tree ∧
      ((evaluateSize tree).1 < 2 ^ 31 → res.rows.length < 2 ^ 31 ∧
        ∃ datatree, newFromMessage tree.getStrVal 1 = .ok datatree ∧ Browsing
          (UInt64.ofNat (res.rows.length % 2 ^ 32)) (UInt64.ofNat (res.fields.length % 2 ^ 32))
          ⟨datatree, none⟩ res.rows) := by
  obtain ⟨tree, sets, hpack, ⟨ts, hmeans, hts⟩, hok, hrows⟩ := packResult_packed res hF reqkey time
  refine ⟨tree, hpack, fun hsize => ?_⟩
  generalize treeKey (keyBytes reqkey) = key at hmeans
  have hne : nodeFields key (resultMetas res time) (fieldsTree res.fields :: ts) ≠ [] := by
    rw [nodeFields]
    exact List.append_ne_nil_of_right_ne_nil _ (List.cons_ne_nil _ _)
  rw [size_means hmeans] at hsize
  have hlen := Nat.lt_of_le_of_lt (length_value_le 1 key (resultMetas res time)
    (fieldsTree res.fields :: ts)) (by exact_mod_cast hsize)
  have hcount : res.rows.length < 2 ^ 31 := by
    have hsets : (ts.map fun t => t.field.size).sum = (sets.map fun s => s.tree.field.size).sum := by
      have := congrArg (fun l => (l.map PbField.size).sum) hts
      simp only [List.map_map] at this
      exact this
    have hle := length_rowsOf_le sets
    rw [length_messageBytes, nodeFields, List.map_append, List.sum_append, List.map_cons, List.map_cons,
      List.sum_cons, List.map_map] at hlen
    rw [hrows, ← hsets] at hle
    exact Nat.lt_of_le_of_lt (Nat.le_trans hle (Nat.le_trans (Nat.le_add_left _ _)
      (Nat.le_add_left _ _))) hlen
  rw [getStrVal_means hmeans hne]
  refine ⟨hcount, _, newFromMessage_init hlen (by decide),
    fun h0 => absurd h0 (by decide : (1 : UInt32) ≠ 0), ?_⟩
  have hof : OfField false (initNode 1 (.string (messageBytes (nodeFields key (resultMetas res time)
      (fieldsTree res.fields :: ts)))) true 0 false)
      ((Tree.node 1 key (resultMetas res time) (fieldsTree res.fields :: ts)).field, 0) := by
    rw [Tree.field, Tree.fieldList_eq]
    exact ⟨0, rfl⟩
  obtain ⟨hg, hch, hms⟩ := grown_result (tag_of_sets hts) hof hlen
  generalize initNode 1 _ true 0 false = n at hof hg hch hms ⊢
  obtain ⟨hnum, hfields⟩ := lastField_resultMetas (Tree.keyFields key) res time
  refine ⟨sets, ⟨?_, getIntVal_meta hg hms hnum, getIntVal_meta hg hms hfields, hg.child_num,
    hg.nodup_childlist, ?_⟩, hrows.symm⟩
  · have htag : (n.innerExpand false false).tag = n.tag := congrArg (fun h => h.2.1) hg.head
    rw [htag]
    obtain ⟨r, rfl⟩ := hof
    rw [Tree.field, Tree.fieldList_eq]
    exact (by decide : (1 : UInt32) ≠ 0)
  · rw [List.map_cons] at hch
    obtain ⟨f, nodes, hf, hnodes, hlist⟩ := List.forall₂_cons_right_iff.mp hch
    refine ⟨f, nodes, hlist, ?_, ?_⟩
    · obtain ⟨r, rfl⟩ := hf
      show (fieldsTree res.fields).field.tag ≠ 12
      rw [Tree.field_tag]
      exact (by decide : (11 : UInt32) ≠ 12)
    · have hfields : (ts.map fun t => sized t.field) = sets.map fun s => sized s.tree.field := by
        have := congrArg (List.map sized) hts
        rw [List.map_map, List.map_map] at this
        exact this
      rw [hfields, List.forall₂_map_right_iff] at hnodes
      rw [List.forall₂_iff_get] at hnodes ⊢
      refine ⟨hnodes.1, fun i h₁ h₂ => ⟨hnodes.2 i h₁ h₂, hok _ (List.get_mem _ _), ?_⟩⟩
      have hmem : (sets.get ⟨i, h₂⟩).tree.field ∈ ts.map Tree.field := by
        rw [hts]
        exact List.mem_map_of_mem (List.get_mem _ _)
      obtain ⟨t, ht, he⟩ := List.mem_map.mp hmem
      rw [← he]
      exact Nat.lt_of_le_of_lt (size_field_le (List.mem_cons_of_mem _ ht)) hlen

theorem size_le (tag : UInt32) (val : FieldVal) : PbField.size ⟨tag, val⟩ ≤ val.str.length + 20 := by
  have htag := fun ty => pbEvalVintLength_le (tagWord ty tag)
  cases val with
  | varint i64 =>
    exact Nat.le_trans (Nat.add_le_add (htag .varint) (pbEvalVintLength_le i64))
      (show 10 + 10 ≤ 0 + 20 by decide)
  | fixed64 i64 =>
    exact Nat.le_trans (Nat.add_le_add_right (htag .fixed64) 8)
      (show 10 + 8 ≤ 0 + 20 by decide)
  | fixed32 i32 =>
    exact Nat.le_trans (Nat.add_le_add_right (htag .fixed32) 4)
      (show 10 + 4 ≤ 0 + 20 by decide)
  | string str =>
    have h1 : pbEvalTagLength .string tag ≤ 10 := htag .string
    have h2 := pbEvalVintLength_le (UInt64.ofNat str.length)
    show pbEvalTagLength .string tag + pbEvalVintLength _ + str.length ≤ str.length + 20
    omega

theorem size_node_le (tag : UInt32) (key : Option FieldVal) (ms : List PbField) (ts : List Tree) :
    (Tree.node tag key ms ts).field.size ≤ (messageBytes (nodeFields key ms ts)).length + 20 := by
  rw [Tree.field, Tree.fieldList_eq]
  exact size_le tag _

theorem length_nodeFields_le (name : List UInt8) (ms : List PbField) (ts : List Tree) :
    (messageBytes (nodeFields (treeKey name) ms ts)).length ≤
      name.length + 20 + (ms.map PbField.size).sum + (ts.map fun t => t.field.size).sum := by
  rw [length_messageBytes, nodeFields, List.map_append, List.map_append, List.sum_append,
    List.sum_append, List.map_map]
  have hkey : ((Tree.keyFields (treeKey name)).map PbField.size).sum ≤ name.length + 20 := by
    unfold treeKey
    split
    · exact Nat.zero_le _
    · exact size_le 1 (.string name)
  exact Nat.add_le_add_right (Nat.add_le_add_right hkey _) _

/-- One row is one set. -/
theorem sets_of_row {sets : List RowSet} {row : Row} (hok : ∀ s ∈ sets, s.Ok)
    (h : rowsOf sets = [row]) : ∃ s name, sets = [s] ∧ s.rows = [(name, row)] := by
  have hcons : ∀ (s : RowSet) (l : List RowSet), rowsOf (s :: l) = s.rows.map Prod.snd ++ rowsOf l :=
    fun s l => List.flatMap_cons
  cases sets with
  | nil => cases h
  | cons s sets =>
    obtain ⟨r, rs, hrs⟩ := List.exists_cons_of_ne_nil (hok s List.mem_cons_self).rows
    rw [hcons, hrs, List.map_cons, List.cons_append, List.cons.injEq, List.append_eq_nil_iff,
      List.map_eq_nil_iff] at h
    obtain ⟨hrow, hrs', hrest⟩ := h
    refine ⟨s, r.1, ?_, by rw [hrs, hrs', ← hrow]⟩
    cases sets with
    | nil => rfl
    | cons s' sets =>
      rw [hcons, List.append_eq_nil_iff, List.map_eq_nil_iff] at hrest
      exact absurd hrest.1 (hok s' (by simp)).rows

/-- The size is that of the names and of the cells, apart from the names that `PackResult` makes. -/
theorem evaluateSize_packResult_le {res : MysqlRes} {row : Row} (hrow : res.rows = [row])
    (hF : 11 + res.fields.length ≤ 2 ^ 32) {reqkey : List UInt8} {time : UInt64} {tree : KnvNode}
    (hpack : packResult res reqkey time = some tree) : (evaluateSize tree).1 ≤
      ((fieldsTree res.fields).field.size + ((cellFields row).map PbField.size).sum + 2 ^ 20 : Nat) := by
  obtain ⟨tree', sets, hpack', ⟨ts, hmeans, hts⟩, hok, hrows⟩ := packResult_packed res hF reqkey time
  obtain rfl : tree = tree' := Option.some.inj (hpack.symm.trans hpack')
  rw [hrow] at hrows
  obtain ⟨s, name, rfl, hs⟩ := sets_of_row hok hrows
  have hsok := hok s List.mem_cons_self
  have hname : name.length < 2 ^ 16 := (hsok.names (name, row) (by rw [hs]; exact List.mem_cons_self)).2
  have hsize := size_means hmeans
  have hroot := size_node_le 1 (treeKey (keyBytes reqkey)) (resultMetas res time) (fieldsTree res.fields :: ts)
  have hval := length_nodeFields_le (keyBytes reqkey) (resultMetas res time) (fieldsTree res.fields :: ts)
  have hkey := length_keyBytes reqkey
  have hms : ((resultMetas res time).map PbField.size).sum ≤ 60 := by
    have h2 := size_le 2 (.varint time)
    have h3 := size_le 3 (.varint (UInt64.ofNat (res.rows.length % 2 ^ 32)))
    have h4 := size_le 4 (.varint (UInt64.ofNat (res.fields.length % 2 ^ 32)))
    show PbField.size _ + (PbField.size _ + (PbField.size _ + 0)) ≤ 60
    rw [show ∀ v, (FieldVal.varint v).str.length = 0 from fun _ => rfl] at h2 h3 h4
    omega
  have hset : (ts.map fun t => t.field.size).sum = s.tree.field.size := by
    have := congrArg (fun l => (l.map PbField.size).sum) hts
    simp only [List.map_map] at this
    exact this
  have hset' : s.tree.field.size ≤
      s.name.length + 20 + (name.length + 20 + ((cellFields row).map PbField.size).sum + 20) + 20 := by
    have hcells : (((cellFields row).map Tree.leaf).map fun t => t.field.size).sum =
        ((cellFields row).map PbField.size).sum := by
      rw [List.map_map]
      exact congrArg List.sum (List.map_congr_left fun f _ => by rw [Function.comp_apply, Tree.field])
    have hr1 := size_node_le 11 (treeKey name) [] ((cellFields row).map .leaf)
    have hr2 := length_nodeFields_le name [] ((cellFields row).map .leaf)
    have hs1 := size_node_le 12 (treeKey s.name) [] (s.rows.map rowTree)
    have hs2 := length_nodeFields_le s.name [] (s.rows.map rowTree)
    rw [hcells] at hr2
    rw [hs, List.map_singleton, List.map_singleton, List.sum_singleton] at hs2
    rw [hs, List.map_singleton] at hs1
    have hrt : (rowTree (name, row)).field.size ≤
        name.length + 20 + ((cellFields row).map PbField.size).sum + 20 := Nat.le_trans hr1 (by simpa using hr2)
    have hst : s.tree.field.size ≤
        (messageBytes (nodeFields (treeKey s.name) [] [rowTree (name, row)])).length + 20 := by
      unfold RowSet.tree
      rw [hs, List.map_singleton]
      exact hs1
    simp only [List.map_nil, List.sum_nil] at hs2
    omega
  have hsn := hsok.name
  rw [List.map_cons, List.sum_cons, hset] at hval
  rw [hsize]
  exact_mod_cast (by omega :
    (Tree.node 1 (treeKey (keyBytes reqkey)) (resultMetas res time) (fieldsTree res.fields :: ts)).field.size ≤
      (fieldsTree res.fields).field.size + ((cellFields row).map PbField.size).sum + 2 ^ 20)

/-- A row with `n` cells that are `NULL`, and one more that is not. -/
def wideRow (n : Nat) : Row := List.replicate n none ++ [some [65]]

/-- The result with this row; the names of the columns are empty. -/
def wideResult (n : Nat) : MysqlRes where
  fields := List.replicate (n + 1) []
  rows := [wideRow n]
  width := by
    intro row hrow
    rw [List.mem_singleton.mp hrow, wideRow, List.length_append, List.length_replicate,
      List.length_replicate, List.length_singleton]

theorem cellFields_wideRow (n : Nat) :
    cellFields (wideRow n) = [⟨UInt32.ofNat (11 + n), .string [65]⟩] := by
  unfold cellFields wideRow
  rw [List.zipIdx_append, List.filterMap_append, List.filterMap_eq_nil_iff.mpr]
  · simp
  · intro c hc
    have hnull := List.mem_of_getElem? (List.mem_zipIdx_iff_getElem?.mp hc)
    rw [List.eq_of_mem_replicate hnull]
    rfl

theorem size_fieldsTree_wide (n : Nat) :
    (fieldsTree (wideResult n).fields).field.size ≤ 2 * n + 100 := by
  have h1 := size_node_le 11 (treeKey (textBytes "fields")) []
    ((wideResult n).fields.map fun name => .node 11 (treeKey (keyBytes name)) [] [])
  have h2 := length_nodeFields_le (textBytes "fields") []
    ((wideResult n).fields.map fun name => .node 11 (treeKey (keyBytes name)) [] [])
  have hsum : (((wideResult n).fields.map fun name => Tree.node 11 (treeKey (keyBytes name)) [] []).map
      fun t => t.field.size).sum = 2 * (n + 1) := by
    show (((List.replicate (n + 1) []).map _).map _).sum = _
    rw [List.map_replicate, List.map_replicate, List.sum_replicate_nat, Nat.mul_comm]
    exact congrArg (· * (n + 1)) (by decide)
  have hlen : (textBytes "fields").length = 6 := rfl
  rw [hsum, hlen] at h2
  simp only [List.map_nil, List.sum_nil] at h2
  have h3 : (fieldsTree (wideResult n).fields).field.size ≤ _ := h1
  omega

end MysqlProxy
