/-
  A result on the client's side (`MYSQL_PROXY_RES` in `mysql_proxy_api.cpp`).

  A result is read through a handle with two iterators, one over the rows and one over the columns.
  The calls work on the same tree: `mysql_proxy_fetch_row` removes the sets it has been through, and
  `mysql_proxy_fetch_fields` moves the iterator of `mysql_proxy_fetch_field`.

  * `ResultHandle.exec` is a call of the API.  `Position.exec` is the same call on the result itself,
    with two numbers for the iterators.
  * `Tracks`: the handle stands where the numbers say.  Every call keeps it (`simulates_exec`).
  * `resultHandle_answers`: whatever is called in whatever order, the handle of a packed result answers
    as the result does.  At the end of the rows it stays there, at the end of the columns it starts
    again.

  A column's name is given with its length, but cut off at a zero byte and behind 255 bytes.
-/
import MysqlProxy.Knv.Index
import MysqlProxy.Lib.Answers
import MysqlProxy.Lib.CString
import MysqlProxy.Lib.Machine
import MysqlProxy.Proxy.FetchRow

namespace MysqlProxy

open KnvNode

def KNV_FIELDLIST_TAG : UInt32 := 11

/-- `MYSQL_FIELD`: the C string in `name`, and `name_length`. -/
structure MysqlField where
  name : List UInt8
  name_length : Int
  deriving DecidableEq, Repr

/-- `MYSQL_PROXY_RES`, with the iterator of the fields: the list's node and the field's. -/
structure ResultHandle extends ProxyRes where
  current_field : Option (Nat × Nat)

namespace ResultHandle

/-- The loop's bound: the number of columns in the tree, and the end. -/
def fieldBound (h : ResultHandle) : Nat :=
  let tree := h.datatree.innerExpand false false
  ((getField tree KNV_FIELDLIST_TAG).map fun f =>
    (f.innerExpand (tree.key.val ≠ []) false).childlist.length).getD 0 + 1

/-- The first half of `mysql_proxy_fetch_field`: the iterator moves. -/
def nextField (h : ResultHandle) : ResultHandle :=
  let tree := h.datatree.innerExpand false false
  let h := { h with datatree := tree }
  match h.current_field with
  | none =>
    match getField tree KNV_FIELDLIST_TAG with
    | none => h
    | some f =>
      { h with current_field := (f.getFirstChild (tree.key.val ≠ [])).map fun c => (f.ref, c.ref) }
  | some (f, c) =>
    { h with current_field := (setNode tree f).bind fun l =>
        (nextIn l.childlist c).map fun next => (f, next.ref) }

/-- The node `current_field` points to. -/
def currentField (h : ResultHandle) : Option KnvNode :=
  h.current_field.bind fun c => (setNode h.datatree c.1).bind fun l => findRef l.childlist c.2

/-- The field that `FetchField` fills in: `strncpy` into 256 bytes, the last one zero. -/
def mysqlField (name : List UInt8) : MysqlField := ⟨(cString name).take 255, int32 name.length⟩

/-- `mysql_proxy_fetch_field`. -/
def fetchField (h : ResultHandle) : ResultHandle × Option MysqlField :=
  let h := h.nextField
  (h, h.currentField.map fun n => mysqlField (n.getFieldStr 1))

/-- The loop of `mysql_proxy_fetch_fields`: what is written, one element after the other. -/
def fieldLoop : Nat → ResultHandle → ResultHandle × List MysqlField
  | 0, h => (h, [])
  | n + 1, h =>
    match h.fetchField with
    | (h, none) => (h, [])
    | (h, some field) =>
      let (h, fields) := fieldLoop n h
      (h, field :: fields)

/-- `mysql_proxy_fetch_fields`: the length of `all_fields`, and what is written to it. -/
def fetchFields (h : ResultHandle) : ResultHandle × Option (Nat × List MysqlField) :=
  let fieldnum := (mysqlProxyNumFields h.toProxyRes).toNat
  if fieldnum = 0 then (h, none)
  else
    let (h', fields) := fieldLoop h.fieldBound { h with current_field := none }
    (h', some (fieldnum, fields))

/-- `mysql_proxy_fetch_lengths`. -/
def fetchLengths (h : ResultHandle) : Option (List Nat) :=
  (currentRow h.toProxyRes).bind fun row =>
    let num_fields := (mysqlProxyNumFields h.toProxyRes).toNat
    if num_fields = 0 then none
    else some ((List.range num_fields).map fun i =>
      (row.getFieldStr (UInt32.ofNat (KNV_ROWS_FIELD_START_TAG + i))).length)

end ResultHandle

/-! ## Calls -/

inductive ResultCall where
  | num_rows
  | num_fields
  | fetch_row
  | fetch_lengths
  | fetch_field
  | fetch_fields
  deriving DecidableEq, Repr

inductive ResultAnswer where
  | count (n : Nat)
  | row (row : Option Row)
  | lengths (lengths : Option (List Nat))
  | field (field : Option MysqlField)
  /-- The length of the array, and what is in it. -/
  | fields (fields : Option (Nat × List MysqlField))
  deriving DecidableEq, Repr

/-- A call on a handle. -/
def ResultHandle.exec (h : ResultHandle) : ResultCall → ResultHandle × ResultAnswer
  | .num_rows => (h, .count (mysqlProxyNumRows h.toProxyRes).toNat)
  | .num_fields => (h, .count (mysqlProxyNumFields h.toProxyRes).toNat)
  | .fetch_row =>
    let (res, row) := fetchRow h.toProxyRes
    ({ h with toProxyRes := res }, .row row)
  | .fetch_lengths => (h, .lengths h.fetchLengths)
  | .fetch_field =>
    let (h, field) := h.fetchField
    (h, .field field)
  | .fetch_fields =>
    let (h, fields) := h.fetchFields
    (h, .fields fields)

/-! ## The result itself -/

/-- Where the iterators stand: how many rows have been asked for, and which column came last. -/
structure Position where
  fetched : Nat
  field : Option Nat
  deriving DecidableEq, Repr

/-- The length of each cell, and 0 for `NULL`. -/
def rowLengths (row : Row) : List Nat := row.map fun cell => (cell.getD []).length

/-- The columns of a result, as they are given to the client. -/
def resultFields (res : MysqlRes) : List MysqlField :=
  res.fields.map fun name => ResultHandle.mysqlField (keyBytes name)

/-- A call on a result. -/
def Position.exec (res : MysqlRes) (p : Position) : ResultCall → Position × ResultAnswer
  | .num_rows => (p, .count res.rows.length)
  | .num_fields => (p, .count res.fields.length)
  | .fetch_row => ({ p with fetched := p.fetched + 1 }, .row res.rows[p.fetched]?)
  | .fetch_lengths =>
    (p, .lengths (if p.fetched = 0 then none else res.rows[p.fetched - 1]?.map rowLengths))
  | .fetch_field =>
    let i := (p.field.map (· + 1)).getD 0
    ({ p with field := if i < res.fields.length then some i else none },
      .field (resultFields res)[i]?)
  | .fetch_fields => ({ p with field := none }, .fields (some (res.fields.length, resultFields res)))

/-! ## The columns in the tree -/

/-- The tree of a column. -/
def columnTree (name : List UInt8) : Tree := .node 11 (treeKey name) [] []

/-- The node of a column. -/
structure ColumnNode (c : KnvNode) (name : List UInt8) : Prop where
  ofField : OfField false c (sized (columnTree name).field)
  size : (columnTree name).field.size < 2 ^ 31

/-- **A column's name is its key.** -/
theorem ColumnNode.getFieldStr {c : KnvNode} {name : List UInt8} (h : ColumnNode c name) :
    c.getFieldStr 1 = name := by
  have htag : c.tag ≠ 0 := by
    obtain ⟨r, rfl⟩ := h.ofField
    show (columnTree name).field.tag ≠ 0
    rw [Tree.field_tag]
    exact (by decide : (11 : UInt32) ≠ 0)
  have h1 : (1 : UInt32).toNat ≤ UC_MAX_META_NUM := by decide
  rw [KnvNode.getFieldStr, if_pos h1, getMeta_eq htag h1]
  by_cases hname : name = []
  · -- a column without a name is an empty message
    subst hname
    obtain ⟨r, rfl⟩ := h.ofField
    rfl
  · have hfields : nodeFields (treeKey name) [] [] = [⟨1, .string name⟩] := by
      rw [treeKey, if_neg hname]
      rfl
    have hlen := Nat.lt_of_le_of_lt (length_value_le 11 (treeKey name) [] []) h.size
    have hg := grown_node (p := false) h.ofField (by rw [hfields]; exact List.cons_ne_nil _ _) hlen
      (nodeFields_tags (fun f hf => absurd hf List.not_mem_nil) fun t ht => absurd ht List.not_mem_nil)
      (fun h2 => absurd h2.2 Bool.false_ne_true)
    rw [hfields] at hg
    have hrel := hg.lookupMeta_rel 1
    have hlast : lastField (metaFields [⟨1, .string name⟩]) 1 = some ⟨1, .string name⟩ := rfl
    rw [hlast] at hrel
    cases hm : (c.innerExpand false false).lookupMeta 1 with
    | none =>
      rw [hm] at hrel
      cases hrel
    | some m =>
      rw [hm] at hrel
      cases hrel with
      | some hs =>
        show (((c.innerExpand false false).lookupMeta 1).map getStrVal).getD [] = name
        rw [hm, Option.map_some, getStrVal_stands hs (show (1 : UInt32) ≠ 0 by decide)]
        rfl

/-- The node of the list of the columns. -/
structure ColumnList (f : KnvNode) (names : List (List UInt8)) : Prop where
  ofField : OfField false f (sized (fieldsTree names).field)
  size : (fieldsTree names).field.size < 2 ^ 31

theorem ColumnList.tag {f : KnvNode} {names : List (List UInt8)} (h : ColumnList f names) :
    f.tag = KNV_FIELDLIST_TAG := by
  obtain ⟨r, rfl⟩ := h.ofField
  show (fieldsTree names).field.tag = 11
  rw [Tree.field_tag]
  rfl

/-- **The columns of the list.** -/
theorem ColumnList.columns {f : KnvNode} {names : List (List UInt8)} (h : ColumnList f names)
    (p : Bool) : List.Forall₂ ColumnNode (f.innerExpand p false).childlist (names.map keyBytes) ∧
      ((f.innerExpand p false).childlist.map fun x => x.ref).Nodup ∧
      (f.innerExpand p false).child_num = some (f.innerExpand p false).childlist.length := by
  generalize hts : (names.map fun name => columnTree (keyBytes name)) = ts
  have htree : fieldsTree names = .node 11 (treeKey (textBytes "fields")) [] ts := by
    rw [← hts]
    rfl
  have hof := h.ofField
  have hsize := h.size
  rw [htree] at hof hsize
  have hne : nodeFields (treeKey (textBytes "fields")) [] ts ≠ [] := List.cons_ne_nil _ _
  have hlen := Nat.lt_of_le_of_lt (length_value_le 11 (treeKey (textBytes "fields")) [] ts) hsize
  have htag : ∀ t ∈ ts, t.tag = 11 := by
    intro t ht
    rw [← hts] at ht
    obtain ⟨name, _, rfl⟩ := List.mem_map.mp ht
    rfl
  have hg := grown_node (p := p) hof hne hlen
    (nodeFields_tags (fun f hf => absurd hf List.not_mem_nil) fun t ht => by rw [htag t ht]; decide)
    (fun h1 => absurd h1.1 (by decide))
  have hc := (Grown.children hg (fun f hf => absurd hf List.not_mem_nil)
    fun t ht => by rw [htag t ht]; decide).1
  refine ⟨?_, hg.nodup_childlist, hg.child_num⟩
  rw [← hts, List.map_map, List.forall₂_map_right_iff] at hc
  rw [List.forall₂_map_right_iff, List.forall₂_iff_get]
  obtain ⟨hl, hget⟩ := List.forall₂_iff_get.mp hc
  refine ⟨hl, fun i h₁ h₂ => ⟨hget i h₁ h₂, ?_⟩⟩
  refine Nat.lt_of_le_of_lt (size_field_le ?_) hlen
  rw [← hts]
  exact List.mem_map_of_mem (List.get_mem _ _)

/-- The columns of a tree that is expanded: they are in the child `f`. -/
structure HasColumns (e f : KnvNode) (names : List (List UInt8)) : Prop where
  tag : e.tag ≠ 0
  indexed : Indexed e
  mem : f ∈ e.childlist
  only : ∀ c ∈ e.childlist, c.tag = KNV_FIELDLIST_TAG → c = f
  list : ColumnList f names

namespace HasColumns

variable {e f : KnvNode} {names : List (List UInt8)}

theorem expanded (h : HasColumns e f names) : e.innerExpand false false = e :=
  innerExpand_expanded (by rw [h.indexed.child_num]; exact fun he => nomatch he) false false

theorem getField (h : HasColumns e f names) : MysqlProxy.getField e KNV_FIELDLIST_TAG = some f := by
  have hgt : ¬ KNV_FIELDLIST_TAG.toNat ≤ UC_MAX_META_NUM := by decide
  rw [MysqlProxy.getField, if_neg hgt, findChildByTag_eq h.tag, h.expanded, ← h.list.tag]
  exact h.indexed.lookupChild_unique h.mem fun c hc ht => h.only c hc (ht.trans h.list.tag)

theorem setNode (h : HasColumns e f names) :
    MysqlProxy.setNode e f.ref = some (f.innerExpand (e.key.val ≠ []) false) := by
  rw [MysqlProxy.setNode, findRef_of_mem h.indexed.nodup h.mem]
  rfl

/-- Another child, removed. -/
theorem removeChild (h : HasColumns e f names) {c : KnvNode} (hc : c ∈ e.childlist)
    (hne : c.tag ≠ KNV_FIELDLIST_TAG) : HasColumns (removeChild e c.ref) f names := by
  obtain ⟨hix, htag, hlist⟩ := h.indexed.removeChild hc
  refine ⟨by rw [htag]; exact h.tag, hix, ?_, ?_, h.list⟩
  · rw [hlist, List.mem_filter]
    refine ⟨h.mem, decide_eq_true fun href => hne ?_⟩
    have hfc := findRef_of_mem h.indexed.nodup h.mem
    rw [href, findRef_of_mem h.indexed.nodup hc] at hfc
    rw [Option.some.inj hfc]
    exact h.list.tag
  · intro x hx
    rw [hlist] at hx
    exact h.only x (List.mem_of_mem_filter hx)

end HasColumns

/-! ## The iterators -/

/-- The tree after `nextRow`: a set may be gone. -/
theorem nextRow_tree {N F : UInt64} {res : ProxyRes} {rest : List Row} (h : Browsing N F res rest) :
    (nextRow res).datatree = res.datatree.innerExpand false false ∨
      ∃ c ∈ (res.datatree.innerExpand false false).childlist, c.tag = KNV_SETS_TAG ∧
        (nextRow res).datatree = removeChild (res.datatree.innerExpand false false) c.ref := by
  obtain ⟨_, sets, ho, hcur⟩ := h
  unfold MysqlProxy.nextRow
  generalize res.datatree.innerExpand false false = e at ho hcur ⊢
  cases hrow : res.current_row with
  | none => exact .inl rfl
  | some cur =>
    obtain ⟨s, r⟩ := cur
    rw [hrow] at hcur
    obtain ⟨f, c, nodes, _, _, _, set, sets', _, he, hs, hsets, _⟩ := hcur
    obtain ⟨f', nodes', he', _, hnodes⟩ := ho.childlist
    rw [he] at he'
    cases he'
    rw [hsets] at hnodes
    simp only
    split
    · exact .inl rfl
    · refine .inr ⟨c, by rw [he]; simp, (List.forall₂_cons.mp hnodes).1.tag, ?_⟩
      rw [hs]

/-- The column an iterator is on. -/
def ColumnAt (e f : KnvNode) (current : Option (Nat × Nat)) : Option Nat → Prop
  | none => current = none
  | some i => ∃ c, (f.innerExpand (e.key.val ≠ []) false).childlist[i]? = some c ∧
      current = some (f.ref, c.ref)

/-- The next column, counted from 0. -/
def nextColumn (field : Option Nat) : Nat := (field.map (· + 1)).getD 0

theorem nextIn_getElem {l : List KnvNode} (hnd : (l.map fun x => x.ref).Nodup) {i : Nat} {c : KnvNode}
    (hc : l[i]? = some c) : nextIn l c.ref = l[i + 1]? := by
  obtain ⟨hi, rfl⟩ := List.getElem?_eq_some_iff.mp hc
  have hsplit : l = l.take i ++ l[i] :: l.drop (i + 1) := by
    rw [List.getElem_cons_drop, List.take_append_drop]
  have hfresh : l[i].ref ∉ (l.take i).map fun x => x.ref := by
    rw [hsplit, List.map_append, List.map_cons, List.nodup_append] at hnd
    exact fun hm => hnd.2.2 _ hm _ List.mem_cons_self rfl
  have hnext : nextIn (l.take i ++ l[i] :: l.drop (i + 1)) l[i].ref = (l.drop (i + 1)).head? :=
    nextIn_split hfresh
  rw [← hsplit, List.head?_drop] at hnext
  exact hnext

/-- The iterator on a column. -/
def columnIter (e f : KnvNode) (i : Nat) : Option (Nat × Nat) :=
  (f.innerExpand (e.key.val ≠ []) false).childlist[i]?.map fun c => (f.ref, c.ref)

/-- **Where the iterator of the columns goes**, in a tree that is expanded. -/
theorem nextField_eq {h : ResultHandle} {f : KnvNode} {names : List (List UInt8)}
    (hcols : HasColumns h.datatree f names) {field : Option Nat}
    (hat : ColumnAt h.datatree f h.current_field field) :
    h.nextField = { h with current_field := columnIter h.datatree f (nextColumn field) } := by
  obtain ⟨_, hnd, hnum⟩ := hcols.list.columns (h.datatree.key.val ≠ [])
  unfold ResultHandle.nextField
  rw [hcols.expanded]
  cases field with
  | none =>
    have hcur : h.current_field = none := hat
    have hfirst : f.getFirstChild (h.datatree.key.val ≠ []) =
        (f.innerExpand (h.datatree.key.val ≠ []) false).childlist[0]? := by
      unfold getFirstChild
      rw [if_neg (by rw [hcols.list.tag]; decide)]
      simp only [hnum]
      rw [← List.head?_eq_getElem?]
      cases (f.innerExpand (h.datatree.key.val ≠ []) false).childlist with
      | nil => rfl
      | cons c l => rfl
    simp only [hcur, hcols.getField, hfirst]
    rfl
  | some i =>
    obtain ⟨c, hc, hcur⟩ := hat
    simp only [hcur, hcols.setNode, Option.bind_some, nextIn_getElem hnd hc]
    rfl

/-- The handle stands where the position says. -/
structure Tracks (res : MysqlRes) (h : ResultHandle) (p : Position) : Prop where
  browsing : Browsing (UInt64.ofNat (res.rows.length % 2 ^ 32))
    (UInt64.ofNat (res.fields.length % 2 ^ 32)) h.toProxyRes (res.rows.drop p.fetched)
  row : Option.Rel RowNode (currentRow h.toProxyRes)
    (if p.fetched = 0 then none else res.rows[p.fetched - 1]?)
  column : ∃ f, HasColumns (h.datatree.innerExpand false false) f res.fields ∧
    ColumnAt (h.datatree.innerExpand false false) f h.current_field p.field
  expanded : h.current_row ≠ none → h.datatree.innerExpand false false = h.datatree

theorem Browsing.expand {N F : UInt64} {res : ProxyRes} {rest : List Row} (h : Browsing N F res rest) :
    Browsing N F ⟨res.datatree.innerExpand false false, res.current_row⟩ rest := by
  obtain ⟨_, sets, ho, hcur⟩ := h
  refine ⟨ho.tag, sets, ?_, ?_⟩
  · show Opened N F ((res.datatree.innerExpand false false).innerExpand false false) sets
    rw [ho.expanded]
    exact ho
  · show Cursor ((res.datatree.innerExpand false false).innerExpand false false) sets _ _
    rw [ho.expanded]
    exact hcur

namespace Tracks

variable {res : MysqlRes} {h : ResultHandle} {p : Position}

/-- The number of columns, as it is read from the tree. -/
theorem num_fields (ht : Tracks res h p) (hF : 11 + res.fields.length ≤ 2 ^ 29) :
    (mysqlProxyNumFields h.toProxyRes).toNat = res.fields.length := by
  rw [ht.browsing.num_fields, UInt64.toNat_toUInt32, UInt64.toNat_ofNat']
  omega

/-- Expanding the tree changes nothing. -/
theorem expand (ht : Tracks res h p) :
    Tracks res { h with datatree := h.datatree.innerExpand false false } p := by
  obtain ⟨f, hcols, hat⟩ := ht.column
  have hrow : currentRow ⟨h.datatree.innerExpand false false, h.current_row⟩ =
      currentRow h.toProxyRes := by
    cases hc : h.current_row with
    | none =>
      rw [currentRow, currentRow, hc]
      rfl
    | some cur => rw [ht.expanded (by rw [hc]; exact Option.some_ne_none cur), ← hc]
  refine ⟨ht.browsing.expand, ?_, ⟨f, ?_, ?_⟩, fun _ => hcols.expanded⟩
  · show Option.Rel RowNode (currentRow ⟨h.datatree.innerExpand false false, h.current_row⟩) _
    rw [hrow]
    exact ht.row
  · show HasColumns ((h.datatree.innerExpand false false).innerExpand false false) f res.fields
    rw [hcols.expanded]
    exact hcols
  · show ColumnAt ((h.datatree.innerExpand false false).innerExpand false false) f h.current_field _
    rw [hcols.expanded]
    exact hat

/-- **The iterator moves to the next column.** -/
theorem nextField (ht : Tracks res h p) :
    Tracks res h.nextField ⟨p.fetched,
      if nextColumn p.field < res.fields.length then some (nextColumn p.field) else none⟩ ∧
    Option.Rel ColumnNode h.nextField.currentField (res.fields.map keyBytes)[nextColumn p.field]? := by
  obtain ⟨f, hcols, hat⟩ := ht.column
  have ht' := ht.expand
  have hsame : h.nextField =
      ResultHandle.nextField { h with datatree := h.datatree.innerExpand false false } := by
    unfold ResultHandle.nextField
    simp only [hcols.expanded]
  rw [hsame]
  generalize hh : ({ h with datatree := h.datatree.innerExpand false false } : ResultHandle) = h'
    at ht'
  have htree : h'.datatree = h.datatree.innerExpand false false := by rw [← hh]
  have hfield : h'.current_field = h.current_field := by rw [← hh]
  rw [← htree] at hcols hat
  rw [← hfield] at hat
  rw [nextField_eq hcols hat]
  obtain ⟨hnodes, hnd, _⟩ := hcols.list.columns (h'.datatree.key.val ≠ [])
  have hlen : (f.innerExpand (h'.datatree.key.val ≠ []) false).childlist.length =
      res.fields.length := by rw [hnodes.length_eq, List.length_map]
  constructor
  · refine ⟨ht'.browsing, ht'.row, ⟨f, ?_, ?_⟩, ht'.expanded⟩
    · show HasColumns (h'.datatree.innerExpand false false) f res.fields
      rw [hcols.expanded]
      exact hcols
    · show ColumnAt (h'.datatree.innerExpand false false) f (columnIter h'.datatree f _) _
      rw [hcols.expanded, columnIter]
      by_cases hi : nextColumn p.field < res.fields.length
      · rw [if_pos hi, List.getElem?_eq_getElem (by rw [hlen]; exact hi)]
        exact ⟨_, List.getElem?_eq_getElem (by rw [hlen]; exact hi), rfl⟩
      · rw [if_neg hi, List.getElem?_eq_none (by omega)]
        rfl
  · show Option.Rel ColumnNode ((columnIter h'.datatree f (nextColumn p.field)).bind fun c =>
      (setNode h'.datatree c.1).bind fun l => findRef l.childlist c.2) _
    rw [columnIter]
    cases hc : (f.innerExpand (h'.datatree.key.val ≠ []) false).childlist[nextColumn p.field]? with
    | none =>
      have hi := List.getElem?_eq_none_iff.mp hc
      rw [List.getElem?_eq_none (by rw [List.length_map]; omega)]
      exact .none
    | some c =>
      obtain ⟨hi, hci⟩ := List.getElem?_eq_some_iff.mp hc
      have hi' : nextColumn p.field < (res.fields.map keyBytes).length := by
        rw [List.length_map]
        omega
      show Option.Rel ColumnNode ((setNode h'.datatree f.ref).bind fun l =>
        findRef l.childlist c.ref) _
      rw [hcols.setNode, Option.bind_some, findRef_of_mem hnd (List.mem_of_getElem? hc),
        List.getElem?_eq_getElem hi']
      have hget := (List.forall₂_iff_get.mp hnodes).2 _ hi hi'
      rw [List.get_eq_getElem, List.get_eq_getElem, hci] at hget
      exact .some hget

theorem getElem?_resultFields (res : MysqlRes) (i : Nat) :
    (resultFields res)[i]? = (res.fields.map keyBytes)[i]?.map ResultHandle.mysqlField := by
  rw [resultFields, List.getElem?_map, List.getElem?_map, Option.map_map]
  rfl

/-- A column is given to the client. -/
theorem fetchField (ht : Tracks res h p) :
    Tracks res h.fetchField.1 ⟨p.fetched,
      if nextColumn p.field < res.fields.length then some (nextColumn p.field) else none⟩ ∧
    h.fetchField.2 = (resultFields res)[nextColumn p.field]? := by
  obtain ⟨ht', hrel⟩ := ht.nextField
  refine ⟨ht', ?_⟩
  show h.nextField.currentField.map _ = _
  rw [getElem?_resultFields]
  generalize h.nextField.currentField = node at hrel ⊢
  generalize (res.fields.map keyBytes)[nextColumn p.field]? = name at hrel ⊢
  cases hrel with
  | none => rfl
  | some hc => rw [Option.map_some, Option.map_some, hc.getFieldStr]

/-- **The loop writes the columns that are left**, and ends with the iterator at the beginning. -/
theorem fieldLoop (n : Nat) : ∀ {h : ResultHandle} {p : Position}, Tracks res h p →
    res.fields.length < n + nextColumn p.field →
    Tracks res (ResultHandle.fieldLoop n h).1 ⟨p.fetched, none⟩ ∧
      (ResultHandle.fieldLoop n h).2 = (resultFields res).drop (nextColumn p.field) := by
  have hlen : (resultFields res).length = res.fields.length := List.length_map _
  induction n with
  | zero =>
    intro h p ht hn
    obtain ⟨f, hcols, hat⟩ := ht.column
    -- the iterator is never so far
    exfalso
    cases hf : p.field with
    | none =>
      rw [hf] at hn
      exact absurd hn (Nat.not_lt_zero _)
    | some i =>
      rw [hf] at hat hn
      obtain ⟨c, hc, _⟩ := hat
      obtain ⟨hnodes, _, _⟩ := hcols.list.columns
        ((h.datatree.innerExpand false false).key.val ≠ [])
      have hi := (List.getElem?_eq_some_iff.mp hc).1
      rw [hnodes.length_eq, List.length_map] at hi
      have hnext : nextColumn (some i) = i + 1 := rfl
      omega
  | succ n ih =>
    intro h p ht hn
    obtain ⟨ht', hfield⟩ := ht.fetchField
    rw [ResultHandle.fieldLoop]
    by_cases hi : nextColumn p.field < res.fields.length
    · rw [if_pos hi] at ht'
      rw [List.getElem?_eq_getElem (by omega)] at hfield
      obtain ⟨ht'', hrest⟩ := ih ht' (show _ < n + (nextColumn p.field + 1) by omega)
      have hcons := List.drop_eq_getElem_cons (l := resultFields res) (i := nextColumn p.field)
        (by omega)
      generalize h.fetchField = r at hfield ht'' hrest
      obtain ⟨h', field⟩ := r
      subst hfield
      refine ⟨ht'', ?_⟩
      show (resultFields res)[nextColumn p.field] :: (ResultHandle.fieldLoop n h').2 = _
      rw [hrest, hcons]
      rfl
    · rw [if_neg hi] at ht'
      rw [List.getElem?_eq_none (by omega)] at hfield
      generalize h.fetchField = r at hfield ht'
      obtain ⟨h', field⟩ := r
      subst hfield
      refine ⟨ht', ?_⟩
      rw [List.drop_eq_nil_of_le (by omega)]

/-- **All columns are given to the client**, as many as there is room for. -/
theorem fetchFields (ht : Tracks res h p) (h1 : 1 ≤ res.fields.length)
    (hF : 11 + res.fields.length ≤ 2 ^ 29) : Tracks res h.fetchFields.1 ⟨p.fetched, none⟩ ∧
      h.fetchFields.2 = some (res.fields.length, resultFields res) := by
  have hnum := ht.num_fields hF
  have hstart : Tracks res { h with current_field := none } ⟨p.fetched, none⟩ := by
    obtain ⟨f, hcols, _⟩ := ht.column
    exact ⟨ht.browsing, ht.row, ⟨f, hcols, rfl⟩, ht.expanded⟩
  have hbound : h.fieldBound = res.fields.length + 1 := by
    obtain ⟨f, hcols, _⟩ := ht.column
    obtain ⟨hnodes, _, _⟩ := hcols.list.columns ((h.datatree.innerExpand false false).key.val ≠ [])
    unfold ResultHandle.fieldBound
    simp only [hcols.getField, Option.map_some, Option.getD_some]
    rw [hnodes.length_eq, List.length_map]
  obtain ⟨ht', hfields⟩ := hstart.fieldLoop (res.fields.length + 1)
    (Nat.lt_succ_of_le (Nat.le_refl _))
  unfold ResultHandle.fetchFields
  simp only [hnum, if_neg (Nat.ne_of_gt h1), hbound]
  refine ⟨ht', ?_⟩
  rw [hfields]
  rfl

/-! ### Rows -/

theorem key_removeChild (e : KnvNode) (r : Nat) : (MysqlProxy.removeChild e r).key = e.key := by
  unfold MysqlProxy.removeChild
  split
  · rfl
  · rename_i c _
    obtain ⟨sz, val_sz, he⟩ := edited_eq { e with
      ht := (e.ht.remove e.childView r).getD e.ht
      childlist := e.childlist.filter fun x => x.ref ≠ r
      child_num := e.child_num.map (· - 1) } (-(evaluateSize c).1)
    rw [he]

theorem fst_fetchRow (r : ProxyRes) : (MysqlProxy.fetchRow r).1 = nextRow r := by
  unfold MysqlProxy.fetchRow
  simp only
  split
  · rfl
  · split
    · rfl
    · rfl

/-- **The next row is given to the client.** -/
theorem fetchRow (ht : Tracks res h p) (h1 : 1 ≤ res.fields.length)
    (hF : 11 + res.fields.length ≤ 2 ^ 29) :
    Tracks res { h with toProxyRes := (MysqlProxy.fetchRow h.toProxyRes).1 }
      ⟨p.fetched + 1, p.field⟩ ∧ (MysqlProxy.fetchRow h.toProxyRes).2 = res.rows[p.fetched]? := by
  have hland := ht.browsing.nextRow
  have htree := nextRow_tree ht.browsing
  obtain ⟨f, hcols, hat⟩ := ht.column
  have hcols' : HasColumns (nextRow h.toProxyRes).datatree f res.fields ∧
      (nextRow h.toProxyRes).datatree.key = (h.datatree.innerExpand false false).key := by
    rcases htree with htree | ⟨c, hc, htag, htree⟩
    · rw [htree]
      exact ⟨hcols, rfl⟩
    · rw [htree]
      exact ⟨hcols.removeChild hc (by rw [htag]; decide), key_removeChild _ _⟩
  obtain ⟨hcols', hkey⟩ := hcols'
  have hcolumn : ∃ f, HasColumns ((nextRow h.toProxyRes).datatree.innerExpand false false) f
      res.fields ∧ ColumnAt ((nextRow h.toProxyRes).datatree.innerExpand false false) f
        h.current_field p.field := by
    rw [hcols'.expanded]
    refine ⟨f, hcols', ?_⟩
    unfold ColumnAt
    rw [hkey]
    exact hat
  have hrow : p.fetched + 1 ≠ 0 := Nat.succ_ne_zero _
  rw [fst_fetchRow]
  unfold MysqlProxy.fetchRow
  cases hrest : res.rows.drop p.fetched with
  | nil =>
    rw [hrest] at hland
    obtain ⟨hnone, hbr⟩ := hland
    have hlen := List.drop_eq_nil_iff.mp hrest
    have hcur : currentRow (nextRow h.toProxyRes) = none := by rw [currentRow, hnone]; rfl
    simp only [hcur]
    refine ⟨⟨?_, ?_, hcolumn, fun _ => hcols'.expanded⟩, (List.getElem?_eq_none hlen).symm⟩
    · rw [List.drop_eq_nil_of_le (Nat.le_succ_of_le hlen)]
      exact hbr
    · rw [if_neg hrow, Nat.add_sub_cancel, List.getElem?_eq_none hlen]
      show Option.Rel RowNode (currentRow (nextRow h.toProxyRes)) none
      rw [hcur]
      exact .none
  | cons row rest =>
    rw [hrest] at hland
    obtain ⟨⟨x, hcur, hx⟩, hbr⟩ := hland
    have hget : res.rows[p.fetched]? = some row := by
      rw [← List.head?_drop, hrest]
      rfl
    have hw := res.width row (List.mem_of_getElem? hget)
    have hnum : (mysqlProxyNumFields (nextRow h.toProxyRes)).toNat = row.length := by
      rw [hbr.num_fields, UInt64.toNat_toUInt32, UInt64.toNat_ofNat', hw]
      omega
    have hdrop : res.rows.drop (p.fetched + 1) = rest := by
      rw [← List.tail_drop, hrest]
      rfl
    simp only [hcur, hnum]
    rw [if_neg (by omega), hx.readRow (by omega)]
    refine ⟨⟨?_, ?_, hcolumn, fun _ => hcols'.expanded⟩, hget.symm⟩
    · rw [hdrop]
      exact hbr
    · rw [if_neg hrow, Nat.add_sub_cancel, hget]
      show Option.Rel RowNode (currentRow (nextRow h.toProxyRes)) (some row)
      rw [hcur]
      exact .some hx

/-- **The lengths are those of the row's cells.** -/
theorem fetchLengths (ht : Tracks res h p) (h1 : 1 ≤ res.fields.length)
    (hF : 11 + res.fields.length ≤ 2 ^ 29) : h.fetchLengths =
      if p.fetched = 0 then none else res.rows[p.fetched - 1]?.map rowLengths := by
  have hnum := ht.num_fields hF
  have hrow := ht.row
  unfold ResultHandle.fetchLengths
  simp only [hnum, if_neg (Nat.ne_of_gt h1)]
  have hmap : (if p.fetched = 0 then none else res.rows[p.fetched - 1]?.map rowLengths) =
      (if p.fetched = 0 then none else res.rows[p.fetched - 1]?).map rowLengths := by
    split
    · rfl
    · rfl
  rw [hmap]
  have hw : ∀ row, (if p.fetched = 0 then none else res.rows[p.fetched - 1]?) = some row →
      row.length = res.fields.length := by
    intro row hr
    split at hr
    · cases hr
    · exact res.width row (List.mem_of_getElem? hr)
  generalize (if p.fetched = 0 then none else res.rows[p.fetched - 1]?) = row at hrow hw ⊢
  generalize currentRow h.toProxyRes = node at hrow ⊢
  cases hrow with
  | none => rfl
  | @some x row hx =>
    have hlen := hw row rfl
    show some _ = some _
    congr 1
    rw [rowLengths]
    apply List.ext_getElem?
    intro i
    rw [List.getElem?_map, List.getElem?_map]
    by_cases hi : i < row.length
    · rw [List.getElem?_range (by omega), List.getElem?_eq_getElem hi, Option.map_some,
        Option.map_some]
      have hcell := hx.getField (by omega) (List.getElem?_eq_getElem hi)
      show some (((getField x (UInt32.ofNat (KNV_ROWS_FIELD_START_TAG + i))).map
        getStrVal).getD []).length = _
      rw [hcell]
    · rw [List.getElem?_eq_none (by rw [List.length_range]; omega), List.getElem?_eq_none (by omega)]
      rfl

/-- **A call on the handle is a call on the result.** -/
theorem simulates_exec (h1 : 1 ≤ res.fields.length) (hF : 11 + res.fields.length ≤ 2 ^ 29)
    (hrows : res.rows.length < 2 ^ 32) :
    Simulates (Tracks res) ResultHandle.exec (Position.exec res) := by
  intro h p c ht
  cases c with
  | num_rows =>
    refine ⟨ht, ?_⟩
    show ResultAnswer.count (mysqlProxyNumRows h.toProxyRes).toNat = .count _
    rw [ht.browsing.num_rows, UInt64.toNat_ofNat']
    congr 1
    omega
  | num_fields =>
    refine ⟨ht, ?_⟩
    show ResultAnswer.count (mysqlProxyNumFields h.toProxyRes).toNat = .count _
    rw [ht.num_fields hF]
  | fetch_row =>
    obtain ⟨ht', hrow⟩ := ht.fetchRow h1 hF
    exact ⟨ht', congrArg ResultAnswer.row hrow⟩
  | fetch_lengths => exact ⟨ht, congrArg ResultAnswer.lengths (ht.fetchLengths h1 hF)⟩
  | fetch_field =>
    obtain ⟨ht', hfield⟩ := ht.fetchField
    exact ⟨ht', congrArg ResultAnswer.field hfield⟩
  | fetch_fields =>
    obtain ⟨ht', hfields⟩ := ht.fetchFields h1 hF
    exact ⟨ht', congrArg ResultAnswer.fields hfields⟩

end Tracks

/-! ## A packed result -/

/-- The columns of a packed result that was sent and read. -/
theorem hasColumns_packResult {res : MysqlRes} (hF : 11 + res.fields.length ≤ 2 ^ 32)
    {reqkey : List UInt8} {time : UInt64} {tree datatree : KnvNode}
    (hpack : packResult res reqkey time = some tree) (hsize : (evaluateSize tree).1 < 2 ^ 31)
    (hnew : newFromMessage tree.getStrVal 1 = .ok datatree) :
    ∃ f, HasColumns (datatree.innerExpand false false) f res.fields := by
  obtain ⟨tree', sets, hpack', ⟨ts, hmeans, hts⟩, _⟩ := packResult_packed res hF reqkey time
  obtain rfl : tree = tree' := Option.some.inj (hpack.symm.trans hpack')
  generalize treeKey (keyBytes reqkey) = key at hmeans
  have hne : nodeFields key (resultMetas res time) (fieldsTree res.fields :: ts) ≠ [] := by
    rw [nodeFields]
    exact List.append_ne_nil_of_right_ne_nil _ (List.cons_ne_nil _ _)
  rw [size_means hmeans] at hsize
  have hlen := Nat.lt_of_le_of_lt (length_value_le 1 key (resultMetas res time)
    (fieldsTree res.fields :: ts)) (by exact_mod_cast hsize)
  rw [getStrVal_means hmeans hne] at hnew
  obtain rfl := Except.ok.inj (hnew.symm.trans (newFromMessage_init hlen (by decide)))
  have hof : OfField false (initNode 1 (.string (messageBytes (nodeFields key (resultMetas res time)
      (fieldsTree res.fields :: ts)))) true 0 false)
      ((Tree.node 1 key (resultMetas res time) (fieldsTree res.fields :: ts)).field, 0) := by
    rw [Tree.field, Tree.fieldList_eq]
    exact ⟨0, rfl⟩
  have htags := tag_of_sets hts
  obtain ⟨hg, hch, _⟩ := grown_result htags hof hlen
  have htag0 : (initNode 1 (.string (messageBytes (nodeFields key (resultMetas res time)
      (fieldsTree res.fields :: ts)))) true 0 false).tag = 1 := rfl
  generalize initNode 1 _ true 0 false = n at hg hch htag0 ⊢
  rw [List.map_cons] at hch
  obtain ⟨f, nodes, hf, hnodes, hlist⟩ := List.forall₂_cons_right_iff.mp hch
  refine ⟨f, ?_, hg.indexed, by rw [hlist]; exact List.mem_cons_self, ?_, hf, ?_⟩
  · have htag : (n.innerExpand false false).tag = n.tag := congrArg (fun h => h.2.1) hg.head
    rw [htag, htag0]
    decide
  · intro c hc hct
    rw [hlist] at hc
    rcases List.mem_cons.mp hc with rfl | hc
    · rfl
    · -- the other children are sets
      rw [List.forall₂_map_right_iff] at hnodes
      obtain ⟨t, ht, r, rfl⟩ := forall₂_mem hnodes hc
      have hct' : t.field.tag = 11 := hct
      rw [Tree.field_tag, htags t ht] at hct'
      exact absurd hct' (by decide)
  · exact Nat.lt_of_le_of_lt (size_field_le List.mem_cons_self) hlen

/-- **The handle of a packed result answers as the result does**, whatever is called in whatever
    order. -/
theorem resultHandle_answers (res : MysqlRes) (h1 : 1 ≤ res.fields.length)
    (hF : 11 + res.fields.length ≤ 2 ^ 29) (reqkey : List UInt8) (time : UInt64) :
    ∃ tree, packResult res reqkey time = some tree ∧ ((evaluateSize tree).1 < 2 ^ 31 →
      ∃ datatree, newFromMessage tree.getStrVal 1 = .ok datatree ∧ ∀ calls,
        answers ResultHandle.exec ⟨⟨datatree, none⟩, none⟩ calls =
          answers (Position.exec res) ⟨0, none⟩ calls) := by
  obtain ⟨tree, hpack, hread⟩ := browsing_packResult res (by omega) reqkey time
  refine ⟨tree, hpack, fun hsize => ?_⟩
  obtain ⟨hcount, datatree, hnew, hbr⟩ := hread hsize
  obtain ⟨f, hcols⟩ := hasColumns_packResult (by omega) hpack hsize hnew
  have ht : Tracks res ⟨⟨datatree, none⟩, none⟩ ⟨0, none⟩ :=
    ⟨hbr, .none, ⟨f, hcols, rfl⟩, fun h => absurd rfl h⟩
  exact ⟨datatree, hnew, fun calls => (Tracks.simulates_exec h1 hF (by omega)).answers calls ht⟩

/-- One column and one row: the calls of a client that asks for too much. -/
theorem resultHandle_answers_cell : ∃ tree,
    packResult ⟨[[97]], [[some [65, 66]]], by decide⟩ [107] 5 = some tree ∧ ∃ datatree,
      newFromMessage tree.getStrVal 1 = .ok datatree ∧
      answers ResultHandle.exec ⟨⟨datatree, none⟩, none⟩
        [.fetch_field, .fetch_row, .fetch_fields, .fetch_lengths, .fetch_row, .fetch_lengths] =
      [.field (some ⟨[97], 1⟩), .row (some [some [65, 66]]), .fields (some (1, [⟨[97], 1⟩])),
        .lengths (some [2]), .row none, .lengths none] := by
  obtain ⟨tree, hpack, hread⟩ := resultHandle_answers ⟨[[97]], [[some [65, 66]]], by decide⟩
    (by decide) (by decide) [107] 5
  have hsize : (evaluateSize tree).1 < 2 ^ 31 :=
    Int.lt_of_le_of_lt (evaluateSize_packResult_le rfl (by decide) hpack) (by decide)
  obtain ⟨datatree, hnew, hall⟩ := hread hsize
  refine ⟨tree, hpack, datatree, hnew, (hall _).trans ?_⟩
  decide

end MysqlProxy
