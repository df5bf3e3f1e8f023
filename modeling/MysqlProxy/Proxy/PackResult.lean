/-
  The packed result of a statement (`PackResult` in `mysql_proxy_server.cpp`).

      message ReqResult {
        string key = 1;  uint32 time = 2;  uint32 num_rows = 3;  uint32 num_fields = 4;
        Fields fields = 11;        // key "fields", then a node for each name
        repeated Sets sets = 12;   // key "set <i>", then rows: key "row <r>", the cells from tag 11 on
      }

  The rows are put into SETS.  A set that is full is folded to bytes at once, while the tree around it
  is still being built.

  * `RowSet` is a set of rows, `resultTree` the tree they make.  `Packed` says that a tree under
    construction is `resultTree` of some sets, the folded ones as leaves with the same bytes.
  * Every round of the loop keeps `Packed` and adds its row (`packed_packRow`), so that the rows of
    the sets, one set after the other, are the rows of the result (`packResult_packed`).

  Modelling choices.
  * `MYSQL_RES` is what `mysql_fetch_field`, `mysql_fetch_row` and `mysql_fetch_lengths` return one
    after the other: names, and rows of cells with their lengths.
  * A pointer into the tree is a path.  `NULL` is `none`; the text in `sMySQLError` is left out.
-/
import MysqlProxy.Knv.TreeRun
import MysqlProxy.Proxy.Packet

namespace MysqlProxy

open KnvNode

/-- A row: a cell is `NULL` or has bytes. -/
abbrev Row := List (Option (List UInt8))

/-- A result set.  Every row has a cell for each column. -/
structure MysqlRes where
  fields : List (List UInt8)
  rows : List Row
  width : ∀ row ∈ rows, row.length = fields.length

def max_row_num_for_each_set : Nat := 10000

/-- The bytes of a text. -/
def textBytes (s : String) : List UInt8 := s.toList.map fun c => UInt8.ofNat c.toNat

/-- `snprintf` into a buffer of 64 bytes. -/
def printed (text : String) (n : Nat) : List UInt8 := (textBytes text ++ textBytes (toString n)).take 63

def rowName (r : Nat) : List UInt8 := printed "row " r

def setName (i : Nat) : List UInt8 := printed "set " i

/-- The bytes of a `knv_key_t`, whose length has 16 bits. -/
def keyBytes (s : List UInt8) : List UInt8 := s.take (s.length % 2 ^ 16)

/-- `InsertSubNode` on the node at a path. -/
def insertSub (tree : KnvNode) (path : List Nat) (tag : UInt32) (key : List UInt8) : Option KnvNode :=
  ((editAt (fun n => n.insertSubNode tag (some (.string key))) path tree).map Prod.fst).toOption

/-- `AddFieldStr`. -/
def addFieldStr (n : KnvNode) (tag : UInt32) (val : List UInt8) : Except KnvError (KnvNode × List Int) :=
  if tag.toNat ≤ UC_MAX_META_NUM then n.addMetaStr tag val else n.insertStrLeaf tag val

/-- `GetValue` for its effect: the node is folded, if it can be. -/
def getValue (n : KnvNode) : Except KnvError (KnvNode × List Int) :=
  match n.fold with
  | .ok n' => .ok (n', [])
  | .error _ => .ok (n, [])

/-- The node at a path, edited; a failed call leaves the tree. -/
def editedAt (f : KnvNode → Except KnvError (KnvNode × List Int)) (path : List Nat) (tree : KnvNode) :
    KnvNode := orSame tree ((editAt f path tree).map Prod.fst)

/-- The loop over the cells of a row: the cell `i` has the tag `11 + i`. -/
def packCells (path : List Nat) (tree : KnvNode) (row : Row) : KnvNode :=
  row.zipIdx.foldl (fun tree c => match c.1 with
    | none => tree
    | some val => editedAt (fun n => addFieldStr n (UInt32.ofNat (11 + c.2)) val) path tree) tree

/-- The state of the loop over the rows: the tree, the position of `settree`, and `r`. -/
structure PackState where
  tree : KnvNode
  settree : Option Nat
  r : Nat

/-- The set the next row goes to: the one there is, or a new one. -/
def PackState.set (s : PackState) : Option (KnvNode × Nat) :=
  match s.settree with
  | some i => some (s.tree, i)
  | none =>
    (insertSub s.tree [] 12 (setName (s.r / max_row_num_for_each_set))).map
      fun tree => (tree, s.tree.childlist.length)

/-- A round of the loop over the rows. -/
def packRow (s : PackState) (row : Row) : Option PackState := do
  let (tree, i) ← s.set
  let j := (tree.childlist[i]?.map fun set => set.childlist.length).getD 0
  let tree ← insertSub tree [i] 11 (rowName s.r)
  let tree := packCells [i, j] tree row
  if s.r ≠ 0 ∧ s.r % max_row_num_for_each_set = 0 then
    -- fold and delete the children, and start a new set
    return ⟨editedAt getValue [i] tree, none, s.r + 1⟩
  else return ⟨tree, some i, s.r + 1⟩

/-- `PackResult`, at the time `time`. -/
def packResult (res : MysqlRes) (reqkey : List UInt8) (time : UInt64) : Option KnvNode := do
  let tree ← (newTree 1 (some (.string (keyBytes reqkey)))).toOption
  let tree := orSame tree (tree.setFieldInt 2 time)
  let tree := orSame tree (tree.setFieldInt 3 (UInt64.ofNat (res.rows.length % 2 ^ 32)))
  let tree := orSame tree (tree.setFieldInt 4 (UInt64.ofNat (res.fields.length % 2 ^ 32)))
  let tree ← insertSub tree [] 11 (textBytes "fields")
  let tree ← res.fields.foldlM (fun tree name => insertSub tree [0] 11 (keyBytes name)) tree
  return (← res.rows.foldlM packRow ⟨tree, none, 0⟩).tree

/-! ## The tree that is meant -/

/-- A set: its name, and its rows, each with a name. -/
structure RowSet where
  name : List UInt8
  rows : List (List UInt8 × Row)

/-- The key of a node, which an empty name does not make. -/
def treeKey (name : List UInt8) : Option FieldVal := if name = [] then none else some (.string name)

/-- The leaves of the cells that are not `NULL`. -/
def cellFields (row : Row) : List PbField :=
  row.zipIdx.filterMap fun c => c.1.map fun val => ⟨UInt32.ofNat (11 + c.2), .string val⟩

def rowTree (r : List UInt8 × Row) : Tree := .node 11 (treeKey r.1) [] ((cellFields r.2).map .leaf)

def RowSet.tree (s : RowSet) : Tree := .node 12 (treeKey s.name) [] (s.rows.map rowTree)

def fieldsTree (names : List (List UInt8)) : Tree :=
  .node 11 (treeKey (textBytes "fields")) [] (names.map fun name => .node 11 (treeKey (keyBytes name)) [] [])

/-- The metas of the root. -/
def resultMetas (res : MysqlRes) (time : UInt64) : List PbField :=
  [⟨2, .varint time⟩, ⟨3, .varint (UInt64.ofNat (res.rows.length % 2 ^ 32))⟩,
    ⟨4, .varint (UInt64.ofNat (res.fields.length % 2 ^ 32))⟩]

/-- The tree of a result. -/
def resultTree (res : MysqlRes) (reqkey : List UInt8) (time : UInt64) (sets : List RowSet) : Tree :=
  .node 1 (treeKey (keyBytes reqkey)) (resultMetas res time)
    (fieldsTree res.fields :: sets.map RowSet.tree)

/-! ## Edits of trees that are meant -/

namespace Tree

/-- Trees as the last children. -/
def insertAll (cs : List Tree) : Tree → Option Tree
  | leaf _ => none
  | node tag key ms ts => some (node tag key ms (ts ++ cs))

/-- A node with fields, folded: a leaf with the same bytes. -/
def folded : Tree → Option Tree
  | leaf _ => none
  | node tag key ms ts =>
    if nodeFields key ms ts = [] then none else some (leaf (node tag key ms ts).field)

/-- Two edits of the same node, one after the other. -/
theorem editAt_split {e : Tree → Option Tree} (e₁ e₂ : Tree → Option Tree)
    (he : ∀ x, e x = (e₁ x).bind e₂) (path : List Nat) : ∀ {t t' : Tree}, editAt e path t = some t' →
      ∃ t₁, editAt e₁ path t = some t₁ ∧ editAt e₂ path t₁ = some t' := by
  induction path with
  | nil =>
    intro t t' h
    rw [editAt, he] at h
    exact Option.bind_eq_some_iff.mp h
  | cons i path ih =>
    intro t t' h
    cases t with
    | leaf f => cases h
    | node tag key ms ts =>
      obtain ⟨c, hc, h⟩ := Option.bind_eq_some_iff.mp h
      obtain ⟨c', hc', h⟩ := Option.map_eq_some_iff.mp h
      subst h
      obtain ⟨c₁, h₁, h₂⟩ := ih hc'
      refine ⟨node tag key ms (ts.set i c₁), ?_, ?_⟩
      · rw [editAt, hc, Option.bind_some, h₁]
        rfl
      · have hget : (ts.set i c₁)[i]? = some c₁ := by
          rw [List.getElem?_set_self (List.getElem?_eq_some_iff.mp hc).1]
        rw [editAt, hget, Option.bind_some, h₂, Option.map_some, List.set_set]

theorem editAt_insertAll_nil (path : List Nat) :
    ∀ {t t' : Tree}, editAt (insertAll []) path t = some t' → t = t' := by
  induction path with
  | nil =>
    intro t t' h
    cases t with
    | leaf f => cases h
    | node tag key ms ts =>
      have h' := Option.some.inj h
      rw [List.append_nil] at h'
      exact h'
  | cons i path ih =>
    intro t t' h
    cases t with
    | leaf f => cases h
    | node tag key ms ts =>
      obtain ⟨c, hc, h⟩ := Option.bind_eq_some_iff.mp h
      obtain ⟨c', hc', h⟩ := Option.map_eq_some_iff.mp h
      subst h
      obtain ⟨hlt, hget⟩ := List.getElem?_eq_some_iff.mp hc
      rw [← ih hc', ← hget, List.set_getElem_self]

/-- An edit in the last child. -/
theorem editAt_last (e : Tree → Option Tree) (path : List Nat) (tag : UInt32) (key : Option FieldVal)
    (ms : List PbField) (l : List Tree) (c : Tree) :
    editAt e (l.length :: path) (node tag key ms (l ++ [c])) =
      (editAt e path c).map fun c' => node tag key ms (l ++ [c']) := by
  rw [editAt, List.getElem?_concat_length, Option.bind_some]
  congr 1
  funext c'
  rw [List.set_append_right _ _ (Nat.le_refl _), Nat.sub_self]
  rfl

end Tree

/-! ## Building and folding -/

theorem treeKey_ok {name : List UInt8} (h : name.length < 2 ^ 16) :
    ∀ k, treeKey name = some k → KeyOk k := by
  intro k hk
  unfold treeKey at hk
  split at hk
  · cases hk
  · rename_i hne
    cases hk
    exact ⟨hne, h⟩

theorem length_keyBytes (s : List UInt8) : (keyBytes s).length < 2 ^ 16 := by
  unfold keyBytes
  rw [List.length_take]
  omega

theorem rowName_ne_nil (r : Nat) : rowName r ≠ [] := List.cons_ne_nil _ _

theorem length_printed (text : String) (n : Nat) : (printed text n).length < 2 ^ 16 := by
  unfold printed
  rw [List.length_take]
  omega

/-- `NewTree` with a name, be it empty or not. -/
theorem means_newTree_name {tag : UInt32} (htag : tag ≠ 0) {name : List UInt8}
    (hname : name.length < 2 ^ 16) :
    ∃ n, newTree tag (some (.string name)) = .ok n ∧ Means n (.node tag (treeKey name) [] []) := by
  by_cases hne : name = []
  · subst hne
    obtain ⟨n, hn, hm⟩ := @means_newTree tag htag none fun k hk => nomatch hk
    refine ⟨n, ?_, hm⟩
    rw [← hn]
    rfl
  · have hk : treeKey name = some (.string name) := if_neg hne
    have hok := treeKey_ok hname
    rw [hk] at hok ⊢
    exact means_newTree htag hok

theorem insertSub_means (path : List Nat) {tree : KnvNode} {t t' : Tree} {tag : UInt32}
    {name : List UInt8} (htag : tag ≠ 0) (hname : name.length < 2 ^ 16) (h : Means tree t)
    (ht : Tree.editAt (Tree.insert (.node tag (treeKey name) [] [])) path t = some t') :
    ∃ tree', insertSub tree path tag name = some tree' ∧ Means tree' t' := by
  obtain ⟨c, hnew, hc⟩ := means_newTree_name htag hname
  obtain ⟨tree', out, hedit, hm, _⟩ := means_editAt (BuildOp.refines_insert hnew hc) path h ht
  refine ⟨tree', ?_, hm⟩
  unfold insertSub insertSubNode
  rw [hedit]
  rfl

theorem editedAt_means {f : KnvNode → Except KnvError (KnvNode × List Int)} {e : Tree → Option Tree}
    (hfe : Refines f e) {tree : KnvNode} {t t' : Tree} {path : List Nat} (h : Means tree t)
    (ht : Tree.editAt e path t = some t') : Means (editedAt f path tree) t' := by
  obtain ⟨tree', out, hedit, hm, _⟩ := means_editAt hfe path h ht
  unfold editedAt
  rw [hedit]
  exact hm

/-- A cell is a leaf. -/
theorem refines_addFieldStr {i : Nat} (hi : 11 + i < 2 ^ 32) (val : List UInt8) :
    Refines (fun n => addFieldStr n (UInt32.ofNat (11 + i)) val)
      (Tree.insert (.leaf ⟨UInt32.ofNat (11 + i), .string val⟩)) := by
  have htag : (UInt32.ofNat (11 + i)).toNat = 11 + i := by
    rw [UInt32.toNat_ofNat']
    omega
  have hgt : ¬ (UInt32.ofNat (11 + i)).toNat ≤ UC_MAX_META_NUM := by
    rw [htag]
    show ¬ 11 + i ≤ 10
    omega
  have hne : UInt32.ofNat (11 + i) ≠ 0 := by
    intro h0
    rw [h0] at htag
    simp at htag
    omega
  have hf : (fun n => addFieldStr n (UInt32.ofNat (11 + i)) val) =
      fun n => n.insertStrLeaf (UInt32.ofNat (11 + i)) val := by
    funext n
    exact if_neg hgt
  rw [hf]
  exact BuildOp.refines_insert (newNode_leaf hne _) (means_leaf hne _)

/-- `GetValue` folds. -/
theorem refines_getValue : Refines getValue Tree.folded := by
  intro n t t' hn ht
  cases t with
  | leaf f => cases ht
  | node tag key ms ts =>
    rw [Tree.folded] at ht
    split at ht
    · cases ht
    · rename_i hne
      cases ht
      obtain ⟨n', hfold, _, hm⟩ := fold_means hn hne
      refine ⟨n', [], ?_, hm, ?_⟩
      · unfold getValue
        rw [hfold]
      · rw [Tree.field.eq_def (.leaf _)]
        simp

/-! ## The loops -/

/-- The cells of a row become leaves, in order. -/
theorem packCells_means {row : Row} (hrow : 11 + row.length ≤ 2 ^ 32) {path : List Nat} {tree : KnvNode}
    {t t' : Tree} (h : Means tree t)
    (ht : Tree.editAt (Tree.insertAll ((cellFields row).map .leaf)) path t = some t') :
    Means (packCells path tree row) t' := by
  unfold packCells
  unfold cellFields at ht
  have hidx : ∀ c ∈ row.zipIdx, 11 + c.2 < 2 ^ 32 := by
    intro c hc
    have := List.snd_lt_of_mem_zipIdx hc
    omega
  generalize row.zipIdx = l at hidx ht ⊢
  induction l generalizing tree t with
  | nil =>
    rw [← Tree.editAt_insertAll_nil path ht]
    exact h
  | cons c l ih =>
    have hl : ∀ c ∈ l, 11 + c.2 < 2 ^ 32 := fun d hd => hidx d (List.mem_cons_of_mem c hd)
    rw [List.foldl_cons]
    obtain ⟨cell, i⟩ := c
    cases cell with
    | none => exact ih h hl ht
    | some val =>
      obtain ⟨t₁, h₁, h₂⟩ := Tree.editAt_split
        (Tree.insert (.leaf ⟨UInt32.ofNat (11 + i), .string val⟩))
        (Tree.insertAll ((l.filterMap fun c => c.1.map fun val =>
          (⟨UInt32.ofNat (11 + c.2), .string val⟩ : PbField)).map .leaf))
        (by
          intro x
          cases x with
          | leaf f => rfl
          | node tag key ms ts =>
            show some (Tree.node tag key ms (ts ++ _ :: _)) = some (Tree.node tag key ms (ts ++ [_] ++ _))
            rw [List.append_assoc]
            rfl) path ht
      have hi := hidx (some val, i) List.mem_cons_self
      exact ih (editedAt_means (refines_addFieldStr hi val) h h₁) hl h₂

/-- The rows of the sets, one set after the other. -/
def rowsOf (sets : List RowSet) : List Row := sets.flatMap fun s => s.rows.map Prod.snd

/-- At least one row, and every row has a name; names fit into a key. -/
structure RowSet.Ok (s : RowSet) : Prop where
  name : s.name.length < 2 ^ 16
  rows : s.rows ≠ []
  names : ∀ r ∈ s.rows, r.1 ≠ [] ∧ r.1.length < 2 ^ 16

theorem RowSet.Ok.folded_tree {s : RowSet} (h : s.Ok) : s.tree.folded = some (.leaf s.tree.field) := by
  have hne : nodeFields (treeKey s.name) [] (s.rows.map rowTree) ≠ [] := by
    intro h0
    rw [nodeFields, List.append_eq_nil_iff, List.map_eq_nil_iff, List.map_eq_nil_iff] at h0
    exact h.rows h0.2
  exact if_neg hne

/-- The tree is that of the sets: those that were folded are leaves with the same bytes, and the set
    at the position `settree` is the last one and is still open. -/
structure Packed (key : Option FieldVal) (ms : List PbField) (fields : Tree) (s : PackState)
    (sets : List RowSet) : Prop where
  means : ∃ ts, Means s.tree (.node 1 key ms (fields :: ts)) ∧
    ts.map Tree.field = sets.map (fun s => s.tree.field) ∧
    ∀ i, s.settree = some i → ∃ ts' sets' set, ts = ts' ++ [set.tree] ∧ sets = sets' ++ [set] ∧
      i = ts'.length + 1
  ok : ∀ s ∈ sets, s.Ok

/-- What a round does to the sets: its row goes to the last one, or to a new one.  It closes the set
    behind a row whose number is a multiple of `max_row_num_for_each_set`. -/
structure Added (s : PackState) (sets : List RowSet) (row : Row) (s' : PackState)
    (sets' : List RowSet) : Prop where
  next : s'.r = s.r + 1
  closed : s'.settree = none ↔ s.r ≠ 0 ∧ s.r % max_row_num_for_each_set = 0
  sets : (s.settree ≠ none ∧ ∃ l set, sets = l ++ [set] ∧
      sets' = l ++ [⟨set.name, set.rows ++ [(rowName s.r, row)]⟩]) ∨
    s.settree = none ∧
      sets' = sets ++ [⟨setName (s.r / max_row_num_for_each_set), [(rowName s.r, row)]⟩]

theorem Added.rowsOf {s s' : PackState} {sets sets' : List RowSet} {row : Row}
    (h : Added s sets row s' sets') : rowsOf sets' = rowsOf sets ++ [row] := by
  unfold MysqlProxy.rowsOf
  rcases h.sets with ⟨-, l, set, rfl, rfl⟩ | ⟨-, rfl⟩
  · simp
  · simp

section Loop

variable {key : Option FieldVal} {ms : List PbField} {fields : Tree} {s : PackState}
  {sets : List RowSet}

/-- The set the next row goes to is open, and the last. -/
theorem Packed.set (h : Packed key ms fields s sets) : ∃ tree i ts' sets' set, s.set = some (tree, i) ∧
    Means tree (.node 1 key ms (fields :: ts' ++ [set.tree])) ∧ i = (fields :: ts').length ∧
    ts'.map Tree.field = sets'.map (fun s => s.tree.field) ∧ set.name.length < 2 ^ 16 ∧
    (∀ r ∈ set.rows, r.1 ≠ [] ∧ r.1.length < 2 ^ 16) ∧ (∀ s ∈ sets', s.Ok) ∧
    (s.settree ≠ none ∧ sets = sets' ++ [set] ∨ s.settree = none ∧ sets = sets' ∧
      set = ⟨setName (s.r / max_row_num_for_each_set), []⟩) := by
  obtain ⟨ts, hm, hts, hopen⟩ := h.means
  unfold PackState.set
  cases hset : s.settree with
  | some i =>
    obtain ⟨ts', sets', set, rfl, rfl, hi⟩ := hopen i hset
    rw [List.map_append, List.map_append] at hts
    have hset := h.ok set (by simp)
    refine ⟨s.tree, i, ts', sets', set, rfl, hm, by simpa using hi, (List.append_inj' hts rfl).1,
      hset.name, hset.names, fun s hs => h.ok s (List.mem_append_left _ hs), .inl ⟨nofun, rfl⟩⟩
  | none =>
    -- a new set behind the others
    have hname := length_printed "set " (s.r / max_row_num_for_each_set)
    obtain ⟨tree', hins, hm'⟩ := insertSub_means [] (show (12 : UInt32) ≠ 0 by decide) hname hm rfl
    have hlen : s.tree.childlist.length = (fields :: ts).length := (means_node.mp hm).2.length_eq
    refine ⟨tree', s.tree.childlist.length, ts, sets, ⟨setName (s.r / max_row_num_for_each_set), []⟩,
      ?_, hm', hlen, hts, hname, fun r hr => absurd hr List.not_mem_nil, h.ok, .inr ⟨rfl, rfl, rfl⟩⟩
    show (insertSub s.tree [] 12 _).map _ = _
    rw [show insertSub s.tree [] 12 (setName (s.r / max_row_num_for_each_set)) = some tree' from hins]
    rfl

/-- **A round of the loop adds its row.** -/
theorem packed_packRow (h : Packed key ms fields s sets) {row : Row} (hrow : 11 + row.length ≤ 2 ^ 32) :
    ∃ s' sets', packRow s row = some s' ∧ Packed key ms fields s' sets' ∧
      Added s sets row s' sets' := by
  obtain ⟨tree, i, ts', sets', set, hset, hm, rfl, hts', hname, hnames, hok, hsets⟩ := h.set
  have hrowName := length_printed "row " s.r
  -- the row's node
  have hedit : Tree.editAt (Tree.insert (.node 11 (treeKey (rowName s.r)) [] []))
      [(fields :: ts').length] (.node 1 key ms (fields :: ts' ++ [set.tree])) =
      some (.node 1 key ms (fields :: ts' ++ [.node 12 (treeKey set.name) []
        (set.rows.map rowTree ++ [.node 11 (treeKey (rowName s.r)) [] []])])) := by
    rw [Tree.editAt_last]
    rfl
  obtain ⟨tree₁, hins, hm₁⟩ := insertSub_means _ (show (11 : UInt32) ≠ 0 by decide) hrowName hm hedit
  -- its position
  have hj : ((tree.childlist[(fields :: ts').length]?.map fun c => c.childlist.length).getD 0) =
      (set.rows.map rowTree).length := by
    obtain ⟨_, hch⟩ := means_node.mp hm
    have hlt : (fields :: ts').length < tree.childlist.length := by
      rw [hch.length_eq, List.length_append]
      exact Nat.lt_succ_self _
    have hlt' : (fields :: ts').length < (fields :: ts' ++ [set.tree]).length := by
      rw [← hch.length_eq]
      exact hlt
    have hc := hch.get hlt hlt'
    have hget : (fields :: ts' ++ [set.tree]).get ⟨(fields :: ts').length, hlt'⟩ = set.tree := by
      simp
    rw [hget] at hc
    rw [List.getElem?_eq_getElem hlt]
    exact (means_node.mp hc).2.length_eq
  -- its cells
  have hcells : Tree.editAt (Tree.insertAll ((cellFields row).map .leaf))
      [(fields :: ts').length, (set.rows.map rowTree).length] (.node 1 key ms (fields :: ts' ++
        [.node 12 (treeKey set.name) []
          (set.rows.map rowTree ++ [.node 11 (treeKey (rowName s.r)) [] []])])) =
      some (.node 1 key ms (fields :: ts' ++
        [RowSet.tree ⟨set.name, set.rows ++ [(rowName s.r, row)]⟩])) := by
    rw [Tree.editAt_last, Tree.editAt_last]
    unfold RowSet.tree
    rw [List.map_append]
    rfl
  have hm₂ := packCells_means hrow hm₁ hcells
  have hnew : RowSet.Ok ⟨set.name, set.rows ++ [(rowName s.r, row)]⟩ := by
    refine ⟨hname, by simp, ?_⟩
    intro r hr
    rcases List.mem_append.mp hr with hr | hr
    · exact hnames r hr
    · rw [List.mem_singleton.mp hr]
      exact ⟨rowName_ne_nil s.r, hrowName⟩
  have hok' : ∀ s' ∈ sets' ++ [⟨set.name, set.rows ++ [(rowName s.r, row)]⟩], s'.Ok := by
    intro s' hs'
    rcases List.mem_append.mp hs' with hs' | hs'
    · exact hok s' hs'
    · rw [List.mem_singleton.mp hs']
      exact hnew
  have hadded : (s.settree ≠ none ∧ ∃ l last, sets = l ++ [last] ∧
      sets' ++ [⟨set.name, set.rows ++ [(rowName s.r, row)]⟩] =
        l ++ [⟨last.name, last.rows ++ [(rowName s.r, row)]⟩]) ∨
      s.settree = none ∧ sets' ++ [⟨set.name, set.rows ++ [(rowName s.r, row)]⟩] =
        sets ++ [⟨setName (s.r / max_row_num_for_each_set), [(rowName s.r, row)]⟩] := by
    rcases hsets with ⟨hopen, rfl⟩ | ⟨hclosed, rfl, rfl⟩
    · exact .inl ⟨hopen, sets', set, rfl, rfl⟩
    · exact .inr ⟨hclosed, rfl⟩
  unfold packRow
  rw [hset]
  simp only [Option.bind_eq_bind, Option.bind_some]
  rw [hj, show insertSub tree [(fields :: ts').length] 11 (rowName s.r) = some tree₁ from hins]
  simp only [Option.bind_some]
  split
  · -- the set is full
    rename_i hfull
    refine ⟨_, _, rfl, ⟨⟨ts' ++ [.leaf (RowSet.tree ⟨set.name, set.rows ++ [(rowName s.r, row)]⟩).field],
      ?_, ?_, fun i hi => absurd hi.symm (Option.some_ne_none i)⟩, hok'⟩, rfl, iff_of_true rfl hfull, hadded⟩
    · refine editedAt_means refines_getValue hm₂ ?_
      rw [Tree.editAt_last]
      show (Tree.folded (RowSet.tree _)).map _ = _
      rw [hnew.folded_tree]
      rfl
    · rw [List.map_append, List.map_append, hts']
      simp [Tree.field]
  · rename_i hfull
    refine ⟨_, _, rfl, ⟨⟨ts' ++ [RowSet.tree ⟨set.name, set.rows ++ [(rowName s.r, row)]⟩], hm₂, ?_, ?_⟩,
      hok'⟩, rfl, iff_of_false (Option.some_ne_none _) hfull, hadded⟩
    · rw [List.map_append, List.map_append, hts']
      rfl
    · rintro i ⟨⟩
      exact ⟨ts', sets', _, rfl, rfl, rfl⟩

/-- **All rows.**  What every round keeps, holds at the end. -/
theorem packed_rows {Q : List Row → PackState → List RowSet → Prop}
    (hQ : ∀ {done s sets row s' sets'}, Q done s sets → Added s sets row s' sets' →
      Q (done ++ [row]) s' sets')
    (rows : List Row) (hrows : ∀ row ∈ rows, 11 + row.length ≤ 2 ^ 32) :
    ∀ {done : List Row} {s : PackState} {sets : List RowSet}, Packed key ms fields s sets →
      Q done s sets → ∃ s' sets', rows.foldlM packRow s = some s' ∧
        Packed key ms fields s' sets' ∧ Q (done ++ rows) s' sets' := by
  induction rows with
  | nil => exact fun {_ s sets} h hq => ⟨s, sets, rfl, h, by rw [List.append_nil]; exact hq⟩
  | cons row rows ih =>
    intro done s sets h hq
    obtain ⟨s₁, sets₁, hstep, h₁, hadd⟩ := packed_packRow h (hrows row List.mem_cons_self)
    obtain ⟨s₂, sets₂, hrest, h₂, hq₂⟩ :=
      ih (fun r hr => hrows r (List.mem_cons_of_mem row hr)) h₁ (hQ hq hadd)
    refine ⟨s₂, sets₂, ?_, h₂, by rw [List.append_assoc] at hq₂; exact hq₂⟩
    rw [List.foldlM_cons, hstep]
    exact hrest

end Loop

/-- The loop over the names. -/
theorem means_names {key : Option FieldVal} {ms : List PbField} (names : List (List UInt8)) :
    ∀ (done : List (List UInt8)) {tree : KnvNode},
      Means tree (.node 1 key ms [fieldsTree done]) →
      ∃ tree', names.foldlM (fun tree name => insertSub tree [0] 11 (keyBytes name)) tree = some tree' ∧
        Means tree' (.node 1 key ms [fieldsTree (done ++ names)]) := by
  induction names with
  | nil =>
    intro done tree h
    exact ⟨tree, rfl, by rw [List.append_nil]; exact h⟩
  | cons name names ih =>
    intro done tree h
    have hedit : Tree.editAt (Tree.insert (.node 11 (treeKey (keyBytes name)) [] [])) [0]
        (.node 1 key ms [fieldsTree done]) = some (.node 1 key ms [fieldsTree (done ++ [name])]) := by
      unfold fieldsTree
      rw [List.map_append]
      rfl
    obtain ⟨tree₁, hins, h₁⟩ :=
      insertSub_means _ (show (11 : UInt32) ≠ 0 by decide) (length_keyBytes name) h hedit
    obtain ⟨tree', hrest, h'⟩ := ih (done ++ [name]) h₁
    refine ⟨tree', ?_, by rw [List.append_assoc] at h'; exact h'⟩
    rw [List.foldlM_cons, hins]
    exact hrest

/-- A meta of the root. -/
theorem means_setFieldInt {tree : KnvNode} {key : Option FieldVal} {ms : List PbField} (tag : UInt32)
    (val : UInt64) (htag : MetaTag tag) (hnew : ∀ f ∈ ms, f.tag ≠ tag)
    (h : Means tree (.node 1 key ms [])) :
    Means (orSame tree (tree.setFieldInt tag val)) (.node 1 key (ms ++ [⟨tag, .varint val⟩]) []) := by
  obtain ⟨n', offsets, hset, hm, _⟩ := means_setMeta (f := ⟨tag, .varint val⟩) h htag hnew
  have hfield : tree.setFieldInt tag val = .ok n' := by
    unfold setFieldInt setField
    rw [if_pos htag.2.2]
    cases hr : tree.setMetaOrKey tag (.varint val) with
    | error e => rw [hr] at hset; cases hset
    | ok p =>
      rw [hr] at hset
      cases hset
      rfl
  rw [orSame_ok hfield]
  exact hm

/-- **`PackResult` makes the tree of the result**, with the rows in sets, and what every round keeps
    is true of the sets. -/
theorem packResult_run {Q : List Row → PackState → List RowSet → Prop}
    (hQ : ∀ {done s sets row s' sets'}, Q done s sets → Added s sets row s' sets' →
      Q (done ++ [row]) s' sets')
    (hQ₀ : ∀ tree, Q [] ⟨tree, none, 0⟩ [])
    (res : MysqlRes) (hF : 11 + res.fields.length ≤ 2 ^ 32) (reqkey : List UInt8)
    (time : UInt64) : ∃ tree s sets, packResult res reqkey time = some tree ∧
      (∃ ts, Means tree (.node 1 (treeKey (keyBytes reqkey)) (resultMetas res time)
        (fieldsTree res.fields :: ts)) ∧ ts.map Tree.field = sets.map (fun s => s.tree.field)) ∧
      (∀ s ∈ sets, s.Ok) ∧ Q res.rows s sets := by
  obtain ⟨n₀, hn₀, h₀⟩ := means_newTree_name (show (1 : UInt32) ≠ 0 by decide) (length_keyBytes reqkey)
  have h₂ := means_setFieldInt 2 time ⟨by decide, by decide, by decide⟩
    (fun f hf => absurd hf List.not_mem_nil) h₀
  have h₃ := means_setFieldInt 3 (UInt64.ofNat (res.rows.length % 2 ^ 32))
    ⟨by decide, by decide, by decide⟩ (by simp) h₂
  have h₄ := means_setFieldInt 4 (UInt64.ofNat (res.fields.length % 2 ^ 32))
    ⟨by decide, by decide, by decide⟩ (by simp) h₃
  obtain ⟨n₅, hn₅, h₅⟩ := insertSub_means [] (show (11 : UInt32) ≠ 0 by decide)
    (show (textBytes "fields").length < 2 ^ 16 by decide) h₄ rfl
  obtain ⟨n₆, hn₆, h₆⟩ := means_names res.fields [] h₅
  have hpacked : Packed (treeKey (keyBytes reqkey)) (resultMetas res time) (fieldsTree res.fields)
      ⟨n₆, none, 0⟩ [] :=
    ⟨⟨[], h₆, rfl, fun i hi => nomatch hi⟩, fun s hs => absurd hs List.not_mem_nil⟩
  obtain ⟨s, sets, hs, hp, hq⟩ := packed_rows hQ res.rows
    (fun row hr => by rw [res.width row hr]; exact hF) hpacked (hQ₀ n₆)
  obtain ⟨ts, hm, hts, _⟩ := hp.means
  refine ⟨s.tree, s, sets, ?_, ⟨ts, hm, hts⟩, hp.ok, hq⟩
  unfold packResult
  rw [hn₀]
  show (insertSub _ [] 11 (textBytes "fields") >>= _) = _
  rw [hn₅]
  simp only [Option.bind_eq_bind, Option.bind_some]
  rw [hn₆]
  simp only [Option.bind_some]
  rw [hs]
  rfl

/-- The rows of the sets, one set after the other, are the rows of the result. -/
theorem packResult_packed (res : MysqlRes) (hF : 11 + res.fields.length ≤ 2 ^ 32) (reqkey : List UInt8)
    (time : UInt64) : ∃ tree sets, packResult res reqkey time = some tree ∧
      (∃ ts, Means tree (.node 1 (treeKey (keyBytes reqkey)) (resultMetas res time)
        (fieldsTree res.fields :: ts)) ∧ ts.map Tree.field = sets.map (fun s => s.tree.field)) ∧
      (∀ s ∈ sets, s.Ok) ∧ rowsOf sets = res.rows := by
  obtain ⟨tree, -, sets, h⟩ := packResult_run (Q := fun done _ sets => rowsOf sets = done)
    (fun hq hadd => by rw [hadd.rowsOf, hq]) (fun _ => rfl) res hF reqkey time
  exact ⟨tree, sets, h⟩

end MysqlProxy
