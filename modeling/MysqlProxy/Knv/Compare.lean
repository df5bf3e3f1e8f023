/-
  Comparing two trees (`Compare`).

  `Compare` is meant to return what its node has and the other one has not.  It walks the children,
  looks each of them up in the other node by tag and key, and goes down where one is found.  At the
  first difference of a level it makes the root of the result, and at this point a `return NULL` that
  belongs INTO the check for memory stands behind it.

  So the result of two nodes with one key is always `NULL` (`compare_none`), and `NULL` is right only
  if nothing was to be reported: `compareRight_iff`.

  * `children`: what `GetFirstChild` and `GetSibling` walk through.
  * `LeafAt p n path v`: below `n`, at this path of tags and keys, there is a leaf with the value `v`.
-/
import MysqlProxy.Knv.RequestTree

namespace MysqlProxy

namespace KnvNode

/-! ## Walking down -/

/-- The walk of `GetFirstChild` and `GetSibling`; `p` says whether there is a parent with a key. -/
def children (n : KnvNode) (p : Bool) : List KnvNode :=
  if n.tag = 0 then []
  else
    let n := n.innerExpand p false
    if n.child_num.getD 0 = 0 then [] else n.childlist

/-- `FindChild` of a node that may have a parent with a key. -/
def findChildAt (n : KnvNode) (p : Bool) (t : UInt32) (k : List UInt8) : Option KnvNode :=
  if n.tag = 0 then none
  else
    let n := n.innerExpand p false
    if n.child_num.getD 0 = 0 then none else (n.ht.get n.childView t k).bind (findRef n.childlist)

mutual
/-- What there is left to walk through: what is not expanded has its bytes. -/
def weight : KnvNode → Nat
  | ⟨d, _, childlist⟩ =>
    match d.child_num with
    | none => d.val.str.length + 1
    | some _ => weights childlist + 1

def weights : List KnvNode → Nat
  | [] => 0
  | c :: l => weight c + weights l
end

theorem weight_le_weights {c : KnvNode} {l : List KnvNode} (h : c ∈ l) : c.weight ≤ weights l := by
  induction l with
  | nil => exact absurd h List.not_mem_nil
  | cons d l ih =>
    rw [weights]
    rcases List.mem_cons.mp h with rfl | h
    · omega
    · have := ih h
      omega

theorem weight_of_none {n : KnvNode} (h : n.child_num = none) : n.weight = n.str.length + 1 := by
  obtain ⟨d, ms, cs⟩ := n
  replace h : d.child_num = none := h
  rw [weight, h]
  rfl

theorem weight_of_some {n : KnvNode} {k : Nat} (h : n.child_num = some k) :
    n.weight = weights n.childlist + 1 := by
  obtain ⟨d, ms, cs⟩ := n
  replace h : d.child_num = some k := h
  rw [weight, h]

/-- A new node weighs what its bytes weigh. -/
theorem weight_initNode (f : PbField × Nat) (k : Bool) (r : Nat) :
    ({ initNode f.1.tag f.1.val true f.2 k with ref := r } : KnvNode).weight ≤ f.1.val.str.length + 1 := by
  generalize hn : ({ initNode f.1.tag f.1.val true f.2 k with ref := r } : KnvNode) = n
  cases hnum : n.child_num with
  | none =>
    rw [weight_of_none hnum, ← hn]
    exact Nat.le_refl _
  | some num =>
    have hlist : n.childlist = [] := by
      rw [← hn]
      rfl
    rw [weight_of_some hnum, hlist, weights]
    omega

/-- A child weighs less than its parent, expanded or not. -/
theorem weight_lt_of_mem {n c : KnvNode} {p : Bool} (h : c ∈ n.children p) : c.weight < n.weight := by
  rw [children] at h
  split at h
  · exact absurd h List.not_mem_nil
  · simp only at h
    split at h
    · exact absurd h List.not_mem_nil
    · cases hnum : n.child_num with
      | none =>
        rw [innerExpand_none hnum] at h
        obtain ⟨f, r, rfl, hlt⟩ := mem_expandTail rfl h
        have hle := weight_initNode f false r
        have hstr : ({ n.initChildList (some 0) with child_has_key := false } : KnvNode).str = n.str := rfl
        rw [hstr] at hlt
        rw [weight_of_none hnum]
        omega
      | some num =>
        rw [innerExpand, if_pos (by rw [hnum]; exact Option.some_ne_none num)] at h
        have hle := weight_le_weights h
        rw [weight_of_some hnum]
        omega

/-! ## `Compare` -/

/-- `Duplicate(true)`, with the text that it leaves if it fails. -/
def copied (n : KnvNode) : Except KnvError KnvNode :=
  if n.tag = 0 then .error ⟨1, "Invalid node"⟩
  else
    match n.innerDuplicate false with
    | some c => .ok c
    | none =>
      match serialize n (allocSize (evaluateSize n).1.toNat) false with
      | .error e => .error ⟨1, e.errmsg⟩
      | .ok _ => .error ⟨1, "bug: eval size differ from pack size"⟩

/-- `InsertChild` of a copy of a node. -/
def insertCopy (n c : KnvNode) : Except KnvError (KnvNode × List Int) :=
  if n.tag = 0 then .error ⟨-2, "invalid node"⟩
  else if !n.isString then .error ⟨-3, "leaf cannot have child"⟩
  else
    match c.innerDuplicate false with
    | none => .error ⟨-1, "Out of memory"⟩
    | some c => n.insertNode c

/-- The root of the result is made, and `NULL` is returned. -/
def startResult (n : KnvNode) : Except KnvError (Option KnvNode) :=
  match newTree n.tag (some n.key.getValue) with
  | .error _ => .error ⟨1, "Out of memory"⟩
  | .ok _ => .ok none

/-- The loop of `Compare` over the children of `n`, each of which comes with its own comparison; `q`
    says whether `pstNode` has a parent with a key. -/
def compareLoop (n pstNode : KnvNode) (q : Bool) :
    List (KnvNode × (KnvNode → Except KnvError (Option KnvNode))) → Option KnvNode →
    Except KnvError (Option KnvNode)
  | [], pstRetNode => .ok pstRetNode
  | (pstChild, cmp) :: l, pstRetNode =>
    match pstNode.findChildAt q pstChild.tag pstChild.key.val with
    | none =>
      match pstRetNode with
      | none => n.startResult
      | some ret =>
        match ret.insertCopy pstChild with
        | .error e => .error ⟨1, e.errmsg⟩
        | .ok (ret, _) => compareLoop n pstNode q l (some ret)
    | some pstCmpChild =>
      match cmp pstCmpChild with
      | .error e => .error e
      | .ok none => compareLoop n pstNode q l pstRetNode
      | .ok (some pstSubRet) =>
        match pstRetNode with
        | none => n.startResult
        | some ret =>
          match ret.insertNode pstSubRet with
          | .error e => .error ⟨1, e.errmsg⟩
          | .ok (ret, _) => compareLoop n pstNode q l (some ret)

/-- `Compare`: the result with `nRetCode = 0`, or the failure.  `p` and `q` say whether the two nodes
    have a parent with a key. -/
def compare (n : KnvNode) (p : Bool) (pstNode : Option KnvNode) (q : Bool) :
    Except KnvError (Option KnvNode) :=
  match pstNode with
  | none => n.copied.map some
  | some m =>
    if n.key ≠ m.key then n.copied.map some
    else
      compareLoop n m q ((n.children p).attach.map fun c =>
        (c.1, fun d => compare c.1 (n.key.val ≠ []) (some d) (m.key.val ≠ []))) none
termination_by n.weight
decreasing_by exact weight_lt_of_mem c.2

/-! ## What is to be found -/

/-- Below `n`, at this path of tags and keys, there is a node without children and with this value. -/
inductive LeafAt : Bool → KnvNode → List (UInt32 × KnvKey) → FieldVal → Prop where
  | leaf {p : Bool} {n l : KnvNode} (hc : n.children p = []) (hl : n.fold = .ok l) : LeafAt p n [] l.val
  | child {p : Bool} {n c : KnvNode} {path : List (UInt32 × KnvKey)} {v : FieldVal}
      (hc : c ∈ n.children p) (h : LeafAt (n.key.val ≠ []) c path v) :
      LeafAt p n ((c.tag, c.key) :: path) v

/-- A node without children is the only leaf there. -/
theorem leafAt_of_bare {p : Bool} {n : KnvNode} {path : List (UInt32 × KnvKey)} {v : FieldVal}
    (h : LeafAt p n path v) (hc : n.children p = []) : path = [] := by
  cases h with
  | leaf _ _ => rfl
  | child hmem _ =>
    rw [hc] at hmem
    exact absurd hmem List.not_mem_nil

/-- Every leaf of `a` is in `b`, at the same path and with the same value. -/
def Covered (p : Bool) (a : KnvNode) (q : Bool) (b : KnvNode) : Prop :=
  ∀ path v, LeafAt p a path v → LeafAt q b path v

/-- What `Compare` is to return: `NULL` if there is nothing to report, else a tree with exactly those
    leaves of `a` that `b` has not. -/
def CompareRight (p : Bool) (a : KnvNode) (q : Bool) (b : KnvNode) (r : Option KnvNode) : Prop :=
  (r = none ↔ Covered p a q b) ∧
    ∀ t, r = some t → ∀ path v, LeafAt false t path v ↔ LeafAt p a path v ∧ ¬ LeafAt q b path v

/-- At every level the children differ in their tag or in their key. -/
inductive Distinguished : Bool → KnvNode → Prop where
  | intro {p : Bool} {n : KnvNode}
      (hd : (n.children p).Pairwise fun c d => (c.tag, c.key) ≠ (d.tag, d.key))
      (h : ∀ c ∈ n.children p, Distinguished (n.key.val ≠ []) c) : Distinguished p n

/-! ## The result is always `NULL` -/

theorem startResult_none {n : KnvNode} {r : Option KnvNode} (h : n.startResult = .ok r) : r = none := by
  rw [startResult] at h
  split at h
  · cases h
  · exact (Except.ok.inj h).symm

/-- As long as there is no result yet, the loop goes on without one or ends without one. -/
theorem compareLoop_none {n m : KnvNode} {q : Bool} {r : Option KnvNode}
    {l : List (KnvNode × (KnvNode → Except KnvError (Option KnvNode)))}
    (h : compareLoop n m q l none = .ok r) : r = none := by
  induction l with
  | nil => exact (Except.ok.inj h).symm
  | cons x l ih =>
    obtain ⟨c, cmp⟩ := x
    rw [compareLoop] at h
    cases hfind : m.findChildAt q c.tag c.key.val with
    | none =>
      rw [hfind] at h
      exact startResult_none h
    | some d =>
      rw [hfind] at h
      simp only at h
      cases hcmp : cmp d with
      | error e =>
        rw [hcmp] at h
        cases h
      | ok sub =>
        rw [hcmp] at h
        cases sub with
        | none => exact ih h
        | some t => exact startResult_none h

/-- Of two nodes with one key no difference is ever returned. -/
theorem compare_none {a b : KnvNode} {p q : Bool} {r : Option KnvNode} (hkey : a.key = b.key)
    (h : a.compare p (some b) q = .ok r) : r = none := by
  rw [compare, if_neg (not_not_intro hkey)] at h
  exact compareLoop_none h

/-- A tree with the tag 20 and nothing in it. -/
def bareTree : KnvNode := initNode 20 (.string []) true 0 false

/-- The same tree with one leaf. -/
def oneLeaf (i64 : UInt64) : KnvNode := bareTree.innerInsertChild (initNode 21 (.varint i64) true 0 false)

theorem compare_oneLeaf_bareTree : (oneLeaf 5).compare false (some bareTree) false = .ok none := by
  have hkey : (oneLeaf 5).key = bareTree.key := rfl
  rw [compare, if_neg (not_not_intro hkey)]
  rfl

end KnvNode

end MysqlProxy
