/-
  A child that was detached.

  `Detach` takes a child out of its parent's list and index, and leaves the child's pointer to that
  parent as it is.  So every later edit of the child still goes on at the old parent:
  `UpdateParentEvalueAndSetDirty` patches the sizes there and above, and a call that renames the child
  puts it back into the old parent's index.

  The tree is left alone exactly by the calls that do neither.  `Harmless` is the condition on a call,
  before it is made:
  * `KeepsSize`: the child keeps its size, so that there is nothing to patch;
  * the child is not renamed, unless the old parent has no child left, because then nothing is looked
    up in its index.

  The marks need no condition: `Detach` has marked the old parent, and the walk upwards ends there.
-/
import MysqlProxy.Knv.BuildIndex
import MysqlProxy.Knv.Looking
import MysqlProxy.Knv.NodeEdit

namespace MysqlProxy

namespace KnvNode

/-- `DetachChild`, for the child `c`. -/
def detachChild (n c : KnvNode) : KnvNode × List Int :=
  let (n, offset) := edited { n with
    ht := (n.ht.remove n.childView c.ref).getD n.ht
    childlist := n.childlist.filter fun x => x.ref ≠ c.ref
    child_num := n.child_num.map (· - 1) } (-(evaluateSize c).1)
  (n, [offset])

/-- The node at a path of children. -/
def nodeAt : List Nat → KnvNode → Option KnvNode
  | [], n => some n
  | i :: path, n => n.childlist[i]?.bind (nodeAt path)

/-- The tree with another node there. -/
def mapAt (f : KnvNode → KnvNode) : List Nat → KnvNode → KnvNode
  | [], n => f n
  | i :: path, n =>
    match n.childlist[i]? with
    | none => n
    | some c => { n with childlist := n.childlist.set i (mapAt f path c) }

/-- `FindChild`, as the pointer it returns.  `view` is the memory behind the pointers. -/
def findChildRef (view : KnvNode → Nat → UInt32 × List UInt8) (n : KnvNode) (t : UInt32)
    (k : List UInt8) : Option Nat :=
  if n.tag = 0 then none
  else
    let n := n.innerExpand false false
    if n.child_num.getD 0 = 0 then none else n.ht.get (view n) t k

/-- `FindChildByTag`, as the pointer it returns. -/
def findChildByTagRef (view : KnvNode → Nat → UInt32 × List UInt8) (n : KnvNode) (tag : UInt32) :
    Option Nat :=
  if n.tag = 0 then none
  else
    let n := n.innerExpand false false
    if n.child_num.getD 0 = 0 then none
    else if n.child_has_key then (n.childlist.find? fun c => c.tag = tag).map fun c => c.ref
    else n.ht.get (view n) tag []

end KnvNode

open KnvNode

/-! ## The calls -/

/-- A call on a node that was detached: an edit of any node, or a call of the builder. -/
inductive DetachedCall where
  | edit (e : NodeEdit)
  | build (op : BuildOp)

namespace DetachedCall

/-- The node as the call sees it; most calls expand it first. -/
def expanded : DetachedCall → Bool → KnvNode → KnvNode
  | edit e, p, n => if e.expands then n.innerExpand p false else n
  | build _, p, n => n.innerExpand p false

/-- The call on a node that is expanded, if it has to be. -/
def call : DetachedCall → KnvNode → Except KnvError (KnvNode × List Int)
  | edit e, n => e.call n
  | build op, n => op.exec n

/-- The builder's call sets or removes the key of the node. -/
def setsKey : BuildOp → KnvNode → Bool
  | .setMetaInt tag _, n | .setMetaStr tag _, n => !n.no_key && tag = 1
  | .addMetaInt tag _, n | .addMetaStr tag _, n => !n.no_key && tag = 1 && (n.getMeta 1).isNone
  | .removeField tag, n => !n.no_key && tag = 1 && (n.metas 1).isSome && !n.metalist.isEmpty
  | _, _ => false

/-- The node as the parent's index is asked to forget it, if the call does so. -/
def forgets : DetachedCall → KnvNode → Option KnvNode
  | edit e, n => e.forgets n
  | build op, n => if setsKey op n then some n else none

/-- An integer, as a value of the type of `val`. -/
def intValue (val : FieldVal) (i64 : UInt64) : FieldVal :=
  match val.type with
  | .varint => .varint i64
  | .fixed64 => .fixed64 i64
  | .fixed32 => .fixed32 i64.toUInt32
  | .string => val

/-- A meta with the tag is there, and takes as much room as a value. -/
def MetaSize (n : KnvNode) (tag : UInt32) (val : FieldVal) : Prop :=
  ∃ m, n.getMeta tag = some m ∧ (evaluateSize m).1 = pbEvalFieldLength tag val

/-- The key that is there, or the meta, is replaced by one of the same size.  An empty key replaces
    none. -/
def SetsSameSize (n : KnvNode) (tag : UInt32) (val : FieldVal) : Prop :=
  if !n.no_key && tag = 1 then
    if (KnvKey.init val).val ≠ [] then MetaSize n 1 (KnvKey.init val).getValue else n.getMeta 1 = none
  else MetaSize n tag val

/-- The call keeps the size of the node. -/
def KeepsSize : DetachedCall → KnvNode → Prop
  | edit (.setTag tag), n =>
    (if n.isString then pbEvalStringLength tag n.eval_val_sz.toNat
      else pbEvalFieldLength tag n.val : Int) = n.eval_sz
  | edit (.setValueStr s), n => s.length = n.eval_val_sz
  | edit (.setValueInt i64), n => pbEvalFieldLength n.tag (intValue n.val i64) = n.eval_sz
  | edit (.setMetaInt tag val), n => SetsSameSize n tag (.varint val)
  | build (.setMetaInt tag val), n => SetsSameSize n tag (.varint val)
  | build (.setMetaStr tag val), n => SetsSameSize n tag (.string val)
  | build (.addMetaInt tag val), n => n.getMeta tag = none ∧ SetsSameSize n tag (.varint val)
  | build (.addMetaStr tag val), n => n.getMeta tag = none ∧ SetsSameSize n tag (.string val)
  | edit (.removeChildrenByTag tag), n => ∀ c ∈ n.childlist, c.tag ≠ tag
  | build (.removeField tag), n =>
    if tag.toNat ≤ UC_MAX_META_NUM then n.metalist = [] ∨ n.metas tag.toNat = none
    else ∀ c ∈ n.childlist, c.tag ≠ tag
  -- a child that is inserted takes room
  | edit (.insertIntLeaf _ _), _ | edit (.insertStrLeaf _ _), _ | build (.insertSubNode _ _), _
  | build (.insertIntLeaf _ _), _ | build (.insertStrLeaf _ _), _ => False

end DetachedCall

/-! ## Runs -/

/-- The tree, and the child that was detached. -/
structure DetachedState where
  root : KnvNode
  node : KnvNode

namespace DetachedState

/-- `Detach` of the child at position `i` of the node at a path. -/
def detach (path : List Nat) (i : Nat) (root : KnvNode) : Except KnvError DetachedState :=
  match (nodeAt path root).bind fun p => p.childlist[i]? with
  | none => .error ⟨-1, "bug: this node not owned by parent"⟩
  | some c => (KnvNode.editAt (fun p => .ok (p.detachChild c)) path root).map fun r => ⟨r.1, c⟩

/-- What an edit of the child does to the old parent at the path, and to the nodes above it. -/
def handUp (f : KnvNode → KnvNode) (l : List (Int × Bool)) : List Nat → KnvNode →
    KnvNode × List (Int × Bool)
  | [], p => parentRounds (f p) l
  | i :: path, n =>
    match n.childlist[i]? with
    | none => (n, [])
    | some c =>
      let r := handUp f l path c
      parentRounds { n with childlist := n.childlist.set i r.1 } r.2

/-- A call on the child.  `path` leads to the old parent. -/
def call (path : List Nat) (e : DetachedCall) (s : DetachedState) :
    Except KnvError DetachedState :=
  match nodeAt path s.root with
  | none => .error ⟨0, "no such node"⟩
  | some p =>
    let c := e.expanded (p.key.val ≠ []) s.node
    (e.call c).map fun r =>
      let offsets := r.2.map fun offset => (offset, true)
      ⟨(handUp (fun p => p.reindex (e.forgets c) r.1) offsets path s.root).1, r.1⟩

/-- The call neither changes the size of the child, nor puts it back into an index that is used. -/
def Harmless (path : List Nat) (e : DetachedCall) (s : DetachedState) : Prop :=
  ∃ p, nodeAt path s.root = some p ∧
    e.KeepsSize (e.expanded (p.key.val ≠ []) s.node) ∧
    (e.forgets (e.expanded (p.key.val ≠ []) s.node) = none ∨ p.child_num = some 0)

def Step (path : List Nat) (s s' : DetachedState) : Prop := ∃ e, s.call path e = .ok s'

def HarmlessStep (path : List Nat) (s s' : DetachedState) : Prop :=
  ∃ e, s.Harmless path e ∧ s.call path e = .ok s'

end DetachedState

/-- The memory behind the pointers of the node at `q`, where the index of the node at `path` may hold
    the child `c` that was detached from it. -/
def viewAt (path : List Nat) (c : KnvNode) (q : List Nat) (n : KnvNode) :
    Nat → UInt32 × List UInt8 :=
  if q = path then n.viewWith c else n.childView

/-- The size, the bytes and everything that is looked up are the same. -/
structure Looks (view view' : KnvNode → Nat → UInt32 × List UInt8) (n n' : KnvNode) : Prop where
  size : evaluateSize n' = evaluateSize n
  bytes : n'.serializeString = n.serializeString
  findChild : ∀ t k, findChildRef view' n' t k = findChildRef view n t k
  findChildByTag : ∀ t, findChildByTagRef view' n' t = findChildByTagRef view n t
  getMeta : ∀ t, n'.getMeta t = n.getMeta t

/-- So they are for each node of the tree. -/
def DetachedState.SameTree (path : List Nat) (s s' : DetachedState) : Prop :=
  ∀ q, Option.Rel (Looks (viewAt path s.node q) (viewAt path s'.node q)) (nodeAt q s.root)
    (nodeAt q s'.root)

/-! ## Calls that keep the size -/

namespace KnvNode

theorem edited_zero (n : KnvNode) : edited n 0 = (n.setValueDirty, 0) := by
  rw [edited, updateEvalSz, if_pos rfl, ite_self]

theorem getMeta_withKey {n : KnvNode} (hnum : n.child_num ≠ none) (key : KnvKey) (tag : UInt32) :
    ({ n with key := key } : KnvNode).getMeta tag = n.getMeta tag := by
  rw [getMeta, getMeta, innerExpand_expanded hnum,
    innerExpand_expanded (n := { n with key := key }) hnum]

/-- An edit that hands no offset on. -/
def HandsZero (r : Except KnvError (KnvNode × List Int)) : Prop :=
  ∀ p, r = .ok p → ∀ o ∈ p.2, o = 0

theorem handsZero_error (e : KnvError) : HandsZero (.error e) := nofun

theorem handsZero_once {r : Except KnvError (KnvNode × Int)} (h : ∀ p, r = .ok p → p.2 = 0) :
    HandsZero (once r) := by
  rintro p hp o ho
  cases hr : r with
  | error e =>
    rw [hr] at hp
    cases hp
  | ok q =>
    rw [hr] at hp
    cases hp
    rw [List.mem_singleton.mp ho]
    exact h q hr

theorem setMeta_zero {n : KnvNode} (hnum : n.child_num ≠ none) {tag : UInt32} {val : FieldVal}
    (h : DetachedCall.MetaSize n tag val) : ∀ p, n.setMeta tag val = .ok p → p.2 = 0 := by
  obtain ⟨m, hm, hsz⟩ := h
  intro p hp
  rw [setMeta] at hp
  split at hp
  · cases hp
  · split at hp
    · cases hp
    · split at hp
      · cases hp
      · simp only [innerExpand_expanded hnum, hm] at hp
        rw [← Except.ok.inj hp]
        have hoff : (if m.child_num = none then { m with
              val := val
              eval_val_sz := val.str.length
              eval_sz := pbEvalFieldLength tag val }
            else ({ m with
              val := val
              eval_val_sz := val.str.length
              eval_sz := pbEvalFieldLength tag val }).initChildList
                (if !n.no_key && tag = 1 then some 0 else none)).eval_sz - (evaluateSize m).1 = 0 := by
          rw [hsz]
          split
          · exact sub_self _
          · exact sub_self _
        simp only [hoff, edited_zero]

theorem innerRemoveMeta_zero {n : KnvNode} (hnum : n.child_num ≠ none) {tag : UInt32}
    (h : n.getMeta tag = none) : ∀ p, n.innerRemoveMeta tag = .ok p → p.2 = 0 := by
  intro p hp
  rw [innerRemoveMeta] at hp
  split at hp
  · cases hp
  · split at hp
    · cases hp
    · simp only [innerExpand_expanded hnum, h, ite_self] at hp
      cases hp
      rfl

theorem setKey_zero {n : KnvNode} (hnum : n.child_num ≠ none) {key : FieldVal}
    (h : if (KnvKey.init key).val ≠ [] then DetachedCall.MetaSize n 1 (KnvKey.init key).getValue
      else n.getMeta 1 = none) : ∀ p, n.setKey key = .ok p → p.2 = 0 := by
  generalize hm : ({ n with key := KnvKey.init key } : KnvNode) = m
  have hmnum : m.child_num ≠ none := by
    rw [← hm]
    exact hnum
  have hget : ∀ tag, m.getMeta tag = n.getMeta tag := by
    intro tag
    rw [← hm]
    exact getMeta_withKey hnum _ tag
  intro p hp
  rw [setKey] at hp
  simp only [hm] at hp
  split at hp
  case isTrue hne =>
    rw [if_pos hne] at h
    obtain ⟨x, hx, hsz⟩ := h
    have hzero := setMeta_zero hmnum ⟨x, (hget 1).trans hx, hsz⟩
    cases hr : m.setMeta 1 (KnvKey.init key).getValue with
    | error e =>
      rw [hr] at hp
      cases hp
    | ok q =>
      rw [hr] at hp
      cases hp
      exact hzero q hr
  case isFalse hne =>
    rw [if_neg hne] at h
    have hzero := innerRemoveMeta_zero hmnum ((hget 1).trans h)
    cases hr : m.innerRemoveMeta 1 with
    | error e =>
      rw [hr] at hp
      cases hp
    | ok q =>
      rw [hr] at hp
      cases hp
      exact hzero q hr

theorem setMetaOrKey_zero {n : KnvNode} (hnum : n.child_num ≠ none) {tag : UInt32} {val : FieldVal}
    (h : DetachedCall.SetsSameSize n tag val) : ∀ p, n.setMetaOrKey tag val = .ok p → p.2 = 0 := by
  rw [DetachedCall.SetsSameSize] at h
  rw [setMetaOrKey]
  split at h
  case isTrue hk =>
    rw [if_pos hk]
    exact setKey_zero hnum h
  case isFalse hk =>
    rw [if_neg hk]
    exact setMeta_zero hnum h

theorem addMeta_zero {n : KnvNode} (hnum : n.child_num ≠ none) {tag : UInt32} {val : FieldVal}
    (hm : n.getMeta tag = none) (h : DetachedCall.SetsSameSize n tag val) :
    HandsZero (n.addMeta tag val) := by
  rw [addMeta, hm]
  exact handsZero_once (setMetaOrKey_zero hnum h)

theorem removeChildrenByTag_zero {n : KnvNode} (hnum : n.child_num ≠ none) {tag : UInt32}
    (h : ∀ c ∈ n.childlist, c.tag ≠ tag) : HandsZero (n.removeChildrenByTag tag) := by
  have hgone : (n.childlist.filter fun c => c.tag = tag) = [] := by
    rw [List.filter_eq_nil_iff]
    intro c hc
    rw [decide_eq_true_iff]
    exact h c hc
  rw [removeChildrenByTag, innerExpand_expanded hnum]
  split
  · exact handsZero_error _
  · simp only [hgone, if_true, ite_self]
    rintro p ⟨⟩ o ho
    exact absurd ho List.not_mem_nil

theorem removeMetaByTag_zero {n : KnvNode} (hnum : n.child_num ≠ none) {tag : UInt32}
    (h : n.metalist = [] ∨ n.metas tag.toNat = none) : HandsZero (n.removeMetaByTag tag) := by
  rw [removeMetaByTag, innerExpand_expanded hnum]
  split
  · exact handsZero_error _
  · split
    · exact handsZero_error _
    · simp only [if_pos h]
      rintro p ⟨⟩ o ho
      exact absurd ho List.not_mem_nil

theorem setTag_zero {n : KnvNode} {tag : UInt32}
    (h : DetachedCall.KeepsSize (.edit (.setTag tag)) n) : HandsZero (n.setTag tag) := by
  replace h : (if n.isString then _ else _) = n.eval_sz := h
  rw [setTag]
  split
  · exact handsZero_error _
  · split
    · exact handsZero_error _
    · split
      · rintro p ⟨⟩ o ho
        rw [List.mem_singleton.mp ho, h, sub_self]
      · rintro p ⟨⟩ o ho
        exact List.mem_singleton.mp ho

theorem setStrValue_zero {n : KnvNode} {s : List UInt8} (h : s.length = n.eval_val_sz) :
    (n.setStrValue s).2 = 0 := by
  rw [setStrValue]
  generalize hm : ({ n with
      val := .string s
      key := if n.writesKey then (keyOfValue s).1 else n.key
      subnode_dirty := true } : KnvNode) = m
  have hval : (if m.child_num = none then m else m.initChildList none).eval_val_sz = s.length := by
    have hm' : m.eval_val_sz = n.eval_val_sz := by rw [← hm]
    rw [h, ← hm']
    split
    · rfl
    · rfl
  simp only [hval, sub_self, updateEvalSz, if_true, ite_self]

theorem checkKey_val_sz (n : KnvNode) (s : List UInt8) : (n.checkKey s).eval_val_sz = n.eval_val_sz := by
  rw [checkKey]
  split
  · split
    · rfl
    · rfl
  · rfl

end KnvNode

/-- **A call that keeps the size hands no offset on.** -/
theorem DetachedCall.call_zero {e : DetachedCall} {p : Bool} {n : KnvNode}
    (h : e.KeepsSize (e.expanded p n)) : HandsZero (e.call (e.expanded p n)) := by
  have hnum := innerExpand_num n p false
  cases e with
  | edit e =>
    cases e with
    | setTag tag => exact setTag_zero h
    | setValueStr s =>
      show HandsZero (n.setValueStr s)
      rw [setValueStr]
      split
      · exact handsZero_error _
      · split
        · exact handsZero_error _
        · refine handsZero_once ?_
          rintro _ ⟨⟩
          refine setStrValue_zero ?_
          rw [checkKey_val_sz]
          exact h
    | setValueInt i64 =>
      show HandsZero (n.setValueInt i64)
      rw [setValueInt]
      split
      · exact handsZero_error _
      · split
        · exact handsZero_error _
        · refine handsZero_once ?_
          rintro _ ⟨⟩
          replace h : (pbEvalFieldLength n.tag (intValue n.val i64) : Int) = n.eval_sz := h
          show (pbEvalFieldLength n.tag (intValue n.val i64) : Int) - n.eval_sz = 0
          rw [h, sub_self]
    | insertIntLeaf _ _ | insertStrLeaf _ _ => exact h.elim
    | setMetaInt tag val => exact handsZero_once (setMetaOrKey_zero hnum h)
    | removeChildrenByTag tag => exact removeChildrenByTag_zero hnum h
  | build op =>
    cases op with
    | insertSubNode _ _ | insertIntLeaf _ _ | insertStrLeaf _ _ => exact h.elim
    | setMetaInt tag val => exact handsZero_once (setMetaOrKey_zero hnum h)
    | setMetaStr tag val => exact handsZero_once (setMetaOrKey_zero hnum h)
    | addMetaInt tag val => exact addMeta_zero hnum h.1 h.2
    | addMetaStr tag val => exact addMeta_zero hnum h.1 h.2
    | removeField tag =>
      show HandsZero (removeField _ tag)
      rw [removeField]
      replace h : if tag.toNat ≤ UC_MAX_META_NUM then _ else _ := h
      split at h
      case isTrue htag =>
        rw [if_pos htag]
        exact removeMetaByTag_zero hnum h
      case isFalse htag =>
        rw [if_neg htag]
        exact removeChildrenByTag_zero hnum h

/-! ## Nodes at a path -/

namespace KnvNode

theorem nodeAt_mapAt (f : KnvNode → KnvNode) : ∀ (path : List Nat) (n : KnvNode),
    nodeAt path (mapAt f path n) = (nodeAt path n).map f := by
  intro path
  induction path with
  | nil => exact fun n => rfl
  | cons i path ih =>
    intro n
    rw [mapAt, nodeAt, nodeAt]
    cases hc : n.childlist[i]? with
    | none =>
      simp only [hc]
      rfl
    | some c =>
      have hlt : i < n.childlist.length := (List.getElem?_eq_some_iff.mp hc).1
      simp only [List.getElem?_set_self hlt]
      exact ih c

theorem mapAt_mapAt (f g : KnvNode → KnvNode) : ∀ (path : List Nat) (n : KnvNode),
    mapAt f path (mapAt g path n) = mapAt (fun m => f (g m)) path n := by
  intro path
  induction path with
  | nil => exact fun n => rfl
  | cons i path ih =>
    intro n
    rw [mapAt, mapAt, mapAt]
    cases hc : n.childlist[i]? with
    | none => simp only [hc]
    | some c =>
      have hlt : i < n.childlist.length := (List.getElem?_eq_some_iff.mp hc).1
      simp only [List.getElem?_set_self hlt, ih, List.set_set]

theorem mapAt_id : ∀ (path : List Nat) (n : KnvNode), mapAt id path n = n := by
  intro path
  induction path with
  | nil => exact fun n => rfl
  | cons i path ih =>
    intro n
    rw [mapAt]
    cases hc : n.childlist[i]? with
    | none => rfl
    | some c =>
      obtain ⟨hlt, hget⟩ := List.getElem?_eq_some_iff.mp hc
      obtain ⟨d, ms, cs⟩ := n
      simp only [ih, ← hget, List.set_getElem_self]

theorem EveryChild.nodeAt {P : KnvNode → Prop} : ∀ {path : List Nat} {n p : KnvNode},
    EveryChild P n → KnvNode.nodeAt path n = some p → EveryChild P p := by
  intro path
  induction path with
  | nil =>
    rintro n p h ⟨⟩
    exact h
  | cons i path ih =>
    intro n p h hp
    rw [KnvNode.nodeAt] at hp
    obtain ⟨c, hc, hp⟩ := Option.bind_eq_some_iff.mp hp
    exact ih (h.child (List.mem_of_getElem? hc)) hp

/-- Only what `f` does to the node there counts. -/
theorem mapAt_congr {f g : KnvNode → KnvNode} : ∀ {path : List Nat} {n p : KnvNode},
    nodeAt path n = some p → f p = g p → mapAt f path n = mapAt g path n := by
  intro path
  induction path with
  | nil =>
    rintro n p ⟨⟩ h
    exact h
  | cons i path ih =>
    intro n p hp h
    rw [nodeAt] at hp
    obtain ⟨c, hc, hp⟩ := Option.bind_eq_some_iff.mp hp
    rw [mapAt, mapAt, hc]
    simp only [ih hp h]

/-- An edit of a node, seen at the node. -/
theorem nodeAt_editAt {f : KnvNode → Except KnvError (KnvNode × List Int)} :
    ∀ {path : List Nat} {n n' p : KnvNode} {l : List (Int × Bool)}, nodeAt path n = some p →
      KnvNode.editAt f path n = .ok (n', l) →
      ∃ p' offs, f p = .ok (p', offs) ∧ nodeAt path n' = some p' := by
  intro path
  induction path with
  | nil =>
    rintro n n' p l ⟨⟩ h
    rw [KnvNode.editAt] at h
    cases hf : f n with
    | error e =>
      rw [hf] at h
      cases h
    | ok r =>
      rw [hf] at h
      cases h
      exact ⟨r.1, r.2, rfl, rfl⟩
  | cons i path ih =>
    intro n n' p l hp h
    rw [nodeAt] at hp
    obtain ⟨c, hc, hp⟩ := Option.bind_eq_some_iff.mp hp
    rw [KnvNode.editAt, hc] at h
    simp only at h
    cases he : KnvNode.editAt f path c with
    | error e =>
      rw [he] at h
      cases h
    | ok r =>
      obtain ⟨c', l'⟩ := r
      rw [he] at h
      replace h : parentRounds { n with childlist := n.childlist.set i c' } l' = (n', l) :=
        Except.ok.inj h
      obtain ⟨p', offs, hf, hat⟩ := ih hp he
      refine ⟨p', offs, hf, ?_⟩
      obtain ⟨sz, val_sz, val, dirty, hrounds⟩ :=
        parentRounds_eq l' { n with childlist := n.childlist.set i c' }
      rw [h] at hrounds
      replace hrounds : n' = _ := hrounds
      have hlt : i < n.childlist.length := (List.getElem?_eq_some_iff.mp hc).1
      rw [hrounds, nodeAt]
      simp only [List.getElem?_set_self hlt]
      exact hat

/-! ## Rounds without an offset -/

/-- The first parent is marked already. -/
theorem parentRounds_dirty {p : KnvNode} (hdirty : p.subnode_dirty = true) {l : List Int}
    (hz : ∀ o ∈ l, o = 0) : p.parentRounds (l.map fun offset => (offset, true)) =
      (p, l.map fun _ => (0, false)) := by
  induction l with
  | nil => rfl
  | cons o l ih =>
    have hround : p.parentRound o true = (p, 0, false) := by
      rw [hz o List.mem_cons_self, parentRound, updateEvalSz, if_pos rfl, ite_self]
      simp only [hdirty, if_true]
    rw [List.map_cons, parentRounds, hround]
    simp only [ih fun o ho => hz o (List.mem_cons_of_mem _ ho)]
    rfl

/-- The others have nothing to do. -/
theorem parentRounds_quiet (p : KnvNode) (l : List Int) :
    p.parentRounds (l.map fun _ => (0, false)) = (p, l.map fun _ => (0, false)) := by
  induction l with
  | nil => rfl
  | cons o l ih =>
    have hround : p.parentRound 0 false = (p, 0, false) := by
      rw [parentRound, updateEvalSz, if_pos rfl, ite_self]
      rfl
    rw [List.map_cons, parentRounds, hround]
    simp only [ih]

end KnvNode

namespace DetachedState

/-- **Without an offset, only the old parent is touched.** -/
theorem handUp_quiet {f : KnvNode → KnvNode} {l : List Int} (hz : ∀ o ∈ l, o = 0) :
    ∀ {path : List Nat} {n p : KnvNode}, nodeAt path n = some p → (f p).subnode_dirty = true →
      handUp f (l.map fun offset => (offset, true)) path n =
        (mapAt f path n, l.map fun _ => (0, false)) := by
  intro path
  induction path with
  | nil =>
    rintro n p ⟨⟩ hdirty
    rw [handUp, mapAt, parentRounds_dirty hdirty hz]
  | cons i path ih =>
    intro n p hp hdirty
    rw [nodeAt] at hp
    obtain ⟨c, hc, hp⟩ := Option.bind_eq_some_iff.mp hp
    rw [handUp, mapAt, hc]
    simp only [ih hp hdirty, parentRounds_quiet]

end DetachedState

/-! ## Trees that look the same -/

namespace KnvNode

theorem looks_refl (view : KnvNode → Nat → UInt32 × List UInt8) (n : KnvNode) : Looks view view n n :=
  ⟨rfl, rfl, fun _ _ => rfl, fun _ => rfl, fun _ => rfl⟩

/-- The index is not written. -/
theorem sameWriting_withHt (n : KnvNode) (h : KnvHt Nat) : SameWriting n { n with ht := h } := by
  obtain ⟨d, ms, cs⟩ := n
  refine ⟨?_, fun len header => ?_⟩
  · show evaluateSize ⟨{ d with ht := h }, ms, cs⟩ = evaluateSize ⟨d, ms, cs⟩
    rw [evaluateSize, evaluateSize]
    rfl
  · show serialize ⟨{ d with ht := h }, ms, cs⟩ len header = serialize ⟨d, ms, cs⟩ len header
    rw [serialize, serialize]
    rfl

theorem viewWith_of_mem {n c : KnvNode} {r : Nat} (hr : r ∈ n.childlist.map fun x => x.ref)
    (hne : r ≠ c.ref) : n.viewWith c r = n.childView r := by
  obtain ⟨x, hx, rfl⟩ := List.mem_map.mp hr
  have hsome : ((n.childlist.find? fun m => m.ref = x.ref)).isSome = true := by
    rw [List.find?_isSome]
    exact ⟨x, hx, decide_eq_true rfl⟩
  obtain ⟨y, hy⟩ := Option.isSome_iff_exists.mp hsome
  rw [viewWith, if_neg hne, childView, findRef, List.find?_append, hy]
  rfl

/-- **The old parent.**  Its index holds the other children, or is not used. -/
theorem looks_parent {p c c' : KnvNode} {h : KnvHt Nat} (hp : Indexed p)
    (hc : c.ref ∉ p.childlist.map fun x => x.ref) (href : c'.ref = c.ref)
    (hh : h = p.ht ∨ p.child_num = some 0) :
    Looks (fun n => n.viewWith c) (fun n => n.viewWith c') p { p with ht := h } := by
  have hnum : p.child_num ≠ none := by
    rw [hp.child_num]
    exact Option.some_ne_none _
  have hx : ({ p with ht := h } : KnvNode).innerExpand false false = { p with ht := h } :=
    innerExpand_expanded (n := { p with ht := h }) hnum false false
  have hget : p.child_num.getD 0 ≠ 0 → ∀ t k,
      h.get (({ p with ht := h } : KnvNode).viewWith c') t k = p.ht.get (p.viewWith c) t k := by
    intro hne t k
    have hht : h = p.ht := by
      rcases hh with hh | hh
      · exact hh
      · rw [hh] at hne
        exact absurd rfl hne
    rw [hht]
    show p.ht.get (p.viewWith c') t k = _
    have hview : ∀ x : KnvNode, x.ref = c.ref →
        p.ht.get (p.viewWith x) t k = p.ht.get p.childView t k := by
      intro x hx
      refine hp.ht.get_congr _ fun r hr => viewWith_of_mem hr fun he => hc ?_
      rw [← hx, ← he]
      exact hr
    rw [hview c' href, hview c rfl]
  have hw := sameWriting_withHt p h
  refine ⟨hw.1, hw.serializeString, fun t k => ?_, fun t => ?_, fun t => ?_⟩
  · simp only [findChildRef, hx, innerExpand_expanded hnum]
    split
    · rfl
    · split
      · rfl
      · rename_i hne
        exact hget hne t k
  · simp only [findChildByTagRef, hx, innerExpand_expanded hnum]
    split
    · rfl
    · split
      · rfl
      · rename_i hne
        rw [hget hne t []]
  · rw [getMeta, getMeta, hx, innerExpand_expanded hnum]

theorem sameWriting_setChild {n c c' : KnvNode} {i : Nat} (hc : n.childlist[i]? = some c)
    (hw : SameWriting c c') : SameWriting n { n with childlist := n.childlist.set i c' } := by
  refine sameWriting_withChildren n (List.forall₂_iff_get.mpr ⟨List.length_set.symm, ?_⟩)
  intro j hj hj'
  rw [List.get_eq_getElem, List.get_eq_getElem, List.getElem_set]
  split
  · rename_i hij
    subst hij
    obtain ⟨_, hget⟩ := List.getElem?_eq_some_iff.mp hc
    rw [hget]
    exact hw
  · exact SameWriting.refl _

/-- **A node above.**  One of its children is replaced by one that is written alike and has the same
    name. -/
theorem looks_child {n c c' : KnvNode} {i : Nat} (hc : n.childlist[i]? = some c)
    (hw : SameWriting c c') (hident : ident c' = ident c) :
    Looks childView childView n { n with childlist := n.childlist.set i c' } := by
  have hlist := map_ident_set hc hident
  have hlist' := sameWriting_setChild hc hw
  by_cases hnum : n.child_num = none
  · -- it is expanded anew from its value
    have hx : ({ n with childlist := n.childlist.set i c' } : KnvNode).innerExpand false false =
        n.innerExpand false false := by
      rw [innerExpand_none hnum, innerExpand_none (n := { n with childlist := n.childlist.set i c' }) hnum]
      rfl
    refine ⟨hlist'.1, hlist'.serializeString, fun t k => ?_, fun t => ?_, fun t => ?_⟩
    · rw [findChildRef, findChildRef, hx]
    · rw [findChildByTagRef, findChildByTagRef, hx]
    · rw [getMeta, getMeta, hx]
  · have hx := innerExpand_expanded (n := { n with childlist := n.childlist.set i c' }) hnum false false
    have hview : ({ n with childlist := n.childlist.set i c' } : KnvNode).childView = n.childView :=
      SameIndex.childView ⟨rfl, rfl, Nat.le_refl _, hlist, rfl⟩
    have hfind : ∀ t : UInt32, ((n.childlist.set i c').find? fun c => c.tag = t).map (fun c => c.ref) =
        (n.childlist.find? fun c => c.tag = t).map fun c => c.ref := by
      intro t
      have hmap : ∀ l : List KnvNode, (l.find? fun c => c.tag = t).map (fun c => c.ref) =
          ((l.map ident).find? fun x => x.2.1 = t).map fun x => x.1 := by
        intro l
        rw [List.find?_map, Option.map_map]
        rfl
      rw [hmap, hmap, hlist]
    refine ⟨hlist'.1, hlist'.serializeString, fun t k => ?_, fun t => ?_, fun t => ?_⟩
    · simp only [findChildRef, hx, innerExpand_expanded hnum, hview]
    · simp only [findChildByTagRef, hx, innerExpand_expanded hnum, hview, hfind]
    · rw [getMeta, getMeta, hx, innerExpand_expanded hnum]

theorem sameWriting_mapAt {f : KnvNode → KnvNode} : ∀ {path : List Nat} {n p : KnvNode},
    nodeAt path n = some p → SameWriting p (f p) ∧ ident (f p) = ident p →
    SameWriting n (mapAt f path n) ∧ ident (mapAt f path n) = ident n := by
  intro path
  induction path with
  | nil =>
    rintro n p ⟨⟩ h
    exact h
  | cons i path ih =>
    intro n p hp h
    rw [nodeAt] at hp
    obtain ⟨c, hc, hp⟩ := Option.bind_eq_some_iff.mp hp
    obtain ⟨hw, hident⟩ := ih hp h
    rw [mapAt, hc]
    exact ⟨sameWriting_setChild hc hw, rfl⟩

end KnvNode

/-- **The tree below the old parent is as it was, and so are the nodes above it.** -/
theorem sameTree_mapAt {p c c' : KnvNode} {h : KnvHt Nat} (hp : Indexed p)
    (hc : c.ref ∉ p.childlist.map fun x => x.ref) (href : c'.ref = c.ref)
    (hh : h = p.ht ∨ p.child_num = some 0) : ∀ {path : List Nat} {n : KnvNode},
    nodeAt path n = some p → ∀ q, Option.Rel (Looks (viewAt path c q) (viewAt path c' q)) (nodeAt q n)
      (nodeAt q (mapAt (fun p => { p with ht := h }) path n)) := by
  have hrefl : ∀ {view : KnvNode → Nat → UInt32 × List UInt8} (o : Option KnvNode),
      Option.Rel (Looks view view) o o := by
    intro view o
    cases o with
    | none => exact .none
    | some x => exact .some (looks_refl view x)
  intro path
  induction path with
  | nil =>
    rintro n ⟨⟩ q
    cases q with
    | nil => exact .some (looks_parent hp hc href hh)
    | cons j q => exact hrefl _
  | cons i path ih =>
    intro n hat q
    rw [nodeAt] at hat
    obtain ⟨x, hx, hat⟩ := Option.bind_eq_some_iff.mp hat
    have hlt : i < n.childlist.length := (List.getElem?_eq_some_iff.mp hx).1
    cases q with
    | nil =>
      obtain ⟨hw, hident⟩ := sameWriting_mapAt (f := fun p => { p with ht := h }) hat
        ⟨sameWriting_withHt p h, rfl⟩
      rw [mapAt, hx]
      exact .some (looks_child hx hw hident)
    | cons j q =>
      rw [mapAt, hx, nodeAt, nodeAt]
      simp only
      by_cases hj : i = j
      · rw [← hj, hx, List.getElem?_set_self hlt]
        have hview : ∀ x, viewAt (i :: path) x (i :: q) = viewAt path x q := by
          intro x
          funext n
          simp only [viewAt, List.cons.injEq, true_and]
        rw [hview, hview]
        exact ih hat q
      · rw [List.getElem?_set_ne hj]
        have hview : ∀ x, viewAt (i :: path) x (j :: q) = childView := by
          intro x
          funext n
          rw [viewAt, if_neg fun he => hj (List.cons.inj he).1.symm]
        rw [hview, hview]
        exact hrefl _

/-! ## The pointer to the child -/

theorem KnvNode.setStrValue_ref (n : KnvNode) (s : List UInt8) : (n.setStrValue s).1.ref = n.ref := by
  have hup : ∀ (m : KnvNode) (o : Int), (m.updateEvalSz o).1.ref = m.ref := by
    intro m o
    rw [updateEvalSz]
    split
    · rfl
    · rfl
  rw [setStrValue]
  generalize hm : ({ n with
      val := .string s
      key := if n.writesKey then (keyOfValue s).1 else n.key
      subnode_dirty := true } : KnvNode) = m
  have href : (if m.child_num = none then m else m.initChildList none).ref = n.ref := by
    have hm' : m.ref = n.ref := by rw [← hm]
    rw [← hm']
    split
    · rfl
    · rfl
  have hsize : ∀ (m : KnvNode) (o : Int),
      (if 0 ≤ m.eval_sz then m.updateEvalSz o else (m, 0)).1.ref = m.ref := by
    intro m o
    split
    · exact hup m o
    · rfl
  exact (hsize _ _).trans href

theorem DetachedCall.expanded_ref (e : DetachedCall) (p : Bool) (n : KnvNode) :
    (e.expanded p n).ref = n.ref := by
  have hx : (n.innerExpand p false).ref = n.ref := congrArg Prod.fst (innerExpand_head n p false)
  cases e with
  | edit e =>
    rw [expanded]
    split
    · exact hx
    · rfl
  | build op => exact hx

/-- **A call keeps the pointer.** -/
theorem DetachedCall.call_ref (e : DetachedCall) (p : Bool) (n : KnvNode) :
    EditKeeps (fun m => m.ref = n.ref) (e.call (e.expanded p n)) := by
  have hx := e.expanded_ref p n
  have hnum := innerExpand_num n p false
  have hbuild : ∀ op : BuildOp, EditKeeps (fun m => m.ref = n.ref) (op.exec (n.innerExpand p false)) := by
    intro op q hq
    have hx' : (n.innerExpand p false).ref = n.ref := (DetachedCall.build op).expanded_ref p n
    exact (BuildOp.exec_ref hnum op q hq).trans hx'
  cases e with
  | build op => exact hbuild op
  | edit e =>
    cases e with
    | setTag tag =>
      show EditKeeps _ (n.setTag tag)
      rw [setTag]
      split
      · exact editKeeps_error _
      · split
        · exact editKeeps_error _
        · split
          · rintro q ⟨⟩
            rfl
          · rintro q ⟨⟩
            rfl
    | setValueStr s =>
      show EditKeeps _ (n.setValueStr s)
      rw [setValueStr]
      split
      · exact editKeeps_error _
      · split
        · exact editKeeps_error _
        · rintro q ⟨⟩
          have hcheck : (n.checkKey s).ref = n.ref := by
            rw [checkKey]
            split
            · split
              · rfl
              · rfl
            · rfl
          exact (setStrValue_ref (n.checkKey s) s).trans hcheck
    | setValueInt i64 =>
      show EditKeeps _ (n.setValueInt i64)
      rw [setValueInt]
      split
      · exact editKeeps_error _
      · split
        · exact editKeeps_error _
        · rintro q ⟨⟩
          rfl
    | insertIntLeaf tag val => exact hbuild (.insertIntLeaf tag val)
    | insertStrLeaf tag val => exact hbuild (.insertStrLeaf tag val)
    | setMetaInt tag val => exact hbuild (.setMetaInt tag val)
    | removeChildrenByTag tag =>
      intro q hq
      exact (removeChildrenByTag_ref hnum tag q hq).trans hx

/-! ## Runs of harmless calls -/

namespace DetachedState

/-- What `Detach` leaves: the old parent is marked, and its index holds the other children. -/
structure Detached (path : List Nat) (s : DetachedState) (p : KnvNode) : Prop where
  at_path : nodeAt path s.root = some p
  indexed : Indexed p
  gone : s.node.ref ∉ p.childlist.map fun x => x.ref
  dirty : p.subnode_dirty = true

theorem detach_detached {path : List Nat} {i : Nat} {root : KnvNode} {s : DetachedState}
    (hroot : EveryChild IndexOk root) (h : detach path i root = .ok s) :
    ∃ p, s.Detached path p := by
  rw [detach] at h
  cases hc : (nodeAt path root).bind fun p => p.childlist[i]? with
  | none =>
    rw [hc] at h
    cases h
  | some c =>
    rw [hc] at h
    simp only at h
    obtain ⟨p, hp, hc⟩ := Option.bind_eq_some_iff.mp hc
    have hmem := List.mem_of_getElem? hc
    cases he : KnvNode.editAt (fun p => .ok (p.detachChild c)) path root with
    | error e =>
      rw [he] at h
      cases h
    | ok r =>
      rw [he] at h
      cases h
      obtain ⟨p', offs, hp', hat⟩ := nodeAt_editAt hp he
      have hi : Indexed p := by
        rcases (hroot.nodeAt hp).self with hi | hi
        · exact hi
        · rw [hi.2] at hmem
          exact absurd hmem List.not_mem_nil
      have hremove : removeChild p c.ref = (p.detachChild c).1 := by
        rw [removeChild, findRef_of_mem hi.nodup hmem]
        rfl
      obtain ⟨hi', -, hlist⟩ := hi.removeChild hmem
      replace hp' : p' = (p.detachChild c).1 := (congrArg Prod.fst (Except.ok.inj hp')).symm
      rw [hremove, ← hp'] at hi' hlist
      refine ⟨p', ⟨hat, hi', ?_, ?_⟩⟩
      · rw [hlist]
        intro hin
        obtain ⟨x, hx, href⟩ := List.mem_map.mp hin
        exact of_decide_eq_true (List.mem_filter.mp hx).2 href
      · rw [hp']
        rfl

theorem reindex_eq (p : KnvNode) (o : Option KnvNode) (c : KnvNode) :
    p.reindex o c = { p with ht := (p.reindex o c).ht } := by
  obtain ⟨d, ms, cs⟩ := p
  cases o with
  | none => rfl
  | some x => rfl

/-- The tree `Detach` has left, up to an index that is not used. -/
structure Quiet (path : List Nat) (s₀ : DetachedState) (p : KnvNode) (s : DetachedState) : Prop where
  root : ∃ h, s.root = mapAt (fun p => { p with ht := h }) path s₀.root ∧
    (h = p.ht ∨ p.child_num = some 0)
  ref : s.node.ref = s₀.node.ref

/-- **A harmless call.** -/
theorem quiet_step {path : List Nat} {s₀ s s' : DetachedState} {p : KnvNode} (hd : s₀.Detached path p)
    (h : Quiet path s₀ p s) (hs : HarmlessStep path s s') : Quiet path s₀ p s' := by
  obtain ⟨⟨ht, hroot, hht⟩, href⟩ := h
  obtain ⟨e, ⟨p', hp', hsize, hforgets⟩, hcall⟩ := hs
  have hat : nodeAt path s.root = some { p with ht := ht } := by
    rw [hroot, nodeAt_mapAt, hd.at_path]
    rfl
  rw [hat] at hp'
  cases hp'
  rw [call, hat] at hcall
  simp only at hcall
  generalize hpk : decide (({ p with ht := ht } : KnvNode).key.val ≠ []) = pk at *
  cases hr : e.call (e.expanded pk s.node) with
  | error err =>
    rw [hr] at hcall
    cases hcall
  | ok r =>
    rw [hr] at hcall
    have hs' := Except.ok.inj hcall
    generalize ho : e.forgets (e.expanded pk s.node) = o at *
    have hdirty : (({ p with ht := ht } : KnvNode).reindex o r.1).subnode_dirty = true := by
      rw [reindex_eq]
      exact hd.dirty
    have hup := handUp_quiet (f := fun p => p.reindex o r.1) (DetachedCall.call_zero hsize r hr) hat hdirty
    rw [← hs']
    refine ⟨⟨(({ p with ht := ht } : KnvNode).reindex o r.1).ht, ?_, ?_⟩, ?_⟩
    · simp only [hup]
      rw [hroot, mapAt_mapAt]
      refine mapAt_congr hd.at_path ?_
      rw [reindex_eq]
    · rcases hforgets with rfl | hnum
      · exact hht
      · exact .inr hnum
    · exact (e.call_ref pk s.node r hr).trans href

/-- **A detached child is independent of the tree**, in every run whose calls are harmless. -/
theorem detached_independent {tag : UInt32} {key : Option FieldVal} {b b' : BuildState}
    {path : List Nat} {i : Nat} {s₀ s : DetachedState} (hstart : b.Start tag key)
    (hbuild : Relation.ReflTransGen BuildState.Step b b') (hdetach : detach path i b'.root = .ok s₀)
    (hrun : Relation.ReflTransGen (HarmlessStep path) s₀ s) : SameTree path s₀ s := by
  obtain ⟨p, hd⟩ := detach_detached (BuildState.run_everyChild hstart hbuild) hdetach
  have hq₀ : Quiet path s₀ p s₀ := by
    refine ⟨⟨p.ht, ?_, .inl rfl⟩, rfl⟩
    have hid : mapAt (fun q => { q with ht := p.ht }) path s₀.root = mapAt id path s₀.root := by
      refine mapAt_congr hd.at_path ?_
      obtain ⟨d, ms, cs⟩ := p
      rfl
    rw [hid, mapAt_id]
  obtain ⟨⟨h, hroot, hh⟩, href⟩ :=
    run_invariant hrun hq₀ fun hq hs => quiet_step hd hq hs
  intro q
  rw [hroot]
  exact sameTree_mapAt hd.indexed hd.gone href hh hd.at_path q

/-- A root with two leaves. -/
def twoLeaves : Except KnvError KnvNode := do
  let n ← newTree 11 none
  let r ← KnvNode.editAt (BuildOp.insertIntLeaf 12 5).exec [] n
  let r ← KnvNode.editAt (BuildOp.insertIntLeaf 13 6).exec [] r.1
  return r.1

theorem twoLeaves_built : ∃ b b' : BuildState, b.Start 11 none ∧
    Relation.ReflTransGen BuildState.Step b b' ∧ twoLeaves = .ok b'.root := by
  have hkey : ∀ k, (none : Option FieldVal) = some k → KeyOk k := nofun
  obtain ⟨n, hn, _⟩ := means_newTree (show (11 : UInt32) ≠ 0 by decide) hkey
  have hstart : BuildState.Start 11 none ⟨n, .node 11 none [] []⟩ :=
    ⟨by decide, by decide, hkey, hn, rfl⟩
  obtain ⟨n₁, hcall₁⟩ := (BuildState.run_roundTrip hstart .refl).2.2 [] (.insertIntLeaf 12 5) _
    ⟨by decide, by decide⟩ rfl (by decide +kernel)
  have hrun₁ := Relation.ReflTransGen.single (r := BuildState.Step) ⟨_, _, hcall₁⟩
  obtain ⟨n₂, hcall₂⟩ := (BuildState.run_roundTrip hstart hrun₁).2.2 [] (.insertIntLeaf 13 6) _
    ⟨by decide, by decide⟩ rfl (by decide +kernel)
  have hrun₂ := hrun₁.tail ⟨_, _, hcall₂⟩
  obtain ⟨-, -, -, out₁, hroot₁⟩ := hcall₁
  obtain ⟨-, -, -, out₂, hroot₂⟩ := hcall₂
  refine ⟨_, _, hstart, hrun₂, ?_⟩
  rw [twoLeaves, hn]
  show KnvNode.editAt _ [] n >>= _ = _
  rw [hroot₁]
  show KnvNode.editAt _ [] n₁ >>= _ = _
  rw [hroot₂]
  rfl

/-- `Detach` of the first leaf, and `SetValue` of an integer on it. -/
def detachedValue (i64 : UInt64) (n : KnvNode) : Except KnvError (DetachedState × DetachedState) := do
  let s₀ ← detach [] 0 n
  let s ← s₀.call [] (.edit (.setValueInt i64))
  return (s₀, s)

/-- The value of the leaf, its size, and the size of the tree before and after. -/
def sizes (r : DetachedState × DetachedState) : FieldVal × Int × Int × Int :=
  (r.1.node.val, r.1.node.eval_sz, (evaluateSize r.1.root).1, (evaluateSize r.2.root).1)

theorem detachedValue_seven : (twoLeaves >>= detachedValue 7).toOption.map
    (fun r => (r.1.node.tag, sizes r)) = some (12, .varint 5, 2, 4, 4) := by decide +kernel

theorem detachedValue_threeHundred : (twoLeaves >>= detachedValue 300).toOption.map sizes =
    some (.varint 5, 2, 4, 5) := by decide +kernel

theorem detachedValue_some {i64 : UInt64} {α : Type} {f : DetachedState × DetachedState → α} {a : α}
    {n : KnvNode} (hn : twoLeaves = .ok n)
    (h : (twoLeaves >>= detachedValue i64).toOption.map f = some a) :
    ∃ s₀ s, detach [] 0 n = .ok s₀ ∧ s₀.call [] (.edit (.setValueInt i64)) = .ok s ∧ f (s₀, s) = a := by
  rw [hn] at h
  replace h : (detachedValue i64 n).toOption.map f = some a := h
  rw [detachedValue] at h
  cases hs₀ : detach [] 0 n with
  | error e =>
    rw [hs₀] at h
    cases h
  | ok s₀ =>
    rw [hs₀] at h
    replace h : (s₀.call [] (.edit (.setValueInt i64)) >>= fun s => pure (s₀, s)).toOption.map f =
      some a := h
    cases hs : s₀.call [] (.edit (.setValueInt i64)) with
    | error e =>
      rw [hs] at h
      cases h
    | ok s =>
      rw [hs] at h
      exact ⟨s₀, s, rfl, hs, Option.some.inj h⟩

theorem detached_independent_value : ∃ b b' s₀ s, BuildState.Start 11 none b ∧
    Relation.ReflTransGen BuildState.Step b b' ∧ detach [] 0 b'.root = .ok s₀ ∧
    HarmlessStep [] s₀ s ∧ SameTree [] s₀ s := by
  obtain ⟨b, b', hstart, hrun, hroot⟩ := twoLeaves_built
  obtain ⟨s₀, s, hdetach, hcall, hsizes⟩ := detachedValue_some hroot detachedValue_seven
  have hstep : HarmlessStep [] s₀ s := by
    refine ⟨_, ⟨s₀.root, rfl, ?_, .inl rfl⟩, hcall⟩
    show (pbEvalFieldLength s₀.node.tag (DetachedCall.intValue s₀.node.val 7) : Int) = s₀.node.eval_sz
    simp only [sizes, Prod.mk.injEq] at hsizes
    rw [hsizes.1, hsizes.2.1, hsizes.2.2.1]
    decide
  exact ⟨b, b', s₀, s, hstart, hrun, hdetach, hstep,
    detached_independent hstart hrun hdetach (.single hstep)⟩

/-- **The leaf grows by a byte, and so does the tree it was detached from.** -/
theorem detached_not_independent : ¬ ∀ (b b' : BuildState) (s₀ s : DetachedState),
    BuildState.Start 11 none b → Relation.ReflTransGen BuildState.Step b b' →
    detach [] 0 b'.root = .ok s₀ → Relation.ReflTransGen (Step []) s₀ s → SameTree [] s₀ s := by
  intro h
  obtain ⟨b, b', hstart, hrun, hroot⟩ := twoLeaves_built
  obtain ⟨s₀, s, hdetach, hcall, hsizes⟩ := detachedValue_some hroot detachedValue_threeHundred
  have hsame := h b b' s₀ s hstart hrun hdetach (.single ⟨_, hcall⟩) []
  cases hsame with
  | some hlooks =>
    simp only [sizes, Prod.mk.injEq] at hsizes
    have hsize := congrArg Prod.fst hlooks.size
    rw [hsizes.2.2.1, hsizes.2.2.2] at hsize
    exact absurd hsize (by decide)

end DetachedState

end MysqlProxy
