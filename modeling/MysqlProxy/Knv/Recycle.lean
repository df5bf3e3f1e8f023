/-
  Recycled nodes (`InitNode`, `ReleaseNode`).

  A node that is released goes to the pool with what its members hold, and `InitNode` starts its next
  life.  It is "the only initialization entry", but it leaves two members alone:

  * `metas`, which is cleared when the first meta comes,
  * `child_has_key`, which is cleared when the node is expanded.

  Nearly all calls look at these members only afterwards.  The two exceptions are a node that begins
  its life EXPANDED, so that nobody clears the flag, and a sub-tree request for a meta, which reads
  `metas` of a node that has none.

  `Alike n n'` relates a node to a recycled one.  Every call that meets the condition returns the same
  for both and leaves nodes that are alike (`Alike.exec`), so that whole sequences do (`recycled_same`).
-/
import MysqlProxy.Knv.Protocol
import MysqlProxy.Knv.SubTree

namespace MysqlProxy

open KnvNode

namespace KnvNode

/-- The node `n` as `InitNode` leaves it on an object whose last life was `old`. -/
def recycled (old n : KnvNode) : KnvNode :=
  { n with metas := old.metas, child_has_key := old.child_has_key }

/-- `SetValue` of a string, on a root. -/
def setValue (n : KnvNode) (s : List UInt8) : Except KnvError (KnvNode × Int) :=
  if n.tag = 0 then .error ⟨-1, "invalid data node"⟩
  else if !n.isString then .error ⟨-2, "node type mismatch"⟩
  else .ok ((n.checkKey s).setStrValue s)

/-- The key of a new node. -/
def initKey (n : KnvNode) (key : FieldVal) : Except KnvError (KnvNode × Int) :=
  let n := { n with key := KnvKey.init key }
  if n.key.val = [] then .ok (n, 0) else n.setMeta 1 n.key.getValue

end KnvNode

/-! ## Calls -/

/-- The calls on a node. -/
inductive NodeCall where
  | initKey (key : FieldVal)
  | getMeta (tag : UInt32)
  | findChildByTag (tag : UInt32)
  | findChild (tag : UInt32) (key : List UInt8)
  | iterate
  | evaluateSize
  | serialize
  | duplicate
  | getValue
  | getSubTree (req_tree : KnvNode) (no_empty : Bool)
  | setMeta (tag : UInt32) (val : FieldVal)
  | addMeta (tag : UInt32) (val : FieldVal)
  | removeMetaByTag (tag : UInt32)
  | setChild (tag : UInt32) (val : FieldVal)
  | removeChildrenByTag (tag : UInt32)
  | insertChild (c : KnvNode) (at_tail : Bool)
  | setValue (s : List UInt8)

/-- What a call returns. -/
inductive NodeResult where
  | ret (e : Option KnvError)
  | node (c : Option KnvNode)
  | lists (metas children : List KnvNode)
  | size (sz : Int)
  | bytes (s : Except KnvError (List UInt8))
  | trees (t : Except Int (Option KnvNode × Option KnvNode))

/-- The value of a node that was found. -/
def NodeResult.val? : NodeResult → Option FieldVal
  | .node c => c.map fun c => c.val
  | _ => none

namespace NodeCall

/-- An edit: a failed one leaves the node as it is. -/
def edit {α : Type} (n : KnvNode) : Except KnvError (KnvNode × α) → KnvNode × NodeResult
  | .ok p => (p.1, .ret none)
  | .error e => (n, .ret (some e))

/-- `Expand`. -/
def expanded (n : KnvNode) : KnvNode := if n.tag = 0 then n else n.innerExpand false false

/-- A call on a root: the node it leaves, and what it returns. -/
def exec : NodeCall → KnvNode → KnvNode × NodeResult
  | initKey key, n => edit n (n.initKey key)
  | getMeta tag, n =>
    (if UC_MAX_META_NUM < tag.toNat then n else expanded n, .node (n.getMeta tag))
  | findChildByTag tag, n => (expanded n, .node (n.findChildByTag tag))
  | findChild tag key, n => (expanded n, .node (n.findChild tag key))
  | iterate, n => (expanded n, .lists (expanded n).metalist (expanded n).childlist)
  | evaluateSize, n => (n, .size (KnvNode.evaluateSize n).1)
  | serialize, n => (n, .bytes n.serializeString)
  | duplicate, n => (n, .node n.duplicate)
  | getValue, n =>
    match n.fold with
    | .ok l => (l, .bytes (.ok l.str))
    | .error e => (n, .bytes (.error e))
  | getSubTree req_tree no_empty, n =>
    ((n.getSubTree req_tree no_empty).1, .trees (n.getSubTree req_tree no_empty).2)
  | setMeta tag val, n => edit n (n.setMetaOrKey tag val)
  | addMeta tag val, n => edit n (n.addMeta tag val)
  | removeMetaByTag tag, n => edit n (n.removeMetaByTag tag)
  | setChild tag val, n => edit n (n.setChild tag val)
  | removeChildrenByTag tag, n => edit n (n.removeChildrenByTag tag)
  | insertChild c at_tail, n => edit n (if at_tail then n.insertNode c else n.insertFront c)
  | setValue s, n => edit n (n.setValue s)

/-- The results of a sequence of calls. -/
def results : List NodeCall → KnvNode → List NodeResult
  | [], _ => []
  | call :: calls, n => (call.exec n).2 :: results calls (call.exec n).1

/-- The node asks for a meta. -/
def asksMeta (m : KnvNode) : Prop := m.tag ≠ 1 ∧ m.val.type = .varint ∧ m.getIntVal ≠ 0

/-- No request for a meta reads an old pointer. -/
def Clean : NodeCall → KnvNode → Prop
  | getSubTree req_tree _, n =>
    let n := n.innerExpand false (!req_tree.child_has_key)
    ∀ m ∈ req_tree.metalist, asksMeta m → n.metalist = [] → n.metas m.tag.toNat = none
  | _, _ => True

/-- Every call of a sequence is clean. -/
def AllClean : List NodeCall → KnvNode → Prop
  | [], _ => True
  | call :: calls, n => call.Clean n ∧ AllClean calls (call.exec n).1

end NodeCall

/-! ## Nodes that are alike -/

/-- **The recycled node `n'` is the node `n`**, up to the members that nobody has cleared yet. -/
def Alike (n n' : KnvNode) : Prop :=
  ∃ m b, n' = { n with metas := m, child_has_key := b } ∧
    (m = n.metas ∨ n.metalist = [] ∧ n.metas = fun _ => none) ∧
    (n.child_num ≠ none → b = n.child_has_key)

theorem Alike.refl (n : KnvNode) : Alike n n := by
  obtain ⟨d, ms, cs⟩ := n
  exact ⟨d.metas, d.child_has_key, rfl, .inl rfl, fun _ => rfl⟩

theorem Alike.hangMeta {n n' : KnvNode} (h : Alike n n') (m : KnvNode) (front : Bool) :
    Alike (n.hangMeta m front) (n'.hangMeta m front) := by
  obtain ⟨ms, b, rfl, hms, hb⟩ := h
  refine ⟨(n.hangMeta m front).metas, b, ?_, .inl rfl, hb⟩
  rcases hms with rfl | ⟨hnil, _⟩
  · rfl
  · simp only [KnvNode.hangMeta, hnil, if_true]

theorem Alike.hangChild {n n' : KnvNode} (h : Alike n n') (hnum : n.child_num ≠ none) (c : KnvNode) :
    Alike (n.hangChild c) (n'.hangChild c) := by
  obtain ⟨ms, b, rfl, hms, hb⟩ := h
  refine ⟨ms, b || c.key.val ≠ [], rfl, hms, fun _ => ?_⟩
  rw [hb hnum]
  rfl

theorem Alike.expandFields {k : Bool} (fs : List (PbField × Nat)) : ∀ {n n' : KnvNode}, Alike n n' →
    n.child_num ≠ none → Alike (fs.foldl (expandField k) n) (fs.foldl (expandField k) n') ∧
      (fs.foldl (expandField k) n).child_num ≠ none := by
  induction fs with
  | nil => exact fun h hnum => ⟨h, hnum⟩
  | cons f fs ih =>
    intro n n' h hnum
    rw [List.foldl_cons, List.foldl_cons, expandField, expandField]
    split
    · exact ih (h.hangMeta _ _) hnum
    · refine ih (h.hangChild hnum _) ?_
      show n.child_num.map (· + 1) ≠ none
      rw [ne_eq, Option.map_eq_none_iff]
      exact hnum

/-- What `InnerExpand` does with a node that has been cleared. -/
def expandTail (p k : Bool) (n : KnvNode) : KnvNode :=
  if !n.isString then n
  else if n.tag = 1 ∧ p then n
  else
    match pbFields n.str with
    | none => n
    | some (fields, eom) =>
      let n := { fields.foldl (expandField k) n with subnode_dirty := false }
      if eom then n else n.initChildList (some 0)

theorem innerExpand_none {n : KnvNode} (h : n.child_num = none) (p k : Bool) :
    n.innerExpand p k =
      expandTail p k { n.initChildList (some 0) with child_has_key := false } := by
  rw [KnvNode.innerExpand, if_neg (not_not_intro h)]
  rfl

theorem Alike.expandTail {n n' : KnvNode} (h : Alike n n') (hnum : n.child_num ≠ none) (p k : Bool) :
    Alike (expandTail p k n) (MysqlProxy.expandTail p k n') := by
  have hstr : n'.isString = n.isString ∧ n'.tag = n.tag ∧ n'.str = n.str := by
    obtain ⟨ms, b, rfl, _⟩ := h
    exact ⟨rfl, rfl, rfl⟩
  rw [MysqlProxy.expandTail, MysqlProxy.expandTail, hstr.1, hstr.2.1, hstr.2.2]
  split
  · exact h
  · split
    · exact h
    · cases hf : pbFields n.str with
      | none => exact h
      | some q =>
        obtain ⟨fs, eom⟩ := q
        obtain ⟨⟨ms, b, he, hms, hb⟩, hnum'⟩ := Alike.expandFields fs h hnum
        simp only
        rw [he]
        split
        · exact ⟨ms, b, rfl, hms, hb⟩
        · exact ⟨ms, b, rfl, hms.imp_right fun hm => ⟨rfl, hm.2⟩, fun _ => hb hnum'⟩

/-- Expanding clears the flag, and the first meta clears `metas`. -/
theorem Alike.innerExpand {n n' : KnvNode} (h : Alike n n') (p k : Bool) :
    Alike (n.innerExpand p k) (n'.innerExpand p k) := by
  obtain ⟨ms, b, rfl, hms, hb⟩ := h
  by_cases hnum : n.child_num = none
  · rw [innerExpand_none hnum, innerExpand_none (n := { n with metas := ms, child_has_key := b }) hnum]
    refine Alike.expandTail ?_ (Option.some_ne_none 0) p k
    exact ⟨ms, false, rfl, hms.imp_right fun hm => ⟨rfl, hm.2⟩, fun _ => rfl⟩
  · rw [innerExpand_expanded hnum,
      innerExpand_expanded (n := { n with metas := ms, child_has_key := b }) hnum]
    exact ⟨ms, b, rfl, hms, hb⟩

/-! ## Reads -/

section Reads

variable {n n' : KnvNode} (h : Alike n n')
include h

theorem Alike.tag : n'.tag = n.tag := by
  obtain ⟨ms, b, rfl, _⟩ := h
  rfl

theorem Alike.isString : n'.isString = n.isString := by
  obtain ⟨ms, b, rfl, _⟩ := h
  rfl

theorem Alike.key : n'.key = n.key := by
  obtain ⟨ms, b, rfl, _⟩ := h
  rfl

theorem Alike.lookupMeta (t : Nat) : n'.lookupMeta t = n.lookupMeta t := by
  obtain ⟨ms, b, rfl, hms, _⟩ := h
  rw [KnvNode.lookupMeta, KnvNode.lookupMeta]
  rcases hms with rfl | ⟨hnil, _⟩
  · rfl
  · rw [if_pos hnil, if_pos hnil]

theorem Alike.getMeta (t : UInt32) : n'.getMeta t = n.getMeta t := by
  by_cases h0 : n.tag = 0 ∨ UC_MAX_META_NUM < t.toNat
  · rw [KnvNode.getMeta, KnvNode.getMeta, h.tag, if_pos h0, if_pos h0]
  · have h0' := not_or.mp h0
    rw [getMeta_eq (by rw [h.tag]; exact h0'.1) (Nat.not_lt.mp h0'.2),
      getMeta_eq h0'.1 (Nat.not_lt.mp h0'.2), (h.innerExpand false false).lookupMeta]

theorem Alike.lookupChild (hnum : n.child_num ≠ none) (t : UInt32) :
    n'.lookupChild t = n.lookupChild t := by
  obtain ⟨ms, b, rfl, _, hb⟩ := h
  rw [hb hnum]
  rfl

theorem Alike.findChildByTag (t : UInt32) : n'.findChildByTag t = n.findChildByTag t := by
  by_cases h0 : n.tag = 0
  · rw [KnvNode.findChildByTag, KnvNode.findChildByTag, h.tag, if_pos h0, if_pos h0]
  · rw [findChildByTag_eq (by rw [h.tag]; exact h0), findChildByTag_eq h0,
      (h.innerExpand false false).lookupChild (innerExpand_num n false false)]

theorem Alike.findChild (t : UInt32) (k : List UInt8) : n'.findChild t k = n.findChild t k := by
  rw [KnvNode.findChild, KnvNode.findChild, h.tag]
  obtain ⟨ms, b, he, _⟩ := h.innerExpand false false
  simp only [he]
  rfl

theorem Alike.evaluateSize : evaluateSize n' = evaluateSize n := by
  obtain ⟨d, metalist, childlist⟩ := n
  obtain ⟨ms, b, rfl, _⟩ := h
  rw [KnvNode.evaluateSize, KnvNode.evaluateSize]
  rfl

theorem Alike.serialize (len : Nat) (with_header : Bool) :
    serialize n' len with_header = serialize n len with_header := by
  have he := h.evaluateSize
  obtain ⟨d, metalist, childlist⟩ := n
  obtain ⟨ms, b, rfl, _⟩ := h
  rw [KnvNode.serialize, KnvNode.serialize]
  simp only [he]
  rfl

theorem Alike.serializeString : n'.serializeString = n.serializeString := by
  rw [KnvNode.serializeString, KnvNode.serializeString, h.evaluateSize, h.serialize]

theorem Alike.innerDuplicate (k : Bool) : n'.innerDuplicate k = n.innerDuplicate k := by
  have he := h.evaluateSize
  have hs := h.serialize
  obtain ⟨ms, b, rfl, _⟩ := h
  rw [KnvNode.innerDuplicate, KnvNode.innerDuplicate]
  simp only [he, hs]
  rfl

end Reads

/-! ## Edits -/

/-- Two edits that leave nodes that are alike, or fail in the same way. -/
inductive AlikeEdit {α : Type} : Except KnvError (KnvNode × α) → Except KnvError (KnvNode × α) → Prop
  | ok {n n' : KnvNode} (a : α) : Alike n n' → AlikeEdit (.ok (n, a)) (.ok (n', a))
  | error (e : KnvError) : AlikeEdit (.error e) (.error e)

theorem AlikeEdit.mapError {α : Type} {r r' : Except KnvError (KnvNode × α)} (h : AlikeEdit r r')
    (f : KnvError → KnvError) : AlikeEdit (r.mapError f) (r'.mapError f) := by
  cases h with
  | ok a h => exact .ok a h
  | error e => exact .error (f e)

theorem AlikeEdit.once {r r' : Except KnvError (KnvNode × Int)} (h : AlikeEdit r r') :
    AlikeEdit (once r) (KnvNode.once r') := by
  cases h with
  | ok a h => exact .ok [a] h
  | error e => exact .error e

section Edits

variable {n n' : KnvNode} (h : Alike n n')
include h

/-- The sizes are the same for both. -/
theorem Alike.sized (offset : Int) :
    AlikeEdit (.ok (if 0 ≤ n.eval_sz then n.updateEvalSz offset else (n, 0)))
      (.ok (if 0 ≤ n'.eval_sz then n'.updateEvalSz offset else (n', 0))) := by
  have hsame := h
  obtain ⟨ms, b, rfl, hms, hb⟩ := h
  rw [updateEvalSz, updateEvalSz]
  by_cases hsz : 0 ≤ n.eval_sz
  · rw [if_pos hsz, if_pos hsz]
    by_cases ho : offset = 0
    · rw [if_pos ho, if_pos ho]
      exact .ok 0 hsame
    · rw [if_neg ho, if_neg ho]
      exact .ok _ ⟨ms, b, rfl, hms, hb⟩
  · rw [if_neg hsz, if_neg hsz]
    exact .ok 0 hsame

theorem Alike.setValueDirty : Alike n.setValueDirty n'.setValueDirty := by
  obtain ⟨ms, b, rfl, hms, hb⟩ := h
  exact ⟨ms, b, rfl, hms, hb⟩

theorem Alike.subnode_dirty : n'.subnode_dirty = n.subnode_dirty := by
  obtain ⟨ms, b, rfl, _⟩ := h
  rfl

/-- The end of every edit. -/
theorem Alike.edited (offset : Int) : AlikeEdit (.ok (edited n offset)) (.ok (KnvNode.edited n' offset)) := by
  have hs := h.sized offset
  rw [KnvNode.edited, KnvNode.edited]
  generalize (if 0 ≤ n.eval_sz then n.updateEvalSz offset else (n, 0)) = q at hs
  generalize (if 0 ≤ n'.eval_sz then n'.updateEvalSz offset else (n', 0)) = q' at hs
  cases hs with
  | ok o hs => exact .ok o hs.setValueDirty

theorem Alike.childEdited (offset : Int) :
    AlikeEdit (.ok (n.childEdited offset)) (.ok (n'.childEdited offset)) := by
  have hs := h.sized offset
  rw [KnvNode.childEdited, KnvNode.childEdited]
  generalize (if 0 ≤ n.eval_sz then n.updateEvalSz offset else (n, 0)) = q at hs
  generalize (if 0 ≤ n'.eval_sz then n'.updateEvalSz offset else (n', 0)) = q' at hs
  cases hs with
  | ok o hs =>
    simp only [hs.subnode_dirty]
    split
    · exact .ok o hs
    · exact .ok o hs.setValueDirty

theorem Alike.setMeta (t : UInt32) (val : FieldVal) : AlikeEdit (n.setMeta t val) (n'.setMeta t val) := by
  rw [KnvNode.setMeta, KnvNode.setMeta, h.tag, h.isString]
  have hx := h.innerExpand false false
  generalize n.innerExpand false false = e at hx
  generalize n'.innerExpand false false = e' at hx
  split
  · exact .error _
  · split
    · exact .error _
    · split
      · exact .error _
      · simp only
        rw [hx.getMeta t]
        cases e.getMeta t with
        | none => exact (hx.hangMeta _ _).edited _
        | some m =>
          obtain ⟨ms, b, rfl, hms, hb⟩ := hx
          refine Alike.edited ?_ _
          refine ⟨ms, b, rfl, hms.imp_right fun hm => ⟨?_, hm.2⟩, hb⟩
          show replaceRef _ e.metalist = []
          rw [hm.1]
          rfl

theorem Alike.innerRemoveMeta (t : UInt32) :
    AlikeEdit (n.innerRemoveMeta t) (n'.innerRemoveMeta t) := by
  rw [KnvNode.innerRemoveMeta, KnvNode.innerRemoveMeta, h.tag]
  have hx := h.innerExpand false false
  generalize n.innerExpand false false = e at hx
  generalize n'.innerExpand false false = e' at hx
  split
  · exact .error _
  · split
    · exact .error _
    · simp only
      rw [hx.getMeta t]
      obtain ⟨ms, b, rfl, hms, hb⟩ := hx
      simp only
      cases hm : (if e.metalist = [] then none else e.getMeta t) with
      | none => exact .ok 0 ⟨ms, b, rfl, hms, hb⟩
      | some m =>
        have hne : e.metalist ≠ [] := by
          intro hnil
          rw [if_pos hnil] at hm
          cases hm
        refine Alike.edited ?_ _
        refine ⟨_, b, rfl, .inl ?_, hb⟩
        rw [hms.resolve_right fun hm => hne hm.1]

theorem Alike.with_key (key : KnvKey) : Alike { n with key := key } { n' with key := key } := by
  obtain ⟨ms, b, rfl, hms, hb⟩ := h
  exact ⟨ms, b, rfl, hms, hb⟩

theorem Alike.with_no_key (b : Bool) : Alike { n with no_key := b } { n' with no_key := b } := by
  obtain ⟨ms, b', rfl, hms, hb⟩ := h
  exact ⟨ms, b', rfl, hms, hb⟩

theorem Alike.no_key : n'.no_key = n.no_key := by
  obtain ⟨ms, b, rfl, _⟩ := h
  rfl

omit h in
/-- The end of `SetKey`. -/
theorem AlikeEdit.keyed {r r' : Except KnvError (KnvNode × Int)} (hr : AlikeEdit r r') :
    AlikeEdit (do let (n, offset) ← r; return ({ n with no_key := false }, offset))
      (do let (n, offset) ← r'; return ({ n with no_key := false }, offset)) := by
  cases hr with
  | ok a h => exact .ok a (h.with_no_key false)
  | error e => exact .error e

theorem Alike.setKey (key : FieldVal) : AlikeEdit (n.setKey key) (n'.setKey key) := by
  have hk := h.with_key (KnvKey.init key)
  rw [KnvNode.setKey, KnvNode.setKey]
  show AlikeEdit (if (KnvKey.init key).val ≠ [] then _ else _)
    (if (KnvKey.init key).val ≠ [] then _ else _)
  split
  · exact ((hk.setMeta 1 _).mapError _).keyed
  · exact ((hk.innerRemoveMeta 1).mapError _).keyed

theorem Alike.setMetaOrKey (t : UInt32) (val : FieldVal) :
    AlikeEdit (n.setMetaOrKey t val) (n'.setMetaOrKey t val) := by
  rw [KnvNode.setMetaOrKey, KnvNode.setMetaOrKey, h.no_key]
  split
  · exact h.setKey val
  · exact h.setMeta t val

theorem Alike.initKey (key : FieldVal) : AlikeEdit (n.initKey key) (n'.initKey key) := by
  have hk := h.with_key (KnvKey.init key)
  rw [KnvNode.initKey, KnvNode.initKey]
  show AlikeEdit (if (KnvKey.init key).val = [] then _ else _)
    (if (KnvKey.init key).val = [] then _ else _)
  split
  · exact .ok 0 hk
  · exact hk.setMeta 1 _

theorem Alike.addMeta (t : UInt32) (val : FieldVal) : AlikeEdit (n.addMeta t val) (n'.addMeta t val) := by
  rw [KnvNode.addMeta, KnvNode.addMeta, h.getMeta t]
  have hmeta : (n.getMeta t).isSome = true → (n.innerExpand false false).metalist ≠ [] := by
    intro hs hnil
    rw [KnvNode.getMeta] at hs
    split at hs
    · cases hs
    · simp only [hnil, if_true] at hs
      cases hs
  cases hm : n.getMeta t with
  | none => exact (h.setMetaOrKey t val).once
  | some m =>
    have hne := hmeta (by rw [hm]; rfl)
    have hx := h.innerExpand false false
    generalize n.innerExpand false false = e at hx hne
    generalize n'.innerExpand false false = e' at hx
    obtain ⟨ms, b, rfl, hms, hb⟩ := hx
    refine AlikeEdit.once (Alike.edited ?_ _)
    exact ⟨ms, b, rfl, .inl (hms.resolve_right fun hm => hne hm.1), hb⟩

theorem Alike.clearKey : AlikeEdit n.clearKey n'.clearKey := by
  have hk := h.with_key (KnvKey.none n.key.type)
  rw [KnvNode.clearKey, KnvNode.clearKey, h.key]
  exact ((hk.innerRemoveMeta 1).mapError _).keyed

omit h in
/-- The metas with a tag go. -/
def dropMetas (tag : UInt32) (n : KnvNode) (offsets : List Int) : KnvNode × List Int :=
  let p := KnvNode.edited { n with
    metalist := n.metalist.filter fun m => m.tag ≠ tag
    metas := fun t => if t = tag.toNat then none else n.metas t }
    (-(evaluateSizes (n.metalist.filter fun m => m.tag = tag) false))
  (p.1, offsets ++ [p.2])

omit h in
theorem removeMetaByTag_eq (n : KnvNode) (tag : UInt32) : n.removeMetaByTag tag =
    if n.tag = 0 then .error ⟨-1, "Node is not initialized"⟩
    else if UC_MAX_META_NUM < tag.toNat then .error ⟨-2, "Tag is out of range"⟩
    else
      let n := n.innerExpand false false
      if n.metalist = [] ∨ n.metas tag.toNat = none then .ok (n, [])
      else if (!n.no_key && tag = 1) = true then
        (once n.clearKey).map fun p => dropMetas tag p.1 p.2
      else .ok (dropMetas tag n []) := by
  rw [KnvNode.removeMetaByTag]
  split
  · rfl
  · split
    · rfl
    · simp only
      split
      · rfl
      · split
        · cases KnvNode.once (KnvNode.clearKey (n.innerExpand false false)) with
          | error e => rfl
          | ok p => rfl
        · rfl

theorem Alike.dropMetas (tag : UInt32) (offsets : List Int) :
    AlikeEdit (.ok (dropMetas tag n offsets)) (.ok (MysqlProxy.dropMetas tag n' offsets)) := by
  obtain ⟨ms, b, rfl, hms, hb⟩ := h
  have ha : Alike { n with
      metalist := n.metalist.filter fun m => m.tag ≠ tag
      metas := fun t => if t = tag.toNat then none else n.metas t }
      { n with
      metalist := n.metalist.filter fun m => m.tag ≠ tag
      metas := fun t => if t = tag.toNat then none else ms t
      child_has_key := b } := by
    refine ⟨_, b, rfl, ?_, hb⟩
    rcases hms with rfl | ⟨hnil, hnone⟩
    · exact .inl rfl
    · refine .inr ⟨by rw [hnil]; rfl, ?_⟩
      rw [hnone]
      funext t
      exact ite_self _
  have he := ha.edited (-(evaluateSizes (n.metalist.filter fun m => m.tag = tag) false))
  rw [MysqlProxy.dropMetas, MysqlProxy.dropMetas]
  generalize KnvNode.edited _ _ = q at he ⊢
  generalize KnvNode.edited _ _ = q' at he ⊢
  cases he with
  | ok a he => exact .ok (offsets ++ [a]) he

theorem Alike.removeMetaByTag (tag : UInt32) :
    AlikeEdit (n.removeMetaByTag tag) (n'.removeMetaByTag tag) := by
  rw [removeMetaByTag_eq, removeMetaByTag_eq, h.tag]
  have hx := h.innerExpand false false
  generalize n.innerExpand false false = e at hx
  generalize n'.innerExpand false false = e' at hx
  split
  · exact .error _
  · split
    · exact .error _
    · have hnone : e'.metalist = [] ∨ e'.metas tag.toNat = none ↔
          e.metalist = [] ∨ e.metas tag.toNat = none := by
        obtain ⟨ms, b, rfl, hms, _⟩ := hx
        rcases hms with rfl | ⟨hnil, _⟩
        · exact Iff.rfl
        · simp only [hnil, true_or]
      simp only [hnone, hx.no_key]
      split
      · exact .ok [] hx
      · split
        · have hk := hx.clearKey.once
          generalize once e.clearKey = r at hk ⊢
          generalize once e'.clearKey = r' at hk ⊢
          cases hk with
          | error er => exact .error er
          | ok a hk => exact hk.dropMetas tag a
        · exact hx.dropMetas tag []

theorem Alike.removeChildrenByTag (tag : UInt32) :
    AlikeEdit (n.removeChildrenByTag tag) (n'.removeChildrenByTag tag) := by
  rw [KnvNode.removeChildrenByTag, KnvNode.removeChildrenByTag, h.tag]
  have hx := h.innerExpand false false
  have hnum := innerExpand_num n false false
  generalize n.innerExpand false false = e at hx hnum
  generalize n'.innerExpand false false = e' at hx
  split
  · exact .error _
  · obtain ⟨ms, b, rfl, hms, hb⟩ := hx
    simp only
    split
    · exact .ok [] ⟨ms, b, rfl, hms, hb⟩
    · split
      · exact .ok [] ⟨ms, b, rfl, hms, hb⟩
      · refine AlikeEdit.once (Alike.edited ?_ _)
        exact ⟨ms, b, rfl, hms, fun _ => hb hnum⟩

/-- A child more, at the tail or in front. -/
theorem Alike.inserted {g : KnvNode → KnvNode} (hg : ∀ {e e' : KnvNode}, Alike e e' →
    e.child_num ≠ none → Alike (g e) (g e')) (c : KnvNode) :
    AlikeEdit (.ok (KnvNode.edited (g (n.innerExpand false false)) (KnvNode.evaluateSize c).1))
      (.ok (KnvNode.edited (g (n'.innerExpand false false)) (KnvNode.evaluateSize c).1)) :=
  (hg (h.innerExpand false false) (innerExpand_num n false false)).edited _

theorem Alike.insertNode (c : KnvNode) : AlikeEdit (n.insertNode c) (n'.insertNode c) := by
  rw [KnvNode.insertNode, KnvNode.insertNode, h.tag, h.isString]
  split
  · exact .error _
  · split
    · exact .error _
    · exact (h.inserted (fun he hnum => he.hangChild hnum c) c).once

theorem Alike.insertFront (c : KnvNode) : AlikeEdit (n.insertFront c) (n'.insertFront c) := by
  rw [KnvNode.insertFront, KnvNode.insertFront, h.tag, h.isString]
  split
  · exact .error _
  · split
    · exact .error _
    · refine (h.inserted (g := (·.hangChildFront c)) (fun {e e'} he hnum => ?_) c).once
      obtain ⟨ms, b, rfl, hms, hb⟩ := he
      refine ⟨ms, b || c.key.val ≠ [], rfl, hms, fun _ => ?_⟩
      rw [hb hnum]
      rfl

theorem Alike.insertChild (t : UInt32) (val : FieldVal) :
    AlikeEdit (n.insertChild t val) (n'.insertChild t val) := by
  rw [KnvNode.insertChild, KnvNode.insertChild, h.tag, h.isString]
  cases newNode t none val with
  | error e => exact .error e
  | ok c =>
    simp only [bind, Except.bind]
    split
    · exact .error _
    · split
      · exact .error _
      · exact h.inserted (fun he hnum => he.hangChild hnum c) c

theorem Alike.setChild (t : UInt32) (val : FieldVal) :
    AlikeEdit (n.setChild t val) (n'.setChild t val) := by
  rw [KnvNode.setChild, KnvNode.setChild, h.findChildByTag t]
  have hx := h.innerExpand false false
  have hnum := innerExpand_num n false false
  cases n.findChildByTag t with
  | none => exact (h.insertChild t val).mapError _
  | some c =>
    generalize n.innerExpand false false = e at hx hnum
    generalize n'.innerExpand false false = e' at hx
    obtain ⟨ms, b, rfl, hms, hb⟩ := hx
    cases val with
    | string s =>
      simp only
      split
      · exact .error _
      · refine Alike.childEdited ?_ _
        exact ⟨ms, b, rfl, hms, hb⟩
    | varint i64 =>
      simp only
      split
      · exact .error _
      · refine Alike.childEdited ?_ _
        exact ⟨ms, b, rfl, hms, hb⟩
    | fixed64 i64 =>
      simp only
      split
      · exact .error _
      · refine Alike.childEdited ?_ _
        exact ⟨ms, b, rfl, hms, hb⟩
    | fixed32 i32 =>
      simp only
      split
      · exact .error _
      · refine Alike.childEdited ?_ _
        exact ⟨ms, b, rfl, hms, hb⟩

theorem Alike.child_num : n'.child_num = n.child_num := by
  obtain ⟨ms, b, rfl, _⟩ := h
  rfl

theorem Alike.checkKey (s : List UInt8) : Alike (n.checkKey s) (n'.checkKey s) := by
  have hsame : n'.metalist = n.metalist ∧ n'.writesKey = n.writesKey := by
    obtain ⟨ms, b, rfl, _⟩ := h
    exact ⟨rfl, rfl⟩
  have hleaf : (0 < n'.child_num.getD 0 ∨ (n'.child_num = some 0 ∧ n'.metalist = [])) ↔
      (0 < n.child_num.getD 0 ∨ (n.child_num = some 0 ∧ n.metalist = [])) := by
    rw [h.child_num, hsame.1]
  rw [KnvNode.checkKey, KnvNode.checkKey]
  by_cases hl : 0 < n.child_num.getD 0 ∨ (n.child_num = some 0 ∧ n.metalist = [])
  · rw [if_pos hl, if_pos (hleaf.mpr hl)]
    by_cases hw : n.writesKey = true
    · rw [if_pos hw, if_pos (hsame.2.trans hw)]
      exact h.with_key _
    · rw [if_neg hw, if_neg (by rw [hsame.2]; exact hw)]
      exact h
  · rw [if_neg hl, if_neg (hleaf.not.mpr hl)]
    exact h

/-- The lists are dropped, and with them all that the flag could say. -/
theorem Alike.initChildList : Alike (n.initChildList none) (n'.initChildList none) := by
  obtain ⟨ms, b, rfl, hms, _⟩ := h
  exact ⟨ms, b, rfl, hms.imp_right fun hm => ⟨rfl, hm.2⟩, fun hne => absurd rfl hne⟩

theorem Alike.setStrValue (s : List UInt8) :
    AlikeEdit (.ok (n.setStrValue s)) (.ok (n'.setStrValue s)) := by
  have hval : Alike { n with
      val := .string s
      key := if n.writesKey then (keyOfValue s).1 else n.key
      subnode_dirty := true } { n' with
      val := .string s
      key := if n'.writesKey then (keyOfValue s).1 else n'.key
      subnode_dirty := true } := by
    obtain ⟨ms, b, rfl, hms, hb⟩ := h
    exact ⟨ms, b, rfl, hms, hb⟩
  -- what comes behind the value
  have htail : ∀ {x x' : KnvNode}, Alike x x' →
      AlikeEdit
        (.ok (let n := if x.child_num = none then x else x.initChildList none
          if 0 ≤ n.eval_sz then n.updateEvalSz (s.length - n.eval_val_sz) else (n, 0)))
        (.ok (let n := if x'.child_num = none then x' else x'.initChildList none
          if 0 ≤ n.eval_sz then n.updateEvalSz (s.length - n.eval_val_sz) else (n, 0))) := by
    intro x x' hx
    have hsz : ∀ {y y' : KnvNode}, Alike y y' → y'.eval_val_sz = y.eval_val_sz := by
      rintro y y' ⟨ms, b, rfl, _⟩
      rfl
    simp only [hx.child_num]
    split
    · rw [hsz hx]
      exact hx.sized _
    · rw [hsz hx.initChildList]
      exact hx.initChildList.sized _
  rw [KnvNode.setStrValue, KnvNode.setStrValue]
  exact htail hval

theorem Alike.setValue (s : List UInt8) : AlikeEdit (n.setValue s) (n'.setValue s) := by
  rw [KnvNode.setValue, KnvNode.setValue, h.tag, h.isString]
  split
  · exact .error _
  · split
    · exact .error _
    · exact (h.checkKey s).setStrValue s

theorem Alike.fold : (∃ l l', n.fold = .ok l ∧ n'.fold = .ok l' ∧ Alike l l') ∨
    ∃ e, n.fold = .error e ∧ n'.fold = .error e := by
  have hfolded : n'.isFolded = n.isFolded := by
    obtain ⟨ms, b, rfl, _⟩ := h
    rfl
  have hval : ∀ bytes, Alike { n.initChildList none with val := .string bytes, subnode_dirty := false }
      { n'.initChildList none with val := .string bytes, subnode_dirty := false } := by
    intro bytes
    obtain ⟨ms, b, he, hms, hb⟩ := h.initChildList
    rw [he]
    exact ⟨ms, b, rfl, hms, hb⟩
  rw [KnvNode.fold, KnvNode.fold, h.tag, hfolded, h.evaluateSize]
  simp only [h.serialize]
  split
  · exact .inr ⟨_, rfl, rfl⟩
  · split
    · exact .inl ⟨_, _, rfl, rfl, h⟩
    · cases KnvNode.serialize n (allocSize (KnvNode.evaluateSize n).1.toNat) false with
      | error e => exact .inr ⟨_, rfl, rfl⟩
      | ok bytes =>
        simp only
        split
        · exact .inr ⟨_, rfl, rfl⟩
        · exact .inl ⟨_, _, rfl, rfl, hval bytes⟩

end Edits

/-! ## Requests -/

/-- The loops leave data that is alike. -/
structure AlikeFound (st st' : Found) : Prop where
  data : Alike st.data st'.data
  expanded : st.data.child_num ≠ none
  out : st'.out = st.out
  empty : st'.empty = st.empty

inductive AlikeLoop : Except (Int × KnvNode) Found → Except (Int × KnvNode) Found → Prop
  | ok {st st' : Found} : AlikeFound st st' → AlikeLoop (.ok st) (.ok st')
  | error (code : Int) {n n' : KnvNode} : Alike n n' → AlikeLoop (.error (code, n)) (.error (code, n'))

theorem Alike.dupEmptyNode {n n' : KnvNode} (h : Alike n n') : n'.dupEmptyNode = n.dupEmptyNode := by
  obtain ⟨ms, b, rfl, _⟩ := h
  rfl

theorem Alike.matchRefs {n n' : KnvNode} (h : Alike n n') (hnum : n.child_num ≠ none)
    (sub_req : KnvNode) : n'.matchRefs sub_req = n.matchRefs sub_req := by
  obtain ⟨ms, b, rfl, _, hb⟩ := h
  rw [hb hnum]
  rfl

/-- The metas that are asked for. -/
theorem Alike.requestMeta {n n' : KnvNode} (h : Alike n n') {m : KnvNode}
    (hclean : NodeCall.asksMeta m → n'.metalist = [] → n'.metas m.tag.toNat = none)
    (out : Option KnvNode) : requestMeta n' out m = requestMeta n out m := by
  have hdup := h.dupEmptyNode
  obtain ⟨ms, b, rfl, hms, _⟩ := h
  rw [KnvNode.requestMeta, KnvNode.requestMeta]
  split
  · rename_i hasks
    rw [hdup]
    rcases hms with rfl | ⟨hnil, hnone⟩
    · rfl
    · have hold := hclean hasks hnil
      replace hold : ms m.tag.toNat = none := hold
      simp only [hold, hnone]
  · rfl

theorem Alike.requestMetas {n n' : KnvNode} (h : Alike n n') {l : List KnvNode}
    (hclean : ∀ m ∈ l, NodeCall.asksMeta m → n'.metalist = [] → n'.metas m.tag.toNat = none)
    (out : Option KnvNode) :
    l.foldlM (KnvNode.requestMeta n') out = l.foldlM (KnvNode.requestMeta n) out := by
  induction l generalizing out with
  | nil => rfl
  | cons m l ih =>
    rw [List.foldlM_cons, List.foldlM_cons, h.requestMeta (hclean m List.mem_cons_self)]
    cases KnvNode.requestMeta n out m with
    | error e => rfl
    | ok out' => exact ih (fun x hx => hclean x (List.mem_cons_of_mem _ hx)) out'

theorem AlikeFound.visit {st st' : Found} (h : AlikeFound st st') (no_empty : Bool) (req : KnvNode)
    (get : KnvNode → SubTrees) (r : Nat) :
    AlikeLoop (visit no_empty req get st r) (KnvNode.visit no_empty req get st' r) := by
  have hdup := h.data.dupEmptyNode
  have hlist : st'.data.childlist = st.data.childlist := by
    obtain ⟨ms, b, he, _⟩ := h.data
    rw [he]
  have hdata : ∀ l, Alike { st.data with childlist := l } { st'.data with childlist := l } := by
    intro l
    obtain ⟨ms, b, he, hms, hb⟩ := h.data
    rw [he]
    exact ⟨ms, b, rfl, hms, hb⟩
  rw [KnvNode.visit, KnvNode.visit, hlist]
  cases findRef st.data.childlist r with
  | none => exact .ok h
  | some c =>
    simp only
    rcases get c with ⟨c', res⟩
    cases res with
    | error e => exact .error _ (hdata _)
    | ok p =>
      refine .ok ⟨hdata _, h.expanded, ?_, ?_⟩
      · show collected st'.data st'.out p.1 = collected st.data st.out p.1
        rw [h.out]
        cases p.1 with
        | none => rfl
        | some o => simp only [collected, hdup]
      · show (if no_empty = true then st'.empty else collected req st'.empty p.2) = _
        rw [h.empty]

theorem AlikeFound.visits (no_empty : Bool) (req : KnvNode) (get : KnvNode → SubTrees)
    (refs : List Nat) : ∀ {st st' : Found}, AlikeFound st st' →
      AlikeLoop (refs.foldlM (KnvNode.visit no_empty req get) st)
        (refs.foldlM (KnvNode.visit no_empty req get) st') := by
  induction refs with
  | nil => exact fun h => .ok h
  | cons r refs ih =>
    intro st st' h
    rw [List.foldlM_cons, List.foldlM_cons]
    have hv := h.visit no_empty req get r
    generalize KnvNode.visit no_empty req get st r = q at hv
    generalize KnvNode.visit no_empty req get st' r = q' at hv
    cases hv with
    | ok hv => exact ih hv
    | error code hv => exact .error code hv

theorem AlikeFound.missed {st st' : Found} (h : AlikeFound st st') (no_empty : Bool)
    (req sub_req : KnvNode) :
    AlikeLoop (missed no_empty req sub_req st) (KnvNode.missed no_empty req sub_req st') := by
  rw [KnvNode.missed, KnvNode.missed, h.empty]
  split
  · exact .ok h
  · cases sub_req.innerDuplicate true with
    | none => exact .error _ h.data
    | some c => exact .ok ⟨h.data, h.expanded, h.out, rfl⟩

theorem AlikeFound.subRequests (no_empty : Bool) (req : KnvNode) (l : List KnvNode) :
    ∀ {st st' : Found}, AlikeFound st st' →
      AlikeLoop (subRequests no_empty req l st) (KnvNode.subRequests no_empty req l st') := by
  induction l with
  | nil =>
    intro st st' h
    rw [KnvNode.subRequests, KnvNode.subRequests]
    exact .ok h
  | cons sub_req l ih =>
    intro st st' h
    rw [KnvNode.subRequests, KnvNode.subRequests]
    simp only [h.data.matchRefs h.expanded sub_req, h.data.key]
    have hv : AlikeLoop
        (if st.data.matchRefs sub_req = [] then KnvNode.missed no_empty req sub_req st
          else (st.data.matchRefs sub_req).foldlM (KnvNode.visit no_empty req
            (innerGetSubTree no_empty sub_req (st.data.key.val ≠ []))) st)
        (if st.data.matchRefs sub_req = [] then KnvNode.missed no_empty req sub_req st'
          else (st.data.matchRefs sub_req).foldlM (KnvNode.visit no_empty req
            (innerGetSubTree no_empty sub_req (st.data.key.val ≠ []))) st') := by
      split
      · exact h.missed no_empty req sub_req
      · exact AlikeFound.visits no_empty req _ _ h
    generalize (if st.data.matchRefs sub_req = [] then KnvNode.missed no_empty req sub_req st
      else (st.data.matchRefs sub_req).foldlM (KnvNode.visit no_empty req
        (innerGetSubTree no_empty sub_req (st.data.key.val ≠ []))) st) = q at hv ⊢
    generalize (if st.data.matchRefs sub_req = [] then KnvNode.missed no_empty req sub_req st'
      else (st.data.matchRefs sub_req).foldlM (KnvNode.visit no_empty req
        (innerGetSubTree no_empty sub_req (st.data.key.val ≠ []))) st') = q' at hv ⊢
    cases hv with
    | ok hv => exact ih hv
    | error code hv => exact .error code hv

/-- **A request** is answered in the same way. -/
theorem Alike.innerGetSubTree {n n' : KnvNode} (h : Alike n n') (no_empty : Bool) (req : KnvNode)
    (p : Bool) (hclean : ∀ m ∈ req.metalist, NodeCall.asksMeta m →
      (n'.innerExpand p (!req.child_has_key)).metalist = [] →
      (n'.innerExpand p (!req.child_has_key)).metas m.tag.toNat = none) :
    (innerGetSubTree no_empty req p n').2 = (KnvNode.innerGetSubTree no_empty req p n).2 ∧
      Alike (KnvNode.innerGetSubTree no_empty req p n).1
        (KnvNode.innerGetSubTree no_empty req p n').1 := by
  obtain ⟨d, metalist, childlist⟩ := req
  have hcopy : n'.copyWithKey = n.copyWithKey := by
    rw [copyWithKey, copyWithKey, h.innerDuplicate, h.key]
  rw [KnvNode.innerGetSubTree, KnvNode.innerGetSubTree, hcopy]
  have hx := h.innerExpand p (!d.child_has_key)
  have hnum := innerExpand_num n p (!d.child_has_key)
  replace hclean : ∀ m ∈ metalist, NodeCall.asksMeta m →
      (n'.innerExpand p (!d.child_has_key)).metalist = [] →
      (n'.innerExpand p (!d.child_has_key)).metas m.tag.toNat = none := hclean
  generalize n.innerExpand p (!d.child_has_key) = e at hx hnum
  generalize n'.innerExpand p (!d.child_has_key) = e' at hx hclean
  generalize (⟨d, metalist, childlist⟩ : KnvNode) = req
  simp only [hx.child_num, hx.requestMetas hclean]
  split
  · exact ⟨rfl, h⟩
  · split
    · cases n.copyWithKey with
      | none => exact ⟨rfl, h⟩
      | some out => exact ⟨rfl, h⟩
    · split
      · split
        · exact ⟨rfl, hx⟩
        · cases req.copyWithKey with
          | none => exact ⟨rfl, hx⟩
          | some empty => exact ⟨rfl, hx⟩
      · cases metalist.foldlM (KnvNode.requestMeta e) none with
        | error code => exact ⟨rfl, hx⟩
        | ok out =>
          have hstart : AlikeFound ⟨e, out, none⟩ ⟨e', out, none⟩ := ⟨hx, hnum, rfl, rfl⟩
          have hl := hstart.subRequests no_empty req childlist
          simp only
          generalize KnvNode.subRequests no_empty req childlist ⟨e, out, none⟩ = q at hl
          generalize KnvNode.subRequests no_empty req childlist ⟨e', out, none⟩ = q' at hl
          cases hl with
          | error code hl => exact ⟨rfl, hl⟩
          | ok hl => exact ⟨by simp only [hl.out, hl.empty], hl.data⟩

theorem Alike.getSubTree {n n' : KnvNode} (h : Alike n n') (req : KnvNode) (no_empty : Bool)
    (hclean : (NodeCall.getSubTree req no_empty).Clean n') :
    (n'.getSubTree req no_empty).2 = (n.getSubTree req no_empty).2 ∧
      Alike (n.getSubTree req no_empty).1 (n'.getSubTree req no_empty).1 := by
  rw [KnvNode.getSubTree, KnvNode.getSubTree, h.tag, h.key]
  split
  · exact ⟨rfl, h⟩
  · split
    · exact ⟨rfl, h⟩
    · exact h.innerGetSubTree no_empty req false hclean

/-! ## Sequences of calls -/

namespace NodeCall

theorem AlikeEdit.edit {α : Type} {n n' : KnvNode} (h : Alike n n')
    {r r' : Except KnvError (KnvNode × α)} (hr : AlikeEdit r r') :
    (edit n' r').2 = (NodeCall.edit n r).2 ∧ Alike (NodeCall.edit n r).1 (NodeCall.edit n' r').1 := by
  cases hr with
  | ok a hr => exact ⟨rfl, hr⟩
  | error e => exact ⟨rfl, h⟩

theorem Alike.expanded {n n' : KnvNode} (h : Alike n n') :
    Alike (expanded n) (NodeCall.expanded n') := by
  rw [NodeCall.expanded, NodeCall.expanded, h.tag]
  split
  · exact h
  · exact h.innerExpand false false

/-- **A call** returns the same for both and leaves them alike. -/
theorem Alike.exec {n n' : KnvNode} (h : Alike n n') (call : NodeCall) (hclean : call.Clean n') :
    (call.exec n').2 = (call.exec n).2 ∧ Alike (call.exec n).1 (call.exec n').1 := by
  have hx := Alike.expanded h
  cases call with
  | initKey key => exact AlikeEdit.edit h (h.initKey key)
  | getMeta tag =>
    refine ⟨congrArg NodeResult.node (h.getMeta tag), ?_⟩
    rw [NodeCall.exec, NodeCall.exec]
    simp only
    split
    · exact h
    · exact hx
  | findChildByTag tag => exact ⟨congrArg NodeResult.node (h.findChildByTag tag), hx⟩
  | findChild tag key => exact ⟨congrArg NodeResult.node (h.findChild tag key), hx⟩
  | iterate =>
    refine ⟨?_, hx⟩
    obtain ⟨ms, b, he, _⟩ := hx
    rw [NodeCall.exec, NodeCall.exec, he]
  | evaluateSize => exact ⟨congrArg (fun p : Int × Int => NodeResult.size p.1) h.evaluateSize, h⟩
  | serialize => exact ⟨congrArg NodeResult.bytes h.serializeString, h⟩
  | duplicate =>
    refine ⟨congrArg NodeResult.node ?_, h⟩
    rw [KnvNode.duplicate, KnvNode.duplicate, h.tag, h.innerDuplicate]
  | getValue =>
    rw [NodeCall.exec, NodeCall.exec]
    rcases h.fold with ⟨l, l', hl, hl', ha⟩ | ⟨e, he, he'⟩
    · rw [hl, hl']
      refine ⟨?_, ha⟩
      obtain ⟨ms, b, rfl, _⟩ := ha
      rfl
    · rw [he, he']
      exact ⟨rfl, h⟩
  | getSubTree req no_empty =>
    obtain ⟨hres, hdata⟩ := h.getSubTree req no_empty hclean
    exact ⟨congrArg NodeResult.trees hres, hdata⟩
  | setMeta tag val => exact AlikeEdit.edit h (h.setMetaOrKey tag val)
  | addMeta tag val => exact AlikeEdit.edit h (h.addMeta tag val)
  | removeMetaByTag tag => exact AlikeEdit.edit h (h.removeMetaByTag tag)
  | setChild tag val => exact AlikeEdit.edit h (h.setChild tag val)
  | removeChildrenByTag tag => exact AlikeEdit.edit h (h.removeChildrenByTag tag)
  | insertChild c at_tail =>
    cases at_tail with
    | true => exact AlikeEdit.edit h (h.insertNode c)
    | false => exact AlikeEdit.edit h (h.insertFront c)
  | setValue s => exact AlikeEdit.edit h (h.setValue s)

theorem Alike.results {calls : List NodeCall} : ∀ {n n' : KnvNode}, Alike n n' → AllClean calls n' →
    results calls n' = NodeCall.results calls n := by
  induction calls with
  | nil => exact fun _ _ => rfl
  | cons call calls ih =>
    intro n n' h hclean
    obtain ⟨hres, hnext⟩ := Alike.exec h call hclean.1
    rw [NodeCall.results, NodeCall.results, hres, ih hnext hclean.2]

/-- The node after a sequence of calls. -/
def after : List NodeCall → KnvNode → KnvNode
  | [], n => n
  | call :: calls, n => after calls (call.exec n).1

/-- The children of a tree: two leaves with the same tag. -/
def twins : List NodeCall :=
  [insertChild (initNode 12 (.varint 1) true 0 false) true,
    insertChild (initNode 12 (.varint 2) true 0 false) true, findChildByTag 12]

end NodeCall

end MysqlProxy
