/-
  The index of a tree under construction.

  After every run of the builder's calls, each node that is no leaf has its children in its index, and
  nothing else (`run_everyChild`).  A call edits one node; the nodes above see one child replaced by one
  with the same pointer, tag and key.
-/
import MysqlProxy.Knv.TreeRun
import MysqlProxy.Knv.Index
import MysqlProxy.Knv.FastPath

namespace MysqlProxy

namespace KnvNode

/-- The node and everything that is reached from it through children. -/
inductive EveryChild (P : KnvNode → Prop) : KnvNode → Prop
  | intro {n : KnvNode} : P n → (∀ c ∈ n.childlist, EveryChild P c) → EveryChild P n

variable {P : KnvNode → Prop}

theorem EveryChild.self {n : KnvNode} (h : EveryChild P n) : P n := by
  cases h with
  | intro hn _ => exact hn

theorem EveryChild.child {n c : KnvNode} (h : EveryChild P n) (hc : c ∈ n.childlist) :
    EveryChild P c := by
  cases h with
  | intro _ hcs => exact hcs c hc

/-- The children are in the index, if there can be any. -/
def IndexOk (n : KnvNode) : Prop := Indexed n ∨ (n.child_num = none ∧ n.childlist = [])

theorem IndexOk.indexed {n : KnvNode} (h : IndexOk n) (hnum : n.child_num ≠ none) : Indexed n := by
  rcases h with h | h
  · exact h
  · exact absurd h.1 hnum

theorem keeps_everyChild {n n' : KnvNode} (hk : KeepsList n n') (h : EveryChild IndexOk n) :
    EveryChild IndexOk n' := by
  refine .intro ?_ fun c hc => h.child (by rw [← hk.childlist]; exact hc)
  rcases h.self with hi | ⟨hnum, hnil⟩
  · exact .inl (hk.sameIndex.indexed hi)
  · exact .inr ⟨by rw [hk.child_num, hnum], by rw [hk.childlist, hnil]⟩

/-! ## New nodes -/

theorem initNode_everyChild (tag : UInt32) (val : FieldVal) (sz : Nat) (no_key : Bool) :
    EveryChild IndexOk (initNode tag val true sz no_key) := by
  refine .intro ?_ fun c hc => absurd hc List.not_mem_nil
  rcases initNode_child_num tag val sz no_key with hnum | hnum
  · exact .inr ⟨hnum, rfl⟩
  · exact .inl
      { child_num := hnum
        child_has_key := fun c hc => absurd hc List.not_mem_nil
        refs := fun c hc => absurd hc List.not_mem_nil
        nodup := List.nodup_nil
        ht := KnvHt.holds_clear _ }

theorem newNode_everyChild {tag : UInt32} {key : Option FieldVal} {c : KnvNode}
    (h : newNode tag key (FieldVal.zero .string) = .ok c) : EveryChild IndexOk c := by
  have hinit := initNode_everyChild tag (FieldVal.zero .string) 0 false
  rw [newNode] at h
  by_cases htag : tag = 0
  · rw [if_pos htag] at h
    cases h
  · rw [if_neg htag] at h
    cases key with
    | none =>
      cases h
      exact hinit
    | some k =>
      have hkeyed : EveryChild IndexOk
          { initNode tag (FieldVal.zero .string) true 0 false with key := KnvKey.init k } :=
        keeps_everyChild (n := initNode tag (FieldVal.zero .string) true 0 false)
          ⟨rfl, rfl, rfl, Nat.le_refl _, rfl, rfl⟩ hinit
      replace h : (if (KnvKey.init k).val = [] then _ else _) = Except.ok c := h
      split at h
      · cases h
        exact hkeyed
      · have hset := editKeeps_setMeta (P := EveryChild IndexOk) (fun hk => keeps_everyChild hk)
          (n := { initNode tag (FieldVal.zero .string) true 0 false with key := KnvKey.init k })
          hkeyed 1 (KnvKey.init k).getValue
        cases hs : setMeta
            { initNode tag (FieldVal.zero .string) true 0 false with key := KnvKey.init k } 1
            (KnvKey.init k).getValue with
        | error e =>
          rw [hs] at h
          cases h
        | ok p =>
          rw [hs] at h
          cases h
          exact hset p hs

/-! ## Calls -/

theorem insertNode_everyChild {n c : KnvNode} (h : EveryChild IndexOk n) (hnum : n.child_num ≠ none)
    (hc : EveryChild IndexOk c) : EditKeeps (EveryChild IndexOk) (n.insertNode c) := by
  have hi := h.self.indexed hnum
  have hhang : EveryChild IndexOk (n.hangChild c) := by
    refine .intro (.inl (hi.hangChild c)) fun x hx => ?_
    rcases List.mem_append.mp hx with hx | hx
    · exact h.child hx
    · rw [List.mem_singleton.mp hx]
      refine .intro ?_ fun y hy => hc.child hy
      rcases hc.self with hci | hci
      · exact .inl ⟨hci.child_num, hci.child_has_key, hci.refs, hci.nodup, hci.ht⟩
      · exact .inr hci
  rw [insertNode, innerExpand_expanded hnum]
  split
  · exact editKeeps_error _
  · split
    · exact editKeeps_error _
    · rintro p ⟨⟩
      exact keeps_everyChild (keepsList_edited _ _) hhang

theorem removeChildren_everyChild {n : KnvNode} (h : EveryChild IndexOk n)
    (hnum : n.child_num ≠ none) (tag : UInt32) :
    EditKeeps (EveryChild IndexOk) (n.removeChildrenByTag tag) := by
  rw [removeChildrenByTag, innerExpand_expanded hnum]
  split
  · exact editKeeps_error _
  · simp only
    split
    · exact editKeeps_ok h _
    · split
      · exact editKeeps_ok h _
      · rintro p ⟨⟩
        refine keeps_everyChild (keepsList_edited _ _) (.intro ?_ fun c hc => ?_)
        · exact .inl ((removes_byTag n tag).indexed (h.self.indexed hnum))
        · exact h.child (List.mem_of_mem_filter hc)

theorem removeChildrenByTag_ref {n : KnvNode} (hnum : n.child_num ≠ none) (tag : UInt32) :
    EditKeeps (fun m => m.ref = n.ref) (n.removeChildrenByTag tag) := by
  rw [removeChildrenByTag, innerExpand_expanded hnum]
  split
  · exact editKeeps_error _
  · simp only
    split
    · exact editKeeps_ok (P := fun m => m.ref = n.ref) rfl _
    · split
      · exact editKeeps_ok (P := fun m => m.ref = n.ref) rfl _
      · rintro p ⟨⟩
        exact (keepsList_edited _ _).ref

end KnvNode

open KnvNode

namespace BuildOp

/-- **A call on a node** that is no leaf. -/
theorem exec_everyChild {n : KnvNode} (h : EveryChild IndexOk n) (hnum : n.child_num ≠ none)
    (op : BuildOp) : EditKeeps (EveryChild IndexOk) (op.exec n) := by
  have hkeep : ∀ {m m' : KnvNode}, KeepsList m m' → EveryChild IndexOk m → EveryChild IndexOk m' :=
    fun hk hm => keeps_everyChild hk hm
  have hx : EveryChild IndexOk (n.innerExpand false false) := by
    rw [innerExpand_expanded hnum]
    exact h
  have hkeyed : ∀ key : KnvKey,
      EveryChild IndexOk ({ n with key := key }.innerExpand false false) := by
    intro key
    rw [innerExpand_expanded (n := { n with key := key }) hnum]
    exact keeps_everyChild (n := n) ⟨rfl, rfl, rfl, Nat.le_refl _, rfl, rfl⟩ h
  have hinsert : ∀ {make : Except KnvError KnvNode}, (∀ c, make = .ok c → EveryChild IndexOk c) →
      EditKeeps (EveryChild IndexOk) (make >>= n.insertNode) := by
    intro make hmake
    cases make with
    | error e => exact editKeeps_error _
    | ok c => exact insertNode_everyChild h hnum (hmake c rfl)
  have hleaf : ∀ {tag : UInt32} {val : FieldVal} {c : KnvNode}, newNode tag none val = .ok c →
      EveryChild IndexOk c := by
    intro tag val c hc
    rw [newNode] at hc
    by_cases htag : tag = 0
    · rw [if_pos htag] at hc
      cases hc
    · rw [if_neg htag] at hc
      cases hc
      exact initNode_everyChild tag val 0 false
  cases op with
  | insertSubNode tag key => exact hinsert fun c hc => newNode_everyChild hc
  | insertIntLeaf tag val => exact hinsert fun c hc => hleaf hc
  | insertStrLeaf tag val => exact hinsert fun c hc => hleaf hc
  | setMetaInt tag val => exact (editKeeps_setMetaOrKey hkeep hkeyed tag _).once
  | setMetaStr tag val => exact (editKeeps_setMetaOrKey hkeep hkeyed tag _).once
  | addMetaInt tag val => exact editKeeps_addMeta hkeep hkeyed tag _
  | addMetaStr tag val => exact editKeeps_addMeta hkeep hkeyed tag _
  | removeField tag =>
    show EditKeeps _ (n.removeField tag)
    unfold KnvNode.removeField
    split
    · exact editKeeps_removeMetaByTag hkeep hx tag
    · exact removeChildren_everyChild h hnum tag

/-- The pointer to the node stays. -/
theorem exec_ref {n : KnvNode} (hnum : n.child_num ≠ none) (op : BuildOp) :
    EditKeeps (fun m => m.ref = n.ref) (op.exec n) := by
  have hkeep : ∀ {m m' : KnvNode}, KeepsList m m' → m.ref = n.ref → m'.ref = n.ref :=
    fun hk hm => hk.ref.trans hm
  have hx : (n.innerExpand false false).ref = n.ref := by rw [innerExpand_expanded hnum]
  have hkeyed : ∀ key : KnvKey, ({ n with key := key }.innerExpand false false).ref = n.ref := by
    intro key
    rw [innerExpand_expanded (n := { n with key := key }) hnum]
  have hinsert : ∀ {make : Except KnvError KnvNode},
      EditKeeps (fun m => m.ref = n.ref) (make >>= n.insertNode) := by
    intro make
    cases make with
    | error e => exact editKeeps_error _
    | ok c =>
      show EditKeeps _ (n.insertNode c)
      rw [insertNode, innerExpand_expanded hnum]
      split
      · exact editKeeps_error _
      · split
        · exact editKeeps_error _
        · rintro p ⟨⟩
          exact (keepsList_edited (n.hangChild c) _).ref
  cases op with
  | insertSubNode tag key => exact hinsert
  | insertIntLeaf tag val => exact hinsert
  | insertStrLeaf tag val => exact hinsert
  | setMetaInt tag val => exact (editKeeps_setMetaOrKey hkeep hkeyed tag _).once
  | setMetaStr tag val => exact (editKeeps_setMetaOrKey hkeep hkeyed tag _).once
  | addMetaInt tag val => exact editKeeps_addMeta hkeep hkeyed tag _
  | addMetaStr tag val => exact editKeeps_addMeta hkeep hkeyed tag _
  | removeField tag =>
    show EditKeeps _ (n.removeField tag)
    unfold KnvNode.removeField
    split
    · exact editKeeps_removeMetaByTag hkeep hx tag
    · exact removeChildrenByTag_ref hnum tag

/-- The tree that is meant keeps its tag and its key. -/
theorem meant_node {op : BuildOp} {t t' : Tree} (h : op.meant t = some t') :
    ∃ tag key ms ts ms' ts', t = .node tag key ms ts ∧ t' = .node tag key ms' ts' := by
  cases t with
  | leaf f => cases op <;> cases h
  | node tag key ms ts =>
    refine ⟨tag, key, ms, ts, ?_⟩
    cases op with
    | insertSubNode | insertIntLeaf | insertStrLeaf | addMetaInt | addMetaStr =>
      cases h
      exact ⟨_, _, rfl, rfl⟩
    | setMetaInt t val | setMetaStr t val =>
      rw [meant, Tree.setMeta] at h
      split at h
      · exact ⟨_, _, rfl, (Option.some.inj h).symm⟩
      · cases h
    | removeField t =>
      rw [meant, Tree.removeField] at h
      replace h := Option.some.inj h
      split at h
      · exact ⟨_, _, rfl, h.symm⟩
      · exact ⟨_, _, rfl, h.symm⟩

end BuildOp

namespace KnvNode

theorem map_ident_set {l : List KnvNode} {i : Nat} {c c' : KnvNode} (hc : l[i]? = some c)
    (hident : ident c' = ident c) : (l.set i c').map ident = l.map ident := by
  have hi : (l.map ident)[i]? = some (ident c) := by
    rw [List.getElem?_map, hc, Option.map_some]
  obtain ⟨hlt, hget⟩ := List.getElem?_eq_some_iff.mp hi
  rw [List.map_set, hident, ← hget, List.set_getElem_self]

/-- A round for a parent changes its sizes, its value and its mark. -/
theorem parentRound_eq (n : KnvNode) (offset : Int) (updatedirty : Bool) :
    ∃ sz val_sz val dirty, (n.parentRound offset updatedirty).1 =
      { n with eval_sz := sz, eval_val_sz := val_sz, val := val, subnode_dirty := dirty } := by
  have hsize : ∃ sz val_sz, (if 0 ≤ n.eval_sz then n.updateEvalSz offset else (n, 0)).1 =
      { n with eval_sz := sz, eval_val_sz := val_sz } := by
    obtain ⟨d, ms, cs⟩ := n
    unfold updateEvalSz
    split
    · split
      · exact ⟨d.eval_sz, d.eval_val_sz, rfl⟩
      · exact ⟨_, _, rfl⟩
    · exact ⟨d.eval_sz, d.eval_val_sz, rfl⟩
  obtain ⟨sz, val_sz, he⟩ := hsize
  rw [parentRound]
  generalize (if 0 ≤ n.eval_sz then n.updateEvalSz offset else (n, 0)) = q at he
  obtain ⟨m, o⟩ := q
  replace he : m = _ := he
  rw [he]
  simp only
  split
  · split
    · exact ⟨sz, val_sz, n.val, n.subnode_dirty, rfl⟩
    · exact ⟨sz, val_sz, .string [], true, rfl⟩
  · exact ⟨sz, val_sz, n.val, n.subnode_dirty, rfl⟩

theorem parentRounds_eq (l : List (Int × Bool)) : ∀ n : KnvNode, ∃ sz val_sz val dirty,
    (n.parentRounds l).1 =
      { n with eval_sz := sz, eval_val_sz := val_sz, val := val, subnode_dirty := dirty } := by
  induction l with
  | nil =>
    intro n
    obtain ⟨d, ms, cs⟩ := n
    exact ⟨d.eval_sz, d.eval_val_sz, d.val, d.subnode_dirty, rfl⟩
  | cons x l ih =>
    intro n
    obtain ⟨sz, val_sz, val, dirty, he⟩ := parentRound_eq n x.1 x.2
    obtain ⟨sz', val_sz', val', dirty', he'⟩ := ih (n.parentRound x.1 x.2).1
    refine ⟨sz', val_sz', val', dirty', ?_⟩
    show ((n.parentRound x.1 x.2).1.parentRounds l).1 = _
    rw [he', he]

/-- **A call inside the tree.** -/
theorem editAt_everyChild {op : BuildOp} (hal : op.Allowed) (path : List Nat) :
    ∀ {n n' : KnvNode} {t t' : Tree} {out : List (Int × Bool)}, Means n t →
      Tree.editAt op.meant path t = some t' → editAt op.exec path n = .ok (n', out) →
      EveryChild IndexOk n → EveryChild IndexOk n' ∧ ident n' = ident n := by
  induction path with
  | nil =>
    intro n n' t t' out hm ht he h
    rw [Tree.editAt] at ht
    obtain ⟨tag, key, ms, ts, ms', ts', rfl, rfl⟩ := BuildOp.meant_node ht
    rw [editAt] at he
    cases hex : op.exec n with
    | error e =>
      rw [hex] at he
      cases he
    | ok r =>
      rw [hex] at he
      cases he
      obtain ⟨hb, -⟩ := means_node.mp hm
      have hnum : n.child_num ≠ none := by rw [hb.child_num]; exact Option.some_ne_none _
      obtain ⟨m, offs, hm', hmeans, -⟩ := BuildOp.refines_exec hal n _ _ hm ht
      rw [hex] at hm'
      cases hm'
      obtain ⟨hb', -⟩ := means_node.mp hmeans
      refine ⟨BuildOp.exec_everyChild h hnum op _ hex, ?_⟩
      have href : m.ref = n.ref := BuildOp.exec_ref hnum op _ hex
      show (m.ref, m.tag, m.key.val) = (n.ref, n.tag, n.key.val)
      rw [href, hb'.tag, hb.tag, hb'.key, hb.key]
  | cons i path ih =>
    intro n n' t t' out hm ht he h
    cases t with
    | leaf f => cases ht
    | node tag key ms ts =>
      rw [Tree.editAt] at ht
      obtain ⟨tc, htc, ht⟩ := Option.bind_eq_some_iff.mp ht
      obtain ⟨tc', htc', rfl⟩ := Option.map_eq_some_iff.mp ht
      rw [editAt] at he
      cases hc : n.childlist[i]? with
      | none =>
        rw [hc] at he
        cases he
      | some c =>
        rw [hc] at he
        simp only at he
        cases hex : editAt op.exec path c with
        | error e =>
          rw [hex] at he
          cases he
        | ok r =>
          obtain ⟨c', l⟩ := r
          rw [hex] at he
          replace he : parentRounds { n with childlist := n.childlist.set i c' } l = (n', out) :=
            Except.ok.inj he
          obtain ⟨hb, hch⟩ := means_node.mp hm
          have hmem := List.mem_of_getElem? hc
          have hmc : Means c tc := by
            obtain ⟨hlt, hget⟩ := List.getElem?_eq_some_iff.mp hc
            obtain ⟨hlt', hget'⟩ := List.getElem?_eq_some_iff.mp htc
            have hpair := hch.get hlt hlt'
            rw [List.get_eq_getElem, List.get_eq_getElem] at hpair
            rw [← hget, ← hget']
            exact hpair
          obtain ⟨hce, hident⟩ := ih hmc htc' hex (h.child hmem)
          have hsame : SameIndex n { n with childlist := n.childlist.set i c' } := by
            refine ⟨rfl, rfl, Nat.le_refl _, ?_, rfl⟩
            show (n.childlist.set i c').map ident = n.childlist.map ident
            exact map_ident_set hc hident
          have hset : EveryChild IndexOk { n with childlist := n.childlist.set i c' } := by
            refine .intro (.inl ?_) fun x hx => ?_
            · exact hsame.indexed (h.self.indexed (by rw [hb.child_num]; exact Option.some_ne_none _))
            · rcases List.mem_or_eq_of_mem_set hx with hx | hx
              · exact h.child hx
              · rw [hx]
                exact hce
          obtain ⟨sz, val_sz, val, dirty, hrounds⟩ :=
            parentRounds_eq l { n with childlist := n.childlist.set i c' }
          rw [he] at hrounds
          replace hrounds : n' = _ := hrounds
          rw [hrounds]
          exact ⟨keeps_everyChild (n := { n with childlist := n.childlist.set i c' })
            ⟨rfl, rfl, rfl, Nat.le_refl _, rfl, rfl⟩ hset, rfl⟩

end KnvNode

/-- **Every tree that is built is indexed.** -/
theorem BuildState.run_everyChild {tag : UInt32} {key : Option FieldVal} {s s' : BuildState}
    (h : Start tag key s) (hrun : Relation.ReflTransGen Step s s') : EveryChild IndexOk s'.root := by
  have hstart : EveryChild IndexOk s.root := by
    have hroot := h.root
    rw [newTree] at hroot
    exact newNode_everyChild hroot
  have hinv : s'.Sound ∧ EveryChild IndexOk s'.root := by
    refine run_invariant (I := fun s => s.Sound ∧ EveryChild IndexOk s.root) hrun
      ⟨h.sound, hstart⟩ ?_
    rintro s s' ⟨hsound, hs⟩ ⟨path, op, hcall⟩
    have hsound' := hcall.sound hsound
    obtain ⟨hal, htree, _, out, hroot⟩ := hcall
    exact ⟨hsound', (editAt_everyChild hal path hsound.means htree hroot hs).1⟩
  exact hinv.2

end MysqlProxy
