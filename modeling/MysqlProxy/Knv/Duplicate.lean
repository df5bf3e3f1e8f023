/-
  `Duplicate` after edits.

  A node keeps its bytes and its lists, and `InnerDuplicate` copies the bytes whenever there are any.
  That is wrong for a OUTDATED node: its lists are newer, and its old bytes are still there.

  1. **Only an outdated node can be copied wrong** (`duplicateRight_of_fresh`).  Any other one is written
     from its bytes itself, or has none, and is folded for the copy.
  2. **A node becomes outdated by `SetTag`**, which marks it and leaves its bytes alone.  They are then
     still right if they are what its lists are written as (`Canon`).
  3. **They are wrong after an edit below it**: an edit empties the bytes of the nodes above, but only
     up to the first one that is marked already.

  `Calm` is a call that is no such edit, and `duplicate_copies` is the whole run: expansions anywhere and
  calm edits anywhere.
-/
import MysqlProxy.Knv.Looking
import MysqlProxy.Knv.Encoded
import MysqlProxy.Knv.NodeEdit

namespace MysqlProxy

namespace KnvNode

/-- What `Duplicate` is to do: a copy is written as the node is. -/
def DuplicateRight (n : KnvNode) : Prop :=
  ∀ m, n.duplicate = some m → ∀ bytes, m.serializeString = .ok bytes ↔ n.serializeString = .ok bytes

/-- The lists are newer than the bytes, which are still there. -/
def Outdated (n : KnvNode) : Prop := n.isFolded = false ∧ n.str ≠ []

/-- The lists are written as the bytes. -/
structure Matches (n : KnvNode) : Prop where
  body : encodedBody n = some n.str
  val_sz : n.eval_val_sz = n.str.length
  sz : n.eval_sz = pbEvalStringLength n.tag n.str.length

/-! ## Copies -/

/-- A new node is written from its value. -/
theorem initNode_isFolded (tag : UInt32) (val : FieldVal) (sz : Nat) (no_key : Bool) :
    (initNode tag val true sz no_key).isFolded = true :=
  isFolded_of_isFlat (isFlat_of_nothing (initNode_child_num tag val sz no_key) rfl)

theorem initNode_size (tag : UInt32) (val : FieldVal) {sz : Int} (h : 0 < sz) (no_key : Bool) :
    (evaluateSize (initNode tag val true sz.toNat no_key)).1 = sz := by
  have hsz : (initNode tag val true sz.toNat no_key).eval_sz = sz := by
    show (if true = true then (if 0 < sz.toNat then (sz.toNat : Int) else _) else 0) = sz
    rw [if_pos rfl, if_pos (by omega)]
    omega
  rw [evaluateSize_cached (by omega), hsz]

theorem copy_eq_ok {tag : UInt32} {val : FieldVal} {sz : Int} {no_key : Bool} (htag : tag ≠ 0)
    (h : 0 < sz) (bytes : List UInt8) :
    (initNode tag val true sz.toNat no_key).serializeString = .ok bytes ↔
      fieldBytes tag val = bytes ∧ (bytes.length : Int) = sz := by
  rw [serializeString_eq_ok, initNode_size tag val h,
    encoded_of_folded (show (initNode tag val true sz.toNat no_key).tag ≠ 0 from htag)
      (initNode_isFolded tag val sz.toNat no_key), Option.some.injEq]
  rfl

theorem serializeString_of_folded {n : KnvNode} (htag : n.tag ≠ 0) (hfold : n.isFolded = true)
    (bytes : List UInt8) : n.serializeString = .ok bytes ↔
      fieldBytes n.tag n.val = bytes ∧ (bytes.length : Int) = (evaluateSize n).1 := by
  rw [serializeString_eq_ok, encoded_of_folded htag hfold, Option.some.injEq]

theorem serializeString_of_lists {n : KnvNode} (htag : n.tag ≠ 0) (hfold : n.isFolded = false)
    {w : List UInt8} (hw : encodedBody n = some w) (hsz : (evaluateSize n).2 = w.length)
    (bytes : List UInt8) : n.serializeString = .ok bytes ↔
      fieldBytes n.tag (.string w) = bytes ∧ (bytes.length : Int) = (evaluateSize n).1 := by
  rw [serializeString_eq_ok, encoded_of_lists htag hfold, PbEval.fieldBytes_string]
  have hnat : (evaluateSize n).2.toNat = w.length := by rw [hsz, Int.toNat_natCast]
  rw [hnat]
  constructor
  · rintro ⟨⟨v, hv, rfl, hlen⟩, -⟩
    rw [hw] at hv
    cases hv
    exact ⟨rfl, hlen⟩
  · rintro ⟨rfl, hlen⟩
    exact ⟨⟨w, hw, rfl, hlen⟩, hlen⟩

theorem str_of_isString {n : KnvNode} (h : n.isString = true) : n.val = .string n.str := by
  have htype : n.val.type = .string := of_decide_eq_true h
  unfold str
  cases hv : n.val with
  | string s => rfl
  | _ =>
    rw [hv] at htype
    cases htype

/-- **A node that is not outdated, or whose lists are written as its bytes, is copied right.** -/
theorem duplicateRight_of_fresh {n : KnvNode} (hsz : 0 < n.eval_sz) (h : Outdated n → Matches n) :
    DuplicateRight n := by
  have heval : evaluateSize n = (n.eval_sz, n.eval_val_sz) := evaluateSize_cached (by omega)
  intro m hm bytes
  by_cases htag : n.tag = 0
  · rw [duplicate, if_pos htag] at hm
    cases hm
  rw [duplicate, if_neg htag, innerDuplicate] at hm
  by_cases hopen : n.isString ∧ n.str = [] ∧ n.child_num ≠ none
  · -- folded for the copy
    simp only [if_pos hopen, heval] at hm
    cases hs : serialize n (allocSize n.eval_sz.toNat) false with
    | error e =>
      rw [hs] at hm
      cases hm
    | ok w =>
      rw [hs] at hm
      simp only at hm
      split at hm
      · cases hm
      · rename_i hlen
        cases hm
        rw [copy_eq_ok htag hsz]
        cases hfold : n.isFolded with
        | false =>
          obtain ⟨hw, -, hvsz⟩ := (serialize_value_eq_ok htag hfold).mp hs
          rw [serializeString_of_lists htag hfold hw hvsz.symm, heval]
        | true =>
          have hval : n.val = .string [] := by rw [str_of_isString hopen.1, hopen.2.1]
          have hw : w = [] := by
            have hmt := htag
            obtain ⟨d, ms, cs⟩ := n
            replace hmt : d.tag ≠ 0 := hmt
            replace hval : d.val = .string [] := hval
            rw [serialize] at hs
            simp only [if_neg hmt, hfold, if_true, Bool.false_eq_true, if_false, hval] at hs
            split at hs
            · cases hs
              rfl
            · cases hs
          rw [serializeString_of_folded htag hfold, hval, hw, heval]
  · rw [if_neg hopen] at hm
    cases hm
    rw [copy_eq_ok htag hsz]
    cases hfold : n.isFolded with
    | true => rw [serializeString_of_folded htag hfold, heval]
    | false =>
      have hflat : n.isFlat = false := by
        rw [isFolded, Bool.or_eq_false_iff] at hfold
        exact hfold.1
      have hlist : n.isString = true ∧ n.child_num ≠ none := by
        rw [isFlat, Bool.or_eq_false_iff, Bool.or_eq_false_iff, Bool.not_eq_false'] at hflat
        exact ⟨hflat.1.1, of_decide_eq_false hflat.1.2⟩
      have hmatch := h ⟨hfold, fun he => hopen ⟨hlist.1, he, hlist.2⟩⟩
      rw [serializeString_of_lists htag hfold hmatch.body (by rw [heval, hmatch.val_sz]), heval,
        str_of_isString hlist.1]

/-! ## The invariant -/

/-- A node that nobody has edited. -/
structure Clean (n : KnvNode) : Prop where
  folded : n.isFolded = true
  lists : ∀ m ∈ n.metalist ++ n.childlist, m.subnode_dirty = false
  val_sz : n.eval_val_sz = n.str.length

/-- What holds of every node of the tree. -/
structure Kept (n : KnvNode) : Prop where
  size : 0 < n.eval_sz
  closed : n.child_num = none → n.metalist = [] ∧ n.childlist = [] ∧ n.eval_val_sz = n.str.length
  clean : n.subnode_dirty = false → Clean n
  outdated : Outdated n → Matches n

theorem not_outdated_of_folded {n : KnvNode} (h : n.isFolded = true) : ¬ Outdated n := by
  rintro ⟨hf, -⟩
  rw [h] at hf
  cases hf

/-- A node without lists. -/
theorem kept_of_flat {n : KnvNode} (hsz : 0 < n.eval_sz) (hfold : n.isFolded = true)
    (hm : n.metalist = []) (hc : n.childlist = []) (hval : n.eval_val_sz = n.str.length) :
    Everywhere Kept n := by
  refine everywhere_of_flat ⟨hsz, fun _ => ⟨hm, hc, hval⟩, fun _ => ⟨hfold, ?_, hval⟩,
    fun h => absurd h (not_outdated_of_folded hfold)⟩ hm hc
  rw [hm, hc]
  exact fun m hm => absurd hm List.not_mem_nil

theorem initNode_kept (tag : UInt32) (val : FieldVal) (sz : Nat) (no_key : Bool) (r : Nat) :
    Everywhere Kept { initNode tag val true sz no_key with ref := r } := by
  refine kept_of_flat ?_ (initNode_isFolded tag val sz no_key) rfl rfl rfl
  show (0 : Int) < if true = true then (if 0 < sz then (sz : Int) else pbEvalFieldLength tag val) else 0
  have hpos : 0 < pbEvalFieldLength tag val := PbField.size_pos ⟨tag, val⟩
  rw [if_pos rfl]
  split
  · omega
  · omega

theorem OfField.kept {k : Bool} {m : KnvNode} {q : PbField × Nat} (h : OfField k m q) :
    Everywhere Kept m := by
  obtain ⟨r, rfl⟩ := h
  exact initNode_kept q.1.tag q.1.val q.2 k r

/-! ## Reads -/

theorem SameWriting.encoded {n n' : KnvNode} (h : SameWriting n n') : encoded n' = encoded n := by
  refine Option.ext fun w => ?_
  have hiff : serialize n' w.length true = .ok w ↔ _ := serialize_eq_ok n'
  rw [h.2, serialize_eq_ok n] at hiff
  constructor
  · intro hw
    exact (hiff.mpr ⟨hw, Nat.le_refl _⟩).1
  · intro hw
    exact (hiff.mp ⟨hw, Nat.le_refl _⟩).1

theorem encodedList_alike {l l' : List KnvNode}
    (h : List.Forall₂ (fun m m' => encoded m' = encoded m) l l') (skip : Bool) :
    encodedList l' skip = encodedList l skip := by
  induction h generalizing skip with
  | nil => rfl
  | cons h _ ih => rw [encodedList, encodedList, h, ih]

/-- A read does not mark a node. -/
theorem Expands.clean {n n' : KnvNode} (h : Expands n n') (hd : n.subnode_dirty = false) :
    n'.subnode_dirty = false := by
  cases h with
  | here p k =>
    by_cases hnum : n.child_num = none
    · have hfold : ∀ (fs : List (PbField × Nat)) (m : KnvNode), m.subnode_dirty = false →
          (fs.foldl (expandField k) m).subnode_dirty = false := by
        intro fs
        induction fs with
        | nil => exact fun m h => h
        | cons f fs ih =>
          intro m hm
          refine ih _ ?_
          rw [expandField]
          split
          · exact hm
          · exact hm
      rw [innerExpand_none hnum, expandTail]
      split
      · exact hd
      · split
        · exact hd
        · split
          · exact hd
          · simp only
            split
            · rfl
            · rfl
    · rw [innerExpand_expanded hnum]
      exact hd
  | inMeta hl h => exact hd
  | inChild hl h => exact hd

/-- A node with nodes in its lists that were expanded further. -/
theorem Kept.relisted {n : KnvNode} {ms cs : List KnvNode} (h : Kept n)
    (hms : List.Forall₂ (fun m m' => m'.head = m.head ∧ encoded m' = encoded m ∧
      (m.subnode_dirty = false → m'.subnode_dirty = false)) n.metalist ms)
    (hcs : List.Forall₂ (fun m m' => m'.head = m.head ∧ encoded m' = encoded m ∧
      (m.subnode_dirty = false → m'.subnode_dirty = false)) n.childlist cs) :
    Kept { n with metalist := ms, childlist := cs } := by
  have hfold : isFolded { n with metalist := ms, childlist := cs } = n.isFolded := by
    have hempty : ms.isEmpty = n.metalist.isEmpty := by
      revert hms
      generalize n.metalist = l
      rintro (_ | _)
      · rfl
      · rfl
    rw [isFolded, isFolded, isFlat, isFlat]
    show (_ || _ || (_ && ms.isEmpty) || _) = (_ || _ || (_ && n.metalist.isEmpty) || _)
    rw [hempty]
    rfl
  have hbody : encodedBody { n with metalist := ms, childlist := cs } = encodedBody n := by
    have hfirst : firstIsKey ms = firstIsKey n.metalist := by
      revert hms
      generalize n.metalist = l
      rintro (_ | ⟨⟨hh, -, -⟩, -⟩)
      · rfl
      · simp only [head, Prod.mk.injEq] at hh
        rw [firstIsKey, firstIsKey, hh.2.1]
    have hskip : skipsFirst { n with metalist := ms, childlist := cs } = n.skipsFirst := by
      rw [skipsFirst, skipsFirst]
      show (_ && firstIsKey ms) = (_ && firstIsKey n.metalist)
      rw [hfirst]
      rfl
    rw [encodedBody, encodedBody, hskip]
    show (encodedList ms _).bind (fun ms' => (encodedList cs false).bind fun cs' => _) =
      (encodedList n.metalist _).bind (fun ms' => (encodedList n.childlist false).bind fun cs' => _)
    rw [encodedList_alike (hms.imp fun _ _ hm => hm.2.1),
      encodedList_alike (hcs.imp fun _ _ hc => hc.2.1)]
    rfl
  have hclean : ∀ {l l' : List KnvNode}, List.Forall₂ (fun m m' : KnvNode => m'.head = m.head ∧
      encoded m' = encoded m ∧ (m.subnode_dirty = false → m'.subnode_dirty = false)) l l' →
      (∀ m ∈ l, m.subnode_dirty = false) → ∀ m ∈ l', m.subnode_dirty = false := by
    intro l l' hl hcl m hm
    obtain ⟨x, hx, -, -, hkeep⟩ := forall₂_mem hl.flip hm
    exact hkeep (hcl x hx)
  refine ⟨h.size, fun hnum => ?_, fun hd => ?_, fun hout => ?_⟩
  · obtain ⟨hm, hc, hval⟩ := h.closed hnum
    rw [hm] at hms
    rw [hc] at hcs
    exact ⟨List.forall₂_nil_left_iff.mp hms, List.forall₂_nil_left_iff.mp hcs, hval⟩
  · obtain ⟨hf, hcl, hval⟩ := h.clean hd
    refine ⟨hfold.trans hf, fun m hm => ?_, hval⟩
    rcases List.mem_append.mp hm with hm | hm
    · exact hclean hms (fun x hx => hcl x (List.mem_append_left _ hx)) m hm
    · exact hclean hcs (fun x hx => hcl x (List.mem_append_right _ hx)) m hm
  · have hm := h.outdated ⟨hfold.symm.trans hout.1, hout.2⟩
    exact ⟨hbody.trans hm.body, hm.val_sz, hm.sz⟩

/-- **A read keeps the invariant.** -/
theorem Everywhere.expands_kept {n n' : KnvNode} (hx : Expands n n') :
    Everywhere Kept n → Everywhere Kept n' := by
  have hrefl : ∀ l : List KnvNode, List.Forall₂ (fun m m' : KnvNode => m'.head = m.head ∧
      encoded m' = encoded m ∧ (m.subnode_dirty = false → m'.subnode_dirty = false)) l l :=
    fun l => List.forall₂_same.mpr fun _ _ => ⟨rfl, rfl, id⟩
  have hstep : ∀ {m m' : KnvNode}, Expands m m' → m'.head = m.head ∧ encoded m' = encoded m ∧
      (m.subnode_dirty = false → m'.subnode_dirty = false) :=
    fun h => ⟨h.same.2, h.same.1.encoded, h.clean⟩
  induction hx with
  | @here n p k =>
    intro h
    by_cases hnum : n.child_num = none
    · have hhead := innerExpand_head n p k
      simp only [head, Prod.mk.injEq] at hhead
      obtain ⟨-, -, hval, -, -, hsz, hvsz⟩ := hhead
      have hfold := isFolded_innerExpand hnum p k
      have hnew : ∀ m ∈ (n.innerExpand p k).metalist ++ (n.innerExpand p k).childlist,
          Everywhere Kept m ∧ m.subnode_dirty = false := by
        intro m hm
        obtain ⟨-, q, b, -, -, ho⟩ := mem_innerExpand hnum hm
        refine ⟨ho.kept, ?_⟩
        obtain ⟨r, rfl⟩ := ho
        rfl
      refine .intro ⟨?_, ?_, ?_, ?_⟩ (fun m hm => (hnew m (List.mem_append_left _ hm)).1)
        fun c hc => (hnew c (List.mem_append_right _ hc)).1
      · rw [hsz]
        exact h.self.size
      · exact fun hnone => absurd hnone (innerExpand_num n p k)
      · refine fun _ => ⟨hfold, fun m hm => (hnew m hm).2, ?_⟩
        rw [hvsz, str, hval]
        exact (h.self.closed hnum).2.2
      · exact fun hout => absurd hout (not_outdated_of_folded hfold)
    · rw [innerExpand_expanded hnum]
      exact h
  | @inMeta n m m' l r hl hx ih =>
    rintro ⟨hn, hms, hcs⟩
    have hm' := ih (hms m (by rw [hl]; exact List.mem_append_right _ List.mem_cons_self))
    refine .intro ?_ ?_ hcs
    · show Kept { n with metalist := l ++ m' :: r, childlist := n.childlist }
      refine hn.relisted ?_ (hrefl _)
      rw [hl]
      exact forall₂_replaced (fun _ => ⟨rfl, rfl, id⟩) (hstep hx) l r
    · rw [hl] at hms
      exact Everywhere.replaced hms hm'
  | @inChild n c c' l r hl hx ih =>
    rintro ⟨hn, hms, hcs⟩
    have hc' := ih (hcs c (by rw [hl]; exact List.mem_append_right _ List.mem_cons_self))
    refine .intro ?_ hms ?_
    · show Kept { n with metalist := n.metalist, childlist := l ++ c' :: r }
      refine hn.relisted (hrefl _) ?_
      rw [hl]
      exact forall₂_replaced (fun _ => ⟨rfl, rfl, id⟩) (hstep hx) l r
    · rw [hl] at hcs
      exact Everywhere.replaced hcs hc'

/-! ## Edits -/

/-- All nodes below are as they should be. -/
def ListsKept (n : KnvNode) : Prop := ∀ m ∈ n.metalist ++ n.childlist, Everywhere Kept m

theorem Everywhere.lists_kept {n : KnvNode} (h : Everywhere Kept n) : ListsKept n := by
  intro m hm
  obtain ⟨-, hms, hcs⟩ := h
  rcases List.mem_append.mp hm with hm | hm
  · exact hms m hm
  · exact hcs m hm

theorem ListsKept.everywhere {n : KnvNode} (h : ListsKept n) (hn : Kept n) : Everywhere Kept n :=
  .intro hn (fun m hm => h m (List.mem_append_left _ hm))
    fun c hc => h c (List.mem_append_right _ hc)

theorem pbEvalStringLength_pos (tag : UInt32) (len : Nat) : 0 < pbEvalStringLength tag len := by
  have h : 0 < pbEvalTagLength .string tag := by
    rw [pbEvalTagLength, ← length_vintBytes]
    exact vintBytes_pos _
  unfold pbEvalStringLength
  omega

theorem updateEvalSz_pos {n : KnvNode} (h : 0 < n.eval_sz) (offset : Int) :
    0 < (n.updateEvalSz offset).1.eval_sz := by
  unfold updateEvalSz
  split
  · exact h
  · exact Int.natCast_pos.mpr (pbEvalStringLength_pos n.tag (n.eval_val_sz + offset).toNat)

/-- Only the sizes change. -/
theorem updateEvalSz_eq (n : KnvNode) (offset : Int) : ∃ sz val_sz, (n.updateEvalSz offset).1 =
    { n with eval_sz := sz, eval_val_sz := val_sz } := by
  obtain ⟨d, ms, cs⟩ := n
  unfold updateEvalSz
  split
  · exact ⟨d.eval_sz, d.eval_val_sz, rfl⟩
  · exact ⟨_, _, rfl⟩

/-- What a call leaves that has edited a node. -/
structure Touched (n : KnvNode) : Prop where
  kept : Everywhere Kept n
  dirty : n.subnode_dirty = true

/-- A node that is marked and whose value has been emptied. -/
structure Emptied (n : KnvNode) : Prop where
  size : 0 < n.eval_sz
  child_num : n.child_num ≠ none
  dirty : n.subnode_dirty = true
  str : n.str = []
  lists : ListsKept n

theorem Emptied.touched {n : KnvNode} (h : Emptied n) : Touched n := by
  refine ⟨h.lists.everywhere ⟨h.size, fun hnum => absurd hnum h.child_num, fun hd => ?_,
    fun ho => absurd h.str ho.2⟩, h.dirty⟩
  rw [h.dirty] at hd
  cases hd

/-- **The end of an edit** empties the value and marks the node. -/
theorem emptied_edited {n n' : KnvNode} {offset o : Int} (hsz : 0 < n.eval_sz)
    (hnum : n.child_num ≠ none) (hl : ListsKept n) (h : KnvNode.edited n offset = (n', o)) :
    Emptied n' := by
  have hpos := updateEvalSz_pos hsz offset
  obtain ⟨sz, val_sz, hsame⟩ := updateEvalSz_eq n offset
  have he : n' = (n.updateEvalSz offset).1.setValueDirty := by
    rw [KnvNode.edited, if_pos (by omega)] at h
    exact (congrArg Prod.fst h).symm
  rw [hsame] at hpos he
  rw [he]
  exact ⟨hpos, hnum, rfl, rfl, hl⟩

theorem newNode_eq_ok {tag : UInt32} {val : FieldVal} {c : KnvNode}
    (h : newNode tag none val = .ok c) : c = initNode tag val true 0 false := by
  unfold newNode at h
  by_cases htag : tag = 0
  · rw [if_pos htag] at h
    cases h
  · rw [if_neg htag] at h
    cases h
    rfl

theorem emptied_insertLeaf {n n' : KnvNode} {tag : UInt32} {val : FieldVal} {offs : List Int}
    (hsz : 0 < n.eval_sz) (hnum : n.child_num ≠ none) (hl : ListsKept n)
    (h : (newNode tag none val >>= n.insertNode) = .ok (n', offs)) :
    ∃ o, offs = [o] ∧ Emptied n' := by
  obtain ⟨c, hc, h⟩ := except_bind_eq_ok.mp h
  have hleaf := newNode_eq_ok hc
  rw [insertNode, innerExpand_expanded hnum] at h
  split at h
  · cases h
  · split at h
    · cases h
    · cases he : KnvNode.edited (n.hangChild c) (evaluateSize c).1 with
      | mk n₁ o =>
      rw [he] at h
      cases h
      refine ⟨o, rfl, emptied_edited (n := n.hangChild c) hsz ?_ ?_ he⟩
      · show n.child_num.map (· + 1) ≠ none
        cases hn : n.child_num with
        | none => exact absurd hn hnum
        | some k => exact Option.some_ne_none _
      · intro m hm
        rcases List.mem_append.mp hm with hm | hm
        · exact hl m (List.mem_append_left _ hm)
        · rcases List.mem_append.mp hm with hm | hm
          · exact hl m (List.mem_append_right _ hm)
          · rw [List.mem_singleton.mp hm, hleaf]
            exact initNode_kept tag val 0 false _

/-- A meta that gets a new value is flat. -/
theorem kept_resetMeta {m : KnvNode} (h : Everywhere Kept m) (tag : UInt32) (val : FieldVal)
    {num : Option Nat} (hnum : num = none ∨ num = some 0) :
    Everywhere Kept (
      let m' := { m with val := val, eval_val_sz := val.str.length, eval_sz := pbEvalFieldLength tag val }
      if m'.child_num = none then m' else m'.initChildList num) := by
  have hpos : (0 : Int) < pbEvalFieldLength tag val :=
    Int.natCast_pos.mpr (PbField.size_pos ⟨tag, val⟩)
  simp only
  split
  · rename_i hnone
    obtain ⟨hm, hc, -⟩ := h.self.closed hnone
    exact kept_of_flat hpos (isFolded_of_isFlat (isFlat_of_nothing (.inl hnone) hm)) hm hc rfl
  · exact kept_of_flat hpos (isFolded_of_isFlat (isFlat_of_nothing hnum rfl)) rfl rfl rfl

theorem of_mem_replaceRef {m x : KnvNode} {l : List KnvNode} (h : x ∈ replaceRef m l) :
    x = m ∨ x ∈ l := by
  obtain ⟨y, hy, rfl⟩ := List.mem_map.mp h
  split
  · exact .inl rfl
  · exact .inr hy

theorem emptied_setMeta {n n' : KnvNode} {tag : UInt32} {val : FieldVal} {o : Int}
    (hsz : 0 < n.eval_sz) (hnum : n.child_num ≠ none) (hl : ListsKept n)
    (h : n.setMeta tag val = .ok (n', o)) : Emptied n' := by
  rw [setMeta, innerExpand_expanded hnum] at h
  split at h
  · cases h
  · split at h
    · cases h
    · split at h
      · cases h
      · simp only at h
        split at h
        · refine emptied_edited (n := n.hangMeta (initNode tag val true 0 true) (tag = 1)) hsz hnum ?_
            (Except.ok.inj h)
          intro m hm
          rcases List.mem_append.mp hm with hm | hm
          · have hnew : m = { initNode tag val true 0 true with ref := n.next_ref } ∨ m ∈ n.metalist := by
              replace hm : m ∈ if decide (tag = 1) = true then
                  { initNode tag val true 0 true with ref := n.next_ref } :: n.metalist
                else n.metalist ++ [{ initNode tag val true 0 true with ref := n.next_ref }] := hm
              split at hm
              · exact List.mem_cons.mp hm
              · rcases List.mem_append.mp hm with hm | hm
                · exact .inr hm
                · exact .inl (List.mem_singleton.mp hm)
            rcases hnew with rfl | hm
            · exact initNode_kept tag val 0 true _
            · exact hl m (List.mem_append_left _ hm)
          · exact hl m (List.mem_append_right _ hm)
        · rename_i m₀ hm₀
          have hmem : m₀ ∈ n.metalist := by
            rw [getMeta, innerExpand_expanded hnum] at hm₀
            split at hm₀
            · cases hm₀
            · simp only at hm₀
              split at hm₀
              · cases hm₀
              · obtain ⟨r, -, hr⟩ := Option.bind_eq_some_iff.mp hm₀
                exact List.mem_of_find?_eq_some hr
          refine emptied_edited (n := { n with metalist := replaceRef _ n.metalist }) hsz hnum ?_
            (Except.ok.inj h)
          intro m hm
          rcases List.mem_append.mp hm with hm | hm
          · rcases of_mem_replaceRef hm with rfl | hm
            · refine kept_resetMeta (hl m₀ (List.mem_append_left _ hmem)) tag val ?_
              split
              · exact .inr rfl
              · exact .inl rfl
            · exact hl m (List.mem_append_left _ hm)
          · exact hl m (List.mem_append_right _ hm)

theorem emptied_setMetaInt {n n' : KnvNode} {tag : UInt32} {val : UInt64} {offs : List Int}
    (hsz : 0 < n.eval_sz) (hnum : n.child_num ≠ none) (hl : ListsKept n)
    (h : n.setMetaInt tag val = .ok (n', offs)) : ∃ o, offs = [o] ∧ Emptied n' := by
  have honce : ∀ {r : Except KnvError (KnvNode × Int)}, once r = .ok (n', offs) →
      ∃ o, r = .ok (n', o) ∧ offs = [o] := by
    intro r hr
    cases r with
    | error e => cases hr
    | ok p =>
      cases hr
      exact ⟨p.2, rfl, rfl⟩
  obtain ⟨o, hset, rfl⟩ := honce h
  refine ⟨o, rfl, ?_⟩
  rw [setMetaOrKey] at hset
  split at hset
  · -- the key of the node: it is never empty
    have hkey : (KnvKey.init (.varint val)).val ≠ [] := leBytes_succ_ne_nil 7 _
    rw [setKey] at hset
    simp only [ne_eq, hkey, not_false_eq_true, if_true] at hset
    obtain ⟨⟨m, o'⟩, hm, hret⟩ := except_bind_eq_ok.mp hset
    cases hret
    have hm' : setMeta { n with key := KnvKey.init (.varint val) } 1
        (KnvKey.init (.varint val)).getValue = .ok (m, o') := by
      cases hs : setMeta { n with key := KnvKey.init (.varint val) } 1
          (KnvKey.init (.varint val)).getValue with
      | error e =>
        rw [hs] at hm
        cases hm
      | ok p =>
        rw [hs] at hm
        cases hm
        rfl
    have hm₁ := emptied_setMeta (n := { n with key := KnvKey.init (.varint val) }) hsz hnum hl hm'
    exact ⟨hm₁.size, hm₁.child_num, hm₁.dirty, hm₁.str, hm₁.lists⟩
  · exact emptied_setMeta hsz hnum hl hset

theorem emptied_removeChildrenByTag {n n' : KnvNode} {tag : UInt32} {offs : List Int}
    (hsz : 0 < n.eval_sz) (hnum : n.child_num ≠ none) (hl : ListsKept n)
    (h : n.removeChildrenByTag tag = .ok (n', offs)) :
    (offs = [] ∧ n' = n) ∨ ∃ o, offs = [o] ∧ Emptied n' := by
  rw [removeChildrenByTag, innerExpand_expanded hnum] at h
  split at h
  · cases h
  · simp only at h
    split at h
    · cases h
      exact .inl ⟨rfl, rfl⟩
    · split at h
      · cases h
        exact .inl ⟨rfl, rfl⟩
      · refine .inr ?_
        generalize hm : ({ n with ht := _, childlist := _, child_num := _ } : KnvNode) = m at h
        cases he : KnvNode.edited m (-(evaluateSizes (n.childlist.filter fun c => c.tag = tag) false)) with
        | mk n₁ o =>
        rw [he] at h
        cases h
        refine ⟨o, rfl, emptied_edited ?_ ?_ ?_ he⟩
        · rw [← hm]
          exact hsz
        · rw [← hm]
          show n.child_num.map _ ≠ none
          cases hn : n.child_num with
          | none => exact absurd hn hnum
          | some k => exact Option.some_ne_none _
        · rw [← hm]
          intro x hx
          rcases List.mem_append.mp hx with hx | hx
          · exact hl x (List.mem_append_left _ hx)
          · exact hl x (List.mem_append_right _ (List.mem_of_mem_filter hx))

/-- The bytes of a node are what its lists are written as, when they are new. -/
structure Canon (n : KnvNode) : Prop where
  value : n.str = messageBytes (n.metalist.map view ++ n.childlist.map view)
  tags : ∀ m ∈ n.metalist ++ n.childlist, m.tag ≠ 0
  key : KeyFirst n (n.metalist.map view)

/-- Nodes that nobody has edited are written as they are shown. -/
theorem encodedList_folded {l : List KnvNode} (hfold : ∀ m ∈ l, m.isFolded = true)
    (htags : ∀ m ∈ l, m.tag ≠ 0) : encodedList l false = some (messageBytes (l.map view)) := by
  induction l with
  | nil => rfl
  | cons m l ih =>
    rw [encodedList, encoded_of_folded (htags m List.mem_cons_self) (hfold m List.mem_cons_self),
      ih (fun x hx => hfold x (List.mem_cons_of_mem _ hx))
        fun x hx => htags x (List.mem_cons_of_mem _ hx), List.map_cons, messageBytes_cons]
    rfl

theorem Canon.encodedBody {n : KnvNode} (h : Canon n)
    (hfold : ∀ m ∈ n.metalist ++ n.childlist, m.isFolded = true) :
    encodedBody n = some n.str := by
  have hcs := encodedList_folded (fun m hm => hfold m (List.mem_append_right _ hm))
    fun m hm => h.tags m (List.mem_append_right _ hm)
  have hms : ∀ l, n.metalist = l → ∃ v, encodedList l (n.writesKey && firstIsKey l) = some v ∧
      n.keyBytes ++ v = messageBytes (l.map view) := by
    intro l hl
    have hfolded : ∀ m ∈ l, m.isFolded = true := fun m hm =>
      hfold m (List.mem_append_left _ (by rw [hl]; exact hm))
    have htags : ∀ m ∈ l, m.tag ≠ 0 := fun m hm =>
      h.tags m (List.mem_append_left _ (by rw [hl]; exact hm))
    unfold keyBytes
    by_cases hw : n.writesKey = true
    · obtain ⟨f, ms, hfirst, hf, hval⟩ := h.key hw
      rw [hl] at hfirst
      cases l with
      | nil => exact nomatch hfirst
      | cons m l =>
        rw [List.map_cons, List.cons.injEq] at hfirst
        have hm : m.tag = 1 := by rw [← hf, ← hfirst.1]; rfl
        have hskip : (n.writesKey && firstIsKey (m :: l)) = true := by
          rw [hw, firstIsKey, hm]
          rfl
        rw [hskip, encodedList, if_pos rfl, if_pos hw, List.map_cons, messageBytes_cons, hfirst.1,
          hf, hval]
        exact ⟨_, encodedList_folded (fun x hx => hfolded x (List.mem_cons_of_mem _ hx))
          (fun x hx => htags x (List.mem_cons_of_mem _ hx)), rfl⟩
    · rw [Bool.eq_false_of_not_eq_true hw, Bool.false_and, if_neg Bool.false_ne_true]
      exact ⟨_, encodedList_folded hfolded htags, rfl⟩
  obtain ⟨v, hv, hkey⟩ := hms n.metalist rfl
  rw [KnvNode.encodedBody, skipsFirst, hv, hcs, h.value, messageBytes_append, ← hkey]
  rfl

/-- **`SetTag`** makes a node outdated, whose lists are then still written as its bytes. -/
theorem touched_setTag {n n' : KnvNode} {t : UInt32} {offs : List Int} (hk : Everywhere Kept n)
    (hcanon : n.subnode_dirty = false → n.isFlat = false → Canon n)
    (h : n.setTag t = .ok (n', offs)) : ∃ o, offs = [o] ∧ Touched n' := by
  have hn := hk.self
  rw [setTag] at h
  split at h
  · cases h
  · split at h
    · cases h
    · have h0 : 0 ≤ n.eval_sz := Int.le_of_lt hn.size
      rw [if_pos h0] at h
      cases h
      refine ⟨_, rfl, ListsKept.everywhere (n := { n with tag := t, eval_sz := _, subnode_dirty := true })
        hk.lists_kept ⟨?_, hn.closed, nofun, ?_⟩, rfl⟩
      · show (0 : Int) < if n.isString then _ else _
        split
        · exact Int.natCast_pos.mpr (pbEvalStringLength_pos t _)
        · exact Int.natCast_pos.mpr (PbField.size_pos ⟨t, n.val⟩)
      · rintro ⟨hfold, hstr⟩
        have hflat : n.isFlat = false := by
          rw [isFolded, Bool.or_eq_false_iff] at hfold
          exact hfold.1
        have hstring : n.isString = true := by
          rw [isFlat, Bool.or_eq_false_iff, Bool.or_eq_false_iff, Bool.not_eq_false'] at hflat
          exact hflat.1.1
        have hbody : encodedBody n = some n.str ∧ n.eval_val_sz = n.str.length := by
          cases hd : n.subnode_dirty with
          | false =>
            obtain ⟨-, hclean, hval⟩ := hn.clean hd
            refine ⟨(hcanon hd hflat).encodedBody fun m hm => ?_, hval⟩
            exact ((hk.lists_kept m hm).self.clean (hclean m hm)).folded
          | true =>
            have hout : Outdated n := by
              refine ⟨?_, hstr⟩
              rw [isFolded, hflat, hd]
              simp
            exact ⟨(hn.outdated hout).body, (hn.outdated hout).val_sz⟩
        refine ⟨hbody.1, hbody.2, ?_⟩
        show (if n.isString then ((pbEvalStringLength t n.eval_val_sz.toNat : Nat) : Int) else _) =
          (pbEvalStringLength t n.str.length : Nat)
        rw [if_pos hstring, hbody.2, Int.toNat_natCast]

/-- A node without lists whose value is new. -/
theorem touched_revalued {n : KnvNode} (hsz : 0 < n.eval_sz) (hnum : n.child_num = none)
    (hm : n.metalist = []) (hc : n.childlist = []) (hd : n.subnode_dirty = true) :
    Touched (n.updateEvalSz (n.str.length - n.eval_val_sz)).1 := by
  have hpos := updateEvalSz_pos hsz (n.str.length - n.eval_val_sz)
  have hsame : ∀ o, o = (n.str.length : Int) - n.eval_val_sz →
      (n.updateEvalSz o).1.child_num = none ∧ (n.updateEvalSz o).1.metalist = [] ∧
      (n.updateEvalSz o).1.childlist = [] ∧ (n.updateEvalSz o).1.subnode_dirty = true ∧
      (n.updateEvalSz o).1.eval_val_sz = (n.updateEvalSz o).1.str.length := by
    intro o ho
    unfold updateEvalSz
    split
    · refine ⟨hnum, hm, hc, hd, ?_⟩
      show n.eval_val_sz = n.str.length
      omega
    · refine ⟨hnum, hm, hc, hd, ?_⟩
      show n.eval_val_sz + o = n.str.length
      omega
  obtain ⟨hnum', hm', hc', hd', hval⟩ := hsame _ rfl
  exact ⟨kept_of_flat hpos (isFolded_of_isFlat (isFlat_of_nothing (.inl hnum') hm')) hm' hc' hval,
    hd'⟩

theorem touched_setValueStr {n n' : KnvNode} {s : List UInt8} {offs : List Int}
    (hk : Everywhere Kept n) (h : n.setValueStr s = .ok (n', offs)) :
    ∃ o, offs = [o] ∧ Touched n' := by
  have hcheck : ∃ k, n.checkKey s = { n with key := k } := by
    obtain ⟨d, ms, cs⟩ := n
    unfold checkKey
    split
    · split
      · exact ⟨_, rfl⟩
      · exact ⟨d.key, rfl⟩
    · exact ⟨d.key, rfl⟩
  obtain ⟨k, hcheck⟩ := hcheck
  have hsz := hk.self.size
  rw [setValueStr] at h
  split at h
  · cases h
  · split at h
    · cases h
    · rw [hcheck, setStrValue] at h
      have h0 : (0 : Int) ≤ n.eval_sz := Int.le_of_lt hsz
      by_cases hnum : n.child_num = none
      · obtain ⟨hm, hc, -⟩ := hk.self.closed hnum
        simp only [hnum, if_true, if_pos h0] at h
        cases h
        exact ⟨_, rfl, touched_revalued hsz rfl hm hc rfl⟩
      · simp only [hnum, if_false, initChildList, if_pos h0] at h
        cases h
        exact ⟨_, rfl, touched_revalued hsz rfl rfl rfl rfl⟩

theorem setIntValue_eq {n : KnvNode} (hstr : n.isString = false) (i64 : UInt64) :
    ∃ v : FieldVal, v.type ≠ .string ∧ v.str = [] ∧ n.setIntValue i64 =
      ({ n with val := v, eval_sz := pbEvalFieldLength n.tag v, eval_val_sz := 0, subnode_dirty := true },
        pbEvalFieldLength n.tag v - n.eval_sz) := by
  refine ⟨_, ?_, ?_, rfl⟩
  · cases hv : n.val with
    | string str =>
      rw [KnvNode.isString, hv] at hstr
      cases hstr
    | varint i => exact nofun
    | fixed64 i => exact nofun
    | fixed32 i => exact nofun
  · cases hv : n.val with
    | string str =>
      rw [KnvNode.isString, hv] at hstr
      cases hstr
    | varint i => rfl
    | fixed64 i => rfl
    | fixed32 i => rfl

theorem touched_setValueInt {n n' : KnvNode} {i64 : UInt64} {offs : List Int}
    (hk : Everywhere Kept n) (h : n.setValueInt i64 = .ok (n', offs)) :
    ∃ o, offs = [o] ∧ Touched n' := by
  rw [setValueInt] at h
  split at h
  · cases h
  · split at h
    · cases h
    · rename_i hstr
      obtain ⟨v, htype, hnil, heq⟩ := setIntValue_eq (Bool.eq_false_of_not_eq_true hstr) i64
      rw [heq] at h
      cases h
      have hflat : isFlat { n with
          val := v, eval_sz := pbEvalFieldLength n.tag v, eval_val_sz := 0, subnode_dirty := true } =
          true := by
        rw [isFlat, KnvNode.isString]
        simp [htype]
      have hkept : Kept { n with
          val := v, eval_sz := pbEvalFieldLength n.tag v, eval_val_sz := 0, subnode_dirty := true } := by
        refine ⟨Int.natCast_pos.mpr (PbField.size_pos ⟨n.tag, v⟩), fun hnum => ?_,
          fun hdirty => Bool.noConfusion hdirty,
          fun hout => absurd hout (not_outdated_of_folded (isFolded_of_isFlat hflat))⟩
        obtain ⟨hm, hc, -⟩ := hk.self.closed hnum
        refine ⟨hm, hc, ?_⟩
        show (0 : Int) = v.str.length
        rw [hnil]
        rfl
      exact ⟨_, rfl, ListsKept.everywhere hk.lists_kept hkept, rfl⟩

/-! ## The nodes above -/

/-- **A round for a node above** that is not outdated leaves it marked, and not outdated. -/
theorem touched_parentRound {n : KnvNode} (hsz : 0 < n.eval_sz) (hnum : n.child_num ≠ none)
    (hl : ListsKept n) (hout : ¬ Outdated n) (offset : Int) {updatedirty : Bool}
    (hd : updatedirty = true ∨ n.subnode_dirty = true) :
    Touched (n.parentRound offset updatedirty).1 ∧
      ((n.parentRound offset updatedirty).2.2 = true ∨ n.subnode_dirty = true) := by
  -- the size
  obtain ⟨m, o, hm, hpos, hsame⟩ : ∃ m o, (if 0 ≤ n.eval_sz then n.updateEvalSz offset else (n, 0)) =
      (m, o) ∧ 0 < m.eval_sz ∧ ∃ sz val_sz, m = { n with eval_sz := sz, eval_val_sz := val_sz } := by
    exact ⟨_, _, if_pos (Int.le_of_lt hsz), updateEvalSz_pos hsz offset, updateEvalSz_eq n offset⟩
  obtain ⟨sz, val_sz, hmn⟩ := hsame
  have hround : n.parentRound offset updatedirty =
      if updatedirty then (if m.subnode_dirty then (m, o, false) else (m.setValueDirty, o, true))
      else (m, o, false) := by
    rw [parentRound, hm]
  have hdirty : m.subnode_dirty = n.subnode_dirty := by rw [hmn]
  -- a node that was marked before stays as it is
  have hmarked : n.subnode_dirty = true → Touched m := by
    intro hn
    have hmo : ¬ Outdated m := by
      rw [hmn]
      exact hout
    refine ⟨ListsKept.everywhere (by rw [hmn]; exact hl) ⟨hpos, fun h => ?_, fun h => ?_,
      fun h => absurd h hmo⟩, hdirty.trans hn⟩
    · rw [hmn] at h
      exact absurd h hnum
    · rw [hdirty, hn] at h
      cases h
  have hemptied : Touched m.setValueDirty := by
    refine Emptied.touched ⟨hpos, ?_, rfl, rfl, ?_⟩
    · rw [hmn]
      exact hnum
    · rw [hmn]
      exact hl
  rw [hround]
  cases updatedirty with
  | true =>
    rw [if_pos rfl]
    split
    · rename_i h
      rw [hdirty] at h
      exact ⟨hmarked h, .inr h⟩
    · exact ⟨hemptied, .inl rfl⟩
  | false =>
    rw [if_neg Bool.false_ne_true]
    rcases hd with h | h
    · cases h
    · exact ⟨hmarked h, .inr h⟩

/-- A node in the lists, replaced. -/
theorem put_spec {n c : KnvNode} {d : Down} (hc : d.below n = some c) (c' : KnvNode)
    (o : Option KnvNode) :
    (∃ ht ms cs, d.put (n.reindex o c') c' = { n with ht := ht, metalist := ms, childlist := cs } ∧
      ms.isEmpty = n.metalist.isEmpty ∧
      (∀ x ∈ ms ++ cs, x = c' ∨ x ∈ n.metalist ++ n.childlist)) ∧
    c ∈ n.metalist ++ n.childlist ∧ (Expands c c' → Expands n (d.put n c')) := by
  have hre : ∃ ht, n.reindex o c' = { n with ht := ht } := by
    obtain ⟨d, ms, cs⟩ := n
    cases o with
    | none => exact ⟨d.ht, rfl⟩
    | some x => exact ⟨_, rfl⟩
  obtain ⟨ht, hre⟩ := hre
  have hset : ∀ (l : List KnvNode) (i : Nat), ∀ x ∈ l.set i c', x = c' ∨ x ∈ l :=
    fun l i x hx => (List.mem_or_eq_of_mem_set hx).symm
  have hcut : ∀ (l : List KnvNode) (i : Nat), l[i]? = some c →
      l = l.take i ++ c :: l.drop (i + 1) ∧ l.set i c' = l.take i ++ c' :: l.drop (i + 1) := by
    intro l i hi
    obtain ⟨hlt, rfl⟩ := List.getElem?_eq_some_iff.mp hi
    refine ⟨?_, List.set_eq_take_append_cons_drop ▸ if_pos hlt⟩
    rw [← List.drop_eq_getElem_cons hlt, List.take_append_drop]
  cases d with
  | toMeta i =>
    refine ⟨⟨ht, n.metalist.set i c', n.childlist, by rw [hre]; rfl, ?_, ?_⟩, ?_, ?_⟩
    · rw [Bool.eq_iff_iff, List.isEmpty_iff, List.isEmpty_iff, List.set_eq_nil_iff]
    · intro x hx
      rcases List.mem_append.mp hx with hx | hx
      · exact (hset _ i x hx).imp_right (List.mem_append_left _)
      · exact .inr (List.mem_append_right _ hx)
    · exact List.mem_append_left _ (List.mem_of_getElem? hc)
    · intro h
      obtain ⟨hl, hs⟩ := hcut n.metalist i hc
      show Expands n { n with metalist := n.metalist.set i c' }
      rw [hs]
      exact .inMeta hl h
  | toChild i =>
    refine ⟨⟨ht, n.metalist, n.childlist.set i c', by rw [hre]; rfl, rfl, ?_⟩, ?_, ?_⟩
    · intro x hx
      rcases List.mem_append.mp hx with hx | hx
      · exact .inr (List.mem_append_left _ hx)
      · exact (hset _ i x hx).imp_right (List.mem_append_right _)
    · exact List.mem_append_right _ (List.mem_of_getElem? hc)
    · intro h
      obtain ⟨hl, hs⟩ := hcut n.childlist i hc
      show Expands n { n with childlist := n.childlist.set i c' }
      rw [hs]
      exact .inChild hl h

end KnvNode

open KnvNode

namespace NodeEdit

/-- If the node keeps its bytes although its lists may change, they are what the lists are written as:
    only `SetTag` leaves the bytes, of a node with lists that nobody has edited. -/
def KeepsBytes (e : NodeEdit) (n : KnvNode) : Prop :=
  ∀ t, e = setTag t → n.subnode_dirty = false → n.isFlat = false → Canon n

/-- No node above the edited one is outdated. -/
def Calm (e : NodeEdit) : NodePlace → KnvNode → Prop
  | [], n => e.KeepsBytes n
  | d :: place, n => ¬ Outdated n ∧ ∀ c, d.below n = some c → Calm e place c

theorem exec_spec {e : NodeEdit} {p : Bool} {n n' : KnvNode} {offs : List Int}
    (hk : Everywhere Kept n) (hcalm : e.KeepsBytes n) (h : e.exec p n = .ok (n', offs)) :
    (offs = [] ∧ Expands n n' ∧ ∀ m, e.forgets m = none) ∨ ∃ o, offs = [o] ∧ Touched n' := by
  have hx : Everywhere Kept (n.innerExpand p false) := hk.expands_kept (.here p false)
  have hnum := innerExpand_num n p false
  have hemptied : (∃ o, offs = [o] ∧ Emptied n') → ∃ o, offs = [o] ∧ Touched n' :=
    fun ⟨o, ho, he⟩ => ⟨o, ho, he.touched⟩
  cases e with
  | setTag t => exact .inr (touched_setTag hk (hcalm t rfl) h)
  | setValueStr s => exact .inr (touched_setValueStr hk h)
  | setValueInt i => exact .inr (touched_setValueInt hk h)
  | insertIntLeaf tag val =>
    exact .inr (hemptied (emptied_insertLeaf hx.self.size hnum hx.lists_kept h))
  | insertStrLeaf tag val =>
    exact .inr (hemptied (emptied_insertLeaf hx.self.size hnum hx.lists_kept h))
  | setMetaInt tag val =>
    exact .inr (hemptied (emptied_setMetaInt hx.self.size hnum hx.lists_kept h))
  | removeChildrenByTag tag =>
    rcases emptied_removeChildrenByTag hx.self.size hnum hx.lists_kept h with ⟨ho, hn⟩ | he
    · rw [hn]
      exact .inl ⟨ho, .here p false, fun _ => rfl⟩
    · exact .inr (hemptied he)

/-- **A calm call keeps the invariant.** -/
theorem editIn_spec {e : NodeEdit} {place : NodePlace} : ∀ {p : Bool} {n n' : KnvNode}
    {l : List (Int × Bool)}, Everywhere Kept n → e.Calm place n →
    e.editIn p place n = .ok (n', l) →
    (l = [] ∧ Expands n n' ∧ ∀ m, e.forgets m = none) ∨
      ∃ s, l = [s] ∧ Touched n' ∧ (s.2 = true ∨ n.subnode_dirty = true) := by
  induction place with
  | nil =>
    intro p n n' l hk hcalm h
    rw [editIn, editPlace] at h
    cases he : e.exec p n with
    | error err =>
      rw [he] at h
      cases h
    | ok r =>
      obtain ⟨m, offs⟩ := r
      rw [he] at h
      cases h
      rcases exec_spec hk hcalm he with ⟨rfl, hx, hf⟩ | ⟨o, rfl, ht⟩
      · exact .inl ⟨rfl, hx, hf⟩
      · exact .inr ⟨_, rfl, ht, .inl rfl⟩
  | cons d place ih =>
    intro p n n' l hk ⟨hout, hcalm⟩ h
    rw [editIn, editPlace] at h
    cases hc : d.below n with
    | none =>
      rw [hc] at h
      cases h
    | some c =>
      rw [hc] at h
      simp only at h
      cases he : editPlace e.exec e.forgets (n.key.val ≠ []) place c with
      | error err =>
        rw [he] at h
        cases h
      | ok r =>
        obtain ⟨c', offs⟩ := r
        rw [he] at h
        generalize ho : (if place = [] then e.forgets c else none) = o at h
        obtain ⟨⟨ht, ms, cs, hput, hempty, hmem⟩, hin, hexp⟩ := put_spec hc c' o
        replace h : parentRounds (d.put (n.reindex o c') c') offs = (n', l) := Except.ok.inj h
        rcases ih (hk.lists_kept c hin) (hcalm c hc) he with ⟨rfl, hx, hf⟩ | ⟨s, rfl, ht', hs⟩
        · -- the call has changed nothing
          have ho' : o = none := by
            rw [← ho, hf, ite_self]
          rw [ho'] at h
          cases h
          exact .inl ⟨rfl, hexp hx, hf⟩
        · rw [hput] at h
          generalize hm : ({ n with ht := ht, metalist := ms, childlist := cs } : KnvNode) = m at h
          have hdirty : m.subnode_dirty = n.subnode_dirty := by rw [← hm]
          have hlists : ListsKept m := by
            rw [← hm]
            intro x hx
            rcases hmem x hx with rfl | hx
            · exact ht'.kept
            · exact hk.lists_kept x hx
          have hmo : ¬ Outdated m := by
            have hfold : m.isFolded = n.isFolded := by
              rw [← hm, isFolded, isFolded, isFlat, isFlat]
              show (_ || _ || (_ && ms.isEmpty) || _) = (_ || _ || (_ && n.metalist.isEmpty) || _)
              rw [hempty]
              rfl
            rintro ⟨hf, hstr⟩
            rw [hfold] at hf
            rw [← hm] at hstr
            exact hout ⟨hf, hstr⟩
          have hmark : s.2 = true ∨ m.subnode_dirty = true := by
            rcases hs with hs | hs
            · exact .inl hs
            · refine .inr ?_
              rw [hdirty]
              by_contra hn
              have hclean := (hk.self.clean (Bool.eq_false_of_not_eq_true hn)).lists c hin
              rw [hs] at hclean
              cases hclean
          have hnum : m.child_num ≠ none := by
            rw [← hm]
            intro hnone
            obtain ⟨hm0, hc0, -⟩ := hk.self.closed hnone
            rw [hm0, hc0] at hin
            exact absurd hin List.not_mem_nil
          obtain ⟨htouched, hnext⟩ := touched_parentRound (n := m) (by rw [← hm]; exact hk.self.size)
            hnum hlists hmo s.1 hmark
          have hrounds : parentRounds m [s] =
              ((m.parentRound s.1 s.2).1, [(m.parentRound s.1 s.2).2]) := rfl
          rw [hrounds] at h
          cases h
          rw [hdirty] at hnext
          exact .inr ⟨_, rfl, htouched, hnext⟩

end NodeEdit

/-- A step of a caller: some node is looked at, or edited by a calm call. -/
inductive CalmStep : KnvNode → KnvNode → Prop
  | look {n n' : KnvNode} : Expands n n' → CalmStep n n'
  | edit {n n' : KnvNode} {e : NodeEdit} {place : NodePlace} {l : List (Int × Bool)} : e.Calm place n →
    e.editIn false place n = .ok (n', l) → CalmStep n n'

theorem CalmStep.kept {n n' : KnvNode} (h : CalmStep n n') (hk : Everywhere Kept n) :
    Everywhere Kept n' := by
  cases h with
  | look hx => exact hk.expands_kept hx
  | edit hcalm he =>
    rcases NodeEdit.editIn_spec hk hcalm he with ⟨-, hx, -⟩ | ⟨s, -, ht, -⟩
    · exact hk.expands_kept hx
    · exact ht.kept

/-- **Every node of a tree that was read is copied as it is written**, after every run of calm calls. -/
theorem duplicate_copies {data : List UInt8} {n₀ n x : KnvNode} (hnew : newFromData data = .ok n₀)
    (hrun : Relation.ReflTransGen CalmStep n₀ n) (hx : Inside x n) : DuplicateRight x := by
  have hstart : Everywhere Kept n₀ := by
    rw [newFromData] at hnew
    split at hnew
    · cases hnew
    · cases hnew
      exact initNode_kept _ _ _ false 0
  have hk := Everywhere.inside hx (run_invariant hrun hstart fun hk hs => CalmStep.kept hs hk)
  exact duplicateRight_of_fresh hk.self.size hk.self.outdated

/-- Calls on the root `n`, one after the other. -/
def NodeEdit.run : List (NodeEdit × NodePlace) → KnvNode → Except KnvError KnvNode
  | [], n => .ok n
  | (e, place) :: es, n => do
    let (n, _) ← e.editIn false place n
    NodeEdit.run es n

/-- The field 20 with a field 21 in it, which holds the integer 22. -/
def nestedData : List UInt8 := [162, 1, 6, 170, 1, 3, 176, 1, 1]

/-- A leaf is put into the inner node of a tree that was read. -/
theorem duplicate_copies_insert : ∃ n₀ n l, newFromData nestedData = .ok n₀ ∧
    (NodeEdit.insertIntLeaf 24 7).editIn false [.toChild 0] (n₀.innerExpand false false) =
      .ok (n, l) ∧ ∀ x, Inside x n → DuplicateRight x := by
  have hnew : ∃ n₀, newFromData nestedData = .ok n₀ ∧ n₀.child_num = none := ⟨_, rfl, rfl⟩
  obtain ⟨n₀, hnew, hnum⟩ := hnew
  have hsome : (newFromData nestedData >>= fun n₀ => (NodeEdit.insertIntLeaf 24 7).editIn false
      [.toChild 0] (n₀.innerExpand false false)).toBool = true := by decide +kernel
  rw [hnew] at hsome
  cases hedit : (NodeEdit.insertIntLeaf 24 7).editIn false [.toChild 0]
      (n₀.innerExpand false false) with
  | error e =>
    replace hsome : ((NodeEdit.insertIntLeaf 24 7).editIn false [.toChild 0]
      (n₀.innerExpand false false)).toBool = true := hsome
    rw [hedit] at hsome
    cases hsome
  | ok r =>
    obtain ⟨n, l⟩ := r
    have hcalm : (NodeEdit.insertIntLeaf 24 7).Calm [.toChild 0] (n₀.innerExpand false false) :=
      ⟨not_outdated_of_folded (isFolded_innerExpand hnum false false), fun c _ => nofun⟩
    have hrun : Relation.ReflTransGen CalmStep n₀ n :=
      (Relation.ReflTransGen.single (.look (.here false false))).tail (.edit hcalm hedit)
    exact ⟨n₀, n, l, hnew, hedit, fun x hx => duplicate_copies hnew hrun hx⟩

/-- Look into both nodes, give the inner one another tag, and then set the integer in it. -/
def retagged : Except KnvError KnvNode :=
  newFromData nestedData >>= NodeEdit.run [(.removeChildrenByTag 99, []),
    (.removeChildrenByTag 99, [.toChild 0]), (.setTag 23, [.toChild 0]),
    (.setValueInt 5, [.toChild 0, .toChild 0])]

/-- **The inner node is copied with the integer it had.** -/
theorem retagged_not_copied : ∃ n x, retagged = .ok n ∧ Inside x n ∧ ¬ DuplicateRight x := by
  have hbytes : (retagged.toOption.bind fun n => n.childlist[0]?.bind fun x =>
      x.duplicate.map fun m => (m.serializeString.toOption, x.serializeString.toOption)) =
      some (some [186, 1, 3, 176, 1, 1], some [186, 1, 3, 176, 1, 5]) := by decide +kernel
  cases hn : retagged with
  | error e =>
    rw [hn] at hbytes
    cases hbytes
  | ok n =>
    rw [hn] at hbytes
    obtain ⟨_, ⟨⟩, hbytes⟩ := Option.bind_eq_some_iff.mp hbytes
    obtain ⟨x, hx, hbytes⟩ := Option.bind_eq_some_iff.mp hbytes
    obtain ⟨m, hm, hbytes⟩ := Option.map_eq_some_iff.mp hbytes
    rw [Prod.mk.injEq] at hbytes
    have hok : ∀ {r : Except KnvError (List UInt8)} {w : List UInt8}, r.toOption = some w →
        r = .ok w := by
      intro r w hr
      cases r with
      | error e => cases hr
      | ok v =>
        cases hr
        rfl
    refine ⟨n, x, rfl, .children (List.mem_of_getElem? hx) .self, fun hright => ?_⟩
    have hsame := (hright m hm _).mp (hok hbytes.1)
    rw [hok hbytes.2] at hsame
    exact absurd (Except.ok.inj hsame) (by decide)

end MysqlProxy
