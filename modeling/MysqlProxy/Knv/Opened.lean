/-
  Trees that are expanded further.

  A read expands the nodes on its way.  `Opened p n n'` says that `n'` is `n`, perhaps expanded further,
  and `Opened.sameWriting` that this is not seen in what is written: a node that was expanded from its
  value is still written from its value.
-/
import MysqlProxy.Knv.FastPath
import MysqlProxy.Knv.Rewrite

namespace MysqlProxy

namespace KnvNode

/-- The node with other children in its list. -/
def withChildren (n : KnvNode) (l : List KnvNode) : KnvNode := { n with childlist := l }

theorem withChildren_self (n : KnvNode) : n.withChildren n.childlist = n := by
  cases n
  rfl

/-- **`n'` is `n`, perhaps expanded further**; `p` says whether there is a parent with a key. -/
inductive Opened : Bool → KnvNode → KnvNode → Prop
  | refl {p : Bool} {n : KnvNode} : Opened p n n
  | opened {p : Bool} {n n' : KnvNode} (k : Bool) (kept : KnvNode → KnvNode)
    (childlist : n' = (n.innerExpand p k).withChildren ((n.innerExpand p k).childlist.map kept))
    (children : ∀ c ∈ (n.innerExpand p k).childlist, Opened (n.key.val ≠ []) c (kept c)) :
    Opened p n n'

theorem opened_innerExpand (p k : Bool) (n : KnvNode) : Opened p n (n.innerExpand p k) := by
  refine .opened k id ?_ fun _ _ => .refl
  rw [List.map_id, withChildren_self]

theorem innerExpand_key (n : KnvNode) (p k : Bool) : (n.innerExpand p k).key = n.key :=
  (sameFace_innerExpand n p k).2.2

theorem Opened.trans {p : Bool} {n m o : KnvNode} (h : Opened p n m) : Opened p m o →
    Opened p n o := by
  induction h generalizing o with
  | refl => exact id
  | @opened p n m k kept hm _ ih =>
    intro h'
    cases h' with
    | refl => exact .opened k kept hm ‹_›
    | opened k' kept' ho children' =>
      have hkey : m.key = n.key := by
        rw [hm]
        exact innerExpand_key n p k
      have hmx : m.innerExpand p k' = m := by
        refine innerExpand_expanded ?_ p k'
        rw [hm]
        exact innerExpand_num n p k
      rw [hmx] at ho children'
      refine .opened k (kept' ∘ kept) ?_ fun c hc => ih c hc ?_
      · rw [ho, hm, ← List.map_map]
        rfl
      · rw [← hkey]
        refine children' (kept c) ?_
        rw [hm]
        exact List.mem_map_of_mem hc

/-- What the request expanded is expanded already. -/
theorem Opened.of_expanded {p k : Bool} {n m : KnvNode} (h : Opened p (n.innerExpand p k) m) :
    Opened p n m := (opened_innerExpand p k n).trans h

theorem Listed.eq_of_ref {n c x : KnvNode} (h : Listed n) (hc : c ∈ n.childlist)
    (hx : x ∈ n.childlist) (href : x.ref = c.ref) : x = c :=
  List.inj_on_of_nodup_map h.nodup hx hc href

theorem Listed.innerExpand {n : KnvNode} (h : Listed n) (p k : Bool) : n.innerExpand p k = n :=
  innerExpand_expanded (by rw [h.child_num]; exact Option.some_ne_none _) p k

/-- No child gets lost. -/
theorem Opened.childlist_nil {p : Bool} {n m : KnvNode} (h : Opened p n m)
    (hnum : n.child_num ≠ none) (hm : m.childlist = []) : n.childlist = [] := by
  cases h with
  | refl => exact hm
  | opened k kept hm' _ =>
    rw [innerExpand_expanded hnum] at hm'
    rw [hm'] at hm
    exact List.map_eq_nil_iff.mp hm

theorem Opened.replaceRef {p : Bool} {n c c' : KnvNode} (hl : Listed n) (hc : c ∈ n.childlist)
    (href : c'.ref = c.ref) (h : Opened (n.key.val ≠ []) c c') :
    Opened p n (n.withChildren (KnvNode.replaceRef c' n.childlist)) := by
  refine .opened false (fun x => if x.ref = c'.ref then c' else x) ?_ fun x hx => ?_
  · rw [hl.innerExpand]
    rfl
  · rw [hl.innerExpand] at hx
    by_cases he : x.ref = c'.ref
    · rw [if_pos he, hl.eq_of_ref hc hx (he.trans href)]
      exact h
    · rw [if_neg he]
      exact .refl

/-! ## They are written alike -/

/-- Two nodes that are written alike. -/
def SameWriting (n n' : KnvNode) : Prop :=
  evaluateSize n' = evaluateSize n ∧ ∀ len h, serialize n' len h = serialize n len h

theorem evaluateSizes_alike {l l' : List KnvNode} (h : List.Forall₂ SameWriting l l') :
    ∀ skip, evaluateSizes l' skip = evaluateSizes l skip := by
  induction h with
  | nil => exact fun _ => rfl
  | cons h _ ih =>
    intro skip
    rw [evaluateSizes, evaluateSizes, ih, h.1]

theorem serializeList_alike {l l' : List KnvNode} (h : List.Forall₂ SameWriting l l') :
    ∀ skip out len code, serializeList l' skip out len code =
      serializeList l skip out len code := by
  induction h with
  | nil => exact fun _ _ _ _ => rfl
  | cons h _ ih =>
    intro skip out len code
    simp only [serializeList, h.2, ih]

/-- Nodes with children that are written alike. -/
theorem sameWriting_withChildren (n : KnvNode) {l : List KnvNode}
    (h : List.Forall₂ SameWriting n.childlist l) : SameWriting n (n.withChildren l) := by
  obtain ⟨d, ms, cs⟩ := n
  have hsz : evaluateSize ⟨d, ms, l⟩ = evaluateSize ⟨d, ms, cs⟩ := by
    rw [evaluateSize, evaluateSize, evaluateSizes_alike h]
    rfl
  refine ⟨hsz, fun len header => ?_⟩
  show serialize ⟨d, ms, l⟩ len header = serialize ⟨d, ms, cs⟩ len header
  rw [serialize, serialize, hsz]
  simp only [serializeList_alike h]
  rfl

/-- A node is written from its value as long as the value is up to date. -/
theorem sameWriting_of_folded {n n' : KnvNode} (h : n.isFolded = true) (h' : n'.isFolded = true)
    (hhead : n'.head = n.head) : SameWriting n n' := by
  obtain ⟨d, ms, cs⟩ := n
  obtain ⟨d', ms', cs'⟩ := n'
  simp only [head, Prod.mk.injEq] at hhead
  obtain ⟨_, htag, hval, _, _, hsz, hvsz⟩ := hhead
  refine ⟨?_, fun len header => ?_⟩
  · rw [evaluateSize, evaluateSize]
    simp only [h, h', if_true, htag, hval, hsz, hvsz, str]
  · rw [serialize, serialize]
    simp only [h, h', if_true, htag, hval]

/-- What was expanded from its value is still written from it. -/
theorem isFolded_innerExpand {n : KnvNode} (hnum : n.child_num = none) (p k : Bool) :
    (n.innerExpand p k).isFolded = true := by
  have hflat : ∀ m : KnvNode, m.child_num = some 0 → m.metalist = [] → m.isFolded = true := by
    intro m hm hl
    refine isFolded_of_isFlat ?_
    rw [isFlat, hm, hl]
    simp
  rw [innerExpand_none hnum, expandTail]
  split
  · exact hflat _ rfl rfl
  · split
    · exact hflat _ rfl rfl
    · split
      · exact hflat _ rfl rfl
      · rename_i fs eom hf
        simp only
        split
        · have hhead := head_expandFields (k := k) fs
            { n.initChildList (some 0) with child_has_key := false }
          have hstr : (fs.foldl (expandField k)
              { n.initChildList (some 0) with child_has_key := false }).str = n.str := by
            simp only [head, Prod.mk.injEq] at hhead
            rw [str, hhead.2.2.1]
            rfl
          have hne : n.str ≠ [] := by
            intro he
            replace hf : pbFields n.str = some (fs, eom) := hf
            rw [he] at hf
            cases hf
          rw [isFolded, Bool.or_eq_true]
          right
          show (decide ((fs.foldl (expandField k) _).str ≠ []) && true) = true
          rw [hstr, Bool.and_true, decide_eq_true_iff]
          exact hne
        · exact hflat _ rfl rfl

/-- **A tree that is expanded further is written as before.** -/
theorem Opened.sameWriting {p : Bool} {n n' : KnvNode} (h : Opened p n n') : SameWriting n n' := by
  induction h with
  | refl => exact ⟨rfl, fun _ _ => rfl⟩
  | @opened p n n' k kept hn' _ ih =>
    by_cases hnum : n.child_num = none
    · have hfold : n.isFolded = true := isFolded_of_isFlat (by rw [isFlat, hnum]; simp)
      have hx := isFolded_innerExpand hnum p k
      have hhead := innerExpand_head n p k
      rw [hn']
      exact sameWriting_of_folded hfold hx hhead
    · rw [innerExpand_expanded hnum] at hn' ih
      rw [hn']
      refine sameWriting_withChildren n ?_
      rw [List.forall₂_map_right_iff, List.forall₂_same]
      exact ih

theorem Opened.serializeString {p : Bool} {n n' : KnvNode} (h : Opened p n n') :
    serializeString n' = serializeString n := by
  rw [KnvNode.serializeString, KnvNode.serializeString, h.sameWriting.1, h.sameWriting.2]

end KnvNode

end MysqlProxy
