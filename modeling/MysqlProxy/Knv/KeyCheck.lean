/-
  The check of the key in `SetValue`.

  `SetValue` of a string replaces the bytes of a node, and "can not change key".  If the node is
  expanded and has a key, the key of the new bytes is looked at first:

      knv_key_t k;
      pf = knv_begin(&f, str_val, len);
      if(pf && pf->tag!=1) key.init(pf->type, &pf->val, false);
      else                 key.init(KNV_NODE, NULL, false);
      if(k.len && k!=key) ...

  What is read is put into `key`, the member, and `k` stays empty.  So the check never fails, and a
  message that begins with a key leaves the node WITHOUT one.  The index is then not told, and the
  node cannot be found under its key any more.  A node that is not expanded is not checked at all:
  its key is what the bytes say.
-/
import MysqlProxy.Knv.FastPath

namespace MysqlProxy

/-- **What was put last is found first.** -/
theorem KnvHt.get_put {α : Type} (view : α → UInt32 × List UInt8) (h : KnvHt α) (c : α) :
    (h.put view c).get view (view c).1 (view c).2 = some c := by
  rw [KnvHt.put]
  generalize (if h.sz < h.nr + 1 then h.increase view else h) = h'
  have hhead : (h'.link view c).ht (KnvHt.bucket view c h'.sz) =
      if h'.bm (KnvHt.bucket view c h'.sz) then c :: h'.ht (KnvHt.bucket view c h'.sz) else [c] :=
    if_pos rfl
  have hbm : (h'.link view c).bm (KnvHt.bucket view c h'.sz) = true := if_pos rfl
  have hb : getKeyhash (view c).1 (view c).2 (h'.link view c).sz = KnvHt.bucket view c h'.sz := rfl
  rw [KnvHt.get]
  simp only [hb, hbm, if_true, hhead]
  split <;> simp

/-- What `get` returns has the tag and the key. -/
theorem KnvHt.view_of_get {α : Type} {view : α → UInt32 × List UInt8} {h : KnvHt α} {t : UInt32}
    {k : List UInt8} {c : α} (hget : h.get view t k = some c) : view c = (t, k) := by
  rw [KnvHt.get] at hget
  split at hget
  · exact of_decide_eq_true (List.find?_some (p := fun c => decide (view c = (t, k))) hget)
  · cases hget

namespace KnvNode

/-- `SetValue` of a string on the child `c` of `n`: what it returns, and the parent afterwards. -/
def setValueOf (n c : KnvNode) (s : List UInt8) : Int × KnvNode :=
  if c.tag = 0 then (-1, n)
  else if !c.isString then (-2, n)
  else
    -- nothing is ever assigned to the local `k`
    let k := KnvKey.none .string
    if k.val ≠ [] ∧ k ≠ (c.checkKey s).key then
      (-3, { n with childlist := replaceRef (c.checkKey s) n.childlist })
    else (0, (n.setChildValue c s).1)

/-- A child with a key and children of its own. -/
structure KeyedChild (n c : KnvNode) : Prop where
  parent_tag : n.tag ≠ 0
  indexed : Indexed n
  mem : c ∈ n.childlist
  tag : c.tag ≠ 0
  isString : c.isString = true
  key : c.writesKey = true
  children : 0 < (c.innerExpand (n.key.val ≠ []) false).child_num.getD 0

/-- What `SetValue` is to do with bytes that begin with the key `k`: take them if it is the key of the
    child, which is still found under it, and refuse them otherwise. -/
def KeepsKey (n c : KnvNode) (s : List UInt8) (k : KnvKey) : Prop :=
  (k = c.key → (n.setValueOf c s).1 = 0 ∧
    ((n.setValueOf c s).2.findChild c.tag c.key.val).map (fun x => x.ref) = some c.ref) ∧
  (k ≠ c.key → (n.setValueOf c s).1 < 0 ∧
    (findRef (n.setValueOf c s).2.childlist c.ref).map (fun x => (x.val, x.key)) =
      some (c.val, c.key) ∧
    ∀ t key, ((n.setValueOf c s).2.findChild t key).map (fun x => x.ref) =
      (n.findChild t key).map fun x => x.ref)

variable {n c : KnvNode} {s : List UInt8}

/-- **The check never fails.** -/
theorem KeyedChild.setValueOf (h : KeyedChild n c) (s : List UInt8) :
    n.setValueOf c s = (0, (n.setChildValue c s).1) := by
  rw [KnvNode.setValueOf, if_neg h.tag, h.isString, if_neg (by decide)]
  exact if_neg fun hk => hk.1 rfl

theorem KeyedChild.key_ne (h : KeyedChild n c) : c.key.val ≠ [] := by
  have hk := h.key
  rw [writesKey, Bool.and_eq_true, decide_eq_true_iff] at hk
  exact hk.2

/-- An expanded child has children in its list. -/
theorem KeyedChild.expanded (h : KeyedChild n c) (hnum : c.child_num ≠ none) :
    0 < c.child_num.getD 0 := by
  have hc := h.children
  rwa [innerExpand_expanded hnum] at hc

/-- The parent is expanded, and stays what it is. -/
theorem KeyedChild.findChild_eq {n' : KnvNode} (h : KeyedChild n c) (htag : n'.tag = n.tag)
    (hnum : n'.child_num = n.child_num) (t : UInt32) (k : List UInt8) :
    n'.findChild t k = (n'.ht.get n'.childView t k).bind (findRef n'.childlist) := by
  have hpos : 0 < n.childlist.length := List.length_pos_of_mem h.mem
  have hn : n'.child_num = some n.childlist.length := hnum.trans h.indexed.child_num
  rw [findChild, if_neg (by rw [htag]; exact h.parent_tag)]
  simp only [innerExpand_expanded (show n'.child_num ≠ none by rw [hn]; exact Option.some_ne_none _), hn]
  rw [if_neg (by rw [Option.getD_some]; omega)]

/-- The end of the call: the parent is told, which its index and its list do not notice. -/
theorem childEdited_eq (n : KnvNode) (offset : Int) : ∃ val dirty sz val_sz,
    (n.childEdited offset).1 =
      { n with val := val, subnode_dirty := dirty, eval_sz := sz, eval_val_sz := val_sz } := by
  rw [childEdited, updateEvalSz]
  by_cases hsz : 0 ≤ n.eval_sz
  · by_cases ho : offset = 0
    · simp only [if_pos hsz, if_pos ho]
      split
      · exact ⟨n.val, n.subnode_dirty, n.eval_sz, n.eval_val_sz, by cases n; rfl⟩
      · exact ⟨_, _, _, _, rfl⟩
    · simp only [if_pos hsz, if_neg ho]
      split
      · exact ⟨_, _, _, _, rfl⟩
      · exact ⟨_, _, _, _, rfl⟩
  · simp only [if_neg hsz]
    split
    · exact ⟨n.val, n.subnode_dirty, n.eval_sz, n.eval_val_sz, by cases n; rfl⟩
    · exact ⟨_, _, _, _, rfl⟩

theorem findRef_replaceRef_self {l : List KnvNode} {c c' : KnvNode} (hc : c ∈ l)
    (href : c'.ref = c.ref) : findRef (replaceRef c' l) c.ref = some c' := by
  induction l with
  | nil => exact absurd hc List.not_mem_nil
  | cons x l ih =>
    show List.find? _ ((if x.ref = c'.ref then c' else x) :: replaceRef c' l) = some c'
    by_cases hx : x.ref = c'.ref
    · rw [if_pos hx, List.find?_cons_of_pos]
      exact decide_eq_true href
    · rw [if_neg hx, List.find?_cons_of_neg]
      · refine ih ((List.mem_cons.mp hc).resolve_left ?_)
        rintro rfl
        exact hx href.symm
      · rw [decide_eq_true_iff, ← href]
        exact hx

/-- The pointer to the child leads to what the child has become. -/
theorem childView_replaced {n c c' : KnvNode} {l : List KnvNode} (hlist : n.childlist = replaceRef c' l)
    (hc : c ∈ l) (href : c'.ref = c.ref) : n.childView c.ref = (c'.tag, c'.key.val) := by
  have hf := findRef_replaceRef_self hc href
  unfold childView
  rw [hlist]
  unfold findRef at hf
  rw [hf]

/-- A child that is not expanded is not checked: its key is what the bytes say, and it is found under
    it. -/
theorem KeyedChild.folded (h : KeyedChild n c) (hnum : c.child_num = none) :
    ((n.setChildValue c s).1.findChild c.tag (keyOfValue s).1.val).map (fun x => x.ref) =
      some c.ref := by
  have hcheck : c.checkKey s = c := by
    rw [checkKey, if_neg]
    rw [hnum]
    rintro (hlt | ⟨he, -⟩)
    · exact absurd hlt (Nat.lt_irrefl 0)
    · cases he
  obtain ⟨num, sz, val_sz, ms, cs, he⟩ := setStrValue_eq c s
  rw [if_pos h.key] at he
  rw [setChildValue, hcheck]
  simp only [h.key, if_true]
  generalize c.setStrValue s = q at he
  obtain ⟨c', offset⟩ := q
  replace he : c' = _ := he
  have href : c'.ref = c.ref := by rw [he]
  have htag : c'.tag = c.tag := by rw [he]
  have hkey : c'.key = (keyOfValue s).1 := by rw [he]
  have hc : c ∈ replaceRef c n.childlist := mem_replaceRef h.mem rfl
  simp only
  generalize (KnvHt.remove _ _ c.ref).getD _ = ht
  generalize hn' : (childEdited _ offset).1 = n'
  obtain ⟨val, dirty, sz, val_sz, he'⟩ := childEdited_eq _ offset
  rw [hn'] at he'
  have hlist : n'.childlist = replaceRef c' (replaceRef c n.childlist) := by rw [he']
  have hview : n'.childView = ({ n with
      childlist := replaceRef c' (replaceRef c n.childlist) } : KnvNode).childView := by
    funext r
    exact childView_congr (by rw [hlist])
  have hht : n'.ht = ht.put n'.childView c.ref := by
    rw [hview, he']
  have hget := KnvHt.get_put n'.childView ht c.ref
  rw [childView_replaced hlist hc href, htag, hkey] at hget
  rw [h.findChild_eq (by rw [he']) (by rw [he']), hht, hget, Option.bind_some, hlist,
    findRef_replaceRef_self hc href, Option.map_some, href]

/-- An expanded child loses its key to the check, and is not found under it. -/
theorem KeyedChild.opened (h : KeyedChild n c) (hnum : c.child_num ≠ none) {f : PbField}
    {rest : List UInt8} (hf : pbBegin s = .ok (f, rest)) (htag1 : f.tag = 1) :
    ((n.setChildValue c s).1.findChild c.tag c.key.val).map (fun x => x.ref) ≠ some c.ref := by
  have hcheck : c.checkKey s = { c with key := KnvKey.none .string } := by
    rw [checkKey, if_pos (.inl (h.expanded hnum)), if_pos h.key, hf]
    simp only [htag1, ne_eq, not_true_eq_false, if_false]
  have hw : (c.checkKey s).writesKey = false := by
    rw [hcheck]
    exact Bool.and_false _
  obtain ⟨num, sz, val_sz, ms, cs, he⟩ := setStrValue_eq (c.checkKey s) s
  rw [hw, if_neg (by decide)] at he
  rw [setChildValue]
  simp only [hw, Bool.false_eq_true, if_false]
  generalize (c.checkKey s).setStrValue s = q at he
  obtain ⟨c', offset⟩ := q
  replace he : c' = _ := he
  have href : c'.ref = c.ref := by rw [he, hcheck]
  have hkey : c'.key.val = [] := by
    rw [he, hcheck]
    rfl
  have hc : c.checkKey s ∈ replaceRef (c.checkKey s) n.childlist :=
    mem_replaceRef h.mem (by rw [hcheck])
  have href' : c'.ref = (c.checkKey s).ref := by rw [href, hcheck]
  simp only
  generalize hn' : (childEdited _ offset).1 = n'
  obtain ⟨val, dirty, sz, val_sz, he'⟩ := childEdited_eq _ offset
  rw [hn'] at he'
  have hlist : n'.childlist = replaceRef c' (replaceRef (c.checkKey s) n.childlist) := by rw [he']
  have hat : n'.childView c.ref = (c'.tag, c'.key.val) := by
    have := childView_replaced hlist hc href'
    rwa [show (c.checkKey s).ref = c.ref by rw [hcheck]] at this
  rw [h.findChild_eq (by rw [he']) (by rw [he'])]
  intro hfound
  obtain ⟨x, hx, hxr⟩ := Option.map_eq_some_iff.mp hfound
  obtain ⟨r, hget, hfind⟩ := Option.bind_eq_some_iff.mp hx
  have hr : x.ref = r := of_decide_eq_true (List.find?_some (p := fun m : KnvNode =>
    decide (m.ref = r)) hfind)
  have hview := KnvHt.view_of_get hget
  rw [← hr, hxr, hat, hkey] at hview
  exact h.key_ne (Prod.mk.inj hview).2.symm

/-- **`SetValue` keeps the key of a child with a key and children exactly if the child is not expanded
    and the bytes begin with its own key.** -/
theorem keepsKey_iff (h : KeyedChild n c) {f : PbField} {rest : List UInt8}
    (hf : pbBegin s = .ok (f, rest)) (htag : f.tag = 1) :
    KeepsKey n c s (KnvKey.init f.val) ↔ c.child_num = none ∧ KnvKey.init f.val = c.key := by
  have hkey : (keyOfValue s).1 = KnvKey.init f.val := by
    rw [keyOfValue, hf]
    exact if_pos htag
  unfold KeepsKey
  rw [h.setValueOf s]
  constructor
  · rintro ⟨hsame, hother⟩
    by_cases hk : KnvKey.init f.val = c.key
    · refine ⟨?_, hk⟩
      by_contra hnum
      exact h.opened hnum hf htag (hsame hk).2
    · exact absurd (hother hk).1 (show ¬ (0 : Int) < 0 by decide)
  · rintro ⟨hnum, hk⟩
    refine ⟨fun _ => ⟨rfl, ?_⟩, fun hne => absurd hk hne⟩
    have hfound := h.folded (s := s) hnum
    rwa [hkey, hk] at hfound

/-- A parent that was read with one child: the key "k" and an integer. -/
def keyedParent : KnvNode :=
  (initNode 20 (.string [0xAA, 1, 6, 10, 1, 107, 0xF0, 1, 1]) true 0 false).innerExpand false false

def keyedChild : KnvNode := initNode 21 (.string [10, 1, 107, 0xF0, 1, 1]) true 9 false

theorem keyedParent_childlist : keyedParent.childlist = [keyedChild] := rfl

theorem keyedParent_indexed : Indexed keyedParent := by
  have hf : pbFields [0xAA, 1, 6, 10, 1, 107, 0xF0, 1, 1] =
      some ([(⟨21, .string [10, 1, 107, 0xF0, 1, 1]⟩, 9)], true) := by decide
  exact (innerExpand_grown rfl rfl rfl hf (by decide) false).1.indexed

theorem keyedChild_keyed : KeyedChild keyedParent keyedChild where
  parent_tag := by decide
  indexed := keyedParent_indexed
  mem := by rw [keyedParent_childlist]; exact List.mem_singleton_self _
  tag := by decide
  isString := rfl
  key := by decide
  children := by decide

/-- The child before it is expanded, with its own key. -/
theorem keepsKey_iff_folded :
    KeepsKey keyedParent keyedChild [10, 1, 107] (KnvKey.init (.string [107])) ↔
      keyedChild.child_num = none ∧ KnvKey.init (.string [107]) = keyedChild.key :=
  keepsKey_iff keyedChild_keyed
    (show pbBegin [10, 1, 107] = .ok (⟨1, .string [107]⟩, []) by decide) rfl

/-- The child after `GetChildNum`. -/
def openedChild : KnvNode := keyedChild.innerExpand false false

def openedParent : KnvNode := { keyedParent with childlist := [openedChild] }

theorem openedChild_keyed : KeyedChild openedParent openedChild where
  parent_tag := by decide
  indexed :=
    { child_num := rfl
      child_has_key := fun _ _ _ => rfl
      refs := by
        intro x hx
        rw [List.mem_singleton.mp hx]
        decide
      nodup := List.nodup_singleton _
      ht := keyedParent_indexed.ht.congr _ fun r hr => by
        rw [keyedParent_childlist] at hr
        rw [List.mem_singleton.mp hr]
        decide }
  mem := List.mem_singleton_self _
  tag := by decide
  isString := rfl
  key := by decide
  children := by decide

/-- **The expanded child loses its key to its own key, and takes another one.** -/
theorem openedChild_not_keepsKey : KeyedChild openedParent openedChild ∧
    ¬ KeepsKey openedParent openedChild [10, 1, 107] (KnvKey.init (.string [107])) ∧
    ¬ KeepsKey openedParent openedChild [10, 1, 108] (KnvKey.init (.string [108])) := by
  refine ⟨openedChild_keyed, ?_, ?_⟩
  · rintro ⟨hsame, -⟩
    have hfound := (hsame (by decide)).2
    rw [openedChild_keyed.setValueOf] at hfound
    have hf : pbBegin [10, 1, 107] = .ok (⟨1, .string [107]⟩, []) := by decide
    exact openedChild_keyed.opened (by decide) hf rfl hfound
  · rintro ⟨-, hother⟩
    exact absurd (hother (by decide)).1 (by decide)

end KnvNode

end MysqlProxy
