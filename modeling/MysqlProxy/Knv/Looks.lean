/-
  Reading a received tree.

  The calls that read (`GetChildNum`, `FindChild`, `FindChildByTag`, `GetMeta`, `GetFirstField`,
  `GetNextField`, `GetStrVal`, `EvaluateSize`, `GetSubTree`, `MakeRequestTree`) write all the same:
  they expand nodes, keep sizes they have computed, and fold.  `Look.run` is what a call leaves of the
  node it is called on.

  * `Resting`: a node whose value is up to date and whose size is known.  Nothing is left to keep or
    to fold in it.
  * `Look.expands`: what a read leaves of a resting tree is the tree, expanded further.
  * `serializeString_looks`: however a received tree is read, it is written as it came.

  Modelling choices.
  * `GetSubTree` goes down two trees, and leaves something of both: `askTree`.  What it returns is in
    `SubTree.lean`.  The two trees share no node.
  * The request is expanded on the way, so that the depth of the recursion is bounded by `fuel`.
-/
import MysqlProxy.Knv.Looking
import MysqlProxy.Knv.SubTree
import MysqlProxy.Knv.RequestTree
import MysqlProxy.Lib.Run

namespace MysqlProxy

namespace KnvNode

/-! ## What the calls leave -/

mutual
/-- `EvaluateSize` keeps what it has computed. -/
def leftByEvaluate : KnvNode → KnvNode
  | ⟨d, metalist, childlist⟩ =>
    let n : KnvNode := ⟨d, metalist, childlist⟩
    if 0 ≤ d.eval_sz then n
    else
      let (eval_sz, eval_val_sz) := evaluateSize n
      if n.isFolded then { n with eval_sz := eval_sz, eval_val_sz := eval_val_sz }
      else
        ⟨{ d with eval_sz := eval_sz, eval_val_sz := eval_val_sz },
          leftByEvaluateList metalist n.skipsFirst, leftByEvaluateList childlist false⟩

/-- The loops over the metas and over the children. -/
def leftByEvaluateList : List KnvNode → Bool → List KnvNode
  | [], _ => []
  | n :: l, skip => (if skip then n else leftByEvaluate n) :: leftByEvaluateList l false
end

/-- `Fold` -/
def leftByFold (n : KnvNode) : KnvNode :=
  if n.tag = 0 ∨ n.isFolded then n
  else match n.leftByEvaluate.fold with
    | .ok n' => n'
    | .error _ => n.leftByEvaluate

/-- `InnerDuplicate` of a node evaluates the size if its value is out of date. -/
def leftByDuplicate (n : KnvNode) : KnvNode :=
  if n.isString ∧ n.str = [] ∧ n.child_num ≠ none then n.leftByEvaluate else n

/-- `Expand`; `p` says whether the node has a parent with a key. -/
def leftByExpand (n : KnvNode) (p : Bool) : KnvNode := if n.tag = 0 then n else n.innerExpand p false

/-- Put `m` in the place of the first node with the `ref` `r`. -/
def setRef (r : Nat) (m : KnvNode) : List KnvNode → List KnvNode
  | [] => []
  | x :: l => if x.ref = r then m :: l else x :: setRef r m l

/-- What is left of the data and of the request, and whether the call succeeds. -/
abbrev Ask : Type := KnvNode → KnvNode → KnvNode × KnvNode × Bool

/-- The loop over the metas of the request: the metas of the data that are asked for are folded. -/
def askMetas : List KnvNode → KnvNode → KnvNode × Bool
  | [], data => (data, true)
  | m :: ms, data =>
    if m.tag ≠ 1 ∧ m.val.type = .varint ∧ m.getIntVal ≠ 0 then
      match data.metas m.tag.toNat with
      | none => askMetas ms data
      | some r =>
        match findRef data.metalist r with
        | none => (data, false)
        | some md =>
          let data := { data with metalist := setRef r md.leftByFold data.metalist }
          if md.fold.isOk then askMetas ms data else (data, false)
    else askMetas ms data

/-- The loop over the children that a sub-request is matched with. -/
def askMatches (ask : Ask) : List Nat → KnvNode → KnvNode → KnvNode × KnvNode × Bool
  | [], data, sub_req => (data, sub_req, true)
  | r :: refs, data, sub_req =>
    match findRef data.childlist r with
    | none => askMatches ask refs data sub_req
    | some sub_data =>
      let (sub_data, sub_req, ok) := ask sub_data sub_req
      let data := { data with childlist := setRef r sub_data data.childlist }
      if ok then askMatches ask refs data sub_req else (data, sub_req, false)

/-- The loop over the children of the request. -/
def askChildren (no_empty : Bool) (ask : Ask) : List KnvNode → KnvNode →
    KnvNode × List KnvNode × Bool
  | [], data => (data, [], true)
  | sub_req :: l, data =>
    let refs := data.matchRefs sub_req
    let (data, sub_req, ok) :=
      if refs = [] then
        if no_empty then (data, sub_req, true)
        else (data, sub_req.leftByDuplicate, (sub_req.innerDuplicate true).isSome)
      else askMatches ask refs data sub_req
    if ok then
      let (data, l, ok) := askChildren no_empty ask l data
      (data, sub_req :: l, ok)
    else (data, sub_req :: l, false)

/-- What `InnerGetSubTree` leaves of the data and of the request; `p` and `q` say whether these have
    a parent with a key. -/
def askTree (no_empty : Bool) : Nat → Bool → Bool → Ask
  | 0, _, _, data, req_tree => (data, req_tree, false)
  | fuel + 1, p, q, data, req_tree =>
    if !req_tree.isString && req_tree.getIntVal = 0 then (data, req_tree, true)
    else
      let req_tree := req_tree.innerExpand q false
      if req_tree.child_num.getD 0 = 0 then
        (data.leftByDuplicate, req_tree, (data.innerDuplicate true).isSome)
      else
        let data := data.innerExpand p (!req_tree.child_has_key)
        if data.child_num.getD 0 = 0 then
          if no_empty then (data, req_tree, true)
          else (data, req_tree.leftByDuplicate, (req_tree.innerDuplicate true).isSome)
        else
          match askMetas req_tree.metalist data with
          | (data, false) => (data, req_tree, false)
          | (data, true) =>
            let (data, childlist, ok) := askChildren no_empty
              (askTree no_empty fuel (data.key.val ≠ []) (req_tree.key.val ≠ []))
                req_tree.childlist data
            (data, { req_tree with childlist := childlist }, ok)

/-- What `GetSubTree` leaves. -/
def askRoot (no_empty : Bool) (fuel : Nat) (p q : Bool) : Ask := fun data req_tree =>
  if req_tree.tag = 0 then (data, req_tree, false)
  else if data.tag ≠ req_tree.tag ∨ (req_tree.key.val ≠ [] ∧ data.key ≠ req_tree.key) then
    (data, req_tree, true)
  else askTree no_empty fuel p q data req_tree

end KnvNode

open KnvNode

/-- A call that reads.  Of the other tree of `GetSubTree` it is said whether it has a parent with a
    key. -/
inductive Look where
  | getChildNum
  | findChild (t : UInt32) (k : List UInt8)
  | findChildByTag (t : UInt32)
  | getMeta (t : UInt32)
  | getFirstField (t : UInt32)
  | getNextField (cur : KnvNode) (t : UInt32)
  | getStrVal
  | evaluateSize
  | getSubTree (req_tree : KnvNode) (q no_empty : Bool) (fuel : Nat)
  | requestFor (data : KnvNode) (q no_empty : Bool) (fuel : Nat)
  | makeRequestTree (max_level : Int)

/-- What a call leaves of the node it is called on. -/
def Look.run (p : Bool) (n : KnvNode) : Look → KnvNode
  | .getChildNum => n.leftByExpand p
  | .findChild _ _ => n.leftByExpand p
  | .findChildByTag _ => n.leftByExpand p
  | .getMeta t => if UC_MAX_META_NUM < t.toNat then n else n.leftByExpand p
  | .getFirstField _ => n.leftByExpand p
  | .getNextField cur t =>
    -- behind the last meta comes the first child
    if t = 0 ∧ nextIn n.metalist cur.ref = none ∧
        (n.metalist.getLast?.map fun m => m.ref) = some cur.ref then n.leftByExpand p
    else n
  | .getStrVal => n.leftByFold
  | .evaluateSize => n.leftByEvaluate
  | .getSubTree req_tree q no_empty fuel => (askRoot no_empty fuel p q n req_tree).1
  | .requestFor data q no_empty fuel => (askRoot no_empty fuel q p data n).2.1
  | .makeRequestTree max_level => (n.requestTree (max_level + 1).toNat p).1

/-- A call on a node of the tree. -/
inductive LookAt (look : Look) : Bool → KnvNode → KnvNode → Prop
  | here {p : Bool} {n : KnvNode} : LookAt look p n (look.run p n)
  | inMeta {p : Bool} {n m m' : KnvNode} {l r : List KnvNode} : n.metalist = l ++ m :: r →
    LookAt look (n.key.val ≠ []) m m' → LookAt look p n { n with metalist := l ++ m' :: r }
  | inChild {p : Bool} {n c c' : KnvNode} {l r : List KnvNode} : n.childlist = l ++ c :: r →
    LookAt look (n.key.val ≠ []) c c' → LookAt look p n { n with childlist := l ++ c' :: r }

/-- A read of a tree. -/
def ReadStep (n n' : KnvNode) : Prop := ∃ look, LookAt look false n n'

namespace KnvNode

/-! ## Resting nodes -/

/-- The value is up to date and the size is known. -/
structure Resting (n : KnvNode) : Prop where
  folded : n.isFolded = true
  sized : 0 ≤ n.eval_sz

variable {n n' : KnvNode}

theorem Resting.leftByEvaluate (h : Resting n) : n.leftByEvaluate = n := by
  obtain ⟨d, ms, cs⟩ := n
  rw [KnvNode.leftByEvaluate]
  exact if_pos h.sized

theorem Resting.leftByFold (h : Resting n) : n.leftByFold = n := if_pos (.inr h.folded)

theorem Resting.leftByDuplicate (h : Resting n) : n.leftByDuplicate = n := by
  rw [KnvNode.leftByDuplicate, h.leftByEvaluate, ite_self]

theorem resting_initNode (tag : UInt32) (val : FieldVal) (sz : Nat) (k : Bool) (r : Nat) :
    Resting { initNode tag val true sz k with ref := r } where
  folded := isFolded_of_isFlat (isFlat_of_nothing (initNode_child_num tag val sz k) rfl)
  sized := by
    show 0 ≤ (if true = true then (if 0 < sz then (sz : Int) else _) else 0)
    rw [if_pos rfl]
    split
    · omega
    · exact Int.natCast_nonneg _

/-- **Reads keep a tree at rest.** -/
theorem lasting_resting : Lasting Resting where
  expand := by
    intro n p k h hnum
    have hhead := innerExpand_head n p k
    simp only [head, Prod.mk.injEq] at hhead
    refine ⟨⟨isFolded_innerExpand hnum p k, ?_⟩, fun m hm => ?_⟩
    · rw [hhead.2.2.2.2.2.1]
      exact h.sized
    · obtain ⟨fs, q, b, -, -, r, rfl⟩ := mem_innerExpand hnum hm
      exact everywhere_of_flat (resting_initNode q.1.tag q.1.val q.2 b r) rfl rfl
  lists := by
    intro n ms cs h hms
    refine ⟨?_, h.sized⟩
    have hempty : ms.isEmpty = n.metalist.isEmpty := by
      rw [Bool.eq_iff_iff, List.isEmpty_iff, List.isEmpty_iff]
      exact hms
    have hfold := h.folded
    rw [isFolded, isFlat] at hfold ⊢
    show (_ || _ || (_ && ms.isEmpty) || _) = true
    rw [hempty]
    exact hfold

/-! ## Runs of expansions -/

/-- Expanded further, in any number of steps. -/
abbrev Further : KnvNode → KnvNode → Prop := Relation.ReflTransGen Expands

theorem Further.resting (h : Further n n') (hn : Everywhere Resting n) : Everywhere Resting n' :=
  run_invariant h hn fun hs hstep => Everywhere.expands lasting_resting hstep hs

theorem further_innerExpand (n : KnvNode) (p k : Bool) : Further n (n.innerExpand p k) :=
  .single (.here p k)

theorem further_leftByExpand (n : KnvNode) (p : Bool) : Further n (n.leftByExpand p) := by
  rw [leftByExpand]
  split
  · exact .refl
  · exact further_innerExpand n p false

theorem Further.inMeta {m m' : KnvNode} {l r : List KnvNode} (hn : n.metalist = l ++ m :: r)
    (h : Further m m') : Further n { n with metalist := l ++ m' :: r } := by
  induction h with
  | refl =>
    rw [← hn]
    cases n
    exact .refl
  | @tail m₁ m₂ _ hstep ih =>
    exact ih.tail (Expands.inMeta (n := { n with metalist := l ++ m₁ :: r }) rfl hstep)

theorem Further.inChild {c c' : KnvNode} {l r : List KnvNode} (hn : n.childlist = l ++ c :: r)
    (h : Further c c') : Further n { n with childlist := l ++ c' :: r } := by
  induction h with
  | refl =>
    rw [← hn]
    cases n
    exact .refl
  | @tail c₁ c₂ _ hstep ih =>
    exact ih.tail (Expands.inChild (n := { n with childlist := l ++ c₁ :: r }) rfl hstep)

/-- All the children are expanded further. -/
theorem further_children {l l' : List KnvNode} (h : List.Forall₂ Further l l') :
    ∀ {n : KnvNode} (done : List KnvNode), n.childlist = done ++ l →
      Further n { n with childlist := done ++ l' } := by
  induction h with
  | nil =>
    intro n done hn
    rw [← hn]
    cases n
    exact .refl
  | @cons c c' l l' hc _ ih =>
    intro n done hn
    have hfirst := Further.inChild hn hc
    have hlist : done ++ c' :: l = (done ++ [c']) ++ l := by
      rw [List.append_assoc, List.singleton_append]
    have hrest := ih (n := { n with childlist := done ++ c' :: l }) (done ++ [c']) hlist
    rw [List.append_assoc, List.singleton_append] at hrest
    exact hfirst.trans hrest

theorem setRef_split {l : List KnvNode} {r : Nat} {c : KnvNode} (h : findRef l r = some c)
    (m : KnvNode) : ∃ l₁ l₂, l = l₁ ++ c :: l₂ ∧ setRef r m l = l₁ ++ m :: l₂ := by
  induction l with
  | nil => cases h
  | cons x l ih =>
    rw [findRef, List.find?_cons] at h
    rw [setRef]
    by_cases hx : x.ref = r
    · rw [decide_eq_true hx] at h
      obtain rfl : x = c := Option.some.inj h
      rw [if_pos hx]
      exact ⟨[], l, rfl, rfl⟩
    · rw [decide_eq_false hx] at h
      obtain ⟨l₁, l₂, hl, hs⟩ := ih h
      rw [if_neg hx, hs, hl]
      exact ⟨x :: l₁, l₂, rfl, rfl⟩

/-! ## Reads expand -/

/-- Of trees at rest the call leaves the same trees, expanded further. -/
def Gentle (data req : KnvNode) (left : KnvNode × KnvNode × Bool) : Prop :=
  (Everywhere Resting data → Further data left.1) ∧
    (Everywhere Resting req → Further req left.2.1)

theorem gentle_refl (data req : KnvNode) (ok : Bool) : Gentle data req (data, req, ok) :=
  ⟨fun _ => .refl, fun _ => .refl⟩

theorem Gentle.trans {data req data' req' : KnvNode} {ok : Bool}
    {left : KnvNode × KnvNode × Bool} (h : Gentle data req (data', req', ok))
    (h' : Gentle data' req' left) : Gentle data req left :=
  ⟨fun hd => (h.1 hd).trans (h'.1 ((h.1 hd).resting hd)),
    fun hr => (h.2 hr).trans (h'.2 ((h.2 hr).resting hr))⟩

theorem Resting.further_leftByDuplicate (h : Everywhere Resting n) : Further n n.leftByDuplicate := by
  rw [h.self.leftByDuplicate]

theorem everywhere_meta {m : KnvNode} {l r : List KnvNode} (h : Everywhere Resting n)
    (hn : n.metalist = l ++ m :: r) : Everywhere Resting m := by
  cases h with
  | intro _ hms _ =>
    refine hms m ?_
    rw [hn]
    exact List.mem_append_right _ List.mem_cons_self

theorem everywhere_child {c : KnvNode} {l r : List KnvNode} (h : Everywhere Resting n)
    (hn : n.childlist = l ++ c :: r) : Everywhere Resting c := by
  cases h with
  | intro _ _ hcs =>
    refine hcs c ?_
    rw [hn]
    exact List.mem_append_right _ List.mem_cons_self

/-- Nothing is left to fold in the metas. -/
theorem askMetas_resting (ms : List KnvNode) (h : Everywhere Resting n) :
    (askMetas ms n).1 = n := by
  induction ms with
  | nil => rfl
  | cons m ms ih =>
    rw [askMetas]
    split
    · split
      · exact ih
      · split
        · rfl
        · rename_i r _ _ md hmd
          obtain ⟨l₁, l₂, hl, hset⟩ := setRef_split hmd md.leftByFold
          have hmd' := (everywhere_meta h hl).self.leftByFold
          rw [hmd', ← hl] at hset
          have hsame : ({ n with metalist := setRef r md.leftByFold n.metalist } : KnvNode) = n := by
            rw [hmd', hset]
            cases n
            rfl
          rw [hsame]
          split
          · exact ih
          · rfl
    · exact ih

theorem gentle_askMatches {ask : Ask} (hask : ∀ data req, Gentle data req (ask data req))
    (refs : List Nat) : ∀ data req, Gentle data req (askMatches ask refs data req) := by
  induction refs with
  | nil => exact fun data req => gentle_refl data req true
  | cons r refs ih =>
    intro data req
    rw [askMatches]
    split
    · exact ih data req
    · rename_i c hc
      obtain ⟨hdata, hreq⟩ := hask c req
      obtain ⟨l₁, l₂, hl, hset⟩ := setRef_split hc (ask c req).1
      have hstep : ∀ ok, Gentle data req
          ({ data with childlist := setRef r (ask c req).1 data.childlist }, (ask c req).2.1, ok) :=
        fun ok => ⟨fun hd => by
          rw [hset]
          exact Further.inChild hl (hdata (everywhere_child hd hl)), hreq⟩
      show Gentle data req (if (ask c req).2.2 then askMatches ask refs _ (ask c req).2.1
        else (_, (ask c req).2.1, false))
      split
      · exact (hstep true).trans (ih _ _)
      · exact hstep false

/-- A sub-request without a match is copied. -/
theorem gentle_askMissed (no_empty : Bool) (data req : KnvNode) : Gentle data req
    (if no_empty then (data, req, true)
      else (data, req.leftByDuplicate, (req.innerDuplicate true).isSome)) := by
  split
  · exact gentle_refl data req true
  · exact ⟨fun _ => .refl, fun hr => Resting.further_leftByDuplicate hr⟩

theorem gentle_askChildren (no_empty : Bool) {ask : Ask}
    (hask : ∀ data req, Gentle data req (ask data req)) (l : List KnvNode) : ∀ data,
      (Everywhere Resting data → Further data (askChildren no_empty ask l data).1) ∧
        ((∀ c ∈ l, Everywhere Resting c) →
          List.Forall₂ Further l (askChildren no_empty ask l data).2.1) := by
  induction l with
  | nil => exact fun data => ⟨fun _ => .refl, fun _ => .nil⟩
  | cons c l ih =>
    intro data
    have hfirst : Gentle data c (if data.matchRefs c = [] then
        if no_empty then (data, c, true) else (data, c.leftByDuplicate, (c.innerDuplicate true).isSome)
        else askMatches ask (data.matchRefs c) data c) := by
      split
      · exact gentle_askMissed no_empty data c
      · exact gentle_askMatches hask _ data c
    rw [askChildren]
    generalize (if data.matchRefs c = [] then
      if no_empty then (data, c, true) else (data, c.leftByDuplicate, (c.innerDuplicate true).isSome)
      else askMatches ask (data.matchRefs c) data c) = left at hfirst ⊢
    obtain ⟨data', c', ok⟩ := left
    obtain ⟨hdata, hreq⟩ := hfirst
    cases ok with
    | false =>
      refine ⟨hdata, fun hl => .cons (hreq (hl c List.mem_cons_self)) ?_⟩
      exact List.forall₂_same.mpr fun _ _ => .refl
    | true =>
      obtain ⟨hdata', hrest⟩ := ih data'
      exact ⟨fun hd => (hdata hd).trans (hdata' ((hdata hd).resting hd)),
        fun hl => .cons (hreq (hl c List.mem_cons_self))
          (hrest fun x hx => hl x (List.mem_cons_of_mem c hx))⟩

/-- **`GetSubTree` expands both trees**, and does nothing else to them. -/
theorem gentle_askTree (no_empty : Bool) (fuel : Nat) : ∀ (p q : Bool) (data req : KnvNode),
    Gentle data req (askTree no_empty fuel p q data req) := by
  induction fuel with
  | zero => exact fun p q data req => gentle_refl data req false
  | succ fuel ih =>
    intro p q data req
    rw [askTree]
    split
    · exact gentle_refl data req true
    have hreq : ∀ ok, Gentle data req (data, req.innerExpand q false, ok) := fun ok =>
      ⟨fun _ => .refl, fun _ => further_innerExpand req q false⟩
    generalize req.innerExpand q false = req' at hreq ⊢
    refine (hreq true).trans ?_
    dsimp only
    split
    · exact ⟨fun hd => Resting.further_leftByDuplicate hd, fun _ => .refl⟩
    have hdata : Gentle data req' (data.innerExpand p (!req'.child_has_key), req', true) :=
      ⟨fun _ => further_innerExpand data p _, fun _ => .refl⟩
    generalize data.innerExpand p (!req'.child_has_key) = data' at hdata ⊢
    refine hdata.trans ?_
    split
    · exact gentle_askMissed no_empty data' req'
    have hmetas : ∀ ok, Gentle data' req' ((askMetas req'.metalist data').1, req', ok) := fun ok =>
      ⟨fun hd => by rw [askMetas_resting _ hd], fun _ => .refl⟩
    cases hm : askMetas req'.metalist data' with
    | mk data'' ok =>
      rw [hm] at hmetas
      cases ok with
      | false => exact hmetas false
      | true =>
        refine (hmetas true).trans ?_
        obtain ⟨hd, hr⟩ := gentle_askChildren no_empty
          (ih (data''.key.val ≠ []) (req'.key.val ≠ [])) req'.childlist data''
        refine ⟨hd, fun hs => ?_⟩
        cases hs with
        | intro _ _ hcs => exact further_children (hr hcs) [] rfl

theorem gentle_askRoot (no_empty : Bool) (fuel : Nat) (p q : Bool) (data req : KnvNode) :
    Gentle data req (askRoot no_empty fuel p q data req) := by
  rw [askRoot]
  split
  · exact gentle_refl data req false
  · split
    · exact gentle_refl data req true
    · exact gentle_askTree no_empty fuel p q data req

theorem further_makeRequests {make : KnvNode → KnvNode × Option KnvNode}
    (hmake : ∀ n, Further n (make n).1) (start : Option KnvNode) (l : List KnvNode) :
    ∀ new_tr, List.Forall₂ Further l (makeRequests make start l new_tr).1 := by
  induction l with
  | nil => exact fun _ => .nil
  | cons c l ih =>
    intro new_tr
    have hrest : List.Forall₂ Further l l := List.forall₂_same.mpr fun _ _ => .refl
    have hc := hmake c
    rw [makeRequests]
    split
    · exact .cons .refl hrest
    · split
      · rename_i heq
        rw [heq] at hc
        exact .cons hc hrest
      · rename_i heq
        rw [heq] at hc
        exact .cons hc (ih _)

/-- **`MakeRequestTree` expands the tree.** -/
theorem further_requestTree (levels : Nat) : ∀ (p : Bool) (n : KnvNode),
    Further n (n.requestTree levels p).1 := by
  induction levels with
  | zero => exact fun p n => .refl
  | succ levels ih =>
    intro p n
    rw [requestTree]
    split
    · exact .refl
    refine (further_innerExpand n p false).trans ?_
    generalize n.innerExpand p false = m
    dsimp only
    split
    · exact .refl
    · exact further_children (further_makeRequests (ih _) _ m.childlist none) [] rfl

theorem further_run (look : Look) (p : Bool) (h : Everywhere Resting n) :
    Further n (look.run p n) := by
  have hexp := further_leftByExpand n p
  cases look with
  | getChildNum => exact hexp
  | findChild t k => exact hexp
  | findChildByTag t => exact hexp
  | getMeta t =>
    rw [Look.run]
    split
    · exact .refl
    · exact hexp
  | getFirstField t => exact hexp
  | getNextField cur t =>
    rw [Look.run]
    split
    · exact hexp
    · exact .refl
  | getStrVal =>
    rw [Look.run, h.self.leftByFold]
  | evaluateSize =>
    rw [Look.run, h.self.leftByEvaluate]
  | getSubTree req_tree q no_empty fuel => exact (gentle_askRoot no_empty fuel p q n req_tree).1 h
  | requestFor data q no_empty fuel => exact (gentle_askRoot no_empty fuel q p data n).2 h
  | makeRequestTree max_level => exact further_requestTree _ p n

/-- **A read expands**, on whatever node of the tree it is. -/
theorem Look.expands {look : Look} {p : Bool} (h : LookAt look p n n') :
    Everywhere Resting n → Further n n' := by
  induction h with
  | here => exact further_run look _
  | inMeta hl _ ih => exact fun hn => Further.inMeta hl (ih (everywhere_meta hn hl))
  | inChild hl _ ih => exact fun hn => Further.inChild hl (ih (everywhere_child hn hl))

/-- Any reads of a tree at rest. -/
theorem looks_further (hrun : Relation.ReflTransGen ReadStep n n') (hn : Everywhere Resting n) :
    Further n n' := by
  induction hrun with
  | refl => exact .refl
  | tail _ hstep ih =>
    obtain ⟨look, hlook⟩ := hstep
    exact ih.trans (Look.expands hlook (ih.resting hn))

theorem Further.serializeString (h : Further n n') : n'.serializeString = n.serializeString :=
  run_invariant (I := fun m => m.serializeString = n.serializeString) h rfl fun hs hstep =>
    (Expands.same hstep).1.serializeString.trans hs

end KnvNode

/-- **Looking does not change the bytes.** -/
theorem serializeString_looks {tag : UInt32} {s : List UInt8} (h0 : tag ≠ 0)
    (htag : tag.toNat < 2 ^ 29) (hlen : (fieldBytes tag (.string s)).length < 2 ^ 31) :
    ∃ n, newFromData (fieldBytes tag (.string s)) = .ok n ∧
      ∀ n', Relation.ReflTransGen ReadStep n n' →
        n'.serializeString = .ok (fieldBytes tag (.string s)) := by
  obtain ⟨f, hf⟩ : ∃ f : PbField, f = ⟨tag, .string s⟩ := ⟨_, rfl⟩
  have hsize : f.size < 2 ^ 31 := by
    rw [hf]
    show pbEvalFieldLength tag (.string s) < 2 ^ 31
    rw [← length_fieldBytes]
    exact hlen
  have hpos : 0 < f.tag.toNat := by
    rw [hf]
    exact Nat.pos_of_ne_zero fun h => h0 (UInt32.toNat_inj.mp h)
  have hnew := newFromData_fieldBytes hsize hpos (by rw [hf]; exact htag)
  rw [hf] at hnew
  refine ⟨_, hnew, fun n' hrun => ?_⟩
  have hrest : Everywhere Resting (initNode tag (.string s) true (⟨tag, .string s⟩ : PbField).size
      false) := everywhere_of_flat (resting_initNode tag (.string s) _ false 0) rfl rfl
  rw [(looks_further hrun hrest).serializeString]
  exact ((initNode_stands ⟨tag, .string s⟩ (.inr rfl) false).writes h0).serializeString

/-- A message in a message, looked at on both levels and asked for a part of it. -/
theorem serializeString_looks_nested : ∃ n,
    newFromData (fieldBytes 20 (.string [0x62, 2, 0x60, 1])) = .ok n ∧
      ∀ n', Relation.ReflTransGen ReadStep n n' →
        n'.serializeString = .ok (fieldBytes 20 (.string [0x62, 2, 0x60, 1])) :=
  serializeString_looks (by decide) (by decide) (by decide)

/-- A field with the tag 0 is read as a node, which is not valid and is not written. -/
theorem tag_zero_not_written : ¬ ∀ (tag : UInt32) (s : List UInt8) (n n' : KnvNode),
    tag.toNat < 2 ^ 29 → newFromData (fieldBytes tag (.string s)) = .ok n →
      Relation.ReflTransGen ReadStep n n' →
        n'.serializeString = .ok (fieldBytes tag (.string s)) := by
  intro hall
  have hread : (newFromData (fieldBytes 0 (.string []))).toOption.map serializeString =
      some (.error ⟨-2, "node is invalid"⟩) := by decide +kernel
  cases hnew : newFromData (fieldBytes 0 (.string [])) with
  | error e =>
    rw [hnew] at hread
    cases hread
  | ok n =>
    rw [hnew] at hread
    have hwrite := hall 0 [] n n (by decide) hnew .refl
    rw [Option.some.inj hread] at hwrite
    cases hwrite

end MysqlProxy
