/-
  Deleting what a request asks for (`DeleteSubTree`).

  A request is laid over the data as in `GetSubTree`, and what its LEAVES lie on is deleted.  A node
  that has lost all its children is deleted by its parent, which looks at how many are left.

  The parent does not ask whether there have been any.  A node that never had children, visited by a
  request that goes on below it, has none left either, and is deleted with nothing in it that was
  asked for, and without a trace in `match_req_tree`.

  * `Selected R c`, `Gone R p c`: a leaf of the requests `R` lies on the child `c`, or all that was
    in `c` is gone.
  * `Cut R p n n'`: `n'` is `n` without children that are `Gone`, in all depths.
  * `Careful req p data`: no visit meets a child without children, except to take it as a whole.
  * `Sane n`: the lists of children are in order, as they are in every tree that was read or built.

  Modelling choices.
  * A request is expanded, as for `GetSubTree`.
  * What a call tells the parents of the data is returned in the order of the calls of
    `UpdateParentEvalueAndSetDirty`; each parent takes it and passes it on.
-/
import MysqlProxy.Knv.RequestTree
import MysqlProxy.Knv.Opened

namespace MysqlProxy

namespace KnvNode

/-! ## `DeleteSubTree` -/

/-- `RemoveChildByPos`, for the child with a `ref`. -/
def removeChildByPos (n : KnvNode) (r : Nat) : KnvNode × List (Int × Bool) :=
  match findRef n.childlist r with
  | none => (n, [])
  | some c =>
    let (n, offset) := edited { n with
      ht := (n.ht.remove n.childView r).getD n.ht
      childlist := n.childlist.filter fun x => x.ref ≠ r
      child_num := n.child_num.map (· - 1) } (-(evaluateSize c).1)
    (n, [(offset, true)])

/-- The data, what its parents have been told, and the matches. -/
structure Cutting where
  data : KnvNode
  told : List (Int × Bool)
  match_req_tree : Option KnvNode

/-- What a call leaves: the data, what its parents have been told, and its failure, or whether the
    whole tree goes (it returns 1) and `match_req_tree`. -/
abbrev Deleted : Type := KnvNode × List (Int × Bool) × Except Int (Bool × Option KnvNode)

/-- `match_req_tree`, which is made when the first match comes. -/
def matchTree (req_tree : KnvNode) (m : Option KnvNode) : Option KnvNode :=
  m.or (newTree req_tree.tag (some req_tree.key.getValue)).toOption

/-- `match_req_tree` with what was matched in a child. -/
def gatherMatch (req_tree : KnvNode) (m : Option KnvNode) : Option KnvNode →
    Except Int (Option KnvNode)
  | none => .ok m
  | some sub_match =>
    match matchTree req_tree m with
    | none => .error (-5)
    | some t => .ok (some (t.innerInsertChild sub_match))

/-- The match of a request without children. -/
def wholeMatch (req_tree : KnvNode) : Option KnvNode :=
  if req_tree.key.val ≠ [] then (newTree req_tree.tag (some req_tree.key.getValue)).toOption
  else (newNode req_tree.tag none (.varint 1)).toOption

/-- The request has no children. -/
def isLeaf (req : KnvNode) : Bool := req.child_num.getD 0 = 0

/-- The children that a sub-request visits. -/
def visitRefs (n sub_req : KnvNode) : List Nat :=
  if sub_req.key.val ≠ [] then (n.ht.get n.childView sub_req.tag sub_req.key.val).toList
  else (n.childlist.filter fun c => c.tag = sub_req.tag).map fun c => c.ref

/-- The data with a child that a call has left, and what it has told. -/
def Cutting.withChild (st : Cutting) (c : KnvNode) (told : List (Int × Bool)) : Cutting :=
  let (data, told) := parentRounds (st.data.withChildren (replaceRef c st.data.childlist)) told
  { st with data := data, told := st.told ++ told }

def Cutting.dropChild (st : Cutting) (r : Nat) : Cutting :=
  let (data, told) := st.data.removeChildByPos r
  { st with data := data, told := st.told ++ told }

/-- `DELETE_SUBDATA_SUB_TREE` for the child with a `ref`, and what the parent does then. -/
def deleteVisit (req_tree : KnvNode) (delete : KnvNode → Deleted) (st : Cutting) (r : Nat) :
    Except (Int × Cutting) Cutting :=
  match findRef st.data.childlist r with
  | none => .ok st
  | some sub_data =>
    match delete sub_data with
    | (sub_data, told, .error _) => .error (-4, st.withChild sub_data told)
    | (sub_data, told, .ok (whole, sub_match)) =>
      match gatherMatch req_tree st.match_req_tree sub_match with
      | .error code => .error (code, st.withChild sub_data told)
      | .ok m =>
        let st := { st with match_req_tree := m }
        if whole then .ok ((st.withChild sub_data told).dropChild r)
        else
          -- `GetChildNum` expands the child
          let sub_data := sub_data.innerExpand (st.data.key.val ≠ []) false
          if sub_data.child_num.getD 0 = 0 then .ok ((st.withChild sub_data told).dropChild r)
          else .ok (st.withChild sub_data told)

/-- A sub-request without a key and without children: remove by tag. -/
def deleteByTag (req_tree sub_req : KnvNode) (st : Cutting) : Except (Int × Cutting) Cutting :=
  if sub_req.isString ∨ (sub_req.val.type = .varint ∧ sub_req.getIntVal ≠ 0) then
    let (data, offsets) := (st.data.removeChildrenByTag sub_req.tag).toOption.getD (st.data, [])
    let st := { st with data := data, told := st.told ++ offsets.map fun offset => (offset, true) }
    match matchTree req_tree st.match_req_tree, sub_req.innerDuplicate false with
    | none, _ => .error (-5, st)
    | some _, none => .error (-6, st)
    | some m, some c => .ok { st with match_req_tree := some (m.innerInsertChild c) }
  else .ok st

/-- A round of the loop over the children of the request. -/
def deleteRequest (req_tree sub_req : KnvNode) (delete : KnvNode → Deleted) (st : Cutting) :
    Except (Int × Cutting) Cutting :=
  if sub_req.key.val = [] ∧ sub_req.isLeaf then deleteByTag req_tree sub_req st
  else (st.data.visitRefs sub_req).foldlM (deleteVisit req_tree delete) st

mutual
/-- `DeleteSubTree`; `p` says whether the data has a parent with a key. -/
def deleteSubTree : KnvNode → Bool → KnvNode → Deleted
  | ⟨d, metalist, childlist⟩, p, data =>
    let req_tree : KnvNode := ⟨d, metalist, childlist⟩
    if d.tag = 0 then (data, [], .error (-1))
    else if data.tag ≠ d.tag ∨ (d.key.val ≠ [] ∧ data.key ≠ d.key) then
      (data, [], .ok (false, none))
    else if req_tree.isLeaf then (data, [], .ok (true, req_tree.wholeMatch))
    else
      let data := data.innerExpand p (!d.child_has_key)
      -- this is a leaf, but the request is not
      if data.child_num.getD 0 = 0 then (data, [], .ok (false, none))
      else match deleteRequests req_tree childlist ⟨data, [], none⟩ with
        | .error (code, st) => (st.data, st.told, .error code)
        | .ok st => (st.data, st.told, .ok (st.data.child_num.getD 0 = 0, st.match_req_tree))

/-- The loop over the children of the request. -/
def deleteRequests (req_tree : KnvNode) : List KnvNode → Cutting → Except (Int × Cutting) Cutting
  | [], st => .ok st
  | sub_req :: l, st =>
    match deleteRequest req_tree sub_req (deleteSubTree sub_req (st.data.key.val ≠ [])) st with
    | .error e => .error e
    | .ok st => deleteRequests req_tree l st
end

/-! ### When it goes well -/

/-- There are no children; `p` says whether the node has a parent with a key. -/
def Bare (p : Bool) (c : KnvNode) : Prop := (c.innerExpand p false).child_num.getD 0 = 0

/-- The sub-request names the child: the tag and, where it has one, the key. -/
def Names (sub_req c : KnvNode) : Prop :=
  sub_req.tag = c.tag ∧ (sub_req.key.val ≠ [] → c.key = sub_req.key)

/-- The sub-request visits children one by one. -/
def Visits (sub_req : KnvNode) : Prop := ¬ (sub_req.key.val = [] ∧ sub_req.isLeaf = true)

mutual
/-- **No visit meets a child without children, except to take it as a whole.**  Each visit is looked
    at in the state that it finds. -/
def Careful : KnvNode → Bool → KnvNode → Prop
  | ⟨d, metalist, childlist⟩, p, data =>
    let req_tree : KnvNode := ⟨d, metalist, childlist⟩
    Names req_tree data → req_tree.isLeaf = false →
      CarefulRequests req_tree childlist ⟨data.innerExpand p (!d.child_has_key), [], none⟩

/-- The same for the loop over the children of the request. -/
def CarefulRequests (req_tree : KnvNode) : List KnvNode → Cutting → Prop
  | [], _ => True
  | sub_req :: l, st =>
    (Visits sub_req → ∀ c ∈ st.data.childlist, c.ref ∈ st.data.visitRefs sub_req →
      (Bare (st.data.key.val ≠ []) c → sub_req.isLeaf = true ∧ Names sub_req c) ∧
      Careful sub_req (st.data.key.val ≠ []) c) ∧
    ∀ st',
      deleteRequest req_tree sub_req (deleteSubTree sub_req (st.data.key.val ≠ [])) st = .ok st' →
      CarefulRequests req_tree l st'
end

instance (p : Bool) (c : KnvNode) : Decidable (Bare p c) := inferInstanceAs (Decidable (_ = _))

instance (s c : KnvNode) : Decidable (Names s c) := inferInstanceAs (Decidable (_ ∧ _))

instance (s : KnvNode) : Decidable (Visits s) := inferInstanceAs (Decidable (¬ _))

instance decidableOk {ε α : Type} {x : Except ε α} {P : α → Prop} [DecidablePred P] :
    Decidable (∀ a, x = .ok a → P a) :=
  match x with
  | .ok a => decidable_of_iff (P a) ⟨fun h _ he => Except.ok.inj he ▸ h, fun h => h a rfl⟩
  | .error _ => isTrue fun _ he => nomatch he

mutual
instance decidableCareful : (req : KnvNode) → (p : Bool) → (data : KnvNode) →
    Decidable (Careful req p data)
  | ⟨d, metalist, childlist⟩, p, data =>
    have := decidableCarefulRequests ⟨d, metalist, childlist⟩ childlist
    decidable_of_iff (Names ⟨d, metalist, childlist⟩ data →
      isLeaf ⟨d, metalist, childlist⟩ = false →
      CarefulRequests ⟨d, metalist, childlist⟩ childlist
        ⟨data.innerExpand p (!d.child_has_key), [], none⟩) (by rw [Careful])

instance decidableCarefulRequests (req_tree : KnvNode) : (l : List KnvNode) → (st : Cutting) →
    Decidable (CarefulRequests req_tree l st)
  | [], _ => decidable_of_iff True (by rw [CarefulRequests])
  | s :: l, st =>
    have := decidableCareful s
    have := decidableCarefulRequests req_tree l
    decidable_of_iff ((Visits s → ∀ c ∈ st.data.childlist, c.ref ∈ st.data.visitRefs s →
        (Bare (st.data.key.val ≠ []) c → s.isLeaf = true ∧ Names s c) ∧
        Careful s (st.data.key.val ≠ []) c) ∧
      ∀ st', deleteRequest req_tree s (deleteSubTree s (st.data.key.val ≠ [])) st = .ok st' →
        CarefulRequests req_tree l st') (by rw [CarefulRequests])
end

/-! ## Trees without a part -/

/-- A request without children asks for something: it has a key, or is a string or an integer that
    is not 0. -/
def AsksWhole (sub_req : KnvNode) : Prop := sub_req.isLeaf = true ∧
  (sub_req.key.val ≠ [] ∨ sub_req.isString = true ∨
    (sub_req.val.type = .varint ∧ sub_req.getIntVal ≠ 0))

/-- The child is selected by a leaf of the requests `R`, which have come to its parent. -/
def Selected (R : KnvNode → Prop) (c : KnvNode) : Prop :=
  ∃ req, R req ∧ ∃ s ∈ req.childlist, AsksWhole s ∧ Names s c

/-- The requests that go on below the child. -/
def Below (R : KnvNode → Prop) (c : KnvNode) : KnvNode → Prop :=
  fun s => ∃ req, R req ∧ s ∈ req.childlist ∧ s.isLeaf = false ∧ Names s c

/-- **The child may disappear**: it is selected, or it loses its last child in this way. -/
inductive Gone : (KnvNode → Prop) → Bool → KnvNode → Prop
  | selected {R : KnvNode → Prop} {p : Bool} {c : KnvNode} : Selected R c → Gone R p c
  | emptied {R : KnvNode → Prop} {p : Bool} {c : KnvNode} (k : Bool)
    (some_ : (c.innerExpand p k).childlist ≠ [])
    (all : ∀ x ∈ (c.innerExpand p k).childlist, Gone (Below R c) (c.key.val ≠ []) x) : Gone R p c

/-- Apart from its children, the node is the same; its value may be out of date. -/
structure Trimmed (n n' : KnvNode) : Prop where
  ref : n'.ref = n.ref
  tag : n'.tag = n.tag
  key : n'.key = n.key
  no_key : n'.no_key = n.no_key
  metalist : n'.metalist = n.metalist
  metas : n'.metas = n.metas
  val : n'.val = n.val ∨ (n.childlist ≠ [] ∧ n'.val = .string [])

/-- **`n'` is `n` without some of its nodes**, each of which may disappear, and perhaps expanded
    further.  `R` are the requests that have come to `n`. -/
inductive Cut : (KnvNode → Prop) → Bool → KnvNode → KnvNode → Prop
  | refl {R : KnvNode → Prop} {p : Bool} {n : KnvNode} : Cut R p n n
  | cut {R : KnvNode → Prop} {p : Bool} {n n' : KnvNode} (k : Bool)
    (kept : KnvNode → Option KnvNode)
    (trimmed : Trimmed (n.innerExpand p k) n') (num : n'.child_num ≠ none)
    (childlist : n'.childlist = (n.innerExpand p k).childlist.filterMap kept)
    (stays : ∀ c ∈ (n.innerExpand p k).childlist, ∀ c', kept c = some c' →
      Cut (Below R c) (n.key.val ≠ []) c c')
    (goes : ∀ c ∈ (n.innerExpand p k).childlist, kept c = none → Gone R (n.key.val ≠ []) c) :
    Cut R p n n'

/-! ### More requests -/

theorem Selected.mono {R R' : KnvNode → Prop} (hR : ∀ r, R r → R' r) {c : KnvNode}
    (h : Selected R c) : Selected R' c := by
  obtain ⟨req, hreq, rest⟩ := h
  exact ⟨req, hR req hreq, rest⟩

theorem Below.mono {R R' : KnvNode → Prop} (hR : ∀ r, R r → R' r) {c s : KnvNode}
    (h : Below R c s) : Below R' c s := by
  obtain ⟨req, hreq, rest⟩ := h
  exact ⟨req, hR req hreq, rest⟩

theorem Gone.mono {R : KnvNode → Prop} {p : Bool} {c : KnvNode} (h : Gone R p c) :
    ∀ {R' : KnvNode → Prop}, (∀ r, R r → R' r) → Gone R' p c := by
  induction h with
  | selected h => exact fun hR => .selected (h.mono hR)
  | emptied k hne _ ih => exact fun hR => .emptied k hne fun x hx => ih x hx fun _ hs => hs.mono hR

theorem Cut.mono {R : KnvNode → Prop} {p : Bool} {n n' : KnvNode} (h : Cut R p n n') :
    ∀ {R' : KnvNode → Prop}, (∀ r, R r → R' r) → Cut R' p n n' := by
  induction h with
  | refl => exact fun _ => .refl
  | cut k kept trimmed num childlist _ goes ih =>
    exact fun hR => .cut k kept trimmed num childlist
      (fun c hc c' hk => ih c hc c' hk fun _ hs => hs.mono hR)
      fun c hc hk => (goes c hc hk).mono hR

/-! ### One deletion after another -/

theorem Trimmed.trans {n m o : KnvNode} (h : Trimmed n m) (h' : Trimmed m o)
    (hsub : m.childlist ≠ [] → n.childlist ≠ []) : Trimmed n o where
  ref := h'.ref.trans h.ref
  tag := h'.tag.trans h.tag
  key := h'.key.trans h.key
  no_key := h'.no_key.trans h.no_key
  metalist := h'.metalist.trans h.metalist
  metas := h'.metas.trans h.metas
  val := by
    rcases h'.val with hv | ⟨hne, hv⟩
    · rcases h.val with hv' | ⟨hne, hv'⟩
      · exact .inl (hv.trans hv')
      · exact .inr ⟨hne, hv.trans hv'⟩
    · exact .inr ⟨hsub hne, hv⟩

theorem Cut.sameFace {R : KnvNode → Prop} {p : Bool} {n n' : KnvNode} (h : Cut R p n n') :
    SameFace n n' := by
  cases h with
  | refl => exact ⟨rfl, rfl, rfl⟩
  | cut k kept trimmed =>
    obtain ⟨href, htag, hkey⟩ := sameFace_innerExpand n p k
    exact ⟨trimmed.ref.trans href, trimmed.tag.trans htag, trimmed.key.trans hkey⟩

theorem Names.congr {s c c' : KnvNode} (h : SameFace c c') : Names s c' ↔ Names s c := by
  rw [Names, Names, h.2.1, h.2.2]

theorem Below.congr {R : KnvNode → Prop} {c c' : KnvNode} (h : SameFace c c') :
    Below R c' = Below R c := by
  funext s
  rw [Below, Below]
  simp only [Names.congr h]

/-- What may disappear later might have disappeared at once. -/
theorem Cut.gone {R' : KnvNode → Prop} {p : Bool} {c c' : KnvNode} (h : Cut R' p c c') :
    ∀ {R : KnvNode → Prop}, R' = Below R c → Gone R p c' → Gone R p c := by
  induction h with
  | refl => exact fun _ hg => hg
  | @cut R' p n n' k kept trimmed num hlist stays goes ih =>
    have hface : SameFace n n' := (Cut.cut (R := R') k kept trimmed num hlist stays goes).sameFace
    intro R hR hg
    cases hg with
    | selected hs =>
      obtain ⟨req, hreq, s, hs, hw, hn⟩ := hs
      exact .selected ⟨req, hreq, s, hs, hw, (Names.congr hface).mp hn⟩
    | emptied k' hne hall =>
      rw [innerExpand_expanded num] at hne hall
      have hkey : n'.key = n.key := hface.2.2
      rw [Below.congr hface, hkey, ← hR] at hall
      refine .emptied k (fun he => hne ?_) fun x hx => ?_
      · rw [hlist, he]
        rfl
      · rw [← hR]
        cases hk : kept x with
        | none => exact goes x hx hk
        | some x' =>
          refine ih x hx x' hk rfl (hall x' ?_)
          rw [hlist]
          exact List.mem_filterMap.mpr ⟨x, hx, hk⟩

theorem Cut.trans {R : KnvNode → Prop} {p : Bool} {n m : KnvNode} (h : Cut R p n m) :
    ∀ {o : KnvNode}, Cut R p m o → Cut R p n o := by
  induction h with
  | refl => exact id
  | @cut R p n m k kept trimmed num hlist stays goes ih =>
    have hkey : m.key = n.key :=
      (Cut.cut (R := R) k kept trimmed num hlist stays goes).sameFace.2.2
    intro o h'
    cases h' with
    | refl => exact .cut k kept trimmed num hlist stays goes
    | cut k' kept' trimmed' num' hlist' stays' goes' =>
      rw [innerExpand_expanded num] at trimmed' hlist' stays' goes'
      rw [hkey] at stays' goes'
      have hmem : ∀ {c c'}, c ∈ (n.innerExpand p k).childlist → kept c = some c' →
          c' ∈ m.childlist := by
        intro c c' hc hk
        rw [hlist]
        exact List.mem_filterMap.mpr ⟨c, hc, hk⟩
      refine .cut k (fun c => (kept c).bind kept') (trimmed.trans trimmed' ?_) num' ?_ ?_ ?_
      · intro hne he
        rw [hlist, he] at hne
        exact hne rfl
      · rw [hlist', hlist, List.filterMap_filterMap]
      · intro c hc c'' hk
        obtain ⟨c', hk', hk''⟩ := Option.bind_eq_some_iff.mp hk
        refine ih c hc c' hk' ?_
        rw [← Below.congr (stays c hc c' hk').sameFace]
        exact stays' c' (hmem hc hk') c'' hk''
      · intro c hc hk
        cases hk' : kept c with
        | none => exact goes c hc hk'
        | some c' =>
          rw [hk'] at hk
          exact (stays c hc c' hk').gone rfl (goes' c' (hmem hc hk') hk)

theorem cut_innerExpand (R : KnvNode → Prop) (p k : Bool) (n : KnvNode) :
    Cut R p n (n.innerExpand p k) := by
  refine .cut k some ⟨rfl, rfl, rfl, rfl, rfl, rfl, .inl rfl⟩ (innerExpand_num n p k) ?_ ?_ ?_
  · rw [List.filterMap_some]
  · intro c _ c' hk
    rw [Option.some.inj hk]
    exact .refl
  · intro c _ hk
    exact nomatch hk

/-- **All that was in the node is gone.** -/
theorem Cut.emptied {R : KnvNode → Prop} {p : Bool} {n n' : KnvNode} (h : Cut (Below R n) p n n')
    (hnum : n'.child_num ≠ none) (hnil : n'.childlist = [])
    (hne : ∀ k, (n.innerExpand p k).childlist ≠ []) : Gone R p n := by
  cases h with
  | refl =>
    have := hne false
    rw [innerExpand_expanded hnum] at this
    exact absurd hnil this
  | cut k kept trimmed num hlist stays goes =>
    refine .emptied k (hne k) fun x hx => goes x hx ?_
    rw [hnil] at hlist
    exact List.filterMap_eq_nil_iff.mp hlist.symm x hx

/-! ## Trees in order -/

/-- The list of every expanded node is in order. -/
inductive Sane : KnvNode → Prop
  | mk {n : KnvNode} (listed : n.child_num ≠ none → Listed n)
    (children : n.child_num ≠ none → ∀ c ∈ n.childlist, Sane c) : Sane n

theorem Sane.listed {n : KnvNode} (h : Sane n) (hnum : n.child_num ≠ none) : Listed n := by
  cases h with
  | mk listed _ => exact listed hnum

theorem Sane.children {n : KnvNode} (h : Sane n) (hnum : n.child_num ≠ none) :
    ∀ c ∈ n.childlist, Sane c := by
  cases h with
  | mk _ children => exact children hnum

/-- A node that was just made. -/
theorem Twin.sane {n n' : KnvNode} (h : Twin n n') : Sane n := by
  obtain ⟨f, r, k, _, hn, _, _⟩ := h
  have hlist : n.childlist = [] := by
    rw [hn]
    rfl
  have hzero : n.child_num = none ∨ n.child_num = some 0 := by
    rw [hn]
    exact (ChildCall.made_initNode n f.1.tag f.1.val true f.2 k).num
  refine .mk (fun hnum => ⟨?_, ?_, ?_⟩) fun _ c hc => ?_
  · rw [hlist]
    exact hzero.resolve_left hnum
  · rw [hlist]
    exact fun x hx => absurd hx List.not_mem_nil
  · rw [hlist]
    exact List.nodup_nil
  · rw [hlist] at hc
    exact absurd hc List.not_mem_nil

theorem Sane.innerExpand {n : KnvNode} (h : Sane n) (p k : Bool) : Sane (n.innerExpand p k) := by
  by_cases hnum : n.child_num = none
  · rw [innerExpand_none hnum]
    have hshape : Shape { n.initChildList (some 0) with child_has_key := false }
        { n.initChildList (some 0) with child_has_key := false } := ⟨rfl, rfl, rfl, rfl, rfl, rfl⟩
    have hlist :=
      (expandTail_children p k (n := { n.initChildList (some 0) with child_has_key := false })
        rfl ⟨rfl, fun x hx => absurd hx List.not_mem_nil, List.nodup_nil⟩).1
    have htwins := (hshape.expandTail rfl rfl rfl rfl p (.inl (Eq.refl k))).2
    refine .mk (fun _ => hlist) fun _ c hc => ?_
    exact (List.forall₂_same.mp htwins c hc).sane
  · rw [innerExpand_expanded hnum]
    exact h

/-! ### What the loops do to the data -/

/-- Nothing but the sizes is different, and the value may be out of date. -/
structure Resized (n n' : KnvNode) : Prop where
  ref : n'.ref = n.ref
  tag : n'.tag = n.tag
  key : n'.key = n.key
  no_key : n'.no_key = n.no_key
  child_num : n'.child_num = n.child_num
  next_ref : n'.next_ref = n.next_ref
  metalist : n'.metalist = n.metalist
  metas : n'.metas = n.metas
  childlist : n'.childlist = n.childlist
  val : n'.val = n.val ∨ n'.val = .string []

theorem Resized.refl (n : KnvNode) : Resized n n :=
  ⟨rfl, rfl, rfl, rfl, rfl, rfl, rfl, rfl, rfl, .inl rfl⟩

theorem Resized.trans {n m o : KnvNode} (h : Resized n m) (h' : Resized m o) : Resized n o where
  ref := h'.ref.trans h.ref
  tag := h'.tag.trans h.tag
  key := h'.key.trans h.key
  no_key := h'.no_key.trans h.no_key
  child_num := h'.child_num.trans h.child_num
  next_ref := h'.next_ref.trans h.next_ref
  metalist := h'.metalist.trans h.metalist
  metas := h'.metas.trans h.metas
  childlist := h'.childlist.trans h.childlist
  val := by
    rcases h'.val with hv | hv
    · exact h.val.imp hv.trans hv.trans
    · exact .inr hv

theorem resized_updateEvalSz (n : KnvNode) (offset : Int) :
    Resized n (n.updateEvalSz offset).1 := by
  rw [updateEvalSz]
  split
  · exact .refl n
  · exact ⟨rfl, rfl, rfl, rfl, rfl, rfl, rfl, rfl, rfl, .inl rfl⟩

theorem resized_setValueDirty (n : KnvNode) : Resized n n.setValueDirty :=
  ⟨rfl, rfl, rfl, rfl, rfl, rfl, rfl, rfl, rfl, .inr rfl⟩

/-- The size that comes first in an edit. -/
theorem resized_offset (n : KnvNode) (offset : Int) :
    Resized n (if 0 ≤ n.eval_sz then n.updateEvalSz offset else (n, 0)).1 := by
  split
  · exact resized_updateEvalSz n offset
  · exact .refl n

theorem resized_edited (n : KnvNode) (offset : Int) : Resized n (edited n offset).1 :=
  (resized_offset n offset).trans (resized_setValueDirty _)

theorem resized_parentRound (n : KnvNode) (offset : Int) (dirty : Bool) :
    Resized n (n.parentRound offset dirty).1 := by
  have hup := resized_offset n offset
  rw [parentRound]
  generalize (if 0 ≤ n.eval_sz then n.updateEvalSz offset else (n, 0)) = q at hup
  obtain ⟨m, o⟩ := q
  simp only
  split
  · split
    · exact hup
    · exact hup.trans (resized_setValueDirty m)
  · exact hup

theorem resized_parentRounds (l : List (Int × Bool)) :
    ∀ n : KnvNode, Resized n (n.parentRounds l).1 := by
  induction l with
  | nil => exact fun n => .refl n
  | cons x l ih => exact fun n => (resized_parentRound n x.1 x.2).trans (ih _)

theorem Resized.sane {n n' : KnvNode} (h : Resized n n') (hs : Sane n) : Sane n' := by
  refine .mk (fun hnum => ?_) fun hnum => ?_
  · rw [h.child_num] at hnum
    have hl := hs.listed hnum
    refine ⟨?_, ?_, ?_⟩
    · rw [h.child_num, h.childlist]
      exact hl.child_num
    · rw [h.childlist, h.next_ref]
      exact hl.refs
    · rw [h.childlist]
      exact hl.nodup
  · rw [h.child_num] at hnum
    rw [h.childlist]
    exact hs.children hnum

theorem Sane.withChild {n c' : KnvNode} (h : Sane n) (hnum : n.child_num ≠ none) (hc' : Sane c') :
    Sane (n.withChildren (replaceRef c' n.childlist)) := by
  have hl := h.listed hnum
  refine .mk (fun _ => ⟨?_, ?_, ?_⟩) fun _ x hx => ?_
  · show n.child_num = some (replaceRef c' n.childlist).length
    rw [replaceRef, List.length_map]
    exact hl.child_num
  · intro x hx
    show x.ref < n.next_ref
    have hmem : x.ref ∈ (replaceRef c' n.childlist).map fun x => x.ref := List.mem_map_of_mem hx
    rw [map_ref_replaceRef] at hmem
    obtain ⟨y, hy, he⟩ := List.mem_map.mp hmem
    rw [← he]
    exact hl.refs y hy
  · show ((replaceRef c' n.childlist).map fun x => x.ref).Nodup
    rw [map_ref_replaceRef]
    exact hl.nodup
  · obtain ⟨y, hy, rfl⟩ := List.mem_map.mp hx
    split
    · exact hc'
    · exact h.children hnum y hy

theorem Removes.sane {keep : KnvNode → Bool} {n n' : KnvNode} (hr : Removes keep n n') (h : Sane n)
    (hnum : n.child_num ≠ none) : Sane n' := by
  refine .mk (fun _ => hr.listed (h.listed hnum)) fun _ x hx => ?_
  rw [hr.childlist] at hx
  exact h.children hnum x (List.mem_of_mem_filter hx)

section Steps

variable {R : KnvNode → Prop} {p : Bool} {n c c' n' : KnvNode}

/-- The child `c` has become `c'`. -/
theorem Cut.replaceChild (hl : Listed n) (hc : c ∈ n.childlist) (href : c'.ref = c.ref)
    (h : Cut (Below R c) (n.key.val ≠ []) c c')
    (hn' : Resized (n.withChildren (replaceRef c' n.childlist)) n') : Cut R p n n' := by
  refine .cut false (fun x => some (if x.ref = c'.ref then c' else x)) ?_ ?_ ?_ ?_ ?_
  · rw [hl.innerExpand]
    exact ⟨hn'.ref, hn'.tag, hn'.key, hn'.no_key, hn'.metalist, hn'.metas,
      hn'.val.imp_right fun hv => ⟨List.ne_nil_of_mem hc, hv⟩⟩
  · rw [hn'.child_num]
    show n.child_num ≠ none
    rw [hl.child_num]
    exact Option.some_ne_none _
  · rw [hl.innerExpand, hn'.childlist]
    show replaceRef c' n.childlist = _
    rw [replaceRef, ← List.filterMap_eq_map]
    rfl
  · rw [hl.innerExpand]
    intro x hx y hy
    rw [← Option.some.inj hy]
    by_cases he : x.ref = c'.ref
    · rw [if_pos he, hl.eq_of_ref hc hx (he.trans href)]
      exact h
    · rw [if_neg he]
      exact .refl
  · intro x _ hx
    cases hx

/-- Some children are gone. -/
theorem Cut.removeChildren (hl : Listed n) {keep : KnvNode → Bool}
    (hn' : Trimmed n n') (hnum : n'.child_num ≠ none)
    (hlist : n'.childlist = n.childlist.filter keep)
    (h : ∀ x ∈ n.childlist, keep x = false → Gone R (n.key.val ≠ []) x) : Cut R p n n' := by
  refine .cut false (Option.guard keep) ?_ hnum ?_ ?_ ?_
  · rw [hl.innerExpand]
    exact hn'
  · rw [hl.innerExpand, hlist, ← List.filterMap_eq_filter]
  · intro x _ y hy
    rw [(Option.guard_eq_some_iff.mp hy).1]
    exact .refl
  · rw [hl.innerExpand]
    intro x hx hk
    exact h x hx (Option.guard_eq_none_iff.mp hk)

end Steps

/-- What a visit does that does not fail. -/
theorem deleteVisit_ok {req_tree : KnvNode} {delete : KnvNode → Deleted} {st st' : Cutting}
    {r : Nat} {c : KnvNode} (hfind : findRef st.data.childlist r = some c)
    (h : deleteVisit req_tree delete st r = .ok st') : ∃ c' told whole sub_match m,
      delete c = (c', told, .ok (whole, sub_match)) ∧
      (m = none → st.match_req_tree = none ∧ sub_match = none) ∧
      (whole = true ∧
        st' = (Cutting.withChild { st with match_req_tree := m } c' told).dropChild r ∨
        whole = false ∧ Bare (st.data.key.val ≠ []) c' ∧
          st' = (Cutting.withChild { st with match_req_tree := m }
            (c'.innerExpand (st.data.key.val ≠ []) false) told).dropChild r ∨
        whole = false ∧ st' = Cutting.withChild { st with match_req_tree := m }
          (c'.innerExpand (st.data.key.val ≠ []) false) told) := by
  rw [deleteVisit, hfind] at h
  simp only at h
  cases hdel : delete c with
  | mk c' q =>
    obtain ⟨told, res⟩ := q
    rw [hdel] at h
    cases res with
    | error e => cases h
    | ok q =>
      obtain ⟨whole, sub_match⟩ := q
      simp only at h
      cases hm : gatherMatch req_tree st.match_req_tree sub_match with
      | error code =>
        rw [hm] at h
        cases h
      | ok m =>
        rw [hm] at h
        have hnone : m = none → st.match_req_tree = none ∧ sub_match = none := by
          rintro rfl
          cases sub_match with
          | none => exact ⟨Except.ok.inj hm, rfl⟩
          | some t =>
            rw [gatherMatch] at hm
            split at hm
            · cases hm
            · cases hm
        refine ⟨c', told, whole, sub_match, m, rfl, hnone, ?_⟩
        cases whole with
        | true => exact .inl ⟨rfl, (Except.ok.inj h).symm⟩
        | false =>
          right
          simp only [Bool.false_eq_true, if_false] at h
          split at h
          · exact .inl ⟨rfl, ‹_›, (Except.ok.inj h).symm⟩
          · exact .inr ⟨rfl, (Except.ok.inj h).symm⟩

/-- What a call for the request `s` may do to the child `c`. -/
structure Outcome (s : KnvNode) (p : Bool) (c c' : KnvNode) (told : List (Int × Bool))
    (whole : Bool) (m : Option KnvNode) : Prop where
  sane : Sane c'
  cut : Cut (fun r => r = s ∧ s.isLeaf = false ∧ Names s c) p c c'
  all : whole = true → (s.isLeaf = true ∧ Names s c) ∨
    (s.isLeaf = false ∧ Names s c ∧ c'.child_num ≠ none ∧ c'.childlist = [] ∧
      ∀ k, (c.innerExpand p k).childlist ≠ [])
  taken : s.isLeaf = true → Names s c → whole = true
  stays : whole = false → ¬ Bare p c → ¬ Bare p c'
  quiet : m = none → whole = false ∧ told = [] ∧ Opened p c c'

/-- What a part of the loop does. -/
structure Steps (R : KnvNode → Prop) (p : Bool) (st st' : Cutting) : Prop where
  sane : Sane st'.data
  num : st'.data.child_num ≠ none
  cut : Cut R p st.data st'.data
  quiet : st'.match_req_tree = none →
    st.match_req_tree = none ∧ st'.told = st.told ∧ Opened p st.data st'.data

theorem Steps.trans {R : KnvNode → Prop} {p : Bool} {st st' st'' : Cutting} (h : Steps R p st st')
    (h' : Steps R p st' st'') : Steps R p st st'' where
  sane := h'.sane
  num := h'.num
  cut := h.cut.trans h'.cut
  quiet := by
    intro hnone
    obtain ⟨hm, ht, ho⟩ := h'.quiet hnone
    obtain ⟨hm', ht', ho'⟩ := h.quiet hm
    exact ⟨hm', ht.trans ht', ho'.trans ho⟩

theorem Listed.resized {n n' : KnvNode} (h : Listed n) (hr : Resized n n') : Listed n' where
  child_num := by rw [hr.child_num, hr.childlist, h.child_num]
  refs := by
    rw [hr.childlist, hr.next_ref]
    exact h.refs
  nodup := by
    rw [hr.childlist]
    exact h.nodup

theorem resized_withChild (st : Cutting) (c : KnvNode) (told : List (Int × Bool)) :
    Resized (st.data.withChildren (replaceRef c st.data.childlist)) (st.withChild c told).data :=
  resized_parentRounds told _

theorem mem_replaceRef_other {l : List KnvNode} {c x : KnvNode} (hx : x ∈ replaceRef c l)
    (href : x.ref ≠ c.ref) : x ∈ l := by
  obtain ⟨y, hy, rfl⟩ := List.mem_map.mp hx
  split at href
  · exact absurd rfl href
  · rename_i he
    rw [if_neg he]
    exact hy

section Visit

variable {R : KnvNode → Prop} {p : Bool} {st st' : Cutting} {c c' : KnvNode}
  {told : List (Int × Bool)} {m : Option KnvNode}

/-- The child has become `c'`. -/
theorem steps_withChild (hs : Sane st.data) (hnum : st.data.child_num ≠ none)
    (hc : c ∈ st.data.childlist) (href : c'.ref = c.ref) (hc' : Sane c')
    (hcut : Cut (Below R c) (st.data.key.val ≠ []) c c')
    (hquiet : m = none → st.match_req_tree = none ∧ told = [] ∧
      Opened (st.data.key.val ≠ []) c c') :
    Steps R p st (Cutting.withChild { st with match_req_tree := m } c' told) := by
  have hl := hs.listed hnum
  have hr := resized_withChild { st with match_req_tree := m } c' told
  refine ⟨hr.sane (hs.withChild hnum hc'), ?_, Cut.replaceChild hl hc href hcut hr, fun hm => ?_⟩
  · rw [hr.child_num]
    exact hnum
  · obtain ⟨hnone, htold, ho⟩ := hquiet hm
    subst htold
    exact ⟨hnone, List.append_nil _, .replaceRef hl hc href ho⟩

theorem filter_replaceRef {l : List KnvNode} {c' : KnvNode} :
    (replaceRef c' l).filter (fun x => x.ref ≠ c'.ref) = l.filter fun x => x.ref ≠ c'.ref := by
  induction l with
  | nil => rfl
  | cons x l ih =>
    rw [replaceRef, List.map_cons, ← replaceRef]
    by_cases he : x.ref = c'.ref
    · rw [if_pos he, List.filter_cons_of_neg (by simp), List.filter_cons_of_neg (by simp [he]), ih]
    · rw [if_neg he, List.filter_cons_of_pos (by simp [he]), List.filter_cons_of_pos (by simp [he]),
        ih]

/-- The child is gone. -/
theorem steps_dropChild (hs : Sane st.data) (hnum : st.data.child_num ≠ none)
    (hc : c ∈ st.data.childlist) (href : c'.ref = c.ref) (hc' : Sane c')
    (hgone : Gone R (st.data.key.val ≠ []) c) (hm : m ≠ none) :
    Steps R p st ((Cutting.withChild { st with match_req_tree := m } c' told).dropChild c.ref) ∧
      ∀ x ∈
        ((Cutting.withChild { st with match_req_tree := m } c' told).dropChild
          c.ref).data.childlist,
        x ∈ st.data.childlist := by
  have hl := hs.listed hnum
  have hr := resized_withChild { st with match_req_tree := m } c' told
  have hs₁ : Sane (Cutting.withChild { st with match_req_tree := m } c' told).data :=
    hr.sane (hs.withChild hnum hc')
  have hm₁ : (Cutting.withChild { st with match_req_tree := m } c' told).match_req_tree = m := rfl
  generalize Cutting.withChild { st with match_req_tree := m } c' told = st₁ at hr hs₁ hm₁
  have hnum₁ : st₁.data.child_num ≠ none := by
    rw [hr.child_num]
    exact hnum
  have hc₁ : c' ∈ st₁.data.childlist := by
    rw [hr.childlist]
    exact mem_replaceRef hc href
  have hrem := removes_child (hs₁.listed hnum₁) hc₁
  have hdrop : (st₁.dropChild c.ref).data = (edited { st₁.data with
      ht := (st₁.data.ht.remove st₁.data.childView c'.ref).getD st₁.data.ht
      childlist := st₁.data.childlist.filter fun x => x.ref ≠ c'.ref
      child_num := st₁.data.child_num.map (· - 1) } (-(evaluateSize c').1)).1 := by
    rw [Cutting.dropChild, ← href, removeChildByPos, findRef_of_mem (hs₁.listed hnum₁).nodup hc₁]
  have he := resized_edited { st₁.data with
      ht := (st₁.data.ht.remove st₁.data.childView c'.ref).getD st₁.data.ht
      childlist := st₁.data.childlist.filter fun x => x.ref ≠ c'.ref
      child_num := st₁.data.child_num.map (· - 1) } (-(evaluateSize c').1)
  rw [← hdrop] at he
  have hnum₂ : (st₁.dropChild c.ref).data.child_num ≠ none := by
    rw [he.child_num]
    exact fun hn => hnum₁ (Option.map_eq_none_iff.mp hn)
  have hlist : (st₁.dropChild c.ref).data.childlist =
      st.data.childlist.filter fun x => x.ref ≠ c.ref := by
    rw [he.childlist]
    show st₁.data.childlist.filter _ = _
    rw [hr.childlist, ← href]
    exact filter_replaceRef
  refine ⟨⟨he.sane (hrem.sane hs₁ hnum₁), hnum₂, ?_, fun hn => absurd hn ?_⟩, fun x hx => ?_⟩
  · refine Cut.removeChildren hl ⟨he.ref.trans hr.ref, he.tag.trans hr.tag, he.key.trans hr.key,
      he.no_key.trans hr.no_key, he.metalist.trans hr.metalist, he.metas.trans hr.metas, ?_⟩
      hnum₂ hlist fun x hx hk => ?_
    · rcases he.val with hv | hv
      · exact (hr.val.imp hv.trans hv.trans).imp_right fun hv => ⟨List.ne_nil_of_mem hc, hv⟩
      · exact .inr ⟨List.ne_nil_of_mem hc, hv⟩
    · have hx' : x = c := hl.eq_of_ref hc hx (by simpa using hk)
      rw [hx']
      exact hgone
  · show st₁.match_req_tree ≠ none
    rw [hm₁]
    exact hm
  · rw [hlist] at hx
    exact List.mem_of_mem_filter hx

/-- **A visit of a child** that has children, or that the request takes as a whole. -/
theorem steps_visit {req_tree s : KnvNode} {delete : KnvNode → Deleted} (hR : R req_tree)
    (hsub : s ∈ req_tree.childlist) (hvisits : Visits s) (hs : Sane st.data)
    (hnum : st.data.child_num ≠ none) (hc : c ∈ st.data.childlist)
    (hdel : ∀ c' told whole m, delete c = (c', told, .ok (whole, m)) →
      Outcome s (st.data.key.val ≠ []) c c' told whole m)
    (hbare : Bare (st.data.key.val ≠ []) c → s.isLeaf = true ∧ Names s c)
    (h : deleteVisit req_tree delete st c.ref = .ok st') :
    Steps R p st st' ∧ ∀ x ∈ st'.data.childlist, x.ref ≠ c.ref → x ∈ st.data.childlist := by
  have hl := hs.listed hnum
  obtain ⟨c', told, whole, sub_match, m, hd, hm, hcases⟩ :=
    deleteVisit_ok (findRef_of_mem hl.nodup hc) h
  have ho := hdel c' told whole sub_match hd
  have href : c'.ref = c.ref := ho.cut.sameFace.1
  have hcut : Cut (Below R c) (st.data.key.val ≠ []) c c' := by
    refine ho.cut.mono ?_
    rintro r ⟨rfl, hleaf, hn⟩
    exact ⟨req_tree, hR, hsub, hleaf, hn⟩
  rcases hcases with ⟨hw, rfl⟩ | ⟨hw, hb, _⟩ | ⟨hw, rfl⟩
  · have hgone : Gone R (st.data.key.val ≠ []) c := by
      rcases ho.all hw with ⟨hleaf, hn⟩ | ⟨_, _, hnum', hnil, hne⟩
      · have hkey : s.key.val ≠ [] := fun hk => hvisits ⟨hk, hleaf⟩
        exact .selected ⟨req_tree, hR, s, hsub, ⟨hleaf, .inl hkey⟩, hn⟩
      · exact hcut.emptied hnum' hnil hne
    have hmne : m ≠ none := by
      intro hn
      have := (ho.quiet (hm hn).2).1
      rw [hw] at this
      exact nomatch this
    have hdrop : Steps R p st
        ((Cutting.withChild { st with match_req_tree := m } c' told).dropChild c.ref) ∧ _ :=
      steps_dropChild hs hnum hc href ho.sane hgone hmne
    exact ⟨hdrop.1, fun x hx _ => hdrop.2 x hx⟩
  · -- the child has no children left although it is not taken
    exfalso
    by_cases hbc : Bare (st.data.key.val ≠ []) c
    · obtain ⟨hleaf, hn⟩ := hbare hbc
      have := ho.taken hleaf hn
      rw [hw] at this
      exact nomatch this
    · exact ho.stays hw hbc hb
  · have href' : (c'.innerExpand (st.data.key.val ≠ []) false).ref = c.ref :=
      (sameFace_innerExpand c' _ _).1.trans href
    refine ⟨steps_withChild hs hnum hc href' (ho.sane.innerExpand _ _)
      (hcut.trans (cut_innerExpand _ _ _ _)) fun hn => ?_, fun x hx hne => ?_⟩
    · obtain ⟨hnone, hsub_none⟩ := hm hn
      obtain ⟨_, ht, hopen⟩ := ho.quiet hsub_none
      exact ⟨hnone, ht, hopen.trans (opened_innerExpand _ _ _)⟩
    · rw [(resized_withChild _ _ _).childlist] at hx
      exact mem_replaceRef_other hx (by rw [href']; exact hne)

end Visit

/-- **The visits of the children with the given refs.** -/
theorem steps_visits {R : KnvNode → Prop} {p q : Bool} {req_tree s : KnvNode}
    {delete : KnvNode → Deleted} (hR : R req_tree) (hsub : s ∈ req_tree.childlist)
    (hvisits : Visits s) (refs : List Nat) (hnd : refs.Nodup) : ∀ {st st' : Cutting},
    Sane st.data → st.data.child_num ≠ none → decide (st.data.key.val ≠ []) = q →
    (∀ c ∈ st.data.childlist, c.ref ∈ refs →
      (∀ c' told whole m, delete c = (c', told, .ok (whole, m)) → Outcome s q c c' told whole m) ∧
      (Bare q c → s.isLeaf = true ∧ Names s c)) →
    refs.foldlM (deleteVisit req_tree delete) st = .ok st' → Steps R p st st' := by
  induction refs with
  | nil =>
    intro st st' hs hnum _ _ h
    rw [← Except.ok.inj h]
    exact ⟨hs, hnum, .refl, fun hm => ⟨hm, rfl, .refl⟩⟩
  | cons r refs ih =>
    intro st st' hs hnum hq hall h
    obtain ⟨hr, hnd'⟩ := List.nodup_cons.mp hnd
    rw [List.foldlM_cons] at h
    cases hfirst : deleteVisit req_tree delete st r with
    | error e =>
      rw [hfirst] at h
      exact nomatch h
    | ok st₁ =>
      rw [hfirst] at h
      cases hfind : findRef st.data.childlist r with
      | none =>
        have hsame : st₁ = st := by
          rw [deleteVisit, hfind] at hfirst
          exact (Except.ok.inj hfirst).symm
        rw [hsame] at h
        exact ih hnd' hs hnum hq (fun c hc hr' => hall c hc (List.mem_cons_of_mem _ hr')) h
      | some c =>
        have hc : c ∈ st.data.childlist := List.mem_of_find?_eq_some hfind
        have href : c.ref = r := ref_of_findRef hfind
        subst href
        obtain ⟨hdel, hbare⟩ := hall c hc List.mem_cons_self
        rw [← hq] at hdel hbare
        obtain ⟨hsteps, hmem⟩ :=
          steps_visit (R := R) (p := p) hR hsub hvisits hs hnum hc hdel hbare hfirst
        refine hsteps.trans (ih hnd' hsteps.sane hsteps.num ?_ (fun x hx hxr => ?_) h)
        · rw [hsteps.cut.sameFace.2.2]
          exact hq
        · have hne : x.ref ≠ c.ref := fun he => hr (he ▸ hxr)
          exact hall x (hmem x hx hne) (List.mem_cons_of_mem _ hxr)

/-- What `RemoveChildrenByTag` leaves of an expanded node. -/
theorem removeChildrenByTag_ok {n n' : KnvNode} {tag : UInt32} {offsets : List Int} (hl : Listed n)
    (h : n.removeChildrenByTag tag = .ok (n', offsets)) : n' = n ∨
    ∃ n₁, Removes (fun c => c.tag ≠ tag) n n₁ ∧ Trimmed n n' ∧ Resized n₁ n' := by
  rw [removeChildrenByTag, hl.innerExpand] at h
  split at h
  · cases h
  · simp only at h
    split at h
    · exact .inl (Prod.mk.inj (Except.ok.inj h)).1.symm
    · split at h
      · exact .inl (Prod.mk.inj (Except.ok.inj h)).1.symm
      · rename_i hne
        right
        have hlist : n.childlist ≠ [] := by
          intro hnil
          rw [hnil] at hne
          exact hne rfl
        have he := resized_edited { n with
          ht := (n.childlist.filter fun c => c.tag = tag).foldl
            (fun ht c => (ht.remove n.childView c.ref).getD ht) n.ht
          childlist := n.childlist.filter fun c => c.tag ≠ tag
          child_num := n.child_num.map (· - (n.childlist.filter fun c => c.tag = tag).length) }
          (-(evaluateSizes (n.childlist.filter fun c => c.tag = tag) false))
        rw [← (Prod.mk.inj (Except.ok.inj h)).1]
        exact ⟨_, removes_byTag n tag, ⟨he.ref, he.tag, he.key, he.no_key, he.metalist, he.metas,
          he.val.imp_right fun hv => ⟨hlist, hv⟩⟩, he⟩

/-- The node is in order, and is what the pointer `r` leads to. -/
def InOrder (r : Nat) (n : KnvNode) : Prop := Sane n ∧ n.ref = r

theorem Sane.removeChildrenByTag {n : KnvNode} (h : Sane n) (tag : UInt32) :
    EditKeeps (InOrder n.ref) (n.removeChildrenByTag tag) := by
  intro q hq
  have hx := h.innerExpand false false
  have hnum := innerExpand_num n false false
  have hsame : (n.innerExpand false false).removeChildrenByTag tag = n.removeChildrenByTag tag := by
    rw [KnvNode.removeChildrenByTag, KnvNode.removeChildrenByTag, innerExpand_expanded hnum,
      (sameFace_innerExpand n false false).2.1]
  have href : (n.innerExpand false false).ref = n.ref := (sameFace_innerExpand n false false).1
  rw [← hsame] at hq
  rcases removeChildrenByTag_ok (hx.listed hnum) hq with he | ⟨n₁, hrem, htrim, hres⟩
  · rw [he]
    exact ⟨hx, href⟩
  · exact ⟨hres.sane (hrem.sane hx hnum), htrim.ref.trans href⟩

/-- `RemoveChildrenByTag` of children that may disappear. -/
theorem cut_removeChildrenByTag {R : KnvNode → Prop} {p : Bool} {n : KnvNode} {tag : UInt32}
    (hs : Sane n) (hnum : n.child_num ≠ none)
    (hgone : ∀ x ∈ n.childlist, x.tag = tag → Gone R (n.key.val ≠ []) x) :
    Sane ((n.removeChildrenByTag tag).toOption.getD (n, [])).1 ∧
      ((n.removeChildrenByTag tag).toOption.getD (n, [])).1.child_num ≠ none ∧
      Cut R p n ((n.removeChildrenByTag tag).toOption.getD (n, [])).1 := by
  have hl := hs.listed hnum
  cases hq : n.removeChildrenByTag tag with
  | error e => exact ⟨hs, hnum, .refl⟩
  | ok q =>
    refine ⟨(hs.removeChildrenByTag tag q hq).1, ?_⟩
    show q.1.child_num ≠ none ∧ Cut R p n q.1
    rcases removeChildrenByTag_ok hl hq with he | ⟨n₁, hrem, htrim, hres⟩
    · rw [he]
      exact ⟨hnum, .refl⟩
    · have hnum' : q.1.child_num ≠ none := by
        rw [hres.child_num, hrem.child_num]
        exact fun hn => hnum (Option.map_eq_none_iff.mp hn)
      exact ⟨hnum', Cut.removeChildren hl htrim hnum' (hres.childlist.trans hrem.childlist)
        fun x hx hk => hgone x hx (by simpa using hk)⟩

theorem steps_byTag {R : KnvNode → Prop} {p : Bool} {req_tree s : KnvNode} (hR : R req_tree)
    (hsub : s ∈ req_tree.childlist) (hkey : s.key.val = []) (hleaf : s.isLeaf = true)
    {st st' : Cutting} (hs : Sane st.data) (hnum : st.data.child_num ≠ none)
    (h : deleteByTag req_tree s st = .ok st') : Steps R p st st' := by
  rw [deleteByTag] at h
  split at h
  · rename_i hask
    have hgone : ∀ x ∈ st.data.childlist, x.tag = s.tag → Gone R (st.data.key.val ≠ []) x :=
      fun x _ htag => .selected
        ⟨req_tree, hR, s, hsub, ⟨hleaf, .inr hask⟩, htag.symm, fun hk => absurd hkey hk⟩
    obtain ⟨hs', hnum', hcut⟩ := cut_removeChildrenByTag (p := p) hs hnum hgone
    simp only at h
    split at h
    · exact nomatch h
    · exact nomatch h
    · rw [← Except.ok.inj h]
      exact ⟨hs', hnum', hcut, fun hn => nomatch hn⟩
  · rw [← Except.ok.inj h]
    exact ⟨hs, hnum, .refl, fun hn => ⟨hn, rfl, .refl⟩⟩

/-! ## Every call -/

theorem nodup_visitRefs {n : KnvNode} (hl : Listed n) (s : KnvNode) : (n.visitRefs s).Nodup := by
  rw [visitRefs]
  split
  · cases n.ht.get n.childView s.tag s.key.val with
    | none => exact List.nodup_nil
    | some r => exact List.nodup_singleton r
  · exact hl.nodup.sublist (List.filter_sublist.map _)

/-- **The loop over the children of the request**, if each does what it may. -/
theorem steps_requests {R : KnvNode → Prop} {p : Bool} {req_tree : KnvNode} (hR : R req_tree)
    (l : List KnvNode) (hsub : ∀ s ∈ l, s ∈ req_tree.childlist)
    (ih : ∀ s ∈ l, ∀ {q : Bool} {c c' : KnvNode} {told : List (Int × Bool)} {whole : Bool}
      {m : Option KnvNode}, Sane c → Careful s q c →
      deleteSubTree s q c = (c', told, .ok (whole, m)) → Outcome s q c c' told whole m) :
    ∀ {st st' : Cutting}, Sane st.data → st.data.child_num ≠ none →
    CarefulRequests req_tree l st → deleteRequests req_tree l st = .ok st' → Steps R p st st' := by
  induction l with
  | nil =>
    intro st st' hs hnum _ h
    rw [← Except.ok.inj h]
    exact ⟨hs, hnum, .refl, fun hn => ⟨hn, rfl, .refl⟩⟩
  | cons s l ihl =>
    intro st st' hs hnum hcareful h
    rw [CarefulRequests] at hcareful
    obtain ⟨hvisit, hrest⟩ := hcareful
    rw [deleteRequests] at h
    cases hfirst : deleteRequest req_tree s (deleteSubTree s (st.data.key.val ≠ [])) st with
    | error e =>
      rw [hfirst] at h
      exact nomatch h
    | ok st₁ =>
      rw [hfirst] at h
      have hsteps : Steps R p st st₁ := by
        rw [deleteRequest] at hfirst
        by_cases hv : s.key.val = [] ∧ s.isLeaf = true
        · rw [if_pos hv] at hfirst
          exact steps_byTag hR (hsub s List.mem_cons_self) hv.1 hv.2 hs hnum hfirst
        · rw [if_neg hv] at hfirst
          refine steps_visits hR (hsub s List.mem_cons_self) hv _
            (nodup_visitRefs (hs.listed hnum) s)
            hs hnum rfl (fun c hc hr => ?_) hfirst
          obtain ⟨hbare, hc'⟩ := hvisit hv c hc hr
          exact ⟨fun c' told whole m hd =>
            ih s List.mem_cons_self (hs.children hnum c hc) hc' hd, hbare⟩
      exact hsteps.trans (ihl (fun x hx => hsub x (List.mem_cons_of_mem _ hx))
        (fun x hx => ih x (List.mem_cons_of_mem _ hx)) hsteps.sane hsteps.num (hrest st₁ hfirst) h)

/-- The tags of the children do not depend on the mode. -/
theorem tags_innerExpand (n : KnvNode) (p k : Bool) :
    (n.innerExpand p k).childlist.map (fun c => c.tag) =
    (n.innerExpand p false).childlist.map fun c => c.tag := by
  by_cases hnum : n.child_num = none
  · rw [innerExpand_none hnum, innerExpand_none hnum, expandTail, expandTail]
    split
    · rfl
    · split
      · rfl
      · cases pbFields _ with
        | none => rfl
        | some q =>
          simp only
          split
          · show (List.foldl (expandField k) _ q.1).childlist.map _ =
              (List.foldl (expandField false) _ q.1).childlist.map _
            rw [tags_expandFields, tags_expandFields]
          · rfl
  · rw [innerExpand_expanded hnum, innerExpand_expanded hnum]

theorem num_eq_zero_iff {n : KnvNode} (hs : Sane n) (hnum : n.child_num ≠ none) :
    n.child_num.getD 0 = 0 ↔ n.childlist = [] := by
  rw [(hs.listed hnum).child_num]
  exact List.length_eq_zero_iff

theorem bare_iff {p : Bool} {n : KnvNode} (hs : Sane n) (k : Bool) :
    Bare p n ↔ (n.innerExpand p k).childlist = [] := by
  rw [Bare, num_eq_zero_iff (hs.innerExpand p false) (innerExpand_num n p false),
    ← List.map_eq_nil_iff (f := fun c : KnvNode => c.tag), ← tags_innerExpand n p k,
      List.map_eq_nil_iff]

theorem wholeMatch_ne {req : KnvNode} (h0 : req.tag ≠ 0) : req.wholeMatch ≠ none := by
  rw [wholeMatch]
  split
  · obtain ⟨r, hr, _⟩ := newTree_spec h0 req.key.getValue
    rw [hr]
    exact Option.some_ne_none r
  · rw [newNode, if_neg h0]
    exact Option.some_ne_none _

/-- **What a call does that returns 0 or 1.** -/
theorem deleteSubTree_outcome (req : KnvNode) : ∀ {p : Bool} {n n' : KnvNode}
    {told : List (Int × Bool)} {whole : Bool} {m : Option KnvNode}, Sane n → Careful req p n →
    deleteSubTree req p n = (n', told, .ok (whole, m)) → Outcome req p n n' told whole m := by
  generalize hsz : sizeOf req = size
  induction size using Nat.strongRecOn generalizing req with
  | ind size ih =>
    intro p n n' told whole m hs hcareful h
    obtain ⟨d, metalist, childlist⟩ := req
    have hsub : ∀ s ∈ childlist, sizeOf s < size := by
      intro s hs
      have hlt := List.sizeOf_lt_of_mem hs
      rw [← hsz, KnvNode.mk.sizeOf_spec]
      omega
    rw [deleteSubTree] at h
    rw [Careful] at hcareful
    generalize hreq : (⟨d, metalist, childlist⟩ : KnvNode) = req at h hcareful ⊢
    have htag : d.tag = req.tag := by rw [← hreq]
    have hkey : d.key = req.key := by rw [← hreq]
    have hlist : childlist = req.childlist := by rw [← hreq]
    simp only at h
    split at h
    · exact nomatch h
    · rename_i h0
      split at h
      · -- another node
        rename_i hother
        simp only [Prod.mk.injEq, Except.ok.injEq] at h
        obtain ⟨rfl, rfl, rfl, rfl⟩ := h
        refine ⟨hs, .refl, (nomatch ·), fun _ hn => ?_, fun _ hb => hb, fun _ => ⟨rfl, rfl, .refl⟩⟩
        rw [htag, hkey] at hother
        rcases hother with htag' | ⟨hne, hkey'⟩
        · exact absurd hn.1.symm htag'
        · exact absurd (hn.2 hne) hkey'
      · rename_i hsame
        have hnames : Names req n := by
          rw [htag, hkey] at hsame
          refine ⟨Eq.symm (not_not.mp fun hne => hsame (.inl hne)), fun hne => ?_⟩
          exact not_not.mp fun hk => hsame (.inr ⟨hne, hk⟩)
        split at h
        · -- the whole node
          rename_i hleaf
          simp only [Prod.mk.injEq, Except.ok.injEq] at h
          obtain ⟨rfl, rfl, rfl, rfl⟩ := h
          refine ⟨hs, .refl, fun _ => .inl ⟨hleaf, hnames⟩, fun _ _ => rfl, (nomatch ·),
            fun hm => ?_⟩
          exact absurd hm (wholeMatch_ne (by rw [← htag]; exact h0))
        · rename_i hleaf
          have hleaf' : req.isLeaf = false := Bool.eq_false_iff.mpr hleaf
          have hsx := hs.innerExpand p (!d.child_has_key)
          have hnx := innerExpand_num n p (!d.child_has_key)
          have hcut : ∀ {m : KnvNode}, Cut (· = req) p (n.innerExpand p (!d.child_has_key)) m →
              Cut (fun r => r = req ∧ req.isLeaf = false ∧ Names req n) p n m := by
            intro m hc
            exact ((cut_innerExpand (· = req) p _ n).trans hc).mono fun r hr => ⟨hr, hleaf', hnames⟩
          split at h
          · -- there is nothing in it
            rename_i hzero
            simp only [Prod.mk.injEq, Except.ok.injEq] at h
            obtain ⟨rfl, rfl, rfl, rfl⟩ := h
            refine ⟨hsx, hcut .refl, (nomatch ·), fun hl => absurd hl hleaf,
              fun _ hb => absurd ?_ hb, fun _ => ⟨rfl, rfl, opened_innerExpand p _ n⟩⟩
            rw [bare_iff hs (!d.child_has_key)]
            exact (num_eq_zero_iff hsx hnx).mp hzero
          · rename_i hsome
            have hne : (n.innerExpand p (!d.child_has_key)).childlist ≠ [] :=
              fun hnil => hsome ((num_eq_zero_iff hsx hnx).mpr hnil)
            cases hloop : deleteRequests req childlist
              ⟨n.innerExpand p (!d.child_has_key), [], none⟩ with
            | error e =>
              rw [hloop] at h
              exact nomatch h
            | ok st =>
              rw [hloop] at h
              simp only [Prod.mk.injEq, Except.ok.injEq] at h
              obtain ⟨rfl, rfl, rfl, rfl⟩ := h
              have hsteps : Steps (· = req) p ⟨n.innerExpand p (!d.child_has_key), [], none⟩ st :=
                steps_requests (R := (· = req)) rfl childlist
                  (fun s hs => by rw [← hlist]; exact hs)
                  (fun s hs => ih (sizeOf s) (hsub s hs) s rfl) hsx hnx
                  (hcareful hnames hleaf') hloop
              have hbare : st.data.child_num.getD 0 = 0 ↔ st.data.childlist = [] :=
                num_eq_zero_iff hsteps.sane hsteps.num
              refine ⟨hsteps.sane, hcut hsteps.cut, fun hw => .inr ?_, fun hl => absurd hl hleaf,
                fun hw _ hb => ?_, fun hm => ?_⟩
              · refine ⟨hleaf', hnames, hsteps.num, hbare.mp (of_decide_eq_true hw),
                  fun k hnil => hne ?_⟩
                exact (bare_iff hs _).mp ((bare_iff hs k).mpr hnil)
              · rw [Bare, innerExpand_expanded hsteps.num] at hb
                exact of_decide_eq_false hw hb
              · obtain ⟨_, htold, ho⟩ := hsteps.quiet hm
                refine ⟨decide_eq_false fun hzero => hne ?_, htold, ho.of_expanded⟩
                exact ho.childlist_nil hnx (hbare.mp hzero)

/-! ## Trees that are read or built are in order -/

theorem newFromData_sane {data : List UInt8} {n : KnvNode} (h : newFromData data = .ok n) :
    Sane n :=
  (newFromData_twin h).sane

theorem Sane.keepsList {n n' : KnvNode} (h : Sane n) (hk : KeepsList n n') : Sane n' := by
  refine .mk (fun hnum => ?_) fun hnum => ?_
  · rw [hk.child_num] at hnum
    exact hk.sameIndex.listed (h.listed hnum)
  · rw [hk.child_num] at hnum
    rw [hk.childlist]
    exact h.children hnum

theorem Sane.with_key {n : KnvNode} (h : Sane n) (key : KnvKey) : Sane { n with key := key } :=
  h.keepsList (n := n) ⟨rfl, rfl, rfl, Nat.le_refl _, rfl, rfl⟩

theorem Sane.with_ref {n : KnvNode} (h : Sane n) (r : Nat) : Sane { n with ref := r } :=
  .mk (fun hnum => ⟨(h.listed hnum).child_num, (h.listed hnum).refs, (h.listed hnum).nodup⟩)
    h.children

theorem sane_newNode {tag : UInt32} {key : Option FieldVal} {val : FieldVal} {n : KnvNode}
    (h : newNode tag key val = .ok n) : Sane n := by
  have hinit : Sane (initNode tag val true 0 false) :=
    Twin.sane ⟨(⟨tag, val⟩, 0), 0, false, false, rfl, rfl, .inl rfl⟩
  rw [newNode] at h
  split at h
  · cases h
  · cases key with
    | none => exact Except.ok.inj h ▸ hinit
    | some k =>
      have hkeyed : Sane { initNode tag val true 0 false with key := KnvKey.init k } :=
        hinit.with_key _
      replace h : (if (KnvKey.init k).val = [] then _ else _) = Except.ok n := h
      split at h
      · exact Except.ok.inj h ▸ hkeyed
      · have hset :=
          editKeeps_setMeta (fun hk hs => Sane.keepsList hs hk) (hkeyed.innerExpand false false) 1
            (KnvKey.init k).getValue
        replace h : (do return (← KnvNode.setMeta _ 1 (KnvKey.init k).getValue).1) =
          Except.ok n := h
        generalize KnvNode.setMeta _ 1 (KnvKey.init k).getValue = r at h hset
        cases r with
        | error e => cases h
        | ok q => exact Except.ok.inj h ▸ hset q rfl

theorem InOrder.keepsList {r : Nat} {n n' : KnvNode} (hk : KeepsList n n') (h : InOrder r n) :
    InOrder r n' := ⟨h.1.keepsList hk, hk.ref.trans h.2⟩

theorem Sane.inOrder {n : KnvNode} (h : Sane n) (p k : Bool) : InOrder n.ref (n.innerExpand p k) :=
  ⟨h.innerExpand p k, (sameFace_innerExpand n p k).1⟩

/-- A child is hung in. -/
theorem Sane.insertNode {n c : KnvNode} (h : Sane n) (hc : Sane c) :
    EditKeeps (InOrder n.ref) (n.insertNode c) := by
  obtain ⟨hx, href⟩ := h.inOrder false false
  have hnum := innerExpand_num n false false
  rw [KnvNode.insertNode]
  split
  · exact editKeeps_error _
  · split
    · exact editKeeps_error _
    · have he := resized_edited ((n.innerExpand false false).hangChild c) (evaluateSize c).1
      refine editKeeps_ok ⟨he.sane (.mk (fun _ => (hx.listed hnum).hangChild c) ?_),
        he.ref.trans href⟩ _
      intro _ x hmem
      rcases List.mem_append.mp hmem with hmem | hmem
      · exact hx.children hnum x hmem
      · rw [List.mem_singleton.mp hmem]
        exact hc.with_ref _

theorem Sane.insert {n : KnvNode} (h : Sane n) {make : Except KnvError KnvNode}
    (hmake : ∀ c, make = .ok c → Sane c) :
    EditKeeps (InOrder n.ref) (do n.insertNode (← make)) := by
  cases make with
  | error e => exact editKeeps_error _
  | ok c => exact h.insertNode (hmake c rfl)

/-- Every call of the builder leaves the node in order. -/
theorem Sane.exec {n : KnvNode} (h : Sane n) (op : BuildOp) :
    EditKeeps (InOrder n.ref) (op.exec n) := by
  have hkey : ∀ key : KnvKey, InOrder n.ref ({ n with key := key }.innerExpand false false) :=
    fun key => (h.with_key key).inOrder false false
  cases op with
  | insertSubNode tag key => exact h.insert fun c hc => sane_newNode hc
  | insertIntLeaf tag val => exact h.insert fun c hc => sane_newNode hc
  | insertStrLeaf tag val => exact h.insert fun c hc => sane_newNode hc
  | setMetaInt tag val => exact (editKeeps_setMetaOrKey InOrder.keepsList hkey tag _).once
  | setMetaStr tag val => exact (editKeeps_setMetaOrKey InOrder.keepsList hkey tag _).once
  | addMetaInt tag val => exact editKeeps_addMeta InOrder.keepsList hkey tag _
  | addMetaStr tag val => exact editKeeps_addMeta InOrder.keepsList hkey tag _
  | removeField tag =>
    show EditKeeps (InOrder n.ref) (n.removeField tag)
    rw [removeField]
    split
    · exact editKeeps_removeMetaByTag InOrder.keepsList (h.inOrder false false) tag
    · exact h.removeChildrenByTag tag

/-- The child at a position has become another one. -/
theorem Sane.set {n c c' : KnvNode} (h : Sane n) {i : Nat} (hi : n.childlist[i]? = some c)
    (hc' : n.child_num ≠ none → InOrder c.ref c') :
    Sane (n.withChildren (n.childlist.set i c')) := by
  refine .mk (fun hnum => ?_) fun hnum x hx => ?_
  · obtain ⟨_, href⟩ := hc' hnum
    have hl := h.listed hnum
    have hmap : ((n.childlist.set i c').map fun x => x.ref) = n.childlist.map fun x => x.ref := by
      obtain ⟨hlt, rfl⟩ := List.getElem?_eq_some_iff.mp hi
      rw [List.map_set, href, ← List.map_set, List.set_getElem_self]
    refine ⟨?_, fun x hx => ?_, ?_⟩
    · show n.child_num = some (n.childlist.set i c').length
      rw [List.length_set]
      exact hl.child_num
    · have hmem : x.ref ∈ (n.childlist.set i c').map fun x => x.ref := List.mem_map_of_mem hx
      rw [hmap] at hmem
      obtain ⟨y, hy, he⟩ := List.mem_map.mp hmem
      rw [← he]
      exact hl.refs y hy
    · show ((n.childlist.set i c').map fun x => x.ref).Nodup
      rw [hmap]
      exact hl.nodup
  · rcases List.mem_or_eq_of_mem_set hx with hx | rfl
    · exact h.children hnum x hx
    · exact (hc' hnum).1

/-- An edit of a node below. -/
theorem Sane.editAt {f : KnvNode → Except KnvError (KnvNode × List Int)}
    (hf : ∀ n, Sane n → EditKeeps (InOrder n.ref) (f n)) (path : List Nat) :
    ∀ {n : KnvNode}, Sane n → EditKeeps (InOrder n.ref) (KnvNode.editAt f path n) := by
  induction path with
  | nil =>
    intro n h q hq
    rw [KnvNode.editAt] at hq
    cases hr : f n with
    | error e =>
      rw [hr] at hq
      cases hq
    | ok r =>
      rw [hr] at hq
      rw [← Except.ok.inj hq]
      exact hf n h r hr
  | cons i path ih =>
    intro n h q hq
    rw [KnvNode.editAt] at hq
    cases hi : n.childlist[i]? with
    | none =>
      rw [hi] at hq
      cases hq
    | some c =>
      rw [hi] at hq
      simp only at hq
      cases hr : KnvNode.editAt f path c with
      | error e =>
        rw [hr] at hq
        cases hq
      | ok r =>
        rw [hr] at hq
        rw [← Except.ok.inj hq]
        have hset := h.set hi fun hnum => ih (h.children hnum c (List.mem_of_getElem? hi)) r hr
        have hres := resized_parentRounds r.2 (n.withChildren (n.childlist.set i r.1))
        exact ⟨hres.sane hset, hres.ref⟩

end KnvNode

/-- **Every tree that is built is in order.** -/
theorem BuildState.run_sane {tag : UInt32} {key : Option FieldVal} {s s' : BuildState}
    (h : Start tag key s) (hrun : Relation.ReflTransGen Step s s') : s'.root.Sane := by
  refine run_invariant (I := fun s => s.root.Sane) hrun (KnvNode.sane_newNode h.root) ?_
  rintro s s' hs ⟨path, op, _, _, _, out, hroot⟩
  exact (KnvNode.Sane.editAt (fun n hn => hn.exec op) path hs _ hroot).1

namespace KnvNode

/-- **`DeleteSubTree` deletes what was asked for, and nothing else**, if no visit meets a child
    without children, except to take it as a whole.  Without a match the tree is written as
    before. -/
theorem deleteSubTree_asked {data req : KnvNode} {m : Option KnvNode} (hs : Sane data)
    (hcareful : Careful req false data) (h : (deleteSubTree req false data).2.2 = .ok (false, m)) :
    Cut (· = req) false data (deleteSubTree req false data).1 ∧
      (m = none → serializeString (deleteSubTree req false data).1 = serializeString data) := by
  have ho :
    Outcome req false data (deleteSubTree req false data).1 (deleteSubTree req false data).2.1
      false m := by
    refine deleteSubTree_outcome req hs hcareful ?_
    rw [← h]
  exact ⟨ho.cut.mono fun _ hr => hr.1, fun hm => (ho.quiet hm).2.2.serializeString⟩

theorem returns_of_toOption {x : Except Int (Bool × Option KnvNode)} {whole : Bool}
    (h : x.toOption.map Prod.fst = some whole) : ∃ m, x = .ok (whole, m) := by
  cases x with
  | error e => exact nomatch h
  | ok q => exact ⟨q.2, by rw [← Option.some.inj h]⟩

/-- Below the children with the tag 12 the ones with the tag 13 are asked for. -/
def belowTwelve : Except KnvError KnvNode := do
  let (sub_req, _) ← (← newTree 12 none).insertIntLeaf 13 1
  return (← (← newTree 11 none).insertNode sub_req).1

/-- The child with the tag 12 loses its only child, and goes. -/
theorem deleteSubTree_asked_twelve : ∃ data req, newFromData [0x5a, 6, 0x62, 2, 0x68, 1, 0x70, 1] =
    .ok data ∧
    belowTwelve = .ok req ∧ Cut (· = req) false data (deleteSubTree req false data).1 ∧
    (serializeString (deleteSubTree req false data).1).toOption = some [0x5a, 2, 0x70, 1] := by
  obtain ⟨data, req, hdata, hreq, hcareful, hret, hserial⟩ : ∃ data req,
      newFromData [0x5a, 6, 0x62, 2, 0x68, 1, 0x70, 1] = .ok data ∧ belowTwelve = .ok req ∧
      Careful req false data ∧ (deleteSubTree req false data).2.2.toOption.map Prod.fst =
        some false ∧
      (serializeString (deleteSubTree req false data).1).toOption = some [0x5a, 2, 0x70, 1] :=
    ⟨_, _, rfl, rfl, by decide +kernel, by decide +kernel, by decide +kernel⟩
  obtain ⟨m, hm⟩ := returns_of_toOption hret
  exact ⟨data, req, hdata, hreq, (deleteSubTree_asked (newFromData_sane hdata) hcareful hm).1,
    hserial⟩

/-! ## What goes wrong -/

/-- A call finds nothing in a child without children that it does not take. -/
theorem deleteSubTree_bare {s c : KnvNode} {q : Bool} (hs : Sane c) (h0 : s.tag ≠ 0)
    (hbare : Bare q c)
    (hnot : ¬ (s.isLeaf = true ∧ Names s c)) :
    ∃ c', deleteSubTree s q c = (c', [], .ok (false, none)) ∧ Bare q c' := by
  obtain ⟨d, metalist, childlist⟩ := s
  rw [deleteSubTree]
  simp only
  rw [if_neg (show ¬ d.tag = 0 from h0)]
  split
  · exact ⟨c, rfl, hbare⟩
  · rename_i hsame
    have hnames : Names ⟨d, metalist, childlist⟩ c := by
      refine ⟨Eq.symm (not_not.mp fun hne => hsame (.inl hne)), fun hne => ?_⟩
      exact not_not.mp fun hk => hsame (.inr ⟨hne, hk⟩)
    have hnum := innerExpand_num c q (!d.child_has_key)
    have hzero : (c.innerExpand q (!d.child_has_key)).child_num.getD 0 = 0 :=
      (num_eq_zero_iff (hs.innerExpand q _) hnum).mpr ((bare_iff hs _).mp hbare)
    rw [if_neg fun hleaf => hnot ⟨hleaf, hnames⟩, if_pos hzero]
    refine ⟨_, rfl, ?_⟩
    rw [Bare, innerExpand_expanded hnum]
    exact hzero

/-- **A visit that meets such a child deletes it**, and there is no match more than before: without
    `Careful` a run does that. -/
theorem deleteVisit_bare {req_tree s c : KnvNode} {st : Cutting} (hs : Sane st.data)
    (hnum : st.data.child_num ≠ none) (hc : c ∈ st.data.childlist) (h0 : s.tag ≠ 0)
    (hbare : Bare (st.data.key.val ≠ []) c) (hnot : ¬ (s.isLeaf = true ∧ Names s c)) :
    ∃ c', deleteVisit req_tree (deleteSubTree s (st.data.key.val ≠ [])) st c.ref =
      .ok ((st.withChild c' []).dropChild c.ref) := by
  obtain ⟨c', hdel, hbare'⟩ := deleteSubTree_bare (hs.children hnum c hc) h0 hbare hnot
  refine ⟨c'.innerExpand (st.data.key.val ≠ []) false, ?_⟩
  rw [deleteVisit, findRef_of_mem (hs.listed hnum).nodup hc]
  simp only [hdel, gatherMatch, Bool.false_eq_true, if_false]
  exact if_pos hbare'

/-- A child that is not there any more may disappear. -/
theorem Cut.missing {R : KnvNode → Prop} {p : Bool} {n n' : KnvNode} (h : Cut R p n n')
    (hnum : n'.child_num ≠ none) : ∃ k, ∀ c ∈ (n.innerExpand p k).childlist,
      (∀ c' ∈ n'.childlist, c'.ref ≠ c.ref) → Gone R (n.key.val ≠ []) c := by
  cases h with
  | refl =>
    refine ⟨false, fun c hc hne => ?_⟩
    rw [innerExpand_expanded hnum] at hc
    exact absurd rfl (hne c hc)
  | cut k kept trimmed num hlist stays goes =>
    refine ⟨k, fun c hc hne => ?_⟩
    cases hk : kept c with
    | none => exact goes c hc hk
    | some c' =>
      refine absurd (stays c hc c' hk).sameFace.1 (hne c' ?_)
      rw [hlist]
      exact List.mem_filterMap.mpr ⟨c, hc, hk⟩

/-- The integer under the tag 12 has no children, and nothing under the tag 13.  It is deleted,
    without a match. -/
theorem bare_child_deleted : ∃ data req, newFromData [0x5a, 4, 0x60, 5, 0x70, 1] = .ok data ∧
    belowTwelve = .ok req ∧ Names req data ∧ (deleteSubTree req false data).2.2 =
      .ok (false, none) ∧
    ¬ Cut (· = req) false data (deleteSubTree req false data).1 ∧
    serializeString (deleteSubTree req false data).1 ≠ serializeString data := by
  obtain ⟨data, req, hdata, hreq, hnames, hret, hleaf, hnum, hlost, hserial⟩ : ∃ data req,
      newFromData [0x5a, 4, 0x60, 5, 0x70, 1] = .ok data ∧ belowTwelve = .ok req ∧ Names req data ∧
      ((deleteSubTree req false data).2.2.toOption.map fun q => (q.1, q.2.isNone)) =
        some (false, true) ∧
      (∀ s ∈ req.childlist, s.isLeaf = false) ∧ (deleteSubTree req false data).1.child_num ≠ none ∧
      (∀ k, ∃ c ∈ (data.innerExpand false k).childlist,
        (∀ c' ∈ (deleteSubTree req false data).1.childlist, c'.ref ≠ c.ref) ∧
        ∀ p' k', (c.innerExpand p' k').childlist.isEmpty = true) ∧
      (serializeString (deleteSubTree req false data).1).toOption ≠ (serializeString data).toOption
        :=
    ⟨_, _, rfl, rfl, by decide +kernel, by decide +kernel, by decide +kernel, by decide +kernel,
      by decide +kernel, by decide +kernel⟩
  refine ⟨data, req, hdata, hreq, hnames, ?_, fun hcut => ?_, fun he => hserial (by rw [he])⟩
  · cases hx : (deleteSubTree req false data).2.2 with
    | error e =>
      rw [hx] at hret
      exact nomatch hret
    | ok q =>
      rw [hx] at hret
      obtain ⟨whole, m⟩ := q
      have hq := Option.some.inj hret
      simp only [Prod.mk.injEq, Option.isNone_iff_eq_none] at hq
      rw [hq.1, hq.2]
  · obtain ⟨k, hmissing⟩ := hcut.missing hnum
    obtain ⟨c, hc, hne, hempty⟩ := hlost k
    cases hmissing c hc hne with
    | selected hsel =>
      obtain ⟨r, rfl, s, hs, hw, _⟩ := hsel
      have := hleaf s hs
      rw [hw.1] at this
      exact nomatch this
    | emptied k' hsome _ => exact hsome (List.isEmpty_iff.mp (hempty _ k'))

end KnvNode

end MysqlProxy
