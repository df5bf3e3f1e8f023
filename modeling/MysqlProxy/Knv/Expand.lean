/-
  Expanding a value into fields.

  `InnerExpand` turns the fields of a value into nodes, one after the other: tags up to 10 become
  metas, the others children.  Each node remembers how many bytes its field TOOK, which need not be
  how many it takes when it is written again.

  `Grown k n n₀ fs` is the invariant of that loop: the node `n` is the node `n₀` with the fields `fs`
  hung in.  It holds after the last field (`innerExpand_grown`), and from it follow
  * `GetMeta`: the LAST meta with a tag,
  * `FindChildByTag`: a child with the tag, whether the list is scanned or the index is asked,
  * the walk with `GetFirstField` and `GetNextField`: the metas, then the children.
-/
import MysqlProxy.Knv.Build

namespace MysqlProxy

namespace KnvNode

/-! ## Reads of an expanded node -/

/-- What `GetMeta` finds in an expanded node. -/
def lookupMeta (n : KnvNode) (t : Nat) : Option KnvNode :=
  if n.metalist = [] then none else (n.metas t).bind (findRef n.metalist)

/-- What `FindChildByTag` finds in an expanded node. -/
def lookupChild (n : KnvNode) (t : UInt32) : Option KnvNode :=
  if n.child_num.getD 0 = 0 then none
  else if n.child_has_key then n.childlist.find? fun c => c.tag = t
  else (n.ht.get n.childView t []).bind (findRef n.childlist)

theorem getMeta_eq {n : KnvNode} {t : UInt32} (htag : n.tag ≠ 0) (ht : t.toNat ≤ UC_MAX_META_NUM) :
    n.getMeta t = (n.innerExpand false false).lookupMeta t.toNat := by
  unfold getMeta lookupMeta
  rw [if_neg (not_or.mpr ⟨htag, Nat.not_lt.mpr ht⟩)]

theorem findChildByTag_eq {n : KnvNode} {t : UInt32} (htag : n.tag ≠ 0) :
    n.findChildByTag t = (n.innerExpand false false).lookupChild t := by
  unfold findChildByTag lookupChild
  rw [if_neg htag]

/-- `GetFirstMeta`; `p` says whether the node has a parent with a key. -/
def getFirstMeta (n : KnvNode) (p : Bool) : Option KnvNode :=
  if n.tag = 0 then none else (n.innerExpand p false).metalist.head?

/-- `GetFirstChild`. -/
def getFirstChild (n : KnvNode) (p : Bool) : Option KnvNode :=
  if n.tag = 0 then none
  else
    let n := n.innerExpand p false
    if n.child_num.getD 0 = 0 then none else n.childlist.head?

/-- `cur->next` in a list, for the node with the `ref`. -/
def nextIn : List KnvNode → Nat → Option KnvNode
  | [], _ => none
  | m :: l, r => if m.ref = r then l.head? else nextIn l r

/-- `GetFirstField` without a tag. -/
def getFirstField (n : KnvNode) (p : Bool) : Option KnvNode :=
  (n.getFirstMeta p).or (n.getFirstChild p)

/-- `GetNextField` without a tag, of a node that is expanded already. -/
def getNextField (n : KnvNode) (p : Bool) (cur : KnvNode) : Option KnvNode :=
  match (nextIn n.metalist cur.ref).or (nextIn n.childlist cur.ref) with
  | some next => some next
  | none => if (n.metalist.getLast?.map fun m => m.ref) = some cur.ref then n.getFirstChild p else none

/-- The loop over `GetNextField`, for at most `fuel` fields. -/
def fieldsFrom (n : KnvNode) (p : Bool) : Nat → Option KnvNode → List KnvNode
  | 0, _ => []
  | _, none => []
  | fuel + 1, some cur => cur :: fieldsFrom n p fuel (n.getNextField p cur)

/-- The fields of a node in the order of the walk. -/
def fields (n : KnvNode) (p : Bool) : List KnvNode :=
  let m := n.innerExpand p false
  fieldsFrom m p (m.metalist.length + m.childlist.length) (n.getFirstField p)

/-! ## The loop of `InnerExpand` -/

/-- The node a field that took `p.2` bytes becomes. -/
def OfField (no_key : Bool) (m : KnvNode) (p : PbField × Nat) : Prop :=
  ∃ r, m = { initNode p.1.tag p.1.val true p.2 no_key with ref := r }

/-- The field becomes a meta. -/
def isMeta (p : PbField × Nat) : Bool := p.1.tag.toNat ≤ UC_MAX_META_NUM

/-- What expanding leaves alone. -/
def head (n : KnvNode) : Nat × UInt32 × FieldVal × KnvKey × Bool × Int × Int :=
  (n.ref, n.tag, n.val, n.key, n.no_key, n.eval_sz, n.eval_val_sz)

/-- The node `n` is the node `n₀`, expanded to the fields `fs`. -/
structure Grown (no_key : Bool) (n n₀ : KnvNode) (fs : List (PbField × Nat)) : Prop where
  head : n.head = n₀.head
  metalist : List.Forall₂ (OfField true) n.metalist (fs.filter isMeta)
  childlist : List.Forall₂ (OfField no_key) n.childlist (fs.filter (!isMeta ·))
  child_num : n.child_num = some n.childlist.length
  child_has_key : n.child_has_key = n.childlist.any fun c => c.key.val ≠ []
  refs : ∀ x ∈ n.metalist ++ n.childlist, x.ref < n.next_ref
  nodup : ((n.metalist ++ n.childlist).map fun x => x.ref).Nodup
  metas_lt : n.metalist ≠ [] → ∀ t r, n.metas t = some r → r < n.next_ref
  metas : ∀ t, n.lookupMeta t = n.metalist.reverse.find? fun m => m.tag.toNat = t
  ht : KnvHt.Holds n.childView n.ht (n.childlist.map fun c => c.ref)

/-- A node that is not there yet is not found under its `ref`. -/
theorem findRef_fresh {l : List KnvNode} {r : Nat} (h : ∀ m ∈ l, m.ref < r) : findRef l r = none := by
  unfold findRef
  rw [List.find?_eq_none]
  intro m hm
  have := h m hm
  simp
  omega

theorem findRef_append {l : List KnvNode} {m : KnvNode} {r : Nat} (h : r < m.ref) :
    findRef (l ++ [m]) r = findRef l r := by
  unfold findRef
  rw [List.find?_append, List.find?_cons_of_neg (by simp; omega), List.find?_nil, Option.or_none]

theorem findRef_last {l : List KnvNode} {m : KnvNode} (h : ∀ x ∈ l, x.ref < m.ref) :
    findRef (l ++ [m]) m.ref = some m := by
  have hl := findRef_fresh h
  unfold findRef at hl ⊢
  rw [List.find?_append, hl, Option.none_or, List.find?_cons_of_pos (by simp)]

theorem findRef_of_mem {l : List KnvNode} {m : KnvNode} (hnd : (l.map fun x => x.ref).Nodup)
    (hm : m ∈ l) : findRef l m.ref = some m := by
  induction l with
  | nil => exact absurd hm List.not_mem_nil
  | cons x l ih =>
    rw [List.map_cons, List.nodup_cons] at hnd
    unfold findRef
    rcases List.mem_cons.mp hm with rfl | hm
    · rw [List.find?_cons_of_pos (by simp)]
    · have hne : x.ref ≠ m.ref := fun he => hnd.1 (List.mem_map.mpr ⟨m, hm, he.symm⟩)
      rw [List.find?_cons_of_neg (by simpa using hne)]
      exact ih hnd.2 hm

theorem childView_of_mem {n c : KnvNode} (hnd : (n.childlist.map fun x => x.ref).Nodup)
    (hc : c ∈ n.childlist) : n.childView c.ref = (c.tag, c.key.val) := by
  have hfind : n.childlist.find? (fun x => x.ref = c.ref) = some c := findRef_of_mem hnd hc
  unfold childView
  rw [hfind]

theorem childView_congr {n n' : KnvNode} {r : Nat}
    (h : findRef n'.childlist r = findRef n.childlist r) : n'.childView r = n.childView r := by
  have hfind : n'.childlist.find? (fun c => c.ref = r) = n.childlist.find? fun c => c.ref = r := h
  unfold childView
  rw [hfind]

/-! ## The index of the children -/

/-- The index of an expanded node is one of its children. -/
structure Indexed (n : KnvNode) : Prop where
  child_num : n.child_num = some n.childlist.length
  child_has_key : ∀ c ∈ n.childlist, c.key.val ≠ [] → n.child_has_key = true
  refs : ∀ x ∈ n.childlist, x.ref < n.next_ref
  nodup : (n.childlist.map fun x => x.ref).Nodup
  ht : KnvHt.Holds n.childView n.ht (n.childlist.map fun c => c.ref)

section Indexed

variable {n : KnvNode}

/-- What `FindChildByTag` returns is a child with the tag, -/
theorem Indexed.lookupChild_some (h : Indexed n) {t : UInt32} {c : KnvNode}
    (hc : n.lookupChild t = some c) : c ∈ n.childlist ∧ c.tag = t := by
  unfold lookupChild at hc
  split at hc
  · cases hc
  · split at hc
    · have hp := List.find?_some hc
      exact ⟨List.mem_of_find?_eq_some hc, of_decide_eq_true hp⟩
    · obtain ⟨r, hr, hfind⟩ := Option.bind_eq_some_iff.mp hc
      obtain ⟨hmem, hview⟩ := h.ht.get_some _ hr
      have hc' : c ∈ n.childlist := List.mem_of_find?_eq_some hfind
      have hp := List.find?_some (p := fun x : KnvNode => decide (x.ref = r)) hfind
      have hcr : c.ref = r := of_decide_eq_true hp
      rw [← hcr, childView_of_mem h.nodup hc'] at hview
      exact ⟨hc', congrArg Prod.fst hview⟩

/-- and it returns one if there is one. -/
theorem Indexed.lookupChild_of_mem (h : Indexed n) {c : KnvNode} (hc : c ∈ n.childlist) :
    ∃ c', n.lookupChild c.tag = some c' := by
  have hpos : 0 < n.childlist.length := List.length_pos_of_mem hc
  unfold lookupChild
  rw [h.child_num, if_neg (by show n.childlist.length ≠ 0; omega)]
  split
  · rw [← Option.isSome_iff_exists, List.find?_isSome]
    exact ⟨c, hc, by simp⟩
  · -- no child has a key, so the index is one of tags only
    rename_i hkey
    have hnone : c.key.val = [] := by
      by_contra hne
      exact hkey (h.child_has_key c hc hne)
    have hview : n.childView c.ref = (c.tag, []) := by
      rw [childView_of_mem h.nodup hc, hnone]
    obtain ⟨r, hr⟩ := h.ht.get_of_mem _ (List.mem_map.mpr ⟨c, hc, rfl⟩)
    rw [hview] at hr
    obtain ⟨hmem, _⟩ := h.ht.get_some _ hr
    obtain ⟨x, hx, rfl⟩ := List.mem_map.mp hmem
    exact ⟨x, by rw [hr, Option.bind_some, findRef_of_mem h.nodup hx]⟩

/-- A child whose tag no other child has. -/
theorem Indexed.lookupChild_unique (h : Indexed n) {c : KnvNode} (hc : c ∈ n.childlist)
    (huniq : ∀ c' ∈ n.childlist, c'.tag = c.tag → c' = c) : n.lookupChild c.tag = some c := by
  obtain ⟨c', hc'⟩ := h.lookupChild_of_mem hc
  obtain ⟨hmem, htag⟩ := h.lookupChild_some hc'
  rw [hc', huniq c' hmem htag]

theorem Indexed.lookupChild_none (h : Indexed n) {t : UInt32} (ht : ∀ c ∈ n.childlist, c.tag ≠ t) :
    n.lookupChild t = none := by
  cases hc : n.lookupChild t with
  | none => rfl
  | some c =>
    obtain ⟨hmem, htag⟩ := h.lookupChild_some hc
    exact absurd htag (ht c hmem)

/-- **A child more**, whatever it is. -/
theorem Indexed.hangChild (h : Indexed n) (c : KnvNode) : Indexed (n.hangChild c) := by
  generalize hc' : ({ c with ref := n.next_ref } : KnvNode) = c'
  have href : c'.ref = n.next_ref := by rw [← hc']
  have hlist : (n.hangChild c).childlist = n.childlist ++ [c'] := by
    rw [← hc']
    rfl
  have hhas : (n.hangChild c).child_has_key = (n.child_has_key || c'.key.val ≠ []) := by
    rw [← hc']
    rfl
  have hfresh : ∀ x ∈ n.childlist, x.ref < c'.ref := by
    intro x hx
    rw [href]
    exact h.refs x hx
  refine { child_num := ?_, child_has_key := ?_, refs := ?_, nodup := ?_, ht := ?_ }
  · rw [show (n.hangChild c).child_num = n.child_num.map (· + 1) from rfl, h.child_num, hlist,
      List.length_append]
    rfl
  · intro x hx hne
    rw [hhas, Bool.or_eq_true]
    rw [hlist] at hx
    rcases List.mem_append.mp hx with hx | hx
    · exact .inl (h.child_has_key x hx hne)
    · rw [List.mem_singleton.mp hx] at hne
      exact .inr (decide_eq_true hne)
  · intro x hx
    show x.ref < n.next_ref + 1
    rw [hlist] at hx
    rcases List.mem_append.mp hx with hx | hx
    · exact Nat.lt_succ_of_lt (h.refs x hx)
    · rw [List.mem_singleton.mp hx, href]
      exact Nat.lt_succ_self _
  · rw [hlist, List.map_append]
    refine List.nodup_append.mpr ⟨h.nodup, List.pairwise_singleton _ _, ?_⟩
    intro r hr r' hr' he
    obtain ⟨x, hx, rfl⟩ := List.mem_map.mp hr
    have h1 := hfresh x hx
    have h2 : r' = c'.ref := List.mem_singleton.mp hr'
    have h3 : x.ref = r' := he
    omega
  · -- the old pointers lead to the same nodes, and the new one goes in front of its bucket
    generalize hn' : n.hangChild c = n' at hlist ⊢
    have hht : n'.ht = n.ht.put n'.childView c'.ref := by rw [← hn', href]; rfl
    have hview : ∀ r ∈ n.childlist.map (fun x => x.ref), n'.childView r = n.childView r := by
      intro r hr
      obtain ⟨x, hx, rfl⟩ := List.mem_map.mp hr
      exact childView_congr (by rw [hlist, findRef_append (hfresh x hx)])
    rw [hht, hlist, List.map_append]
    exact ((h.ht.congr _ hview).put _ c'.ref).of_perm _ (List.perm_append_singleton _ _).symm

end Indexed

theorem Grown.nodup_childlist {k : Bool} {n n₀ : KnvNode} {fs : List (PbField × Nat)}
    (h : Grown k n n₀ fs) : (n.childlist.map fun x => x.ref).Nodup := by
  have := h.nodup
  rw [List.map_append] at this
  exact (List.nodup_append.mp this).2.1

/-- The children are indexed. -/
theorem Grown.indexed {k : Bool} {n n₀ : KnvNode} {fs : List (PbField × Nat)}
    (h : Grown k n n₀ fs) : Indexed n where
  child_num := h.child_num
  child_has_key := fun c hc hne => by
    rw [h.child_has_key]
    exact List.any_eq_true.mpr ⟨c, hc, decide_eq_true hne⟩
  refs := fun x hx => h.refs x (List.mem_append_right _ hx)
  nodup := h.nodup_childlist
  ht := h.ht

/-! ## The loop -/

/-- The loop starts with no fields. -/
theorem grown_nil {n n₀ : KnvNode} (hhead : n.head = n₀.head) (hm : n.metalist = [])
    (hc : n.childlist = []) (hnum : n.child_num = some 0) (hkey : n.child_has_key = false)
    (hht : n.ht = KnvHt.clear) (k : Bool) : Grown k n n₀ [] where
  head := hhead
  metalist := by rw [hm]; exact .nil
  childlist := by rw [hc]; exact .nil
  child_num := by rw [hnum, hc]; rfl
  child_has_key := by rw [hkey, hc]; rfl
  refs := by rw [hm, hc]; exact fun x hx => absurd hx List.not_mem_nil
  nodup := by rw [hm, hc]; exact List.nodup_nil
  metas_lt := fun h => absurd hm h
  metas := by
    intro t
    rw [lookupMeta, if_pos hm, hm]
    rfl
  ht := by rw [hht, hc]; exact KnvHt.holds_clear _

/-- A meta more. -/
theorem Grown.hangMeta {k : Bool} {n n₀ : KnvNode} {fs : List (PbField × Nat)}
    (h : Grown k n n₀ fs) {f : PbField × Nat} (hf : isMeta f = true) :
    Grown k (n.hangMeta (initNode f.1.tag f.1.val true f.2 true) false) n₀ (fs ++ [f]) := by
  generalize hm : ({ initNode f.1.tag f.1.val true f.2 true with ref := n.next_ref } : KnvNode) = m
  have href : m.ref = n.next_ref := by rw [← hm]
  have htag : m.tag = f.1.tag := by rw [← hm]; rfl
  have hlist : (n.hangMeta (initNode f.1.tag f.1.val true f.2 true) false).metalist =
      n.metalist ++ [m] := by rw [← hm]; rfl
  have hmetas : ∀ t, (n.hangMeta (initNode f.1.tag f.1.val true f.2 true) false).metas t =
      if t = m.tag.toNat then some m.ref else if n.metalist = [] then none else n.metas t := by
    intro t
    rw [← hm]
    rfl
  have hfresh : ∀ x ∈ n.metalist, x.ref < m.ref := by
    intro x hx
    rw [href]
    exact h.refs x (List.mem_append_left _ hx)
  have hne : n.metalist ++ [m] ≠ [] := List.append_ne_nil_of_right_ne_nil _ (List.cons_ne_nil _ _)
  refine
    { head := h.head
      metalist := ?_
      childlist := ?_
      child_num := h.child_num
      child_has_key := h.child_has_key
      refs := ?_
      nodup := ?_
      metas_lt := ?_
      metas := ?_
      ht := h.ht }
  · rw [hlist, List.filter_append, List.filter_cons_of_pos hf]
    exact List.rel_append h.metalist (.cons ⟨n.next_ref, hm.symm⟩ .nil)
  · rw [List.filter_append, List.filter_cons_of_neg (by simp [hf]), List.filter_nil, List.append_nil]
    exact h.childlist
  · intro x hx
    show x.ref < n.next_ref + 1
    rw [hlist, List.append_assoc] at hx
    rcases List.mem_append.mp hx with hx | hx
    · exact Nat.lt_succ_of_lt (h.refs x (List.mem_append_left _ hx))
    · rcases List.mem_cons.mp hx with rfl | hx
      · rw [href]
        exact Nat.lt_succ_self _
      · exact Nat.lt_succ_of_lt (h.refs x (List.mem_append_right _ hx))
  · have hp : (n.metalist ++ [m] ++ n.childlist).Perm (m :: (n.metalist ++ n.childlist)) := by
      rw [List.append_assoc]
      exact List.perm_middle
    rw [hlist]
    refine ((hp.map fun x => x.ref).nodup_iff).mpr (List.nodup_cons.mpr ⟨?_, h.nodup⟩)
    intro hmem
    obtain ⟨x, hx, he⟩ := List.mem_map.mp hmem
    have hlt := h.refs x hx
    have he' : x.ref = m.ref := he
    omega
  · intro _ t r ht
    show r < n.next_ref + 1
    rw [hmetas t] at ht
    by_cases hf : t = m.tag.toNat
    · rw [if_pos hf, href] at ht
      cases ht
      exact Nat.lt_succ_self _
    · rw [if_neg hf] at ht
      by_cases hnil : n.metalist = []
      · rw [if_pos hnil] at ht
        cases ht
      · rw [if_neg hnil] at ht
        exact Nat.lt_succ_of_lt (h.metas_lt hnil t r ht)
  · intro t
    have hold := h.metas t
    unfold lookupMeta at hold ⊢
    rw [hlist, if_neg hne, hmetas t, List.reverse_append, List.reverse_singleton,
      List.singleton_append]
    by_cases hf : t = m.tag.toNat
    · rw [if_pos hf, Option.bind_some, findRef_last hfresh,
        List.find?_cons_of_pos (by simpa using hf.symm)]
    · rw [if_neg hf, List.find?_cons_of_neg (by simpa using fun he => hf he.symm)]
      by_cases hnil : n.metalist = []
      · rw [if_pos hnil] at hold ⊢
        exact hold
      · rw [if_neg hnil] at hold ⊢
        cases hr : n.metas t with
        | none => rw [hr] at hold; exact hold
        | some r =>
          rw [hr] at hold
          rw [Option.bind_some, findRef_append (by rw [href]; exact h.metas_lt hnil t r hr)]
          exact hold

/-- A child more. -/
theorem Grown.hangChild {k : Bool} {n n₀ : KnvNode} {fs : List (PbField × Nat)}
    (h : Grown k n n₀ fs) {f : PbField × Nat} (hf : isMeta f = false) :
    Grown k (n.hangChild (initNode f.1.tag f.1.val true f.2 k)) n₀ (fs ++ [f]) := by
  generalize hc : ({ initNode f.1.tag f.1.val true f.2 k with ref := n.next_ref } : KnvNode) = c
  have href : c.ref = n.next_ref := by rw [← hc]
  have hlist : (n.hangChild (initNode f.1.tag f.1.val true f.2 k)).childlist = n.childlist ++ [c] := by
    rw [← hc]
    rfl
  have hhas : (n.hangChild (initNode f.1.tag f.1.val true f.2 k)).child_has_key =
      (n.child_has_key || c.key.val ≠ []) := by rw [← hc]; rfl
  have hindexed := h.indexed.hangChild (initNode f.1.tag f.1.val true f.2 k)
  refine
    { head := h.head
      metalist := ?_
      childlist := ?_
      child_num := hindexed.child_num
      child_has_key := ?_
      refs := ?_
      nodup := ?_
      metas_lt := fun hne t r ht => Nat.lt_succ_of_lt (h.metas_lt hne t r ht)
      metas := h.metas
      ht := hindexed.ht }
  · rw [List.filter_append, List.filter_cons_of_neg (by simp [hf]), List.filter_nil, List.append_nil]
    exact h.metalist
  · rw [hlist, List.filter_append, List.filter_cons_of_pos (by simp [hf])]
    exact List.rel_append h.childlist (.cons ⟨n.next_ref, hc.symm⟩ .nil)
  · rw [hhas, h.child_has_key, hlist, List.any_append]
    simp
  · intro x hx
    show x.ref < n.next_ref + 1
    rw [hlist, ← List.append_assoc] at hx
    rcases List.mem_append.mp hx with hx | hx
    · exact Nat.lt_succ_of_lt (h.refs x hx)
    · rw [List.mem_singleton.mp hx, href]
      exact Nat.lt_succ_self _
  · rw [hlist, ← List.append_assoc, List.map_append]
    refine List.nodup_append.mpr ⟨h.nodup, List.pairwise_singleton _ _, ?_⟩
    intro r hr r' hr' he
    obtain ⟨x, hx, rfl⟩ := List.mem_map.mp hr
    have h1 := h.refs x hx
    have h2 : r' = c.ref := List.mem_singleton.mp hr'
    have h3 : x.ref = r' := he
    omega

/-- All the fields. -/
theorem Grown.foldl {k : Bool} {n n₀ : KnvNode} {fs : List (PbField × Nat)} (h : Grown k n n₀ fs)
    (gs : List (PbField × Nat)) : Grown k (gs.foldl (expandField k) n) n₀ (fs ++ gs) := by
  induction gs generalizing n fs with
  | nil => rw [List.append_nil]; exact h
  | cons g gs ih =>
    have hstep : Grown k (expandField k n g) n₀ (fs ++ [g]) := by
      unfold expandField
      by_cases hg : g.1.tag.toNat ≤ UC_MAX_META_NUM
      · rw [if_pos hg]
        exact h.hangMeta (decide_eq_true hg)
      · rw [if_neg hg]
        exact h.hangChild (decide_eq_false hg)
    have hrec := ih hstep
    rw [List.append_assoc] at hrec
    exact hrec

/-- **A node that has not been expanded yet, expanded.** -/
theorem innerExpand_grown {n : KnvNode} {s : List UInt8} {fs : List (PbField × Nat)}
    (hnum : n.child_num = none) (hval : n.val = .string s) (hht : n.ht = KnvHt.clear)
    (hfields : pbFields s = some (fs, true)) {p : Bool} (hp : ¬ (n.tag = 1 ∧ p = true)) (k : Bool) :
    Grown k (n.innerExpand p k) n fs ∧ (n.innerExpand p k).subnode_dirty = false := by
  generalize hn₁ : ({ n.initChildList (some 0) with child_has_key := false } : KnvNode) = n₁
  have hstart : Grown k n₁ n [] := by
    apply grown_nil
    all_goals rw [← hn₁]
    case hht => exact hht
    all_goals rfl
  have hstr : n₁.isString = true ∧ n₁.str = s := by
    unfold isString str
    rw [← hn₁]
    show decide (n.val.type = _) = true ∧ n.val.str = _
    rw [hval]
    exact ⟨rfl, rfl⟩
  have hexp : n.innerExpand p k =
      { fs.foldl (expandField k) n₁ with subnode_dirty := false } := by
    unfold innerExpand
    rw [if_neg (by rw [hnum]; exact not_not_intro rfl)]
    have hp' : ¬ ((n.initChildList (some 0)).tag = 1 ∧ p = true) := hp
    simp only [hn₁, hstr.1, hstr.2, hfields]
    rw [if_neg (by decide), if_neg hp', if_pos trivial]
  have hall := hstart.foldl fs
  rw [List.nil_append] at hall
  rw [hexp]
  exact ⟨⟨hall.head, hall.metalist, hall.childlist, hall.child_num, hall.child_has_key, hall.refs,
    hall.nodup, hall.metas_lt, hall.metas, hall.ht⟩, rfl⟩

/-! ## Reads after the loop -/

section Reads

variable {n : KnvNode}

/-! ### The walk -/

theorem nextIn_of_not_mem {l : List KnvNode} {r : Nat} (h : r ∉ l.map fun x => x.ref) :
    nextIn l r = none := by
  induction l with
  | nil => rfl
  | cons m l ih =>
    rw [List.map_cons, List.mem_cons, not_or] at h
    rw [nextIn, if_neg fun he => h.1 he.symm]
    exact ih h.2

theorem nextIn_split {l l' : List KnvNode} {m : KnvNode}
    (h : m.ref ∉ l.map fun x => x.ref) : nextIn (l ++ m :: l') m.ref = l'.head? := by
  induction l with
  | nil => rw [List.nil_append, nextIn, if_pos rfl]
  | cons x l ih =>
    rw [List.map_cons, List.mem_cons, not_or] at h
    rw [List.cons_append, nextIn, if_neg fun he => h.1 he.symm]
    exact ih h.2

/-- A child is not among the metas, nor among the children before it. -/
theorem child_fresh (hnd : ((n.metalist ++ n.childlist).map fun x => x.ref).Nodup)
    {l l' : List KnvNode} {c : KnvNode} (hl : n.childlist = l ++ c :: l') :
    (c.ref ∉ n.metalist.map fun x => x.ref) ∧ c.ref ∉ l.map fun x => x.ref := by
  rw [List.map_append, List.nodup_append, hl, List.map_append, List.map_cons] at hnd
  obtain ⟨_, hc, hdis⟩ := hnd
  constructor
  · exact fun hm => hdis _ hm c.ref (by simp) rfl
  · rw [List.nodup_append] at hc
    exact fun hm => hc.2.2 _ hm c.ref (by simp) rfl

/-- The next field after a child is the next child, or none. -/
theorem getNextField_child {p : Bool} (hnd : ((n.metalist ++ n.childlist).map fun x => x.ref).Nodup)
    {l l' : List KnvNode} {c : KnvNode} (hl : n.childlist = l ++ c :: l') :
    n.getNextField p c = l'.head? := by
  obtain ⟨hmeta, hchild⟩ := child_fresh hnd hl
  have hlast : (n.metalist.getLast?.map fun m => m.ref) ≠ some c.ref := by
    intro he
    obtain ⟨m, hm, hr⟩ := Option.map_eq_some_iff.mp he
    exact hmeta (List.mem_map.mpr ⟨m, List.mem_of_getLast? hm, hr⟩)
  unfold getNextField
  rw [nextIn_of_not_mem hmeta, hl, nextIn_split hchild]
  cases l' with
  | nil => exact if_neg hlast
  | cons x l' => rfl

/-- From a child on, the walk goes through the rest of the children. -/
theorem fieldsFrom_children {p : Bool} (hnd : ((n.metalist ++ n.childlist).map fun x => x.ref).Nodup)
    (l' : List KnvNode) : ∀ (l : List KnvNode) (c : KnvNode) (fuel : Nat),
      n.childlist = l ++ c :: l' → l'.length < fuel → fieldsFrom n p fuel (some c) = c :: l' := by
  induction l' with
  | nil =>
    intro l c fuel hl hfuel
    cases fuel with
    | zero => exact absurd hfuel (Nat.lt_irrefl 0)
    | succ fuel =>
      rw [fieldsFrom, getNextField_child hnd hl]
      cases fuel <;> rfl
  | cons x l' ih =>
    intro l c fuel hl hfuel
    rw [List.length_cons] at hfuel
    cases fuel with
    | zero => exact absurd hfuel (Nat.not_lt_zero _)
    | succ fuel =>
      have hrest := ih (l ++ [c]) x fuel (by rw [hl, List.append_assoc]; rfl) (by omega)
      rw [fieldsFrom, getNextField_child hnd hl]
      show c :: fieldsFrom n p fuel (some x) = _
      rw [hrest]

/-- The next field after a meta is the next meta, or else the first child. -/
theorem getNextField_meta {p : Bool} (hnd : ((n.metalist ++ n.childlist).map fun x => x.ref).Nodup)
    {l l' : List KnvNode} {m : KnvNode} (hl : n.metalist = l ++ m :: l') :
    n.getNextField p m = l'.head?.or (n.getFirstChild p) := by
  rw [List.map_append, List.nodup_append] at hnd
  obtain ⟨hm, _, hdis⟩ := hnd
  have hchild : m.ref ∉ n.childlist.map fun x => x.ref := fun hc =>
    hdis m.ref (by rw [hl]; simp) _ hc rfl
  have hbefore : m.ref ∉ l.map fun x => x.ref := by
    rw [hl, List.map_append, List.nodup_append] at hm
    exact fun hc => hm.2.2 _ hc m.ref (by simp) rfl
  unfold getNextField
  rw [nextIn_of_not_mem hchild, hl, nextIn_split hbefore]
  cases l' with
  | nil => exact if_pos (by simp)
  | cons x l' => rfl

/-- From a meta on, the walk goes through the other metas and then through the children. -/
theorem fieldsFrom_metas {p : Bool} (hnd : ((n.metalist ++ n.childlist).map fun x => x.ref).Nodup)
    (hfirst : n.getFirstChild p = n.childlist.head?) (l' : List KnvNode) :
    ∀ (l : List KnvNode) (m : KnvNode) (fuel : Nat), n.metalist = l ++ m :: l' →
      l'.length + n.childlist.length < fuel →
      fieldsFrom n p fuel (some m) = m :: l' ++ n.childlist := by
  induction l' with
  | nil =>
    intro l m fuel hl hfuel
    cases fuel with
    | zero => exact absurd hfuel (Nat.not_lt_zero _)
    | succ fuel =>
      rw [fieldsFrom, getNextField_meta hnd hl, hfirst]
      cases hc : n.childlist with
      | nil => cases fuel <;> rfl
      | cons c cs =>
        rw [hc, List.length_cons, List.length_nil] at hfuel
        have hrest := fieldsFrom_children (p := p) hnd cs [] c fuel hc (by omega)
        show m :: fieldsFrom n p fuel (some c) = _
        rw [hrest]
        rfl
  | cons x l' ih =>
    intro l m fuel hl hfuel
    rw [List.length_cons] at hfuel
    cases fuel with
    | zero => exact absurd hfuel (Nat.not_lt_zero _)
    | succ fuel =>
      have hrest := ih (l ++ [m]) x fuel (by rw [hl, List.append_assoc]; rfl) (by omega)
      rw [fieldsFrom, getNextField_meta hnd hl]
      show m :: fieldsFrom n p fuel (some x) = _
      rw [hrest]
      rfl

end Reads

/-- An expanded node is not expanded again. -/
theorem innerExpand_expanded {n : KnvNode} (h : n.child_num ≠ none) (p k : Bool) :
    n.innerExpand p k = n := by
  unfold innerExpand
  rw [if_pos h]

/-- **The walk over an expanded node** goes through the metas and then through the children. -/
theorem Grown.fields {k : Bool} {n n₀ m : KnvNode} {fs : List (PbField × Nat)} {p : Bool}
    (h : Grown k n n₀ fs) (hexp : m.innerExpand p false = n) (htag : m.tag ≠ 0) (hn : n.tag ≠ 0) :
    m.fields p = n.metalist ++ n.childlist := by
  have hnum : n.child_num ≠ none := by rw [h.child_num]; exact fun he => nomatch he
  have hhead : (if n.child_num.getD 0 = 0 then none else n.childlist.head?) = n.childlist.head? := by
    rw [h.child_num]
    cases n.childlist with
    | nil => rfl
    | cons c cs => exact if_neg (by simp)
  have hfirst : n.getFirstChild p = n.childlist.head? := by
    unfold getFirstChild
    rw [if_neg hn, innerExpand_expanded hnum]
    exact hhead
  have hstart : m.getFirstField p = n.metalist.head?.or n.childlist.head? := by
    unfold getFirstField getFirstMeta getFirstChild
    rw [if_neg htag, if_neg htag, hexp, hhead]
  unfold KnvNode.fields
  rw [hexp, hstart]
  cases hm : n.metalist with
  | nil =>
    cases hc : n.childlist with
    | nil =>
      show fieldsFrom n p _ none = []
      unfold fieldsFrom
      split <;> simp_all
    | cons c cs => exact fieldsFrom_children h.nodup cs [] c _ hc (by rw [hm, hc]; simp)
  | cons x xs =>
    exact fieldsFrom_metas h.nodup hfirst xs [] x _ hm (by rw [hm, List.length_cons]; omega)

theorem head_expandFields {k : Bool} (fs : List (PbField × Nat)) : ∀ n : KnvNode,
    (fs.foldl (expandField k) n).head = n.head := by
  induction fs with
  | nil => exact fun _ => rfl
  | cons f fs ih =>
    intro n
    rw [List.foldl_cons, ih, expandField]
    split
    · rfl
    · rfl

/-- **Expanding leaves the head alone**, whatever the value is. -/
theorem innerExpand_head (n : KnvNode) (p k : Bool) : (n.innerExpand p k).head = n.head := by
  rw [innerExpand]
  split
  · rfl
  · simp only
    split
    · rfl
    · split
      · rfl
      · split
        · rfl
        · split
          · exact head_expandFields _ _
          · exact head_expandFields _ _

/-- An expanded node is expanded. -/
theorem innerExpand_num (n : KnvNode) (p k : Bool) : (n.innerExpand p k).child_num ≠ none := by
  have hfold : ∀ (fs : List (PbField × Nat)) (m : KnvNode), m.child_num ≠ none →
      (fs.foldl (expandField k) m).child_num ≠ none := by
    intro fs
    induction fs with
    | nil => exact fun m h => h
    | cons f fs ih =>
      intro m h
      rw [List.foldl_cons]
      refine ih _ ?_
      rw [expandField]
      split
      · exact h
      · exact fun h' => h (Option.map_eq_none_iff.mp h')
  have hzero : some 0 ≠ (none : Option Nat) := fun h => nomatch h
  rw [innerExpand]
  split
  · assumption
  · simp only
    split
    · exact hzero
    · split
      · exact hzero
      · split
        · exact hzero
        · split
          · exact hfold _ _ hzero
          · exact hzero

/-- Where the node itself hangs does not matter. -/
theorem innerExpand_ref (n : KnvNode) (r : Nat) (p k : Bool) :
    ({ n with ref := r } : KnvNode).innerExpand p k = { n.innerExpand p k with ref := r } := by
  have hfold : ∀ (fs : List (PbField × Nat)) (m : KnvNode),
      fs.foldl (expandField k) { m with ref := r } =
        { fs.foldl (expandField k) m with ref := r } := by
    intro fs
    induction fs with
    | nil => exact fun m => rfl
    | cons f fs ih =>
      intro m
      rw [List.foldl_cons, List.foldl_cons, ← ih]
      congr 1
      rw [expandField, expandField]
      split
      · rfl
      · rfl
  by_cases hnum : n.child_num ≠ none
  · rw [innerExpand_expanded hnum]
    exact innerExpand_expanded (n := { n with ref := r }) hnum p k
  · rw [innerExpand, innerExpand, if_neg hnum, if_neg hnum]
    generalize hm : ({ n.initChildList (some 0) with child_has_key := false } : KnvNode) = m
    have hm' : ({ ({ n with ref := r } : KnvNode).initChildList (some 0) with
        child_has_key := false } : KnvNode) = { m with ref := r } := by
      rw [← hm]
      rfl
    rw [hm']
    have hs' : ({ m with ref := r } : KnvNode).isString = m.isString := rfl
    have hstr' : ({ m with ref := r } : KnvNode).str = m.str := rfl
    simp only [hs', hstr']
    by_cases hs : (!m.isString) = true
    · rw [if_pos hs, if_pos hs]
    · rw [if_neg hs, if_neg hs]
      by_cases ht : m.tag = 1 ∧ p = true
      · rw [if_pos ht, if_pos ht]
      · rw [if_neg ht, if_neg ht]
        cases hf : pbFields m.str with
        | none => rfl
        | some q =>
          obtain ⟨fs, eom⟩ := q
          simp only [hfold]
          cases eom with
          | true => rfl
          | false => rfl

/-- A value that is no message leaves a node without metas and children. -/
theorem innerExpand_malformed {n : KnvNode} {s : List UInt8} (hnum : n.child_num = none)
    (hval : n.val = .string s) (hbad : ∀ fs, pbFields s ≠ some (fs, true)) (p k : Bool) :
    (n.innerExpand p k).child_num = some 0 ∧ (n.innerExpand p k).metalist = [] ∧
      (n.innerExpand p k).childlist = [] := by
  have hstr : ({ n.initChildList (some 0) with child_has_key := false } : KnvNode).str = s := by
    show n.val.str = s
    rw [hval]
    rfl
  unfold innerExpand
  rw [if_neg (by rw [hnum]; exact not_not_intro rfl)]
  simp only [hstr]
  split
  · exact ⟨rfl, rfl, rfl⟩
  · split
    · exact ⟨rfl, rfl, rfl⟩
    · cases hp : pbFields s with
      | none => exact ⟨rfl, rfl, rfl⟩
      | some q =>
        obtain ⟨fs, eom⟩ := q
        cases eom with
        | false => exact ⟨rfl, rfl, rfl⟩
        | true => exact absurd hp (hbad fs)

/-- The end of an edit: apart from the sizes and the value, the node stays. -/
theorem edited_eq (n : KnvNode) (offset : Int) : ∃ sz val_sz, (edited n offset).1 =
    { n with val := .string [], subnode_dirty := true, eval_sz := sz, eval_val_sz := val_sz } := by
  unfold edited updateEvalSz
  by_cases hsz : 0 ≤ n.eval_sz
  · by_cases hoff : offset = 0
    · rw [if_pos hsz, if_pos hoff]
      exact ⟨n.eval_sz, n.eval_val_sz, rfl⟩
    · rw [if_pos hsz, if_neg hoff]
      exact ⟨_, _, rfl⟩
  · rw [if_neg hsz]
    exact ⟨n.eval_sz, n.eval_val_sz, rfl⟩

end KnvNode

end MysqlProxy
