/-
  Deleting a tree (`KnvNode::Delete`, `ReleaseObject`, `ReleaseKnvNodeList`, `ObjPool::Delete`).

  The nodes are released level by level, without recursion.  The lists of metas and children of one
  level are joined to the list that is the next level; a level that is done goes in front of those
  that are done already, and all of them go in front of the free list at once.

  * `Forest` are the nodes below a list of nodes, at every depth.  A node that is not expanded
    (`child_num < 0`) has none, whatever its pointers hold: a node from the pool may have old ones.
  * `releaseLevel_eq`: the next level and what is below it are the nodes that were below this one.
  * `releaseLevels_eq`: so at the end all nodes are in one list, each of them once.
  * `delete_freesOnce`: `Delete` puts them in front of the free list.

  Modelling choices.
  * A node is its address, `NULL` is `0`; of a node there are the pointers of its lists and
    `child_num`.  The rest of what `ReleaseNode` does concerns keys, buffers and the index.
  * One thread.  The loops get a bound for their rounds, and answer `none` when it is too small.
-/
import MysqlProxy.Lib.HalfCircle

namespace MysqlProxy

open Function (update update_self update_of_ne)

/-- The pool and the nodes. -/
structure KnvHeap where
  next : Nat → Nat
  prev : Nat → Nat
  metalist : Nat → Nat
  childlist : Nat → Nat
  child_num : Nat → Int
  obj_freelist : Nat

namespace KnvHeap

/-! ## The code -/

/-- `n->prev->next = list; if(list) n->prev = list->prev`. -/
def joinLists (h : KnvHeap) (n list : Nat) : KnvHeap :=
  { h with
    next := update h.next (h.prev n) list
    prev := if list ≠ 0 then update h.prev n (h.prev list) else h.prev }

/-- A list of the next level goes in front of `cclist`. -/
def collect (h : KnvHeap) (n cclist : Nat) : KnvHeap × Nat :=
  if n ≠ 0 then (h.joinLists n cclist, n) else (h, cclist)

/-- `ReleaseNode`. -/
def releaseNode (h : KnvHeap) (c : Nat) : KnvHeap :=
  { h with child_num := update h.child_num c (-1) }

/-- What the loop over a level does with a node. -/
def collectBelow (h : KnvHeap) (c cclist : Nat) : KnvHeap × Nat :=
  if 0 ≤ h.child_num c then
    let (h, cclist) := h.collect (h.metalist c) cclist
    h.collect (h.childlist c) cclist
  else (h, cclist)

/-- The loop over a level. -/
def releaseLevel : Nat → KnvHeap → Nat → Nat → Option (KnvHeap × Nat)
  | 0, h, c, cclist => if c = 0 then some (h, cclist) else none
  | n + 1, h, c, cclist =>
    if c = 0 then some (h, cclist)
    else
      let (h, cclist) := h.collectBelow c cclist
      let h := h.releaseNode c
      releaseLevel n h (h.next c) cclist

/-- The loop over the levels: what it leaves in `fclist`. -/
def releaseLevels : Nat → KnvHeap → Nat → Nat → Option (KnvHeap × Nat)
  | 0, h, clist, fclist => if clist = 0 then some (h, fclist) else none
  | n + 1, h, clist, fclist =>
    if clist = 0 then some (h, fclist)
    else (releaseLevel (n + 1) h clist 0).bind fun (h, cclist) =>
      releaseLevels n (h.joinLists clist fclist) cclist clist

/-- `ObjPool::AddToFreeList`. -/
def addToFreeList (h : KnvHeap) (obj : Nat) : KnvHeap :=
  { h with next := update h.next (h.prev obj) h.obj_freelist, obj_freelist := obj }

/-- `ReleaseKnvNodeList`, up to `list = NULL`. -/
def releaseKnvNodeList (n : Nat) (h : KnvHeap) (list : Nat) : Option KnvHeap :=
  (releaseLevels n h list 0).map fun (h, fclist) => if fclist ≠ 0 then h.addToFreeList fclist else h

/-- `list = NULL`, for the list of metas. -/
def clearMetalist (this : Nat) (h : KnvHeap) : KnvHeap :=
  { h with metalist := update h.metalist this 0 }

/-- `list = NULL`, for the list of children. -/
def clearChildlist (this : Nat) (h : KnvHeap) : KnvHeap :=
  { h with childlist := update h.childlist this 0 }

/-- `if(list) ReleaseKnvNodeList(list)`, for a list that `clear` sets to `NULL`. -/
def releaseList (n : Nat) (h : KnvHeap) (list : Nat) (clear : KnvHeap → KnvHeap) : Option KnvHeap :=
  if list ≠ 0 then (h.releaseKnvNodeList n list).map clear else some h

/-- `KnvNode::ReleaseObject`. -/
def releaseObject (n : Nat) (h : KnvHeap) (this : Nat) : Option KnvHeap :=
  if h.child_num this < 0 then some (h.releaseNode this)
  else
    (h.releaseList n (h.metalist this) (clearMetalist this)).bind fun h =>
      (h.releaseList n (h.childlist this) (clearChildlist this)).map fun h => h.releaseNode this

/-- The end of `ObjPool::Delete`: the object goes to the free list. -/
def pushFree (h : KnvHeap) (obj : Nat) : KnvHeap :=
  { h with next := update h.next obj h.obj_freelist, obj_freelist := obj }

/-- `ObjPool::Delete(obj)`, which `KnvNode::Delete` calls. -/
def delete (n : Nat) (h : KnvHeap) (obj : Nat) : Option KnvHeap :=
  (h.releaseObject n obj).map fun h => h.pushFree obj

/-! ## Well-formed trees -/

/-- `below` are the nodes below the nodes `l`: the metas and children of each, at every depth. -/
inductive Forest (h : KnvHeap) : List Nat → List Nat → Prop where
  | nil : Forest h [] []
  | leaf {x : Nat} {l below : List Nat} (hx : h.child_num x < 0) (rest : Forest h l below) :
      Forest h (x :: l) below
  | node {x : Nat} {l ms bms cs bcs below : List Nat} (hx : 0 ≤ h.child_num x)
      (hmetas : TailLinked h.next h.prev (h.metalist x) ms)
      (hchildren : TailLinked h.next h.prev (h.childlist x) cs)
      (metas : Forest h ms bms) (children : Forest h cs bcs) (rest : Forest h l below) :
      Forest h (x :: l) (ms ++ bms ++ (cs ++ bcs) ++ below)

/-- The place of a node in its list is the same. -/
structure SameLinks (h h' : KnvHeap) (x : Nat) : Prop where
  next : h'.next x = h.next x
  prev : h'.prev x = h.prev x

/-- What a node says about the nodes below it is the same. -/
structure SameInside (h h' : KnvHeap) (x : Nat) : Prop where
  metalist : h'.metalist x = h.metalist x
  childlist : h'.childlist x = h.childlist x
  child_num : h'.child_num x = h.child_num x

theorem SameLinks.trans {h h' h'' : KnvHeap} {x : Nat} (h₁ : SameLinks h h' x)
    (h₂ : SameLinks h' h'' x) : SameLinks h h'' x :=
  ⟨h₂.next.trans h₁.next, h₂.prev.trans h₁.prev⟩

theorem SameInside.trans {h h' h'' : KnvHeap} {x : Nat} (h₁ : SameInside h h' x)
    (h₂ : SameInside h' h'' x) : SameInside h h'' x :=
  ⟨h₂.metalist.trans h₁.metalist, h₂.childlist.trans h₁.childlist,
    h₂.child_num.trans h₁.child_num⟩

/-- A list reads the links of its elements. -/
theorem tailLinked_frame {h h' : KnvHeap} {first : Nat} {l : List Nat}
    (hl : TailLinked h.next h.prev first l) (hsame : ∀ x ∈ l, SameLinks h h' x) :
    TailLinked h'.next h'.prev first l :=
  hl.frame (fun x hx => (hsame x hx).next) fun x hx => (hsame x hx).prev

namespace Forest

variable {h h' : KnvHeap} {l l₂ below below₂ : List Nat}

/-- What is below the nodes stays there when nothing changes inside any of them. -/
theorem frame (hf : Forest h l below) (hinside : ∀ x ∈ l ++ below, SameInside h h' x)
    (hlinks : ∀ x ∈ below, SameLinks h h' x) : Forest h' l below := by
  induction hf with
  | nil => exact .nil
  | leaf hx _ ih =>
    refine .leaf ((hinside _ List.mem_cons_self).child_num ▸ hx) (ih (fun y hy => ?_) hlinks)
    exact hinside y (List.mem_cons_of_mem _ hy)
  | @node x l ms bms cs bcs below hx hmetas hchildren _ _ _ ihm ihc ihr =>
    have hself := hinside x List.mem_cons_self
    refine .node (hself.child_num ▸ hx) ?_ ?_ (ihm ?_ ?_) (ihc ?_ ?_) (ihr ?_ ?_)
    · rw [hself.metalist]
      exact tailLinked_frame hmetas fun y hy => hlinks y (by grind)
    · rw [hself.childlist]
      exact tailLinked_frame hchildren fun y hy => hlinks y (by grind)
    · exact fun y hy => hinside y (by grind)
    · exact fun y hy => hlinks y (by grind)
    · exact fun y hy => hinside y (by grind)
    · exact fun y hy => hlinks y (by grind)
    · exact fun y hy => hinside y (by grind)
    · exact fun y hy => hlinks y (by grind)

theorem append (hf : Forest h l below) (hf₂ : Forest h l₂ below₂) :
    Forest h (l ++ l₂) (below ++ below₂) := by
  induction hf with
  | nil => exact hf₂
  | leaf hx _ ih => exact .leaf hx ih
  | node hx hmetas hchildren metas children _ _ _ ih =>
    rw [List.append_assoc]
    exact .node hx hmetas hchildren metas children ih

end Forest

/-! ## One list -/

/-- Nothing changes at a node. -/
structure SameNode (h h' : KnvHeap) (x : Nat) : Prop where
  links : SameLinks h h' x
  inside : SameInside h h' x

theorem SameNode.trans {h h' h'' : KnvHeap} {x : Nat} (h₁ : SameNode h h' x)
    (h₂ : SameNode h' h'' x) : SameNode h h'' x :=
  ⟨h₁.links.trans h₂.links, h₁.inside.trans h₂.inside⟩

/-- Joining a list to another one changes nothing outside it. -/
theorem joinLists_same {h : KnvHeap} {n list : Nat} {ns : List Nat}
    (hn : TailLinked h.next h.prev n ns) (hne : ns ≠ []) : ∀ x ∉ ns,
    SameNode h (h.joinLists n list) x := by
  intro x hx
  have hlast : h.prev n ∈ ns := hn.last hne ▸ lastFrom_mem 0 hne
  refine ⟨⟨update_inside hlast x hx, ?_⟩, rfl, rfl, rfl⟩
  rw [joinLists]
  split
  · exact update_inside (hn.first_mem hne) x hx
  · rfl

/-- **A list goes in front of the next level.**  Only its own links change. -/
theorem collect_eq {h : KnvHeap} {n cclist : Nat} {ns bns lcc bcc : List Nat}
    (hn : TailLinked h.next h.prev n ns) (hns : Forest h ns bns)
    (hc : TailLinked h.next h.prev cclist lcc) (hcc : Forest h lcc bcc)
    (hnodup : (ns ++ bns ++ (lcc ++ bcc)).Nodup) :
    ∃ h' c', h.collect n cclist = (h', c') ∧ TailLinked h'.next h'.prev c' (ns ++ lcc) ∧
      Forest h' (ns ++ lcc) (bns ++ bcc) ∧ (∀ x ∉ ns, SameLinks h h' x) ∧
      (∀ x, SameInside h h' x) ∧ h'.obj_freelist = h.obj_freelist := by
  rw [collect]
  by_cases hzero : n = 0
  · have hnil := hn.chain.eq_zero_iff.mp hzero
    subst hnil
    rw [if_neg (not_not.mpr hzero)]
    refine ⟨h, cclist, rfl, hc, hns.append hcc, fun _ _ => ⟨rfl, rfl⟩, fun _ => ⟨rfl, rfl, rfl⟩, rfl⟩
  · have hne : ns ≠ [] := mt hn.chain.eq_zero_iff.mpr hzero
    have hdis : ns.Disjoint lcc := fun x h₁ h₂ => by
      rw [List.nodup_append] at hnodup
      exact hnodup.2.2 x (List.mem_append_left _ h₁) x (List.mem_append_left _ h₂) rfl
    have hlinks : ∀ x ∉ ns, SameLinks h (h.joinLists n cclist) x := fun x hx =>
      (joinLists_same hn hne x hx).links
    have hinside : ∀ x, SameInside h (h.joinLists n cclist) x := fun _ => ⟨rfl, rfl, rfl⟩
    rw [if_pos hzero]
    refine ⟨_, n, rfl, hn.append hc hne hdis, ?_, hlinks, hinside, rfl⟩
    refine (hns.append hcc).frame (fun x _ => hinside x) fun x hx => hlinks x fun hmem => ?_
    simp only [List.nodup_append, List.mem_append] at hnodup
    rcases List.mem_append.mp hx with hx | hx
    · exact hnodup.1.2.2 x hmem x hx rfl
    · exact hnodup.2.2 x (.inl hmem) x (.inr hx) rfl

/-! ## One level -/

theorem releaseNode_inside (h : KnvHeap) {c x : Nat} (hx : x ≠ c) :
    SameInside h (h.releaseNode c) x :=
  ⟨rfl, rfl, update_of_ne hx _ _⟩

/-- A released node is not expanded. -/
theorem releaseNode_child_num (h : KnvHeap) (c : Nat) : (h.releaseNode c).child_num c < 0 := by
  show update h.child_num c (-1) c < 0
  rw [update_self]
  decide

/-- Releasing a node outside leaves a forest alone. -/
theorem Forest.releaseNode {h : KnvHeap} {l below : List Nat} {c : Nat} (hf : Forest h l below)
    (hc : c ∉ l ++ below) : Forest (h.releaseNode c) l below :=
  hf.frame (fun _ hx => releaseNode_inside h (ne_of_mem_of_not_mem hx hc)) fun _ _ => ⟨rfl, rfl⟩

/-- **One node of a level**: its metas and children go to the next level. -/
theorem collectBelow_eq {h : KnvHeap} {c cclist : Nat} {l below lcc bcc : List Nat}
    (hf : Forest h (c :: l) below) (hc : TailLinked h.next h.prev cclist lcc)
    (hcc : Forest h lcc bcc) (hnodup : (c :: l ++ below ++ (lcc ++ bcc)).Nodup) :
    ∃ h' c' lcc' bcc' rest, h.collectBelow c cclist = (h', c') ∧ Forest h' l rest ∧
      TailLinked h'.next h'.prev c' lcc' ∧ Forest h' lcc' bcc' ∧
      (rest ++ (lcc' ++ bcc')).Perm (below ++ (lcc ++ bcc)) ∧
      (∀ x ∉ below, SameLinks h h' x) ∧ (∀ x, SameInside h h' x) ∧
      h'.obj_freelist = h.obj_freelist := by
  rw [collectBelow]
  cases hf with
  | leaf hx hrest =>
    rw [if_neg (Int.not_le.mpr hx)]
    exact ⟨h, cclist, lcc, bcc, below, rfl, hrest, hc, hcc, .refl _, fun _ _ => ⟨rfl, rfl⟩,
      fun _ => ⟨rfl, rfl, rfl⟩, rfl⟩
  | @node _ _ ms bms cs bcs rest hx hmetas hchildren fmetas fchildren frest =>
    rw [if_pos hx]
    have hone := count_le_one hnodup
    simp only [List.cons_append, List.count_cons, List.count_append] at hone
    have hmetasFirst : (ms ++ bms ++ (lcc ++ bcc)).Nodup := by
      rw [List.nodup_iff_count_le_one]
      intro x
      have := hone x
      simp only [List.count_append]
      omega
    obtain ⟨h₁, c₁, heq₁, hlist₁, hforest₁, hlinks₁, hinside₁, hfree₁⟩ :=
      collect_eq hmetas fmetas hc hcc hmetasFirst
    have hapart : ∀ {a : List Nat} {x : Nat}, (∀ x, ms.count x + a.count x ≤ 1) → x ∈ a → x ∉ ms :=
      fun ha hx => not_mem_of_count (by have := ha ‹_›; omega) hx
    have hchildren₁ : TailLinked h₁.next h₁.prev (h₁.childlist c) cs := by
      rw [(hinside₁ c).childlist]
      exact tailLinked_frame hchildren fun x hx =>
        hlinks₁ x (hapart (fun x => by have := hone x; omega) hx)
    have fchildren₁ : Forest h₁ cs bcs := fchildren.frame (fun x _ => hinside₁ x) fun x hx =>
      hlinks₁ x (hapart (fun x => by have := hone x; omega) hx)
    have hthenChildren : (cs ++ bcs ++ (ms ++ lcc ++ (bms ++ bcc))).Nodup := by
      rw [List.nodup_iff_count_le_one]
      intro x
      have := hone x
      simp only [List.count_append]
      omega
    obtain ⟨h₂, c₂, heq₂, hlist₂, hforest₂, hlinks₂, hinside₂, hfree₂⟩ :=
      collect_eq hchildren₁ fchildren₁ hlist₁ hforest₁ hthenChildren
    have hinside : ∀ x, SameInside h h₂ x := fun x => (hinside₁ x).trans (hinside₂ x)
    have hlinks : ∀ x, x ∉ ms → x ∉ cs → SameLinks h h₂ x :=
      fun x hm hc => (hlinks₁ x hm).trans (hlinks₂ x hc)
    simp only [heq₁, heq₂]
    refine ⟨h₂, c₂, _, _, rest, rfl, frest.frame (fun x _ => hinside x) fun x hx => ?_, hlist₂,
      hforest₂, ?_, fun x hx => ?_, hinside, hfree₂.trans hfree₁⟩
    · refine hlinks x (hapart (fun x => by have := hone x; omega) hx) ?_
      exact not_mem_of_count (by have := hone x; omega) hx
    · rw [List.perm_iff_count]
      intro x
      simp only [List.count_append]
      omega
    · simp only [List.mem_append, not_or] at hx
      exact hlinks x hx.1.1.1 hx.1.2.1

/-- **A level**: the nodes below it are those of the next level and below that. -/
theorem releaseLevel_eq {l : List Nat} : ∀ {n : Nat} {h : KnvHeap} {c cclist : Nat}
    {below lcc bcc : List Nat}, Chain h.next c l → Forest h l below →
    TailLinked h.next h.prev cclist lcc → Forest h lcc bcc →
    (l ++ below ++ (lcc ++ bcc)).Nodup → l.length ≤ n →
    ∃ h' c' lcc' bcc', releaseLevel n h c cclist = some (h', c') ∧
      TailLinked h'.next h'.prev c' lcc' ∧ Forest h' lcc' bcc' ∧
      (lcc' ++ bcc').Perm (below ++ (lcc ++ bcc)) ∧
      (∀ x ∉ below ++ (lcc ++ bcc), SameLinks h h' x) ∧ (∀ x ∉ l, SameInside h h' x) ∧
      (∀ x ∈ l, h'.child_num x < 0) ∧ h'.obj_freelist = h.obj_freelist := by
  induction l with
  | nil =>
    intro n h c cclist below lcc bcc hchain hf hc hcc _ _
    cases hf
    refine ⟨h, cclist, lcc, bcc, ?_, hc, hcc, .refl _, fun _ _ => ⟨rfl, rfl⟩,
      fun _ _ => ⟨rfl, rfl, rfl⟩, nofun, rfl⟩
    have hzero : c = 0 := hchain
    cases n <;> rw [releaseLevel, if_pos hzero]
  | cons x l ih =>
    intro n h c cclist below lcc bcc hchain hf hc hcc hnodup hn
    obtain ⟨rfl, hc0, hchain⟩ := hchain
    obtain ⟨n, rfl⟩ := Nat.exists_eq_add_of_lt hn
    obtain ⟨h₁, c₁, lcc₁, bcc₁, rest, heq₁, hrest, hlist₁, hforest₁, hperm₁, hlinks₁, hinside₁,
      hfree₁⟩ := collectBelow_eq hf hc hcc hnodup
    have hone := count_le_one hnodup
    have hcount := List.perm_iff_count.mp hperm₁
    simp only [List.cons_append, List.count_cons, List.count_append] at hone hcount
    have hself := hone c
    rw [beq_self_eq_true, if_pos rfl] at hself
    -- the node is in none of the lists, and the others are in one each
    have hforeign : ∀ {a : List Nat}, a.count c = 0 → c ∉ a := fun ha hmem => by
      have := List.count_pos_iff.mpr hmem
      omega
    have hbelow : c ∉ below := hforeign (by omega)
    have hcRest : c ∉ l ++ rest := hforeign (by
      have := hcount c
      rw [List.count_append]
      omega)
    have hcNext : c ∉ lcc₁ ++ bcc₁ := hforeign (by
      have := hcount c
      rw [List.count_append]
      omega)
    have hnext : h₁.next c = h.next c := (hlinks₁ c hbelow).next
    have hchain₁ : Chain h₁.next (h₁.next c) l := by
      rw [hnext]
      refine hchain.frame fun x hx => (hlinks₁ x ?_).next
      exact not_mem_of_count (by have := hone x; omega) hx
    have hnodup₁ : (l ++ rest ++ (lcc₁ ++ bcc₁)).Nodup := by
      rw [List.nodup_iff_count_le_one]
      intro x
      have := hone x
      have := hcount x
      simp only [List.count_append]
      omega
    obtain ⟨h', c', lcc', bcc', heq, hlist, hforest, hperm, hlinks, hinside, hgone, hfree⟩ :=
      ih (h := h₁.releaseNode c) hchain₁ (hrest.releaseNode hcRest) hlist₁ (hforest₁.releaseNode hcNext) hnodup₁
        (Nat.le_of_lt_succ hn)
    refine ⟨h', c', lcc', bcc', ?_, hlist, hforest, hperm.trans hperm₁, fun x hx => ?_,
      fun x hx => ?_, fun x hx => ?_, hfree.trans hfree₁⟩
    · rw [releaseLevel, if_neg hc0, heq₁]
      exact heq
    · have hout := hlinks x fun hmem => hx (hperm₁.subset hmem)
      exact (hlinks₁ x fun hmem => hx (List.mem_append_left _ hmem)).trans ⟨hout.next, hout.prev⟩
    · obtain ⟨hne, hxl⟩ := not_or.mp (mt List.mem_cons.mpr hx)
      exact ((hinside₁ x).trans (releaseNode_inside h₁ hne)).trans (hinside x hxl)
    · rcases List.mem_cons.mp hx with rfl | hx
      · rw [(hinside x fun hmem => hcRest (List.mem_append_left _ hmem)).child_num]
        exact releaseNode_child_num h₁ x
      · exact hgone x hx

/-! ## All levels -/

/-- **All levels**: every node is in the list that is done, once. -/
theorem releaseLevels_eq {n : Nat} : ∀ {h : KnvHeap} {clist fclist : Nat} {lc below lf : List Nat},
    TailLinked h.next h.prev clist lc → Forest h lc below → TailLinked h.next h.prev fclist lf →
    (lc ++ below ++ lf).Nodup → lc.length + below.length ≤ n → (∀ x ∈ lf, h.child_num x < 0) →
    ∃ h' f' lf', releaseLevels n h clist fclist = some (h', f') ∧
      TailLinked h'.next h'.prev f' lf' ∧ lf'.Perm (lc ++ below ++ lf) ∧
      (∀ x ∈ lf', h'.child_num x < 0) ∧ (∀ x ∉ lc ++ below ++ lf, SameNode h h' x) ∧
      h'.obj_freelist = h.obj_freelist := by
  induction n with
  | zero =>
    intro h clist fclist lc below lf hlist hf hdone _ hn hgone
    obtain rfl : lc = [] := List.eq_nil_of_length_eq_zero (by omega)
    obtain rfl : below = [] := List.eq_nil_of_length_eq_zero (by omega)
    have hzero : clist = 0 := hlist.chain
    rw [releaseLevels, if_pos hzero]
    exact ⟨h, fclist, lf, rfl, hdone, .refl _, hgone, fun _ _ => ⟨⟨rfl, rfl⟩, rfl, rfl, rfl⟩, rfl⟩
  | succ n ih =>
    intro h clist fclist lc below lf hlist hf hdone hnodup hn hgone
    rw [releaseLevels]
    by_cases hzero : clist = 0
    · have hnil := hlist.chain.eq_zero_iff.mp hzero
      subst hnil
      cases hf
      rw [if_pos hzero]
      exact ⟨h, fclist, lf, rfl, hdone, .refl _, hgone, fun _ _ => ⟨⟨rfl, rfl⟩, rfl, rfl, rfl⟩, rfl⟩
    · have hne := mt hlist.chain.eq_zero_iff.mpr hzero
      have hpos := List.length_pos_iff.mpr hne
      have hone := count_le_one hnodup
      simp only [List.count_append] at hone
      rw [if_neg hzero]
      have hlevel : (lc ++ below ++ ([] ++ [])).Nodup := by
        simpa using (List.nodup_append.mp hnodup).1
      obtain ⟨h₁, c₁, lc₁, below₁, heq₁, hlist₁, hforest₁, hperm₁, hlinks₁, hinside₁, hgone₁,
        hfree₁⟩ := releaseLevel_eq hlist.chain hf (.empty h.next h.prev) .nil hlevel
          (Nat.le_trans (Nat.le_add_right _ _) hn)
      simp only [List.append_nil] at hperm₁ hlinks₁
      have hcount := List.perm_iff_count.mp hperm₁
      simp only [List.count_append] at hcount
      -- the lists that are walked and done stay as they are meanwhile
      have hlc₁ : TailLinked h₁.next h₁.prev clist lc := tailLinked_frame hlist fun x hx =>
        hlinks₁ x (not_mem_of_count (by have := hone x; omega) hx)
      have hlf₁ : TailLinked h₁.next h₁.prev fclist lf := tailLinked_frame hdone fun x hx =>
        hlinks₁ x (not_mem_of_count (by have := hone x; omega) hx)
      have hdis : lc.Disjoint lf := fun x hx => not_mem_of_count (by have := hone x; omega) hx
      have hapart : ∀ x ∈ lc₁ ++ below₁, x ∉ lc := fun x hx => not_mem_of_count (by
        have := hone x
        have := hcount x
        rw [List.count_append]
        omega) hx
      have hsame₁ : ∀ x ∉ lc, SameNode h₁ (h₁.joinLists clist fclist) x := joinLists_same hlc₁ hne
      have hnodup₁ : (lc₁ ++ below₁ ++ (lc ++ lf)).Nodup := by
        rw [List.nodup_iff_count_le_one]
        intro x
        have := hone x
        have := hcount x
        simp only [List.count_append]
        omega
      have hlen := hperm₁.length_eq
      rw [List.length_append] at hlen
      have hgone₂ : ∀ x ∈ lc ++ lf, h₁.child_num x < 0 := by
        intro x hx
        rcases List.mem_append.mp hx with hx | hx
        · exact hgone₁ x hx
        · have hxlc : x ∉ lc := not_mem_of_count (by have := hone x; omega) hx
          rw [(hinside₁ x hxlc).child_num]
          exact hgone x hx
      obtain ⟨h', f', lf', heq, hfin, hperm, hgone', hsame, hfree⟩ :=
        ih (h := h₁.joinLists clist fclist)
          (tailLinked_frame hlist₁ fun x hx =>
            (hsame₁ x (hapart x (List.mem_append_left _ hx))).links)
          (hforest₁.frame (fun x hx => (hsame₁ x (hapart x hx)).inside)
            fun x hx => (hsame₁ x (hapart x (List.mem_append_right _ hx))).links)
          (hlc₁.append hlf₁ hne hdis) hnodup₁ (by omega) hgone₂
      refine ⟨h', f', lf', ?_, hfin, ?_, hgone', fun x hx => ?_, hfree.trans hfree₁⟩
      · rw [heq₁, Option.bind_some]
        exact heq
      · rw [List.perm_iff_count]
        intro x
        have hlast := List.perm_iff_count.mp hperm x
        have := hcount x
        simp only [List.count_append] at hlast ⊢
        omega
      · simp only [List.mem_append, not_or] at hx
        have hlevelSame : SameNode h h₁ x := ⟨hlinks₁ x hx.1.2, hinside₁ x hx.1.1⟩
        refine (hlevelSame.trans (hsame₁ x hx.1.1)).trans (hsame x fun hmem => ?_)
        simp only [List.mem_append] at hmem
        rcases hmem with hmem | hmem
        · have hin := hperm₁.subset (List.mem_append.mpr hmem)
          exact hx.1.2 hin
        · exact hmem.elim hx.1.1 hx.2

/-! ## Into the pool -/

/-- These nodes are released, and were put in front of the free list. -/
structure Freed (h h' : KnvHeap) (old nodes xs : List Nat) : Prop where
  perm : xs.Perm nodes
  chain : Chain h'.next h'.obj_freelist (xs ++ old)
  gone : ∀ x ∈ xs, h'.child_num x < 0
  same : ∀ x ∉ nodes, SameNode h h' x

/-- **`ReleaseKnvNodeList`** puts a list and all below it in front of the free list. -/
theorem releaseKnvNodeList_eq {n : Nat} {h : KnvHeap} {list : Nat} {l below old : List Nat}
    (hlist : TailLinked h.next h.prev list l) (hf : Forest h l below)
    (hold : Chain h.next h.obj_freelist old) (hnodup : (l ++ below ++ old).Nodup)
    (hn : l.length + below.length ≤ n) :
    ∃ h' xs, h.releaseKnvNodeList n list = some h' ∧ Freed h h' old (l ++ below) xs := by
  have hnil : (l ++ below ++ []).Nodup := by
    rw [List.append_nil]
    exact (List.nodup_append.mp hnodup).1
  obtain ⟨h₁, f, xs, heq, hdone, hperm, hgone, hsame, hfree⟩ :=
    releaseLevels_eq hlist hf (.empty h.next h.prev) hnil hn nofun
  rw [List.append_nil] at hperm hsame
  rw [releaseKnvNodeList, heq, Option.map_some]
  have hold₁ : Chain h₁.next h₁.obj_freelist old := by
    rw [hfree]
    refine hold.frame fun x hx => (hsame x fun hmem => ?_).links.next
    exact (List.nodup_append.mp hnodup).2.2 x hmem x hx rfl
  by_cases hzero : f = 0
  · have hempty := hdone.chain.eq_zero_iff.mp hzero
    subst hempty
    refine ⟨h₁, [], ?_, hperm, hold₁, hgone, hsame⟩
    show some (if f ≠ 0 then _ else h₁) = _
    rw [if_neg (not_not.mpr hzero)]
  · have hne := mt hdone.chain.eq_zero_iff.mpr hzero
    have hdis : xs.Disjoint old := fun x hx hxo =>
      (List.nodup_append.mp hnodup).2.2 x (hperm.subset hx) x hxo rfl
    refine ⟨h₁.addToFreeList f, xs, ?_, hperm, ?_, hgone, fun x hx => (hsame x hx).trans ?_⟩
    · show some (if f ≠ 0 then _ else h₁) = _
      rw [if_pos hzero]
    · show Chain (update h₁.next (h₁.prev f) h₁.obj_freelist) f (xs ++ old)
      rw [hdone.last hne]
      exact Path.join hdone.chain hne hdone.chain.nodup hold₁ hdis
    · have hlast : h₁.prev f ∈ xs := hdone.last hne ▸ lastFrom_mem 0 hne
      have hxs : x ∉ xs := fun hmem => hx (hperm.subset hmem)
      exact ⟨⟨update_inside hlast x hxs, rfl⟩, rfl, rfl, rfl⟩

/-- The list of a node is released, if it has one, and its pointer to it cleared. -/
theorem releaseList_eq {n : Nat} {h : KnvHeap} {list : Nat} {l below old : List Nat}
    (clear : KnvHeap → KnvHeap) {this : Nat}
    (hlist : TailLinked h.next h.prev list l) (hf : Forest h l below)
    (hold : Chain h.next h.obj_freelist old) (hnodup : (l ++ below ++ old).Nodup)
    (hthis : this ∉ l ++ below) (hn : l.length + below.length ≤ n)
    (hclear : ∀ h, (clear h).next = h.next ∧ (clear h).child_num = h.child_num ∧
      (clear h).obj_freelist = h.obj_freelist ∧ ∀ x ≠ this, SameNode h (clear h) x) :
    ∃ h' xs, h.releaseList n list clear = some h' ∧
      xs.Perm (l ++ below) ∧ Chain h'.next h'.obj_freelist (xs ++ old) ∧
      (∀ x ∈ xs, h'.child_num x < 0) ∧ (∀ x ∉ l ++ below, x ≠ this → SameNode h h' x) ∧
      ∃ h₁, SameNode h h₁ this ∧ (h' = h₁ ∨ h' = clear h₁) := by
  rw [releaseList]
  by_cases hzero : list = 0
  · have hnil := hlist.chain.eq_zero_iff.mp hzero
    subst hnil
    cases hf
    have hself : ∀ x, SameNode h h x := fun _ => ⟨⟨rfl, rfl⟩, rfl, rfl, rfl⟩
    rw [if_neg (not_not.mpr hzero)]
    exact ⟨h, [], rfl, .refl _, hold, nofun, fun x _ _ => hself x, h, hself this, .inl rfl⟩
  · obtain ⟨h₁, xs, heq, hfreed⟩ := releaseKnvNodeList_eq hlist hf hold hnodup hn
    obtain ⟨hnext, hnum, hfree, hsame⟩ := hclear h₁
    rw [if_pos hzero, heq, Option.map_some]
    refine ⟨clear h₁, xs, rfl, hfreed.perm, ?_, fun x hx => ?_, fun x hx hne => ?_, h₁,
      hfreed.same this hthis, .inr rfl⟩
    · rw [hnext, hfree]
      exact hfreed.chain
    · rw [hnum]
      exact hfreed.gone x hx
    · exact (hfreed.same x hx).trans (hsame x hne)

theorem clearMetalist_same (this : Nat) (h : KnvHeap) :
    (clearMetalist this h).next = h.next ∧ (clearMetalist this h).child_num = h.child_num ∧
      (clearMetalist this h).obj_freelist = h.obj_freelist ∧
      ∀ x ≠ this, SameNode h (clearMetalist this h) x :=
  ⟨rfl, rfl, rfl, fun _ hx => ⟨⟨rfl, rfl⟩, update_of_ne hx _ _, rfl, rfl⟩⟩

theorem clearChildlist_same (this : Nat) (h : KnvHeap) :
    (clearChildlist this h).next = h.next ∧ (clearChildlist this h).child_num = h.child_num ∧
      (clearChildlist this h).obj_freelist = h.obj_freelist ∧
      ∀ x ≠ this, SameNode h (clearChildlist this h) x :=
  ⟨rfl, rfl, rfl, fun _ hx => ⟨⟨rfl, rfl⟩, rfl, update_of_ne hx _ _, rfl⟩⟩

/-- The root goes to the pool last. -/
theorem freed_root {h h₁ : KnvHeap} {root : Nat} {below old xs : List Nat} (hroot : root ≠ 0)
    (hperm : xs.Perm below) (hchain : Chain h₁.next h₁.obj_freelist (xs ++ old))
    (hgone : ∀ x ∈ xs, h₁.child_num x < 0) (hnot : root ∉ xs ++ old)
    (hsame : ∀ x ∉ below, x ≠ root → SameNode h h₁ x) :
    Freed h ((h₁.releaseNode root).pushFree root) old (root :: below) (root :: xs) := by
  refine ⟨hperm.cons root, ⟨rfl, hroot, ?_⟩, fun x hx => ?_, fun x hx => ?_⟩
  · show Chain (update h₁.next root h₁.obj_freelist) (update h₁.next root h₁.obj_freelist root) _
    rw [update_self]
    exact hchain.frame (update_off hnot)
  · show update h₁.child_num root (-1) x < 0
    by_cases hxr : x = root
    · rw [hxr, update_self]
      decide
    · rw [update_of_ne hxr]
      exact hgone x ((List.mem_cons.mp hx).resolve_left hxr)
  · obtain ⟨hxr, hxb⟩ := not_or.mp (mt List.mem_cons.mpr hx)
    exact (hsame x hxb hxr).trans ⟨⟨update_of_ne hxr _ _, rfl⟩, rfl, rfl, update_of_ne hxr _ _⟩

/-- **Deleting a tree frees each node once.** -/
theorem delete_freesOnce {n : Nat} {h : KnvHeap} {root : Nat} {below old : List Nat} (hroot : root ≠ 0)
    (hf : Forest h [root] below) (hold : Chain h.next h.obj_freelist old)
    (hnodup : (root :: below ++ old).Nodup) (hn : below.length ≤ n) :
    ∃ h' xs, h.delete n root = some h' ∧ Freed h h' old (root :: below) (root :: xs) := by
  have hone := count_le_one hnodup
  simp only [List.cons_append, List.count_cons, List.count_append] at hone
  have hself := hone root
  rw [beq_self_eq_true, if_pos rfl] at hself
  have hnot : ∀ {xs : List Nat}, xs.Perm below → root ∉ xs ++ old := fun hperm hmem => by
    have hpos := List.count_pos_iff.mpr hmem
    rw [List.count_append, List.perm_iff_count.mp hperm] at hpos
    omega
  rw [delete, releaseObject]
  cases hf with
  | leaf hx hrest =>
    cases hrest
    rw [if_pos hx, Option.map_some]
    exact ⟨_, [], rfl, freed_root hroot (.refl _) hold nofun (hnot (.refl _)) fun _ _ _ =>
      ⟨⟨rfl, rfl⟩, rfl, rfl, rfl⟩⟩
  | @node _ _ ms bms cs bcs rest hx hmetas hchildren fmetas fchildren hrest =>
    cases hrest
    simp only [List.append_nil, List.count_append, List.length_append] at hone hself hn hnot ⊢
    rw [if_neg (Int.not_lt.mpr hx)]
    have hmetasNodup : (ms ++ bms ++ old).Nodup := by
      rw [List.nodup_iff_count_le_one]
      intro x
      have := hone x
      simp only [List.count_append]
      omega
    have hrootOut : ∀ {a : List Nat}, a.count root = 0 → root ∉ a := fun ha hmem => by
      have := List.count_pos_iff.mpr hmem
      omega
    have hrootMetas : root ∉ ms ++ bms := hrootOut (by rw [List.count_append]; omega)
    have hrootChildren : root ∉ cs ++ bcs := hrootOut (by rw [List.count_append]; omega)
    have hnMetas : ms.length + bms.length ≤ n := by omega
    obtain ⟨h₁, xs, heq₁, hperm₁, hchain₁, hgone₁, hsame₁, h₀, hself₀, heither⟩ :=
      releaseList_eq (clearMetalist root) hmetas fmetas hold hmetasNodup hrootMetas hnMetas
        (clearMetalist_same root)
    -- the children are as they were
    have hsame : ∀ y ∈ cs ++ bcs, SameNode h h₁ y := fun y hy => by
      refine hsame₁ y (not_mem_of_count ?_ hy) (ne_of_mem_of_not_mem hy hrootChildren)
      have := hone y
      simp only [List.count_append]
      omega
    have hchildlist : h₁.childlist root = h.childlist root := by
      rcases heither with rfl | rfl <;> exact hself₀.inside.childlist
    have hchildren₁ : TailLinked h₁.next h₁.prev (h₁.childlist root) cs := by
      rw [hchildlist]
      exact tailLinked_frame hchildren fun y hy => (hsame y (List.mem_append_left _ hy)).links
    have fchildren₁ : Forest h₁ cs bcs := fchildren.frame (fun y hy => (hsame y hy).inside)
      fun y hy => (hsame y (List.mem_append_right _ hy)).links
    have hchildrenNodup : (cs ++ bcs ++ (xs ++ old)).Nodup := by
      rw [List.nodup_iff_count_le_one]
      intro x
      have := hone x
      have := List.perm_iff_count.mp hperm₁ x
      simp only [List.count_append] at this ⊢
      omega
    have hnChildren : cs.length + bcs.length ≤ n := by omega
    obtain ⟨h₂, ys, heq₂, hperm₂, hchain₂, hgone₂, hsame₂, -⟩ :=
      releaseList_eq (clearChildlist root) hchildren₁ fchildren₁ hchain₁ hchildrenNodup
        hrootChildren hnChildren (clearChildlist_same root)
    rw [heq₁, Option.bind_some, heq₂]
    have hperm : (ys ++ xs).Perm (ms ++ bms ++ (cs ++ bcs)) :=
      (hperm₂.append hperm₁).trans List.perm_append_comm
    refine ⟨_, ys ++ xs, rfl, freed_root hroot hperm ?_ (fun y hy => ?_) (hnot hperm) ?_⟩
    · rw [List.append_assoc]
      exact hchain₂
    · rcases List.mem_append.mp hy with hy | hy
      · exact hgone₂ y hy
      · have hym := hperm₁.subset hy
        have hyc : y ∉ cs ++ bcs := not_mem_of_count (by
          have := hone y
          simp only [List.count_append]
          omega) hym
        rw [(hsame₂ y hyc (ne_of_mem_of_not_mem hym hrootMetas)).inside.child_num]
        exact hgone₁ y hy
    · intro y hy hne
      obtain ⟨hym, hyc⟩ := not_or.mp (mt List.mem_append.mpr hy)
      exact (hsame₁ y hym hne).trans (hsame₂ y hyc hne)

/-- A root `1` with the meta `2` and the children `3` and `4`, and `5` in the pool. -/
def smallTree : KnvHeap where
  next x := if x = 3 then 4 else 0
  prev x := if x = 3 then 4 else if x = 4 then 3 else x
  metalist x := if x = 1 then 2 else 0
  childlist x := if x = 1 then 3 else 0
  child_num x := if x = 1 then 2 else -1
  obj_freelist := 5

theorem delete_freesOnce_smallTree : ∃ h' xs, smallTree.delete 3 1 = some h' ∧
    Freed smallTree h' [5] ([1] ++ ([2] ++ [] ++ ([3, 4] ++ []) ++ [])) (1 :: xs) := by
  have hforest : Forest smallTree [1] ([2] ++ [] ++ ([3, 4] ++ []) ++ []) :=
    .node (by decide) ⟨by decide, fun _ => rfl⟩ ⟨by decide, fun _ => rfl⟩
      (.leaf (by decide) .nil) (.leaf (by decide) (.leaf (by decide) .nil)) .nil
  exact delete_freesOnce (by decide) hforest (by decide) (by decide) (by decide)

end KnvHeap

end MysqlProxy
