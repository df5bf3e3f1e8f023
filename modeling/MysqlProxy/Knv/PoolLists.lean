/-
  The intrusive lists (`New(first)`, `NewFront`, `Delete(first, obj)`, `Detach` of
  `knv/obj_pool.h`, and `INSERT_CHILD` of `knv/knv_node.cc`).

  A list is reached from `first`; the `prev` of its first element is its last.  Head, tail, the
  only element and one in the middle are coded separately, here and in the macro.

  * A `ListRun` is the heap with `first`, and beside it what the calls do on plain lists:
    `members` are appended to, prepended to and removed from, `detached` are the roots of the
    trees that are in no list.
  * `Owned`: every known object is a root, below a root, or in the free list, and only once.
  * `run_lists`: in every run `first` starts the list of the members, which is linked both ways.

  Modelling choices.
  * The objects are nodes with what is below them, so that `Delete` has a tree to release.  `first`
    is a variable; in `INSERT_CHILD` it is `p->childlist`, and what else the macro changes at `p`
    (its index and its counter) is left out.
  * `new` returns an address that is not known yet, or fails.
-/
import MysqlProxy.Knv.ReleaseTree
import MysqlProxy.Lib.Run

namespace MysqlProxy

open Function (update update_self update_of_ne)

namespace KnvHeap

/-! ## The code -/

/-- The constructor. -/
def construct (h : KnvHeap) (o : Nat) : KnvHeap :=
  { h with
    metalist := update h.metalist o 0
    childlist := update h.childlist o 0
    child_num := update h.child_num o (-1) }

/-- The object that `New` takes: the head of the free list, or what `new` returns (`0` if it
    fails). -/
def takeObject (h : KnvHeap) (fresh : Nat) : KnvHeap × Nat :=
  if h.obj_freelist ≠ 0 then ({ h with obj_freelist := h.next h.obj_freelist }, h.obj_freelist)
  else (h.construct fresh, fresh)

/-- An object goes to the end of a list: `New(first)`, and `INSERT_CHILD` at the tail. -/
def linkLast (h : KnvHeap) (first o : Nat) : KnvHeap × Nat :=
  let h := { h with next := update h.next o 0 }
  if first ≠ 0 then
    let lst := h.prev first
    ({ h with
        next := update h.next lst o
        prev := update (update h.prev o lst) first o }, first)
  else ({ h with prev := update h.prev o o }, o)

/-- An object goes to the front of a list: `NewFront`. -/
def linkFront (h : KnvHeap) (first o : Nat) : KnvHeap × Nat :=
  let h := { h with next := update h.next o first }
  if first ≠ 0 then
    ({ h with prev := update (update h.prev o (h.prev first)) first o }, o)
  else ({ h with prev := update h.prev o o }, o)

/-- `INSERT_CHILD`; `first` is the list of children. -/
def insertChild (h : KnvHeap) (first c : Nat) (at_tail : Bool) : KnvHeap × Nat :=
  let h := { h with next := update h.next c 0 }
  if first ≠ 0 then
    if at_tail then
      let lc := h.prev first
      ({ h with
          next := update h.next lc c
          prev := update (update h.prev c lc) first c }, first)
    else
      ({ h with
          next := update h.next c first
          prev := update (update h.prev c (h.prev first)) first c }, c)
  else ({ h with prev := update h.prev c c }, c)

/-- How `Delete(first, obj)` and `Detach` take an object out of a list. -/
def unlink (h : KnvHeap) (first obj : Nat) : KnvHeap × Nat :=
  if obj = first then
    (if h.next obj ≠ 0 then { h with prev := update h.prev (h.next obj) (h.prev first) } else h,
      h.next obj)
  else
    let p := h.prev obj
    let n := h.next obj
    ({ h with
        next := update h.next p n
        prev := if n ≠ 0 then update h.prev n p else update h.prev first p }, first)

end KnvHeap

/-- The calls. -/
inductive ListCall where
  /-- `New(first)`, with what `new` returns if it is asked -/
  | new (fresh : Nat)
  | newFront (fresh : Nat)
  | delete (obj : Nat)
  | detach (obj : Nat)
  | insertChild (c : Nat) (at_tail : Bool)
  deriving DecidableEq, Repr

/-- The heap with a list in it; and what the calls make of plain lists. -/
structure ListRun where
  heap : KnvHeap
  first : Nat
  members : List Nat
  detached : List Nat
  /-- All objects so far. -/
  known : List Nat

namespace ListRun

/-- `New(first)` and `NewFront`. -/
def addNew (s : ListRun) (fresh : Nat) (link : KnvHeap → Nat → Nat → KnvHeap × Nat)
    (members : Nat → List Nat) : ListRun :=
  let (h, o) := s.heap.takeObject fresh
  if o = 0 then s
  else
    let (h, first) := link h s.first o
    { s with
      heap := h
      first := first
      members := members o
      known := if o ∈ s.known then s.known else o :: s.known }

/-- One call.  The rounds that `Delete` has for the nodes below its object are as many as there are
    objects. -/
def exec (s : ListRun) : ListCall → Option ListRun
  | .new fresh => some (s.addNew fresh KnvHeap.linkLast fun o => s.members ++ [o])
  | .newFront fresh => some (s.addNew fresh KnvHeap.linkFront fun o => o :: s.members)
  | .delete obj =>
    let (h, first) := s.heap.unlink s.first obj
    (h.delete s.known.length obj).map fun h =>
      { s with heap := h, first := first, members := s.members.erase obj }
  | .detach obj =>
    let (h, first) := s.heap.unlink s.first obj
    some { s with
      heap := { h with prev := update h.prev obj 0, next := update h.next obj 0 }
      first := first
      members := s.members.erase obj
      detached := obj :: s.detached }
  | .insertChild c at_tail =>
    let (h, first) := s.heap.insertChild s.first c at_tail
    some { s with
      heap := h
      first := first
      members := if at_tail then s.members ++ [c] else c :: s.members
      detached := s.detached.erase c }

/-- Objects that are deleted or detached are in the list, children that are inserted are not; `new`
    returns no object that is known. -/
def Allowed (s : ListRun) : ListCall → Prop
  | .new fresh | .newFront fresh => fresh ∉ s.known
  | .delete obj | .detach obj => obj ∈ s.members
  | .insertChild c _ => c ∈ s.detached

instance (s : ListRun) : (c : ListCall) → Decidable (s.Allowed c)
  | .new fresh | .newFront fresh => inferInstanceAs (Decidable (fresh ∉ s.known))
  | .delete obj | .detach obj => inferInstanceAs (Decidable (obj ∈ s.members))
  | .insertChild c _ => inferInstanceAs (Decidable (c ∈ s.detached))

/-- One call of a run. -/
def Step (s s' : ListRun) : Prop := ∃ c, s.Allowed c ∧ s.exec c = some s'

end ListRun

/-! ## One list -/

namespace KnvHeap

/-- From here to there only links of these objects have changed, and `first` starts this list. -/
structure Relinked (h h' : KnvHeap) (first : Nat) (l touched : List Nat) : Prop where
  circle : HalfCircle h'.next h'.prev first l
  links : ∀ x ∉ touched, SameLinks h h' x
  inside : ∀ x, SameInside h h' x
  free : h'.obj_freelist = h.obj_freelist

variable {h : KnvHeap} {first : Nat} {l : List Nat}

/-- The first element and the last are elements. -/
theorem ends_mem (hl : HalfCircle h.next h.prev first l) (hne : l ≠ []) :
    first ∈ l ∧ h.prev first ∈ l :=
  ⟨hl.tailLinked.first_mem hne, hl.tailLinked.last hne ▸ lastFrom_mem 0 hne⟩

/-- The only element. -/
theorem relinked_singleton (h : KnvHeap) {o : Nat} (ho0 : o ≠ 0) :
    Relinked h { h with next := update h.next o 0, prev := update h.prev o o } o [o] [o] :=
  ⟨HalfCircle.singleton h.next h.prev ho0,
    fun x hx => ⟨update_inside (List.mem_singleton_self o) x hx,
      update_inside (List.mem_singleton_self o) x hx⟩, fun _ => ⟨rfl, rfl, rfl⟩, rfl⟩

/-- **At the end.** -/
theorem linkLast_eq (hl : HalfCircle h.next h.prev first l) {o : Nat} (ho0 : o ≠ 0) (ho : o ∉ l) :
    Relinked h (h.linkLast first o).1 (h.linkLast first o).2 (l ++ [o]) (o :: l) := by
  rw [linkLast]
  by_cases hfirst : first = 0
  · have hnil := hl.chain.eq_zero_iff.mp hfirst
    subst hnil
    simp only [if_neg (not_not.mpr hfirst)]
    exact relinked_singleton h ho0
  · have hne := mt hl.chain.eq_zero_iff.mpr hfirst
    obtain ⟨hmem, hlast⟩ := ends_mem hl hne
    have ho' : o ∈ o :: l := List.mem_cons_self
    simp only [if_pos hfirst]
    refine ⟨hl.concat hne ho0 ho, fun x hx => ⟨?_, ?_⟩, fun _ => ⟨rfl, rfl, rfl⟩, rfl⟩
    · exact (update_inside (List.mem_cons_of_mem o hlast) x hx).trans (update_inside ho' x hx)
    · exact (update_inside (List.mem_cons_of_mem o hmem) x hx).trans (update_inside ho' x hx)

/-- **In front.** -/
theorem linkFront_eq (hl : HalfCircle h.next h.prev first l) {o : Nat} (ho0 : o ≠ 0) (ho : o ∉ l) :
    Relinked h (h.linkFront first o).1 (h.linkFront first o).2 (o :: l) (o :: l) := by
  rw [linkFront]
  by_cases hfirst : first = 0
  · have hnil := hl.chain.eq_zero_iff.mp hfirst
    subst hnil
    simp only [hfirst]
    exact relinked_singleton h ho0
  · have hne := mt hl.chain.eq_zero_iff.mpr hfirst
    obtain ⟨hmem, -⟩ := ends_mem hl hne
    have ho' : o ∈ o :: l := List.mem_cons_self
    simp only [if_pos hfirst]
    refine ⟨hl.cons hne ho0 ho, fun x hx => ⟨update_inside ho' x hx, ?_⟩,
      fun _ => ⟨rfl, rfl, rfl⟩, rfl⟩
    exact (update_inside (List.mem_cons_of_mem o hmem) x hx).trans (update_inside ho' x hx)

/-- **`INSERT_CHILD`** links as the calls of the pool do. -/
theorem insertChild_eq (h : KnvHeap) (first c : Nat) (at_tail : Bool) :
    h.insertChild first c at_tail =
      if at_tail then h.linkLast first c else h.linkFront first c := by
  rw [insertChild, linkLast, linkFront]
  by_cases hfirst : first = 0
  · subst hfirst
    cases at_tail <;> rfl
  · simp only [ne_eq, hfirst, not_false_eq_true, if_true, Function.update_idem]

/-- **Out of a list.** -/
theorem unlink_eq {l₁ l₂ : List Nat} {obj : Nat}
    (hl : HalfCircle h.next h.prev first (l₁ ++ obj :: l₂)) :
    Relinked h (h.unlink first obj).1 (h.unlink first obj).2 (l₁ ++ l₂) (l₁ ++ obj :: l₂) := by
  have hnext : Chain h.next (h.next obj) l₂ := hl.chain.suffix.2.2
  have hbehind : h.next obj ≠ 0 → h.next obj ∈ l₁ ++ obj :: l₂ := by
    intro hne
    obtain ⟨y, tail, rfl⟩ := List.exists_cons_of_ne_nil (mt hnext.eq_zero_iff.mpr hne)
    rw [hnext.1]
    exact List.mem_append_right _ (List.mem_cons_of_mem _ List.mem_cons_self)
  rw [unlink]
  cases l₁ with
  | nil =>
    obtain rfl := hl.chain.1
    simp only [if_true, List.nil_append] at hbehind ⊢
    by_cases hzero : h.next first = 0
    · have hnil := hnext.eq_zero_iff.mp hzero
      subst hnil
      simp only [hzero, ne_eq, not_true_eq_false, if_false]
      exact ⟨.empty h.next h.prev, fun _ _ => ⟨rfl, rfl⟩, fun _ => ⟨rfl, rfl, rfl⟩, rfl⟩
    · simp only [ne_eq, hzero, not_false_eq_true, if_true]
      exact ⟨hl.tail (mt hnext.eq_zero_iff.mpr hzero),
        fun x hx => ⟨rfl, update_inside (hbehind hzero) x hx⟩, fun _ => ⟨rfl, rfl, rfl⟩, rfl⟩
  | cons y l₁ =>
    obtain rfl := hl.chain.1
    have hne : obj ≠ first := fun heq =>
      (List.nodup_cons.mp hl.chain.nodup).1 (heq ▸ List.mem_append_right _ List.mem_cons_self)
    have hprev : h.prev obj ∈ first :: l₁ := by
      have hback := (Backs.append_iff.mp hl.back).2.1
      rw [hback, lastFrom_of_ne (List.cons_ne_nil first l₁) (q := 0)]
      exact lastFrom_mem 0 (List.cons_ne_nil first l₁)
    have hmem := List.mem_append_left (obj :: l₂) hprev
    simp only [if_neg hne]
    refine ⟨hl.remove (List.cons_ne_nil first l₁), fun x hx => ⟨update_inside hmem x hx, ?_⟩,
      fun _ => ⟨rfl, rfl, rfl⟩, rfl⟩
    dsimp only
    split
    case isTrue hzero => exact update_inside (hbehind hzero) x hx
    case isFalse => exact update_inside List.mem_cons_self x hx

/-! ## Trees apart from each other -/

theorem Forest.split (l₁ : List Nat) {l₂ b : List Nat} (hf : Forest h (l₁ ++ l₂) b) :
    ∃ b₁ b₂, b = b₁ ++ b₂ ∧ Forest h l₁ b₁ ∧ Forest h l₂ b₂ := by
  induction l₁ generalizing b with
  | nil => exact ⟨[], b, rfl, .nil, hf⟩
  | cons x l₁ ih =>
    rw [List.cons_append] at hf
    cases hf with
    | leaf hx hrest =>
      obtain ⟨b₁, b₂, rfl, h₁, h₂⟩ := ih hrest
      exact ⟨b₁, b₂, rfl, .leaf hx h₁, h₂⟩
    | @node _ _ ms bms cs bcs _ hx hmetas hchildren metas children hrest =>
      obtain ⟨b₁, b₂, rfl, h₁, h₂⟩ := ih hrest
      exact ⟨ms ++ bms ++ (cs ++ bcs) ++ b₁, b₂, (List.append_assoc ..).symm,
        .node hx hmetas hchildren metas children h₁, h₂⟩

/-- The order of the roots does not matter. -/
theorem Forest.perm {l l' : List Nat} (hp : l.Perm l') : ∀ {b : List Nat}, Forest h l b →
    ∃ b', Forest h l' b' ∧ b'.Perm b := by
  induction hp with
  | nil => exact fun hf => ⟨_, hf, .refl _⟩
  | @cons x l₁ l₂ _ ih =>
    intro b hf
    obtain ⟨b₁, b₂, rfl, h₁, h₂⟩ := Forest.split [x] hf
    obtain ⟨b', hb', hperm⟩ := ih h₂
    exact ⟨b₁ ++ b', h₁.append hb', hperm.append_left b₁⟩
  | swap x y l =>
    intro b hf
    obtain ⟨b₁, b₂, rfl, h₁, h₂⟩ := Forest.split [y] hf
    obtain ⟨b₃, b₄, rfl, h₃, h₄⟩ := Forest.split [x] h₂
    refine ⟨b₃ ++ (b₁ ++ b₄), h₃.append (h₁.append h₄), ?_⟩
    rw [← List.append_assoc, ← List.append_assoc]
    exact List.perm_append_comm.append_right b₄
  | trans _ _ ih₁ ih₂ =>
    intro b hf
    obtain ⟨b₁, h₁, hp₁⟩ := ih₁ hf
    obtain ⟨b₂, h₂, hp₂⟩ := ih₂ h₁
    exact ⟨b₂, h₂, hp₂.trans hp₁⟩

/-- Every known object is a root, below a root, or in the free list, and in one place only. -/
def Owned (h : KnvHeap) (roots known : List Nat) : Prop :=
  ∃ below free, Forest h roots below ∧ Chain h.next h.obj_freelist free ∧
    (∀ x ∈ free, h.child_num x < 0) ∧ (roots ++ below ++ free).Perm known ∧ known.Nodup

namespace Owned

variable {h' : KnvHeap} {roots known : List Nat}

theorem roots_known (ho : Owned h roots known) : ∀ x ∈ roots, x ∈ known := by
  obtain ⟨below, free, -, -, -, hperm, -⟩ := ho
  exact fun x hx => hperm.subset (List.mem_append_left _ (List.mem_append_left _ hx))

theorem roots_nodup (ho : Owned h roots known) : roots.Nodup := by
  obtain ⟨below, free, -, -, -, hperm, hnodup⟩ := ho
  exact (List.nodup_append.mp (List.nodup_append.mp (hperm.nodup_iff.mpr hnodup)).1).1

theorem perm {roots' : List Nat} (ho : Owned h roots known) (hp : roots.Perm roots') :
    Owned h roots' known := by
  obtain ⟨below, free, hf, hchain, hgone, hperm, hnodup⟩ := ho
  obtain ⟨below', hf', hb⟩ := hf.perm hp
  exact ⟨below', free, hf', hchain, hgone,
    ((hp.symm.append hb).append_right free).trans hperm, hnodup⟩

/-- Linking roots to each other does not touch what is below them or free. -/
theorem relink (ho : Owned h roots known) (hlinks : ∀ x ∉ roots, SameLinks h h' x)
    (hinside : ∀ x, SameInside h h' x) (hfree : h'.obj_freelist = h.obj_freelist) :
    Owned h' roots known := by
  obtain ⟨below, free, hf, hchain, hgone, hperm, hnodup⟩ := ho
  have hone := count_le_one (hperm.nodup_iff.mpr hnodup)
  simp only [List.count_append] at hone
  refine ⟨below, free, hf.frame (fun x _ => hinside x) fun x hx => hlinks x ?_, ?_,
    fun x hx => ?_, hperm, hnodup⟩
  · exact not_mem_of_count (by have := hone x; omega) hx
  · rw [hfree]
    exact hchain.frame fun x hx => (hlinks x (not_mem_of_count (by have := hone x; omega) hx)).next
  · rw [(hinside x).child_num]
    exact hgone x hx

/-- **Taking an object**: it is a root without anything below it. -/
theorem take (ho : Owned h roots known) {fresh : Nat} (hfresh : fresh ∉ known) :
    (∀ x, SameLinks h (h.takeObject fresh).1 x) ∧ (h.takeObject fresh).2 ∉ roots ∧
      Owned (h.takeObject fresh).1 ((h.takeObject fresh).2 :: roots)
        (if (h.takeObject fresh).2 ∈ known then known else (h.takeObject fresh).2 :: known) := by
  have hroots := ho.roots_known
  obtain ⟨below, free, hf, hchain, hgone, hperm, hnodup⟩ := ho
  rw [takeObject]
  by_cases hzero : h.obj_freelist = 0
  · have hnil := hchain.eq_zero_iff.mp hzero
    subst hnil
    simp only [ne_eq, hzero, not_true_eq_false, if_false, hfresh]
    have hnew : (h.construct fresh).child_num fresh < 0 := by
      show update h.child_num fresh (-1) fresh < 0
      rw [update_self]
      decide
    refine ⟨fun _ => ⟨rfl, rfl⟩, fun hmem => hfresh (hroots _ hmem), below, [], ?_, ?_, nofun, ?_,
      List.nodup_cons.mpr ⟨hfresh, hnodup⟩⟩
    · refine .leaf hnew (hf.frame (fun x hx => ?_) fun _ _ => ⟨rfl, rfl⟩)
      have hne : x ≠ fresh := by
        rintro rfl
        exact hfresh (hperm.subset (List.mem_append_left _ hx))
      exact ⟨update_of_ne hne _ _, update_of_ne hne _ _, update_of_ne hne _ _⟩
    · exact hzero
    · exact hperm.cons fresh
  · obtain ⟨o, free, rfl⟩ := List.exists_cons_of_ne_nil (mt hchain.eq_zero_iff.mpr hzero)
    obtain ⟨ho, ho0, hrest⟩ := hchain
    have hone := count_le_one (hperm.nodup_iff.mpr hnodup)
    simp only [List.count_append, List.count_cons] at hone
    have hself := hone o
    rw [beq_self_eq_true, if_pos rfl] at hself
    have hknown : o ∈ known := hperm.subset (List.mem_append_right _ List.mem_cons_self)
    have hout : o ∉ roots := fun hmem => by
      have := List.count_pos_iff.mpr hmem
      omega
    rw [ho]
    simp only [ne_eq, ho0, not_false_eq_true, if_true, hknown]
    refine ⟨fun _ => ⟨rfl, rfl⟩, hout, below, free, ?_, hrest, fun x hx => ?_, ?_, hnodup⟩
    · exact .leaf (hgone o List.mem_cons_self)
        (hf.frame (fun _ _ => ⟨rfl, rfl, rfl⟩) fun _ _ => ⟨rfl, rfl⟩)
    · exact hgone x (List.mem_cons_of_mem o hx)
    · exact List.Perm.trans List.perm_middle.symm hperm

/-- **Deleting a root**: what was below it goes to the pool with it. -/
theorem delete {obj : Nat} (ho : Owned h (obj :: roots) known) (hobj : obj ≠ 0) :
    ∃ h', h.delete known.length obj = some h' ∧ Owned h' roots known ∧
      ∀ x ∈ roots, SameLinks h h' x := by
  obtain ⟨below, free, hf, hchain, hgone, hperm, hnodup⟩ := ho
  obtain ⟨b₁, b₂, rfl, h₁, h₂⟩ := Forest.split [obj] hf
  have hone := count_le_one (hperm.nodup_iff.mpr hnodup)
  have hlen := hperm.length_eq
  simp only [List.count_append, List.count_cons, List.length_append, List.length_cons,
    List.cons_append] at hone hlen
  have hdel : (obj :: b₁ ++ free).Nodup := by
    rw [List.nodup_iff_count_le_one]
    intro x
    have := hone x
    simp only [List.cons_append, List.count_cons, List.count_append]
    omega
  obtain ⟨h', xs, heq, hfreed⟩ := delete_freesOnce (n := known.length) hobj h₁ hchain hdel (by omega)
  have hsame : ∀ x ∈ roots ++ b₂, SameNode h h' x := fun x hx => hfreed.same x (not_mem_of_count (by
    have := hone x
    simp only [List.count_append, List.count_cons]
    omega) hx)
  refine ⟨h', heq, ⟨b₂, obj :: xs ++ free, ?_, hfreed.chain, fun x hx => ?_, ?_, hnodup⟩,
    fun x hx => (hsame x (List.mem_append_left _ hx)).links⟩
  · exact h₂.frame (fun x hx => (hsame x hx).inside)
      fun x hx => (hsame x (List.mem_append_right _ hx)).links
  · rcases List.mem_append.mp hx with hx | hx
    · exact hfreed.gone x hx
    · have hout : x ∉ obj :: b₁ := not_mem_of_count (by
        have := hone x
        simp only [List.count_cons]
        omega) hx
      rw [(hfreed.same x hout).inside.child_num]
      exact hgone x hx
  · refine List.Perm.trans ?_ hperm
    rw [List.perm_iff_count]
    intro x
    have := List.perm_iff_count.mp hfreed.perm x
    simp only [List.cons_append, List.count_cons, List.count_append] at this ⊢
    omega

end Owned

end KnvHeap

/-! ## Runs -/

namespace ListRun

open KnvHeap

/-- `first` starts the list of the members, and every object has its place. -/
structure Inv (s : ListRun) : Prop where
  circle : HalfCircle s.heap.next s.heap.prev s.first s.members
  owned : s.heap.Owned (s.members ++ s.detached) s.known
  not_null : ∀ x ∈ s.known, x ≠ 0

/-- Before the first call: no list, any trees, any pool. -/
structure Initial (s : ListRun) : Prop where
  first : s.first = 0
  members : s.members = []
  owned : s.heap.Owned s.detached s.known
  not_null : ∀ x ∈ s.known, x ≠ 0

theorem Initial.inv {s : ListRun} (h : Initial s) : s.Inv := by
  refine ⟨?_, ?_, h.not_null⟩
  · rw [h.first, h.members]
    exact .empty s.heap.next s.heap.prev
  · rw [h.members]
    exact h.owned

/-- A new object: where it is linked, the list has it. -/
theorem Inv.addNew {s : ListRun} (h : s.Inv) {fresh : Nat} (hfresh : fresh ∉ s.known)
    {link : KnvHeap → Nat → Nat → KnvHeap × Nat} {members : Nat → List Nat}
    (hlink : ∀ {h first o}, HalfCircle h.next h.prev first s.members → o ≠ 0 → o ∉ s.members →
      Relinked h (link h first o).1 (link h first o).2 (members o) (o :: s.members))
    (hmembers : ∀ o, (members o).Perm (o :: s.members)) : (s.addNew fresh link members).Inv := by
  obtain ⟨hlinks, hout, howned⟩ := h.owned.take hfresh
  rw [ListRun.addNew]
  generalize s.heap.takeObject fresh = taken at hlinks hout howned
  obtain ⟨h₁, o⟩ := taken
  by_cases hzero : o = 0
  · simp only [if_pos hzero]
    exact h
  · simp only [if_neg hzero]
    have hcircle : HalfCircle h₁.next h₁.prev s.first s.members :=
      h.circle.frame (fun x _ => (hlinks x).next) fun x _ => (hlinks x).prev
    have hmem : o ∉ s.members := fun hmem => hout (List.mem_append_left _ hmem)
    have hnew := hlink hcircle hzero hmem
    refine ⟨hnew.circle, ?_, fun x hx => ?_⟩
    · have hperm : (o :: (s.members ++ s.detached)).Perm (members o ++ s.detached) :=
        ((hmembers o).append_right s.detached).symm
      refine (howned.perm hperm).relink (fun x hx => hnew.links x fun hmem => hx ?_) hnew.inside
        hnew.free
      exact List.mem_append_left _ ((hmembers o).symm.subset hmem)
    · dsimp only at hx
      split at hx
      case isTrue => exact h.not_null x hx
      case isFalse =>
        rcases List.mem_cons.mp hx with rfl | hx
        · exact hzero
        · exact h.not_null x hx

/-- A member that is taken out is a root by itself. -/
theorem Inv.unlink {s : ListRun} (h : s.Inv) {obj : Nat} (hobj : obj ∈ s.members) :
    HalfCircle (s.heap.unlink s.first obj).1.next (s.heap.unlink s.first obj).1.prev
        (s.heap.unlink s.first obj).2 (s.members.erase obj) ∧
      (s.heap.unlink s.first obj).1.Owned (obj :: (s.members.erase obj ++ s.detached)) s.known := by
  obtain ⟨l₁, l₂, -, hmembers, herase⟩ := List.exists_erase_eq hobj
  have hcircle := h.circle
  rw [hmembers] at hcircle
  have hun := unlink_eq hcircle
  rw [← hmembers, ← herase] at hun
  refine ⟨hun.circle, ?_⟩
  have hperm := (List.perm_cons_erase hobj).append_right s.detached
  exact (h.owned.relink (fun x hx => hun.links x fun hmem => hx (List.mem_append_left _ hmem))
    hun.inside hun.free).perm hperm

/-- A detached node that is linked is a member. -/
theorem Inv.insert {s : ListRun} (h : s.Inv) {c first : Nat} (hc : c ∈ s.detached) {h' : KnvHeap}
    {members : List Nat} (hnew : Relinked s.heap h' first members (c :: s.members))
    (hmembers : members.Perm (c :: s.members)) :
    Inv { s with
      heap := h', first := first, members := members, detached := s.detached.erase c } := by
  refine ⟨hnew.circle, ?_, h.not_null⟩
  have hroots : (s.members ++ s.detached).Perm (members ++ s.detached.erase c) := by
    refine ((List.perm_cons_erase hc).append_left s.members).trans ?_
    exact List.perm_middle.trans (hmembers.symm.append_right (s.detached.erase c))
  refine (h.owned.relink (fun x hx => hnew.links x fun hmem => hx ?_) hnew.inside hnew.free).perm
    hroots
  rcases List.mem_cons.mp hmem with rfl | hmem
  · exact List.mem_append_right _ hc
  · exact List.mem_append_left _ hmem

/-- **One call** keeps the list, and no call that is allowed goes on for ever. -/
theorem Inv.exec {s : ListRun} (h : s.Inv) {c : ListCall} (hc : s.Allowed c) :
    ∃ s', s.exec c = some s' ∧ s'.Inv := by
  cases c with
  | new fresh =>
    exact ⟨_, rfl, h.addNew hc (fun hl => linkLast_eq hl) fun o => List.perm_append_singleton o _⟩
  | newFront fresh =>
    exact ⟨_, rfl, h.addNew hc (fun hl => linkFront_eq hl) fun o => .refl _⟩
  | delete obj =>
    obtain ⟨hcircle, howned⟩ := h.unlink hc
    have hknown := h.owned.roots_known obj (List.mem_append_left _ hc)
    obtain ⟨h₂, heq, howned₂, hlinks⟩ := howned.delete (h.not_null obj hknown)
    refine ⟨{ s with
      heap := h₂, first := (s.heap.unlink s.first obj).2, members := s.members.erase obj }, ?_, ?_,
      howned₂, h.not_null⟩
    · simp only [ListRun.exec, heq, Option.map_some]
    · exact hcircle.frame (fun x hx => (hlinks x (List.mem_append_left _ hx)).next)
        fun x hx => (hlinks x (List.mem_append_left _ hx)).prev
  | detach obj =>
    obtain ⟨hcircle, howned⟩ := h.unlink hc
    have hout : obj ∉ s.members.erase obj := fun hmem =>
      (List.nodup_cons.mp howned.roots_nodup).1 (List.mem_append_left _ hmem)
    generalize hun : s.heap.unlink s.first obj = u at hcircle howned
    refine ⟨{ s with
      heap := { u.1 with prev := update u.1.prev obj 0, next := update u.1.next obj 0 }
      first := u.2
      members := s.members.erase obj
      detached := obj :: s.detached }, by simp only [ListRun.exec, hun], ?_, ?_, h.not_null⟩
    · exact hcircle.frame (update_off hout) (update_off hout)
    · have hcleared : Owned { u.1 with
          prev := update u.1.prev obj 0, next := update u.1.next obj 0 }
          (obj :: (s.members.erase obj ++ s.detached)) s.known := by
        refine howned.relink (fun x hx => ?_) (fun _ => ⟨rfl, rfl, rfl⟩) rfl
        exact ⟨update_inside List.mem_cons_self x hx, update_inside List.mem_cons_self x hx⟩
      exact hcleared.perm List.perm_middle.symm
  | insertChild c at_tail =>
    have hmem : c ∈ s.members ++ s.detached := List.mem_append_right _ hc
    have hc0 := h.not_null c (h.owned.roots_known c hmem)
    have hout : c ∉ s.members := fun hin =>
      (List.nodup_append.mp h.owned.roots_nodup).2.2 c hin c hc rfl
    have hlink := insertChild_eq s.heap s.first c at_tail
    refine ⟨{ s with
      heap := (s.heap.insertChild s.first c at_tail).1
      first := (s.heap.insertChild s.first c at_tail).2
      members := if at_tail then s.members ++ [c] else c :: s.members
      detached := s.detached.erase c }, rfl, ?_⟩
    cases at_tail with
    | true =>
      rw [hlink]
      exact h.insert hc (linkLast_eq h.circle hc0 hout) (List.perm_append_singleton c s.members)
    | false =>
      rw [hlink]
      exact h.insert hc (linkFront_eq h.circle hc0 hout) (.refl _)

/-- **The intrusive lists are plain lists.** -/
theorem run_lists {s₀ s : ListRun} (h₀ : Initial s₀) (hrun : Relation.ReflTransGen Step s₀ s) :
    HalfCircle s.heap.next s.heap.prev s.first s.members ∧
      ∀ c, s.Allowed c → ∃ s', s.exec c = some s' := by
  have hinv : s.Inv := run_invariant hrun h₀.inv fun {s s'} h ⟨c, hc, heq⟩ => by
    obtain ⟨s'', heq', hinv⟩ := h.exec hc
    rw [heq] at heq'
    exact Option.some.inj heq' ▸ hinv
  exact ⟨hinv.circle, fun c hc => (hinv.exec hc).imp fun s' h => h.1⟩

/-- An empty list, and the small tree. -/
def smallStart : ListRun where
  heap := smallTree
  first := 0
  members := []
  detached := [1]
  known := [1, 2, 3, 4, 5]

/-- It is inserted between two new nodes, and deleted. -/
def smallCalls : List ListCall := [.new 6, .insertChild 1 true, .newFront 7, .delete 1, .new 8]

theorem run_lists_small : ∃ s, Relation.ReflTransGen Step smallStart s ∧ s.members = [7, 5, 1] ∧
    HalfCircle s.heap.next s.heap.prev s.first s.members ∧
      ∀ c, s.Allowed c → ∃ s', s.exec c = some s' := by
  have hforest : Forest smallTree [1] ([2] ++ [] ++ ([3, 4] ++ []) ++ []) :=
    .node (by decide) ⟨by decide, fun _ => rfl⟩ ⟨by decide, fun _ => rfl⟩
      (.leaf (by decide) .nil) (.leaf (by decide) (.leaf (by decide) .nil)) .nil
  have hinitial : Initial smallStart :=
    ⟨rfl, rfl, ⟨_, [5], hforest, by decide, by decide, .refl _, by decide⟩, by decide⟩
  obtain ⟨s, hs, hmembers⟩ : ∃ s, execs exec Allowed smallCalls smallStart = some s ∧
      s.members = [7, 5, 1] := by
    have heval : (execs exec Allowed smallCalls smallStart).map members = some [7, 5, 1] := by
      decide +kernel
    exact Option.map_eq_some_iff.mp heval
  exact ⟨s, execs_run hs, hmembers, run_lists hinitial (execs_run hs)⟩

end ListRun

end MysqlProxy
