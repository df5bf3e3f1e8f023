/-
  The lock-free object pool (`knv/obj_pool.h`).

  `New` pops the head of a free list and `Delete` pushes onto it, each with a compare-and-swap of
  `obj_freelist`.  `New` reads the head, then the head's `next`, and swaps by POINTER EQUALITY alone:
  when the head was popped and pushed back in the meantime, the swap succeeds and installs a `next`
  that is out of date.

  * `exec` is one atomic step of one thread: a shared read, a compare-and-swap, or a write to an
    object of its own.
  * `Safe`: no object is owned twice, none that is owned is on the free list.
  * `run_safe`: `Safe` holds in every state of every run in which no swap of `New` meets a head whose
    `next` has changed since it was read.  `recycled_head_not_safe` is a run with such a swap.

  Modelling choices.
  * An object is its address, `NULL` is `0`.  `prev` is not read by other threads and is left out.
  * A thread owns an object from the swap of `New` on until the swap of `Delete`.
  * `new obj_type()` returns an address that was not returned before: the pool keeps all objects.
-/
import MysqlProxy.Lib.Chain
import MysqlProxy.Lib.Run
import Mathlib.Data.List.Basic

namespace MysqlProxy

/-- What a thread does next. -/
inductive PoolPc where
  | idle
  /-- `New` reads `obj_freelist` -/
  | newRead
  /-- `New` reads the `next` of the head -/
  | newNext (o : Nat)
  /-- `New` swaps the head `o` for `n` -/
  | newSwap (o n : Nat)
  /-- `New` found the list empty -/
  | newAlloc
  /-- `New` clears the `next` of its object and returns -/
  | newOut (o : Nat)
  /-- `Delete` reads `obj_freelist` -/
  | deleteRead (obj : Nat)
  /-- `Delete` makes the head the `next` of its object -/
  | deleteLink (obj o : Nat)
  /-- `Delete` swaps the head `o` for its object -/
  | deleteSwap (obj o : Nat)
  deriving DecidableEq, Repr

/-- The free list, the objects, and the threads with what they own. -/
structure PoolState (T : Type) where
  obj_freelist : Nat
  next : Nat → Nat
  allocated : List Nat
  pc : T → PoolPc
  owned : T → List Nat

/-- A call, a step of a call, or what `new` returns to a call. -/
inductive PoolEvent (T : Type) where
  | new (t : T)
  | delete (t : T) (obj : Nat)
  | step (t : T)
  | alloc (t : T) (a : Option Nat)

namespace PoolState

variable {T : Type}

/-- An empty pool. -/
def init : PoolState T where
  obj_freelist := 0
  next := fun _ => 0
  allocated := []
  pc := fun _ => .idle
  owned := fun _ => []

section Steps

variable [DecidableEq T]

def goto (s : PoolState T) (t : T) (pc : PoolPc) : PoolState T :=
  { s with pc := Function.update s.pc t pc }

def setOwned (s : PoolState T) (t : T) (l : List Nat) : PoolState T :=
  { s with owned := Function.update s.owned t l }

/-- The next step of a thread. -/
def stepOf (s : PoolState T) (t : T) : PoolPc → Option (PoolState T)
  | .idle => none
  | .newRead => some (s.goto t (if s.obj_freelist = 0 then .newAlloc else .newNext s.obj_freelist))
  | .newNext o => some (s.goto t (.newSwap o (s.next o)))
  | .newSwap o n =>
    if s.obj_freelist = o then
      some (({ s with obj_freelist := n }.setOwned t (o :: s.owned t)).goto t (.newOut o))
    else some (s.goto t .newRead)
  | .newAlloc => none
  | .newOut o => some ({ s with next := Function.update s.next o 0 }.goto t .idle)
  | .deleteRead obj => some (s.goto t (.deleteLink obj s.obj_freelist))
  | .deleteLink obj o =>
    some ({ s with next := Function.update s.next obj o }.goto t (.deleteSwap obj o))
  | .deleteSwap obj o =>
    if s.obj_freelist = o then
      some (({ s with obj_freelist := obj }.setOwned t ((s.owned t).erase obj)).goto t .idle)
    else some (s.goto t (.deleteRead obj))

/-- One atomic step.  A thread deletes only what it owns. -/
def exec (s : PoolState T) : PoolEvent T → Option (PoolState T)
  | .new t => if s.pc t = .idle then some (s.goto t .newRead) else none
  | .delete t obj =>
    if s.pc t = .idle ∧ obj ∈ s.owned t then some (s.goto t (.deleteRead obj)) else none
  | .step t => s.stepOf t (s.pc t)
  | .alloc t a =>
    if s.pc t = .newAlloc then
      match a with
      | none => some (s.goto t .idle)
      | some a =>
        if a = 0 ∨ a ∈ s.allocated then none
        else some (({ s with allocated := a :: s.allocated }.setOwned t (a :: s.owned t)).goto t
          (.newOut a))
    else none

/-- A step of any thread that meets `allowed`. -/
def Step (allowed : PoolState T → PoolEvent T → Prop) (s s' : PoolState T) : Prop :=
  ∃ e, allowed s e ∧ s.exec e = some s'

end Steps

/-- The object is met when the free list is followed. -/
def OnFreeList (s : PoolState T) (o : Nat) : Prop :=
  ∃ l q, Path s.next s.obj_freelist (l ++ [o]) q

/-- No object is owned twice, and no object that is owned is on the free list. -/
structure Safe (s : PoolState T) : Prop where
  once : ∀ t, (s.owned t).Nodup
  apart : ∀ t u, t ≠ u → ∀ o ∈ s.owned t, o ∉ s.owned u
  notFree : ∀ t, ∀ o ∈ s.owned t, ¬ s.OnFreeList o

/-- A swap of `New` that succeeds finds the head's `next` as it was read. -/
def SwapsNext (s : PoolState T) : PoolPc → Prop
  | .newSwap o n => s.obj_freelist = o → s.next o = n
  | _ => True

def SameNext (s : PoolState T) : PoolEvent T → Prop
  | .step t => s.SwapsNext (s.pc t)
  | _ => True

/-! ## The invariant -/

/-- What holds of a thread that owns the objects `own`. -/
def PcOk (next : Nat → Nat) (own : List Nat) : PoolPc → Prop
  | .newNext o => o ≠ 0
  | .newSwap o _ => o ≠ 0
  | .newOut o => o ∈ own
  | .deleteRead obj => obj ∈ own
  | .deleteLink obj _ => obj ∈ own
  | .deleteSwap obj o => obj ∈ own ∧ next obj = o
  | _ => True

/-- The free list is a chain of objects that nobody owns. -/
def FreeChain (s : PoolState T) : Prop :=
  ∃ l, Chain s.next s.obj_freelist l ∧ (∀ o ∈ l, o ∈ s.allocated) ∧ ∀ t, ∀ o ∈ s.owned t, o ∉ l

structure Inv (s : PoolState T) : Prop where
  free : s.FreeChain
  once : ∀ t, (s.owned t).Nodup
  apart : ∀ t u, t ≠ u → ∀ o ∈ s.owned t, o ∉ s.owned u
  allocated : ∀ t, ∀ o ∈ s.owned t, o ∈ s.allocated ∧ o ≠ 0
  pc : ∀ t, PcOk s.next (s.owned t) (s.pc t)

theorem init_inv : (init : PoolState T).Inv where
  free := ⟨[], rfl, fun _ h => absurd h List.not_mem_nil, fun _ _ h => absurd h List.not_mem_nil⟩
  once := fun _ => List.nodup_nil
  apart := fun _ _ _ _ h => absurd h List.not_mem_nil
  allocated := fun _ _ h => absurd h List.not_mem_nil
  pc := fun _ => trivial

/-- A chain has no second way: what is on the free list is in the chain. -/
theorem Inv.safe {s : PoolState T} (h : s.Inv) : s.Safe := by
  refine ⟨h.once, h.apart, ?_⟩
  rintro t o ho ⟨l', q, hp⟩
  obtain ⟨l, hl, _, hfree⟩ := h.free
  have hsub : ∀ (l l' : List Nat) (p : Nat), Chain s.next p l → ∀ q, Path s.next p (l' ++ [o]) q → o ∈ l := by
    intro l
    induction l with
    | nil =>
      intro l' p hc q hp
      have h0 : p = 0 := hc
      cases l' with
      | nil => exact absurd (hp.1.symm.trans h0) hp.2.1
      | cons x l' => exact absurd (hp.1.symm.trans h0) hp.2.1
    | cons x l ih =>
      intro l' p hc q hp
      cases l' with
      | nil => rw [← hp.1, hc.1]; exact List.mem_cons_self
      | cons y l' =>
        obtain rfl : x = y := hc.1.symm.trans hp.1
        exact List.mem_cons_of_mem x (ih l' _ hc.2.2 q hp.2.2)
  exact hfree t o ho (hsub l l' _ hl q hp)

theorem PcOk.keep {next next' : Nat → Nat} {own : List Nat} {pc : PoolPc} (h : PcOk next own pc)
    (hnext : ∀ o ∈ own, next' o = next o) : PcOk next' own pc := by
  cases pc with
  | deleteSwap obj o => exact ⟨h.1, (hnext obj h.1).trans h.2⟩
  | _ => exact h

/-- **A step of the thread `t` leaves the other threads alone**: they keep what they own, and
    nobody touches the links of their objects. -/
theorem Inv.of_thread {s s' : PoolState T} (h : s.Inv) (t : T)
    (hothers : ∀ u, u ≠ t → s'.pc u = s.pc u ∧ s'.owned u = s.owned u)
    (hnext : ∀ u, u ≠ t → ∀ o ∈ s.owned u, s'.next o = s.next o)
    (halloc : ∀ o ∈ s.allocated, o ∈ s'.allocated) (hfree : s'.FreeChain)
    (honce : (s'.owned t).Nodup) (hapart : ∀ u, u ≠ t → ∀ o ∈ s'.owned t, o ∉ s.owned u)
    (hown : ∀ o ∈ s'.owned t, o ∈ s'.allocated ∧ o ≠ 0)
    (hpc : PcOk s'.next (s'.owned t) (s'.pc t)) : s'.Inv where
  free := hfree
  once := by
    intro u
    by_cases hu : u = t
    · rw [hu]; exact honce
    · rw [(hothers u hu).2]; exact h.once u
  apart := by
    intro u v huv o ho
    by_cases hu : u = t
    · subst hu
      rw [(hothers v (Ne.symm huv)).2]
      exact hapart v (Ne.symm huv) o ho
    · rw [(hothers u hu).2] at ho
      by_cases hv : v = t
      · subst hv
        exact fun ho' => hapart u hu o ho' ho
      · rw [(hothers v hv).2]
        exact h.apart u v huv o ho
  allocated := by
    intro u o ho
    by_cases hu : u = t
    · rw [hu] at ho; exact hown o ho
    · rw [(hothers u hu).2] at ho
      exact ⟨halloc o (h.allocated u o ho).1, (h.allocated u o ho).2⟩
  pc := by
    intro u
    by_cases hu : u = t
    · rw [hu]; exact hpc
    · rw [(hothers u hu).1, (hothers u hu).2]
      exact (h.pc u).keep (hnext u hu)

section Steps

variable [DecidableEq T] {s s' : PoolState T} {t : T}

@[simp] theorem goto_self (s : PoolState T) (t : T) (pc : PoolPc) : (s.goto t pc).pc t = pc :=
  Function.update_self ..

@[simp] theorem setOwned_self (s : PoolState T) (t : T) (l : List Nat) :
    (s.setOwned t l).owned t = l := Function.update_self ..

theorem goto_other {u : T} (h : u ≠ t) (s : PoolState T) (pc : PoolPc) :
    (s.goto t pc).pc u = s.pc u := Function.update_of_ne h ..

theorem setOwned_other {u : T} (h : u ≠ t) (s : PoolState T) (l : List Nat) :
    (s.setOwned t l).owned u = s.owned u := Function.update_of_ne h ..

/-- A step that only moves the thread. -/
theorem Inv.goto (h : s.Inv) {pc : PoolPc} (hpc : PcOk s.next (s.owned t) pc) : (s.goto t pc).Inv := by
  refine h.of_thread t (fun u hu => ⟨goto_other hu s pc, rfl⟩) (fun _ _ _ _ => rfl) (fun _ ho => ho)
    h.free (h.once t) (fun u hu => h.apart t u (Ne.symm hu)) (h.allocated t) ?_
  rw [goto_self]
  exact hpc

/-- A step that writes the link of an object the thread owns. -/
theorem Inv.link (h : s.Inv) {obj o : Nat} (hobj : obj ∈ s.owned t) {pc : PoolPc}
    (hpc : PcOk (Function.update s.next obj o) (s.owned t) pc) :
    ({ s with next := Function.update s.next obj o }.goto t pc).Inv := by
  have hkeep : ∀ x, x ≠ obj → Function.update s.next obj o x = s.next x :=
    fun x hx => Function.update_of_ne hx ..
  refine h.of_thread t (fun u hu => ⟨goto_other hu _ pc, rfl⟩) ?_ (fun _ ho => ho) ?_ (h.once t)
    (fun u hu => h.apart t u (Ne.symm hu)) (h.allocated t) ?_
  · intro u hu x hx
    apply hkeep
    rintro rfl
    exact h.apart t u (Ne.symm hu) x hobj hx
  · obtain ⟨l, hl, hal, hfree⟩ := h.free
    refine ⟨l, hl.frame fun x hx => hkeep x ?_, hal, hfree⟩
    rintro rfl
    exact hfree t x hobj hx
  · rw [goto_self]
    exact hpc

/-- A thread gets an object that nobody owns and that is not in the chain of the new head. -/
theorem Inv.acquire (h : s.Inv) {x head : Nat} {allocated l : List Nat} (hx0 : x ≠ 0)
    (hnew : ∀ u, x ∉ s.owned u) (hx : x ∈ allocated) (hal : ∀ o ∈ s.allocated, o ∈ allocated)
    (hl : Chain s.next head l) (hlal : ∀ o ∈ l, o ∈ allocated)
    (hlfree : ∀ u, ∀ o ∈ s.owned u, o ∉ l) (hxl : x ∉ l) :
    (({ s with obj_freelist := head, allocated := allocated }.setOwned t (x :: s.owned t)).goto t
      (.newOut x)).Inv := by
  generalize hs' : ({ s with obj_freelist := head, allocated := allocated }.setOwned t
    (x :: s.owned t)).goto t (.newOut x) = s'
  have hmine : s'.owned t = x :: s.owned t := by rw [← hs']; exact setOwned_self _ t _
  have hothers : ∀ u, u ≠ t → s'.pc u = s.pc u ∧ s'.owned u = s.owned u := by
    intro u hu
    rw [← hs']
    exact ⟨goto_other hu _ _, setOwned_other hu _ _⟩
  have hmem : ∀ u, ∀ o ∈ s'.owned u, o = x ∨ o ∈ s.owned u := by
    intro u o ho
    by_cases hu : u = t
    · subst hu
      rw [hmine] at ho
      exact List.mem_cons.mp ho
    · rw [(hothers u hu).2] at ho
      exact .inr ho
  refine h.of_thread t hothers (fun _ _ _ _ => by rw [← hs']; rfl) (by rw [← hs']; exact hal) ?_ ?_ ?_ ?_ ?_
  · refine ⟨l, by rw [← hs']; exact hl, by rw [← hs']; exact hlal, ?_⟩
    intro u o ho
    rcases hmem u o ho with rfl | ho
    · exact hxl
    · exact hlfree u o ho
  · rw [hmine]
    exact List.nodup_cons.mpr ⟨hnew t, h.once t⟩
  · intro u hu o ho
    rcases hmem t o ho with rfl | ho
    · exact hnew u
    · exact h.apart t u (Ne.symm hu) o ho
  · intro o ho
    have hall : s'.allocated = allocated := by rw [← hs']; rfl
    rw [hall]
    rcases hmem t o ho with rfl | ho
    · exact ⟨hx, hx0⟩
    · exact ⟨hal o (h.allocated t o ho).1, (h.allocated t o ho).2⟩
  · have hpc : s'.pc t = .newOut x := by rw [← hs']; exact goto_self _ t _
    rw [hpc, hmine]
    exact List.mem_cons_self

/-- The swap of `New` pops the head. -/
theorem Inv.pop (h : s.Inv) {o n : Nat} (ho : o ≠ 0) (hhead : s.obj_freelist = o)
    (hsame : s.next o = n) :
    (({ s with obj_freelist := n }.setOwned t (o :: s.owned t)).goto t (.newOut o)).Inv := by
  obtain ⟨l, hl, hal, hfree⟩ := h.free
  cases l with
  | nil => exact absurd (hhead.symm.trans hl) ho
  | cons x l =>
    obtain rfl : x = o := hl.1.symm.trans hhead
    refine h.acquire ho (fun u hx => hfree u x hx List.mem_cons_self) (hal x List.mem_cons_self)
      (fun _ ho => ho) ?_ (fun y hy => hal y (List.mem_cons_of_mem x hy))
      (fun u y hy hl' => hfree u y hy (List.mem_cons_of_mem x hl')) (List.nodup_cons.mp hl.nodup).1
    rw [← hsame]
    exact hl.2.2

/-- The swap of `Delete` pushes the object: it is the new head, and its link is the old one. -/
theorem Inv.push (h : s.Inv) {obj : Nat} (hobj : obj ∈ s.owned t)
    (hlink : s.next obj = s.obj_freelist) :
    (({ s with obj_freelist := obj }.setOwned t ((s.owned t).erase obj)).goto t .idle).Inv := by
  generalize hs' : ({ s with obj_freelist := obj }.setOwned t ((s.owned t).erase obj)).goto t .idle = s'
  have hmine : s'.owned t = (s.owned t).erase obj := by rw [← hs']; exact setOwned_self _ t _
  have hothers : ∀ u, u ≠ t → s'.pc u = s.pc u ∧ s'.owned u = s.owned u := by
    intro u hu
    rw [← hs']
    exact ⟨goto_other hu _ _, setOwned_other hu _ _⟩
  have hmem : ∀ u, ∀ o ∈ s'.owned u, o ∈ s.owned u ∧ o ≠ obj := by
    intro u o ho
    by_cases hu : u = t
    · subst hu
      rw [hmine] at ho
      exact ⟨List.mem_of_mem_erase ho, ((h.once u).mem_erase_iff.mp ho).1⟩
    · rw [(hothers u hu).2] at ho
      refine ⟨ho, ?_⟩
      rintro rfl
      exact h.apart u t hu o ho hobj
  have hpc : s'.pc t = .idle := by rw [← hs']; exact goto_self _ t _
  refine h.of_thread t hothers (fun _ _ _ _ => by rw [← hs']; rfl) (fun o ho => by rw [← hs']; exact ho)
    ?_ ?_ (fun u hu o ho => h.apart t u (Ne.symm hu) o (hmem t o ho).1)
    (fun o ho => by rw [← hs']; exact h.allocated t o (hmem t o ho).1) (by rw [hpc]; trivial)
  · obtain ⟨l, hl, hal, hfree⟩ := h.free
    refine ⟨obj :: l, ?_, ?_, ?_⟩
    · rw [← hs']
      refine ⟨rfl, (h.allocated t obj hobj).2, ?_⟩
      show Chain s.next (s.next obj) l
      rw [hlink]
      exact hl
    · rw [← hs']
      intro o ho
      rcases List.mem_cons.mp ho with rfl | ho
      · exact (h.allocated t o hobj).1
      · exact hal o ho
    · intro u o ho hl'
      rcases List.mem_cons.mp hl' with rfl | hl'
      · exact (hmem u o ho).2 rfl
      · exact hfree u o (hmem u o ho).1 hl'
  · rw [hmine]
    exact (h.once t).erase obj

/-- **One step keeps the invariant**, if no swap of `New` installs a link that is out of date. -/
theorem step_inv (h : s.Inv) (hs : Step SameNext s s') : s'.Inv := by
  obtain ⟨e, hsame, heq⟩ := hs
  cases e with
  | new t =>
    simp only [exec] at heq
    split at heq
    · cases heq
      exact h.goto trivial
    · cases heq
  | delete t obj =>
    simp only [exec] at heq
    split at heq
    · rename_i hcall
      cases heq
      exact h.goto hcall.2
    · cases heq
  | alloc t a =>
    simp only [exec] at heq
    split at heq
    · cases a with
      | none =>
        cases heq
        exact h.goto trivial
      | some a =>
        simp only at heq
        split at heq
        · cases heq
        · rename_i hnew
          cases heq
          rw [not_or] at hnew
          obtain ⟨l, hl, hal, hfree⟩ := h.free
          exact h.acquire hnew.1 (fun u ha => hnew.2 (h.allocated u a ha).1) List.mem_cons_self
            (fun o ho => List.mem_cons_of_mem a ho) hl (fun o ho => List.mem_cons_of_mem a (hal o ho))
            hfree (fun ha => hnew.2 (hal a ha))
    · cases heq
  | step t =>
    have hpc := h.pc t
    have hsame : s.SwapsNext (s.pc t) := hsame
    simp only [exec] at heq
    generalize s.pc t = pc at hpc hsame heq
    cases pc with
    | idle => cases heq
    | newAlloc => cases heq
    | newRead =>
      cases heq
      apply h.goto
      split
      · trivial
      · rename_i hne
        exact hne
    | newNext o =>
      cases heq
      exact h.goto hpc
    | newSwap o n =>
      simp only [stepOf] at heq
      split at heq
      · rename_i hhead
        cases heq
        exact h.pop hpc hhead (hsame hhead)
      · cases heq
        exact h.goto trivial
    | newOut o =>
      cases heq
      exact h.link hpc trivial
    | deleteRead obj =>
      cases heq
      exact h.goto hpc
    | deleteLink obj o =>
      cases heq
      exact h.link hpc ⟨hpc, Function.update_self ..⟩
    | deleteSwap obj o =>
      simp only [stepOf] at heq
      split at heq
      · rename_i hhead
        cases heq
        exact h.push hpc.1 (hpc.2.trans hhead.symm)
      · cases heq
        exact h.goto hpc.1

/-- **The pool is safe** in every state of every run in which each swap of `New` that succeeds finds
    the head's `next` as it was read. -/
theorem run_safe (hrun : Relation.ReflTransGen (Step SameNext) init s) : s.Safe :=
  (run_invariant hrun init_inv step_inv).safe

/-- Two objects are made and deleted, so that the free list is `1, 2`. -/
def fillEvents (t : T) : List (PoolEvent T) :=
  [.new t, .step t, .alloc t (some 1), .step t, .new t, .step t, .alloc t (some 2), .step t,
    .delete t 2, .step t, .step t, .step t, .delete t 1, .step t, .step t, .step t]

/-- `New` from a list that is not empty. -/
def popEvents (t : T) : List (PoolEvent T) := [.new t, .step t, .step t, .step t, .step t]

instance (s : PoolState T) : (pc : PoolPc) → Decidable (s.SwapsNext pc)
  | .newSwap o n => inferInstanceAs (Decidable (s.obj_freelist = o → s.next o = n))
  | .idle | .newRead | .newNext _ | .newAlloc | .newOut _ | .deleteRead _ | .deleteLink _ _
  | .deleteSwap _ _ => isTrue trivial

instance (s : PoolState T) : (e : PoolEvent T) → Decidable (s.SameNext e)
  | .step t => inferInstanceAs (Decidable (s.SwapsNext (s.pc t)))
  | .new _ | .delete _ _ | .alloc _ _ => isTrue trivial

end Steps

/-- Two threads take an object each. -/
theorem run_safe_two_threads : ∃ s : PoolState Bool, s.owned true = [1] ∧ s.owned false = [2] ∧
    s.Safe := by
  obtain ⟨s, hs⟩ : ∃ s, execs exec SameNext (fillEvents true ++ popEvents true ++ popEvents false)
      (init : PoolState Bool) = some s := ⟨_, rfl⟩
  refine ⟨s, ?_, ?_, run_safe (execs_run hs)⟩
  all_goals
    cases hs
    rfl

/-- **The defect.**  A thread reads the head `1` and its `next`, which is `2`.  The other thread pops
    both and pushes `1` back.  The swap succeeds, and `2` is the head while the other thread owns it;
    the next `New` hands it out a second time. -/
theorem recycled_head_not_safe : ∃ s s' : PoolState Bool,
    Relation.ReflTransGen (Step fun _ _ => True) init s ∧ s.owned true = [2] ∧ s.obj_freelist = 2 ∧
      ¬ s.Safe ∧ Relation.ReflTransGen (Step fun _ _ => True) s s' ∧ 2 ∈ s'.owned true ∧
      2 ∈ s'.owned false := by
  obtain ⟨s, hs⟩ : ∃ s, execs exec (fun _ _ => True) (fillEvents true ++
      [.new false, .step false, .step false] ++ popEvents true ++ popEvents true ++
      [.delete true 1, .step true, .step true, .step true] ++ [.step false, .step false])
      (init : PoolState Bool) = some s := ⟨_, rfl⟩
  obtain ⟨s', hs'⟩ : ∃ s', execs exec (fun _ _ => True) (popEvents false) s = some s' := by
    cases hs
    exact ⟨_, rfl⟩
  have howned : s.owned true = [2] ∧ s.obj_freelist = 2 := by
    cases hs
    exact ⟨rfl, rfl⟩
  refine ⟨s, s', execs_run hs, howned.1, howned.2, ?_, execs_run hs', ?_, ?_⟩
  · intro hsafe
    refine hsafe.notFree true 2 (by rw [howned.1]; exact List.mem_cons_self) ⟨[], s.next 2, ?_⟩
    exact ⟨howned.2, by decide, rfl⟩
  all_goals
    cases hs
    cases hs'
    decide

end PoolState

end MysqlProxy
