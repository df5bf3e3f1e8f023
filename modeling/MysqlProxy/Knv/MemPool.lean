/-
  The memory pools (`knv/mem_pool.cc`).

  Nine pools hold buffers of nine sizes.  A pool keeps `UcMem` objects on a free list, LAST IN FIRST
  OUT; an object has a buffer or has none.  `sz_total` bytes are handed out, `sz_free` lie on the
  free list, and `sz_max` is the quota of the pool.  A pool that is out of quota gets some from the
  others, which give up what they do not use and release what is free (`Shrink`).

  * `Capped`: all that was obtained from `malloc`, and all quotas, are within the maximum.
  * `Shrink` puts the object whose buffer it released back ON TOP of those that still have one.  The
    next `Alloc` takes it, and `malloc`s a new buffer without a look at `sz_free`.  The pool then
    has more than its quota, and `Shrink` gives away quota that it does not have
    (`shrink_makes_quota`).
  * `run_capped`: the maximum is kept in every run in which `Alloc` never meets such a pool.

  Modelling choices.
  * One thread, so a compare-and-swap succeeds.
  * `used` are the objects that were handed out; only they are freed.
  * Whether there is memory is an argument of the call (`Outcome`).  One value of `newMem` is
    enough: a call finds a free list empty once at most.
-/
import MysqlProxy.Lib.Machine
import MysqlProxy.Lib.Run
import Mathlib.Algebra.BigOperators.Fin
import Mathlib.Algebra.BigOperators.Group.Finset.Piecewise
import Mathlib.Algebra.Order.BigOperators.Group.Finset

namespace MysqlProxy

/-! ## Counters -/

/-- `x + y` on unsigned 64-bit words. -/
def add64 (x y : Nat) : Nat := (x + y) % 2 ^ 64

/-- `__sync_sub_and_fetch`, and back if the result is negative as a `long`. -/
def subAndFetch (x d : Nat) : Nat :=
  let v := sub64 x d
  if 2 ^ 63 ≤ v then add64 v d else v

theorem add64_of_lt {x y : Nat} (h : x + y < 2 ^ 64) : add64 x y = x + y := Nat.mod_eq_of_lt h

theorem subAndFetch_of_le {x d : Nat} (h : d ≤ x) (hx : x < 2 ^ 63) : subAndFetch x d = x - d := by
  rw [subAndFetch, sub64_of_le h]
  exact if_neg (by omega)

/-! ## One pool -/

/-- An object with its buffer. -/
structure UcMem where
  mem : Option Nat
  deriving DecidableEq

/-- What happens to be there during a call. -/
structure Outcome where
  /-- `new UcMemPool` -/
  newPool : Fin 9 → Bool
  /-- `new UcMem` -/
  newMem : Bool
  malloc : Option Nat

structure UcMemPool where
  sz_each : Nat
  sz_total : Nat
  sz_free : Nat
  sz_max : Nat
  freelist : List UcMem
  used : List UcMem

/-- What `Alloc` returns, and `exceed_limit`. -/
structure Allocated where
  m : Option UcMem
  exceed_limit : Bool

namespace UcMemPool

/-- `pool.New()`. -/
def new (p : UcMemPool) (o : Outcome) : Option (UcMem × UcMemPool) :=
  match p.freelist with
  | m :: rest => some (m, { p with freelist := rest })
  | [] => if o.newMem then some (⟨none⟩, p) else none

/-- `pool.Delete(m)`. -/
def delete (p : UcMemPool) (m : UcMem) : UcMemPool := { p with freelist := m :: p.freelist }

/-- `m` is handed out. -/
def handOut (p : UcMemPool) (m : UcMem) : UcMemPool :=
  { p with sz_total := add64 p.sz_total p.sz_each, used := m :: p.used }

/-- `UcMemPool::Alloc`. -/
def alloc (p : UcMemPool) (o : Outcome) : Allocated × UcMemPool :=
  match p.new o with
  | none => (⟨none, false⟩, p)
  | some (m, p) =>
    match m.mem with
    | none =>
      if p.sz_max < add64 p.sz_total p.sz_each then (⟨none, true⟩, p.delete m)
      else
        match o.malloc with
        | none => (⟨none, false⟩, p.delete m)
        | some a => (⟨some ⟨some a⟩, false⟩, p.handOut ⟨some a⟩)
    | some _ =>
      let p := { p with sz_free := subAndFetch p.sz_free p.sz_each }
      (⟨some m, false⟩, p.handOut m)

/-- `UcMemPool::Free`. -/
def free (p : UcMemPool) (m : UcMem) : UcMemPool :=
  let p := { p.delete m with sz_free := add64 p.sz_free p.sz_each }
  { p with sz_total := subAndFetch p.sz_total p.sz_each, used := p.used.erase m }

/-- `max_free` of `Shrink`. -/
def max_free (p : UcMemPool) : Nat :=
  if p.sz_total < p.sz_max / 4 then p.sz_total else p.sz_max / 4

/-- The second loop of `Shrink`: buffers on the free list are released. -/
def releaseLoop (o : Outcome) : Nat → Nat → UcMemPool → Nat × UcMemPool
  | 0, shk, p => (shk, p)
  | n + 1, shk, p =>
    if p.max_free < p.sz_free then
      match p.new o with
      | none => (shk, p)
      | some (m, p) =>
        match m.mem with
        | none => (shk, p.delete m)
        | some _ =>
          let p := p.delete ⟨none⟩
          releaseLoop o n (add64 shk p.sz_each)
            { p with sz_free := subAndFetch p.sz_free p.sz_each }
    else (shk, p)

/-- `UcMemPool::Shrink`: half of the quota that is not used, or else what is free. -/
def shrink (p : UcMemPool) (o : Outcome) : Nat × UcMemPool :=
  let sz_allocated := add64 p.sz_total p.sz_free
  let shk := (sub64 p.sz_max sz_allocated / 2) &&& (2 ^ 64 - p.sz_each)
  if sz_allocated * 2 % 2 ^ 64 < p.sz_max ∧ p.sz_each < shk then
    (shk, { p with sz_max := sub64 p.sz_max shk })
  else
    let (shk, p) := p.releaseLoop o (p.freelist.length + 2) 0
    (shk, { p with sz_max := subAndFetch p.sz_max shk })

/-! ### What a call does to a pool -/

/-- The counters are right, and the pool keeps to its quota. -/
structure Ok (p : UcMemPool) : Prop where
  pos : 0 < p.sz_each
  small : p.sz_each < 2 ^ 32
  total : p.sz_total = p.sz_each * p.used.length
  free : p.sz_free = p.sz_each * p.freelist.countP fun m => m.mem.isSome
  usedMem : ∀ m ∈ p.used, m.mem.isSome
  within : p.sz_total + p.sz_free ≤ p.sz_max

/-- The next object has a buffer, or nothing is free, or there is room for one more buffer. -/
def Ready (p : UcMemPool) : Prop :=
  ∀ m ∈ p.freelist.head?, m.mem = none →
    p.sz_free = 0 ∨ p.sz_total + p.sz_free + p.sz_each ≤ p.sz_max

/-- An object without a buffer is next. -/
def Bare (p : UcMemPool) (rest : List UcMem) : Prop :=
  p.freelist = ⟨none⟩ :: rest ∨ p.freelist = [] ∧ rest = []

section Steps

variable {p : UcMemPool} (o : Outcome)

theorem new_bare {m : UcMem} {q : UcMemPool} (h : p.new o = some (m, q))
    (hm : m.mem = none) : p.Bare q.freelist ∧ q = { p with freelist := q.freelist } := by
  obtain ⟨mem⟩ := m
  subst hm
  rw [new] at h
  split at h
  · cases h
    exact ⟨.inl ‹_›, rfl⟩
  · split at h
    · cases h
      exact ⟨.inr ⟨‹_›, ‹_›⟩, rfl⟩
    · cases h

/-- What `Alloc` does. -/
inductive Alloc (p : UcMemPool) : Allocated × UcMemPool → Prop where
  /-- no object -/
  | failed : Alloc p (⟨none, false⟩, p)
  /-- no quota, or no memory -/
  | kept {rest : List UcMem} {exceed : Bool} (hbare : p.Bare rest) :
      Alloc p (⟨none, exceed⟩, { p with freelist := ⟨none⟩ :: rest })
  /-- a new buffer -/
  | made {rest : List UcMem} {a : Nat} (hbare : p.Bare rest)
      (hquota : add64 p.sz_total p.sz_each ≤ p.sz_max) :
      Alloc p (⟨some ⟨some a⟩, false⟩, { p with freelist := rest }.handOut ⟨some a⟩)
  /-- an old one -/
  | reused {rest : List UcMem} {a : Nat} (hfree : p.freelist = ⟨some a⟩ :: rest) :
      Alloc p (⟨some ⟨some a⟩, false⟩,
        { p with freelist := rest, sz_free := subAndFetch p.sz_free p.sz_each }.handOut ⟨some a⟩)

theorem alloc_cases (p : UcMemPool) : p.Alloc (p.alloc o) := by
  rw [alloc]
  cases hnew : p.new o with
  | none => exact .failed
  | some mq =>
    obtain ⟨⟨mem⟩, q⟩ := mq
    cases mem with
    | none =>
      obtain ⟨hbare, hq⟩ := new_bare o hnew rfl
      generalize q.freelist = rest at hbare hq
      subst hq
      dsimp only
      split
      · exact .kept hbare
      · cases o.malloc with
        | none => exact .kept hbare
        | some a => exact .made hbare (by omega)
    | some a =>
      rw [new] at hnew
      split at hnew
      · cases hnew
        exact .reused ‹_›
      · split at hnew <;> cases hnew

theorem Bare.countP {rest : List UcMem} (h : p.Bare rest) :
    (p.freelist.countP fun m => m.mem.isSome) = rest.countP fun m => m.mem.isSome := by
  rcases h with h | ⟨h, rfl⟩
  · rw [h]
    exact List.countP_cons_of_neg Bool.false_ne_true
  · rw [h]

/-- A pool that is ready and has no buffer to hand out has room for one, or nothing is free. -/
theorem Bare.room {rest : List UcMem} (hbare : p.Bare rest) (h : p.Ok) (hready : p.Ready) :
    p.sz_free = 0 ∨ p.sz_total + p.sz_free + p.sz_each ≤ p.sz_max := by
  rcases hbare with hnone | ⟨hnil, -⟩
  · refine hready ⟨none⟩ ?_ rfl
    rw [hnone]
    rfl
  · left
    rw [h.free, hnil, List.countP_nil, Nat.mul_zero]

/-- A pool that could not serve a call is ready for the next one, also with a larger quota. -/
theorem Bare.ready {rest : List UcMem} (hbare : p.Bare rest) (h : p.Ok) (hready : p.Ready)
    {sz_max : Nat}
    (hle : p.sz_max ≤ sz_max) :
    Ready { p with freelist := ⟨none⟩ :: rest, sz_max := sz_max } := by
  intro m _ _
  rcases hbare.room h hready with hfree | hroom
  · exact .inl hfree
  · exact .inr (Nat.le_trans hroom hle)

/-- **`Alloc` keeps the pool within its quota.** -/
theorem Alloc.ok {r : Allocated × UcMemPool} (hr : p.Alloc r) (h : p.Ok) (hmax : p.sz_max < 2 ^ 63)
    (hready : p.Ready) : r.2.Ok ∧ r.2.sz_each = p.sz_each ∧ r.2.sz_max = p.sz_max := by
  have hpos := h.pos
  have hsmall := h.small
  have hwithin := h.within
  cases hr with
  | failed => exact ⟨h, rfl, rfl⟩
  | @kept rest exceed hbare =>
    refine ⟨⟨hpos, hsmall, h.total, ?_, h.usedMem, hwithin⟩, rfl, rfl⟩
    refine h.free.trans ?_
    rw [hbare.countP]
    rfl
  | @made rest a hbare hquota =>
    have hsum : add64 p.sz_total p.sz_each = p.sz_total + p.sz_each := add64_of_lt (by omega)
    rw [hsum] at hquota
    refine ⟨⟨hpos, hsmall, ?_, ?_, ?_, ?_⟩, rfl, rfl⟩
    · show add64 p.sz_total p.sz_each = p.sz_each * (p.used.length + 1)
      rw [hsum, h.total, Nat.mul_succ]
    · exact h.free.trans (by rw [hbare.countP]; rfl)
    · intro m hm
      rcases List.mem_cons.mp hm with rfl | hm
      · rfl
      · exact h.usedMem m hm
    · show add64 p.sz_total p.sz_each + p.sz_free ≤ p.sz_max
      rw [hsum]
      rcases hbare.room h hready with hfree | hroom
      · omega
      · omega
  | @reused rest a hfree =>
    have hcount : p.sz_free = p.sz_each * (rest.countP fun m => m.mem.isSome) + p.sz_each := by
      rw [h.free, hfree, List.countP_cons_of_pos rfl, Nat.mul_succ]
    have hsum : add64 p.sz_total p.sz_each = p.sz_total + p.sz_each := add64_of_lt (by omega)
    have hsub : subAndFetch p.sz_free p.sz_each = p.sz_free - p.sz_each :=
      subAndFetch_of_le (by omega) (by omega)
    refine ⟨⟨hpos, hsmall, ?_, ?_, ?_, ?_⟩, rfl, rfl⟩
    · show add64 p.sz_total p.sz_each = p.sz_each * (p.used.length + 1)
      rw [hsum, h.total, Nat.mul_succ]
    · show subAndFetch p.sz_free p.sz_each = p.sz_each * (rest.countP fun m => m.mem.isSome)
      rw [hsub, hcount, Nat.add_sub_cancel]
    · intro m hm
      rcases List.mem_cons.mp hm with rfl | hm
      · rfl
      · exact h.usedMem m hm
    · show add64 p.sz_total p.sz_each + subAndFetch p.sz_free p.sz_each ≤ p.sz_max
      rw [hsum, hsub]
      omega

/-- **`Free` moves a buffer to the free list.** -/
theorem Ok.freed (h : p.Ok) (hmax : p.sz_max < 2 ^ 63) {m : UcMem} (hm : m ∈ p.used) :
    (p.free m).Ok := by
  have hwithin := h.within
  have hused : p.used.length = (p.used.erase m).length + 1 := by
    have hlen := List.length_pos_of_mem hm
    rw [List.length_erase_of_mem hm]
    omega
  have htotal : p.sz_total = p.sz_each * (p.used.erase m).length + p.sz_each := by
    rw [h.total, hused, Nat.mul_succ]
  have hsum : add64 p.sz_free p.sz_each = p.sz_free + p.sz_each := by
    have := h.small
    exact add64_of_lt (by omega)
  have hsub : subAndFetch p.sz_total p.sz_each = p.sz_total - p.sz_each :=
    subAndFetch_of_le (by omega) (by omega)
  refine ⟨h.pos, h.small, ?_, ?_, ?_, ?_⟩
  · show subAndFetch p.sz_total p.sz_each = p.sz_each * (p.used.erase m).length
    rw [hsub, htotal, Nat.add_sub_cancel]
  · show add64 p.sz_free p.sz_each = p.sz_each * (m :: p.freelist).countP fun m => m.mem.isSome
    have hcount : ((m :: p.freelist).countP fun m => m.mem.isSome) =
        (p.freelist.countP fun m => m.mem.isSome) + 1 := List.countP_cons_of_pos (h.usedMem m hm)
    rw [hsum, h.free, hcount, Nat.mul_succ]
  · intro m' hm'
    exact h.usedMem m' (List.mem_of_mem_erase hm')
  · show subAndFetch p.sz_total p.sz_each + add64 p.sz_free p.sz_each ≤ p.sz_max
    rw [hsub, hsum]
    omega

/-- An object without a buffer ends the loop. -/
theorem releaseLoop_none {rest : List UcMem} (hnone : p.freelist = ⟨none⟩ :: rest) (n shk : Nat) :
    p.releaseLoop o n shk = (shk, p) := by
  cases n with
  | zero => rfl
  | succ n =>
    have hnew : p.new o = some (⟨none⟩, { p with freelist := rest }) := by
      rw [new, hnone]
    have hback : delete { p with freelist := rest } ⟨none⟩ = p := by
      obtain ⟨_, _, _, _, freelist, _⟩ := p
      cases (hnone : freelist = ⟨none⟩ :: rest)
      rfl
    rw [releaseLoop, hnew]
    split
    · exact congrArg (Prod.mk shk) hback
    · rfl

/-- What the second loop of `Shrink` does: it releases one buffer at most, since the object without
    it is next. -/
inductive Release (p : UcMemPool) : Nat × UcMemPool → Prop where
  | idle : Release p (0, p)
  | bare {rest : List UcMem} (hbare : p.Bare rest) :
      Release p (0, { p with freelist := ⟨none⟩ :: rest })
  | released {rest : List UcMem} {a : Nat} (hfree : p.freelist = ⟨some a⟩ :: rest) :
      Release p (add64 0 p.sz_each,
        { p with freelist := ⟨none⟩ :: rest, sz_free := subAndFetch p.sz_free p.sz_each })

theorem releaseLoop_cases (p : UcMemPool) (n : Nat) : p.Release (p.releaseLoop o (n + 1) 0) := by
  rw [releaseLoop]
  split
  case isFalse => exact .idle
  case isTrue =>
    cases hnew : p.new o with
    | none => exact .idle
    | some mq =>
      obtain ⟨⟨mem⟩, q⟩ := mq
      cases mem with
      | none =>
        obtain ⟨hbare, hq⟩ := new_bare o hnew rfl
        generalize q.freelist = rest at hbare hq
        subst hq
        exact .bare hbare
      | some a =>
        rw [new] at hnew
        split at hnew
        · cases hnew
          dsimp only
          rw [releaseLoop_none o rfl]
          exact .released ‹_›
        · split at hnew <;> cases hnew

/-- What `Shrink` does. -/
inductive Shrink (p : UcMemPool) : Nat × UcMemPool → Prop where
  | unused {shk : Nat} (hhalf : add64 p.sz_total p.sz_free * 2 % 2 ^ 64 < p.sz_max)
      (hshk : shk ≤ sub64 p.sz_max (add64 p.sz_total p.sz_free) / 2) :
      Shrink p (shk, { p with sz_max := sub64 p.sz_max shk })
  | release {r : Nat × UcMemPool} (hr : p.Release r) :
      Shrink p (r.1, { r.2 with sz_max := subAndFetch r.2.sz_max r.1 })

theorem shrink_cases (p : UcMemPool) : p.Shrink (p.shrink o) := by
  rw [shrink]
  dsimp only
  split
  case isTrue h => exact .unused h.1 Nat.and_le_left
  case isFalse => exact .release (releaseLoop_cases o p _)

/-- **`Shrink` gives away quota that the pool has.** -/
theorem Shrink.ok {r : Nat × UcMemPool} (hr : p.Shrink r) (h : p.Ok) (hmax : p.sz_max < 2 ^ 63) :
    r.2.Ok ∧ r.2.sz_each = p.sz_each ∧ r.2.sz_max + r.1 = p.sz_max := by
  have hwithin := h.within
  cases hr with
  | @unused shk hhalf hshk =>
    have hsum : add64 p.sz_total p.sz_free = p.sz_total + p.sz_free := add64_of_lt (by omega)
    rw [hsum] at hhalf hshk
    rw [sub64_of_le hwithin] at hshk
    have hsub : sub64 p.sz_max shk = p.sz_max - shk := sub64_of_le (by omega)
    rw [hsub]
    refine ⟨⟨h.pos, h.small, h.total, h.free, h.usedMem, ?_⟩, rfl, ?_⟩
    · show p.sz_total + p.sz_free ≤ p.sz_max - shk
      omega
    · show p.sz_max - shk + shk = p.sz_max
      omega
  | @release r hr =>
    have hzero : subAndFetch p.sz_max 0 = p.sz_max := subAndFetch_of_le (Nat.zero_le _) hmax
    cases hr with
    | idle =>
      dsimp only
      rw [hzero]
      exact ⟨h, rfl, rfl⟩
    | @bare rest hbare =>
      dsimp only
      rw [hzero]
      exact ⟨⟨h.pos, h.small, h.total, h.free.trans (by rw [hbare.countP]; rfl), h.usedMem,
        hwithin⟩,
        rfl, rfl⟩
    | @released rest a hfree =>
      have hcount : p.sz_free = p.sz_each * (rest.countP fun m => m.mem.isSome) + p.sz_each := by
        rw [h.free, hfree, List.countP_cons_of_pos rfl, Nat.mul_succ]
      have heach : add64 0 p.sz_each = p.sz_each := by
        rw [add64_of_lt (by omega), Nat.zero_add]
      have hsub : subAndFetch p.sz_free p.sz_each = p.sz_free - p.sz_each :=
        subAndFetch_of_le (by omega) (by omega)
      have hquota : subAndFetch p.sz_max p.sz_each = p.sz_max - p.sz_each :=
        subAndFetch_of_le (by omega) hmax
      dsimp only
      rw [heach, hsub, hquota]
      refine ⟨⟨h.pos, h.small, h.total, ?_, h.usedMem, ?_⟩, rfl, ?_⟩
      · show p.sz_free - p.sz_each = p.sz_each * (rest.countP fun m => m.mem.isSome)
        rw [hcount, Nat.add_sub_cancel]
      · show p.sz_total + (p.sz_free - p.sz_each) ≤ p.sz_max - p.sz_each
        omega
      · show p.sz_max - p.sz_each + p.sz_each = p.sz_max
        omega

end Steps

end UcMemPool

/-! ## All pools -/

/-- `magics`. -/
def magicSize (i : Nat) : Nat :=
  [64, 256, 1024, 4096, 16384, 65536, 262144, 1048576, 4194304].getD i 0

def biggest_magic : Nat := 4194304

/-- The search in `get_magic`. -/
def magicLoop (i : Nat) : Nat → Nat → Nat → Nat
  | 0, low, _ => low
  | n + 1, low, high =>
    if low < high then
      let mid := (low + high) / 2
      if i = magicSize mid then mid
      else if magicSize mid < i then magicLoop i n (if low < mid then mid else low + 1) high
      else magicLoop i n low (if mid < high then mid else high - 1)
    else low

/-- `get_magic`: the index of a pool, `none` for a size that has no pool. -/
def get_magic (i : Nat) : Option (Fin 9) :=
  if i ≤ biggest_magic then some (Fin.ofNat 9 (magicLoop i 9 0 8)) else none

theorem magicSize_lt : ∀ k < 9, ∀ j < k, magicSize j < magicSize k := by decide

/-- The search finds the smallest size that is large enough. -/
theorem magicLoop_spec {i n low high : Nat} (hhigh : high < 9) (hle : low ≤ high)
    (hn : high - low < n)
    (henough : i ≤ magicSize high) (hlow : ∀ j < low, magicSize j < i) :
    magicLoop i n low high ≤ high ∧ i ≤ magicSize (magicLoop i n low high) ∧
      ∀ j < magicLoop i n low high, magicSize j < i := by
  induction n generalizing low high with
  | zero => omega
  | succ n ih =>
    rw [magicLoop]
    split
    case isFalse hdone =>
      obtain rfl : low = high := by omega
      exact ⟨Nat.le_refl _, henough, hlow⟩
    case isTrue hlt =>
      dsimp only
      have hmid : (low + high) / 2 < high := by omega
      split
      case isTrue heq =>
        rw [heq]
        exact ⟨Nat.le_of_lt hmid, Nat.le_refl _, magicSize_lt _ (by omega)⟩
      case isFalse hne =>
        split
        case isTrue hgt =>
          -- everything up to the middle is too small
          have hsmall : ∀ j ≤ (low + high) / 2, magicSize j < i := by
            intro j hj
            rcases Nat.lt_or_eq_of_le hj with hj | rfl
            · exact Nat.lt_trans (magicSize_lt _ (by omega) j hj) hgt
            · exact hgt
          split
          · exact ih hhigh (by omega) (by omega) henough fun j hj => hsmall j (Nat.le_of_lt hj)
          · exact ih hhigh (by omega) (by omega) henough fun j hj => hsmall j (by omega)
        case isFalse hge =>
          obtain ⟨hle', hrest⟩ := ih (show (low + high) / 2 < 9 by omega) (by omega) (by omega)
            (by omega) hlow
          exact ⟨by omega, hrest⟩

/-- **`get_magic`**: the buffers of this pool are large enough, and those of the pools before are
    not. -/
theorem get_magic_spec {sz : Nat} {magic : Fin 9} (h : get_magic sz = some magic) :
    sz ≤ magicSize magic ∧ ∀ j < magic, magicSize j < sz := by
  rw [get_magic] at h
  split at h
  case isFalse => cases h
  case isTrue hle =>
    cases h
    obtain ⟨hlast, henough, hsmall⟩ :=
      @magicLoop_spec sz 9 0 8 (by decide) (by decide) (by decide) hle
      (fun j hj => (Nat.not_lt_zero j hj).elim)
    have hval : (Fin.ofNat 9 (magicLoop sz 9 0 8)).val = magicLoop sz 9 0 8 :=
      Nat.mod_eq_of_lt (by omega)
    rw [hval]
    refine ⟨henough, fun j hj => hsmall j ?_⟩
    rw [← hval]
    exact hj

structure UcMemManager where
  sz_max : Nat
  pools : Fin 9 → Option UcMemPool

namespace UcMemManager

/-- No pool is there yet. -/
def init (sz_max : Nat) : UcMemManager := ⟨sz_max, fun _ => none⟩

def setPool (g : UcMemManager) (magic : Fin 9) (p : UcMemPool) : UcMemManager :=
  { g with pools := Function.update g.pools magic (some p) }

/-- A new pool. -/
def newPool (g : UcMemManager) (magic : Fin 9) : UcMemPool where
  sz_each := magicSize magic
  sz_total := 0
  sz_free := 0
  sz_max := g.sz_max / 9
  freelist := []
  used := []

/-- `GetPool`. -/
def getPool (g : UcMemManager) (o : Outcome) (magic : Fin 9) : Option UcMemPool :=
  match g.pools magic with
  | some p => some p
  | none => if o.newPool magic then some (g.newPool magic) else none

/-- `Shrink` for one of the pools. -/
def shrinkPool (g : UcMemManager) (o : Outcome) (i : Fin 9) : Nat × UcMemManager :=
  match g.getPool o i with
  | none => (0, g)
  | some p => ((p.shrink o).1, g.setPool i (p.shrink o).2)

/-- `UcMemManager::Shrink`, pool by pool.  The larger ones come first, until there is enough. -/
def shrinkLoop (o : Outcome) (magic : Fin 9) : List (Fin 9) → Nat → UcMemManager →
    Nat × UcMemManager
  | [], shk, g => (shk, g)
  | i :: is, shk, g =>
    let (d, g) := g.shrinkPool o i
    let shk := add64 shk d
    if magic < i ∧ magicSize magic ≤ shk then (shk, g) else shrinkLoop o magic is shk g

/-- The other pools, from the largest to the smallest. -/
def others (magic : Fin 9) : List (Fin 9) := (List.finRange 9).reverse.filter (· ≠ magic)

/-- The second part of `Alloc`: quota of the other pools, and another try. -/
def allocAgain (g : UcMemManager) (o : Outcome) (magic : Fin 9) (p : UcMemPool) :
    Option UcMem × UcMemManager :=
  let (shk, g) := shrinkLoop o magic (others magic) 0 g
  if shk = 0 then (none, g)
  else
    let (r, p) := { p with sz_max := add64 p.sz_max shk }.alloc o
    (r.m, g.setPool magic p)

/-- `UcMemManager::Alloc`.  A size without a pool is allocated directly. -/
def alloc (g : UcMemManager) (sz : Nat) (o : Outcome) : Option UcMem × UcMemManager :=
  match get_magic sz with
  | none => (some ⟨o.malloc⟩, g)
  | some magic =>
    match g.getPool o magic with
    | none => (none, g)
    | some p =>
      let (r, p) := p.alloc o
      let g := g.setPool magic p
      if r.m.isNone ∧ r.exceed_limit then g.allocAgain o magic p else (r.m, g)

/-- `UcMemManager::Free` of an object that was handed out. -/
def free (g : UcMemManager) (magic : Fin 9) (m : UcMem) : Option UcMemManager :=
  match g.pools magic with
  | none => none
  | some p => if m ∈ p.used then some (g.setPool magic (p.free m)) else none

/-- A call. -/
inductive Call where
  | alloc (sz : Nat) (o : Outcome)
  | free (magic : Fin 9) (m : UcMem)

def exec (g : UcMemManager) : Call → Option UcMemManager
  | .alloc sz o => some (g.alloc sz o).2
  | .free magic m => g.free magic m

/-- A call that meets `allowed`. -/
def Step (allowed : UcMemManager → Call → Prop) (g g' : UcMemManager) : Prop :=
  ∃ c, allowed g c ∧ g.exec c = some g'

/-- What a pool has obtained from `malloc`. -/
def held (g : UcMemManager) (i : Fin 9) : Nat :=
  match g.pools i with
  | none => 0
  | some p => p.sz_total + p.sz_free

/-- The quota of a pool, also before it is there. -/
def quota (g : UcMemManager) (i : Fin 9) : Nat :=
  match g.pools i with
  | none => g.sz_max / 9
  | some p => p.sz_max

/-- **The maximum is kept.** -/
def Capped (g : UcMemManager) : Prop := ∑ i, g.held i ≤ g.sz_max ∧ ∑ i, g.quota i ≤ g.sz_max

/-- `Alloc` finds a pool that is ready. -/
def ReadyFor (g : UcMemManager) : Call → Prop
  | .alloc sz _ => ∀ magic ∈ get_magic sz, ∀ p ∈ g.pools magic, p.Ready
  | .free _ _ => True

/-! ### Quotas -/

/-- All pools are right, and `shk` bytes of quota are on their way from one to another. -/
structure Inv (g : UcMemManager) (shk : Nat) : Prop where
  ok : ∀ i p, g.pools i = some p → p.Ok
  quota : ∑ i, g.quota i + shk ≤ g.sz_max
  small : g.sz_max < 2 ^ 63

section Quotas

variable {g : UcMemManager} {shk : Nat} {i : Fin 9} {p : UcMemPool} {o : Outcome}

@[simp]
theorem pools_setPool_self (g : UcMemManager) (i : Fin 9) (p : UcMemPool) :
    (g.setPool i p).pools i = some p := Function.update_self ..

@[simp]
theorem pools_setPool_of_ne (g : UcMemManager) {i j : Fin 9} (h : j ≠ i) (p : UcMemPool) :
    (g.setPool i p).pools j = g.pools j := Function.update_of_ne h ..

theorem quota_setPool (g : UcMemManager) (i : Fin 9) (p : UcMemPool) :
    (g.setPool i p).quota = Function.update g.quota i p.sz_max := by
  funext j
  by_cases hj : j = i
  · subst hj
    rw [Function.update_self, UcMemManager.quota, pools_setPool_self]
  · rw [Function.update_of_ne hj, UcMemManager.quota, pools_setPool_of_ne g hj]
    rfl

/-- One quota changes. -/
theorem sum_quota_setPool (g : UcMemManager) (i : Fin 9) (p : UcMemPool) :
    ∑ j, (g.setPool i p).quota j + g.quota i = ∑ j, g.quota j + p.sz_max := by
  rw [quota_setPool, Finset.sum_update_of_mem (Finset.mem_univ i),
    Finset.sum_eq_add_sum_sdiff_singleton_of_mem (Finset.mem_univ i) g.quota]
  omega

theorem Inv.quota_le (h : g.Inv shk) (i : Fin 9) : g.quota i + shk ≤ g.sz_max := by
  have hle := Finset.single_le_sum (fun j _ => Nat.zero_le (g.quota j)) (Finset.mem_univ i)
  have hsum := h.quota
  omega

theorem Inv.init {max : Nat} (hmax : max < 2 ^ 63) : (init max).Inv 0 := by
  refine ⟨fun i p hp => (nomatch hp), ?_, hmax⟩
  have hsum : ∑ i, (UcMemManager.init max).quota i = 9 * (max / 9) := Fin.sum_const 9 (max / 9)
  rw [hsum]
  exact Nat.mul_div_le max 9

theorem Inv.getPool (h : g.Inv shk) (hget : g.getPool o i = some p) :
    p.Ok ∧ g.quota i = p.sz_max := by
  rw [UcMemManager.getPool] at hget
  rw [UcMemManager.quota]
  split at hget
  case h_1 q hq =>
    cases hget
    rw [hq]
    exact ⟨h.ok i p hq, rfl⟩
  case h_2 hq =>
    rw [hq]
    split at hget
    · cases hget
      have hsize : ∀ i : Fin 9, 0 < magicSize i ∧ magicSize i < 2 ^ 32 := by decide
      exact ⟨⟨(hsize i).1, (hsize i).2, rfl, rfl, fun m hm => (nomatch hm), Nat.zero_le _⟩, rfl⟩
    · cases hget

/-- A pool changes, and what its quota loses is on its way. -/
theorem Inv.setPool (h : g.Inv shk) (hp : p.Ok) {shk' : Nat}
    (hquota : p.sz_max + shk' = g.quota i + shk) : (g.setPool i p).Inv shk' := by
  refine ⟨fun j q hq => ?_, ?_, h.small⟩
  · by_cases hj : j = i
    · subst hj
      rw [pools_setPool_self] at hq
      cases hq
      exact hp
    · rw [pools_setPool_of_ne g hj] at hq
      exact h.ok j q hq
  · have hsum := sum_quota_setPool g i p
    have := h.quota
    show ∑ j, (g.setPool i p).quota j + shk' ≤ g.sz_max
    omega

theorem Inv.shrinkPool (h : g.Inv shk) (o : Outcome) (i : Fin 9) :
    (g.shrinkPool o i).2.Inv (shk + (g.shrinkPool o i).1) ∧ (g.shrinkPool o i).2.sz_max = g.sz_max ∧
      ∀ j ≠ i, (g.shrinkPool o i).2.pools j = g.pools j := by
  rw [UcMemManager.shrinkPool]
  split
  case h_1 => exact ⟨h, rfl, fun j _ => rfl⟩
  case h_2 p hget =>
    obtain ⟨hp, hquota⟩ := h.getPool hget
    have hle := h.quota_le i
    have hsmall := h.small
    obtain ⟨hok, -, hmoved⟩ := (UcMemPool.shrink_cases o p).ok hp (by omega)
    exact ⟨h.setPool hok (by omega), rfl, fun j hj => pools_setPool_of_ne g hj _⟩

/-- **What one pool loses is collected**, and the pool that needs it is left alone. -/
theorem Inv.shrinkLoop (h : g.Inv shk) (o : Outcome) (magic : Fin 9) {is : List (Fin 9)}
    (his : magic ∉ is) :
    (shrinkLoop o magic is shk g).2.Inv (shrinkLoop o magic is shk g).1 ∧
      (shrinkLoop o magic is shk g).2.sz_max = g.sz_max ∧
      (shrinkLoop o magic is shk g).2.pools magic = g.pools magic := by
  induction is generalizing shk g with
  | nil => exact ⟨h, rfl, rfl⟩
  | cons i is ih =>
    have hne : magic ≠ i := fun heq => his (heq ▸ List.mem_cons_self)
    have hrest : magic ∉ is := fun hmem => his (List.mem_cons_of_mem _ hmem)
    obtain ⟨hinv, hmax, hkept⟩ := h.shrinkPool o i
    have hle := hinv.quota_le i
    have hsmall := hinv.small
    have hsum : add64 shk (g.shrinkPool o i).1 = shk + (g.shrinkPool o i).1 :=
      add64_of_lt (by omega)
    rw [UcMemManager.shrinkLoop]
    dsimp only
    rw [hsum]
    split
    · exact ⟨hinv, hmax, hkept magic hne⟩
    · obtain ⟨hinv', hmax', hkept'⟩ := ih hinv hrest
      exact ⟨hinv', hmax'.trans hmax, hkept'.trans (hkept magic hne)⟩

/-- The second try of `Alloc`, with more quota. -/
theorem Inv.allocAgain (h : g.Inv 0) {magic : Fin 9} (hpool : g.pools magic = some p) (hp : p.Ok)
    (hready : ∀ sz_max, p.sz_max ≤ sz_max → UcMemPool.Ready { p with sz_max := sz_max }) :
    (g.allocAgain o magic p).2.Inv 0 ∧ (g.allocAgain o magic p).2.sz_max = g.sz_max := by
  have hmagic : magic ∉ others magic := by
    rw [others, List.mem_filter]
    simp only [ne_eq, not_true_eq_false, decide_false, Bool.false_eq_true, and_false, not_false_iff]
  obtain ⟨hinv, hmax, hkept⟩ := h.shrinkLoop o magic hmagic
  rw [UcMemManager.allocAgain]
  generalize UcMemManager.shrinkLoop o magic (others magic) 0 g = r at hinv hmax hkept
  obtain ⟨shk, g'⟩ := r
  dsimp only at hinv hmax hkept ⊢
  split
  case isTrue hnone =>
    rw [hnone] at hinv
    exact ⟨hinv, hmax⟩
  case isFalse =>
    have hquota : g'.quota magic = p.sz_max := by
      rw [UcMemManager.quota, hkept, hpool]
    have hle := hinv.quota_le magic
    have hsmall := hinv.small
    have hsum : add64 p.sz_max shk = p.sz_max + shk := add64_of_lt (by omega)
    rw [hsum]
    have hq : UcMemPool.Ok { p with sz_max := p.sz_max + shk } :=
      ⟨hp.pos, hp.small, hp.total, hp.free, hp.usedMem, Nat.le_add_right_of_le hp.within⟩
    obtain ⟨hok, -, hsame⟩ := (UcMemPool.alloc_cases o { p with sz_max := p.sz_max + shk }).ok hq
      (show p.sz_max + shk < 2 ^ 63 by omega) (hready _ (Nat.le_add_right _ _))
    have hmax' : (UcMemPool.alloc { p with sz_max := p.sz_max + shk } o).2.sz_max =
      p.sz_max + shk :=
      hsame
    exact ⟨hinv.setPool hok (by omega), hmax⟩

/-- A pool that is new is ready. -/
theorem ready_getPool {magic : Fin 9} (hready : ∀ p ∈ g.pools magic, p.Ready)
    (hget : g.getPool o magic = some p) : p.Ready := by
  rw [UcMemManager.getPool] at hget
  split at hget
  case h_1 q hq =>
    cases hget
    exact hready p hq
  case h_2 =>
    split at hget
    · cases hget
      exact fun m hm => (nomatch hm)
    · cases hget

theorem Inv.alloc (h : g.Inv 0) {sz : Nat} (hready : g.ReadyFor (.alloc sz o)) :
    (g.alloc sz o).2.Inv 0 ∧ (g.alloc sz o).2.sz_max = g.sz_max := by
  rw [UcMemManager.alloc]
  cases hmagic : get_magic sz with
  | none => exact ⟨h, rfl⟩
  | some magic =>
    dsimp only
    split
    case h_1 => exact ⟨h, rfl⟩
    case h_2 p hget =>
      obtain ⟨hp, hquota⟩ := h.getPool hget
      have hle := h.quota_le magic
      have hsmall := h.small
      have hpready := ready_getPool (hready magic hmagic) hget
      have hcases := UcMemPool.alloc_cases o p
      obtain ⟨hok, -, hsame⟩ := hcases.ok hp (by omega) hpready
      generalize p.alloc o = r at hcases hok hsame
      have hset : (g.setPool magic r.2).Inv 0 := h.setPool hok (by omega)
      split
      case isFalse => exact ⟨hset, rfl⟩
      case isTrue hexceed =>
        refine hset.allocAgain (pools_setPool_self ..) hok fun sz_max hmore => ?_
        cases hcases with
        | failed => exact absurd hexceed.2 Bool.false_ne_true
        | kept hbare => exact hbare.ready hp hpready hmore
        | made => exact absurd hexceed.2 Bool.false_ne_true
        | reused => exact absurd hexceed.2 Bool.false_ne_true

theorem Inv.free (h : g.Inv 0) {magic : Fin 9} {m : UcMem} {g' : UcMemManager}
    (hfree : g.free magic m = some g') : g'.Inv 0 ∧ g'.sz_max = g.sz_max := by
  rw [UcMemManager.free] at hfree
  split at hfree
  · cases hfree
  · rename_i p hpool
    split at hfree
    case isFalse => cases hfree
    case isTrue hm =>
      cases hfree
      have hquota : g.quota magic = p.sz_max := by
        rw [UcMemManager.quota, hpool]
      have hle := h.quota_le magic
      have hsmall := h.small
      exact ⟨h.setPool ((h.ok magic p hpool).freed (by omega) hm) (congrArg (· + 0) hquota.symm),
        rfl⟩

theorem Inv.capped (h : g.Inv shk) : g.Capped := by
  have hquota := h.quota
  have hheld : ∑ i, g.held i ≤ ∑ i, g.quota i := by
    apply Finset.sum_le_sum
    intro i _
    rw [held, UcMemManager.quota]
    cases hpool : g.pools i with
    | none => exact Nat.zero_le _
    | some p => exact (h.ok i p hpool).within
  exact ⟨by omega, by omega⟩

end Quotas

/-! ## Runs -/

/-- **The maximum is kept as long as `Alloc` finds pools that are ready.** -/
theorem run_capped {max : Nat} (hmax : max < 2 ^ 63) {g : UcMemManager}
    (hrun : Relation.ReflTransGen (Step ReadyFor) (init max) g) : g.sz_max = max ∧ g.Capped := by
  have hinv : g.Inv 0 ∧ g.sz_max = max := by
    apply run_invariant (I := fun g => g.Inv 0 ∧ g.sz_max = max) hrun ⟨Inv.init hmax, rfl⟩
    rintro s s' h ⟨c, hready, hexec⟩
    cases c with
    | alloc sz o =>
      cases hexec
      obtain ⟨hs, hsame⟩ := h.1.alloc hready
      exact ⟨hs, hsame.trans h.2⟩
    | free magic m =>
      obtain ⟨hs, hsame⟩ := h.1.free hexec
      exact ⟨hs, hsame.trans h.2⟩
  exact ⟨hinv.2, hinv.1.capped⟩

instance (p : UcMemPool) : Decidable p.Ready :=
  inferInstanceAs (Decidable (∀ m ∈ p.freelist.head?, m.mem = none →
    p.sz_free = 0 ∨ p.sz_total + p.sz_free + p.sz_each ≤ p.sz_max))

instance (g : UcMemManager) : ∀ c, Decidable (g.ReadyFor c)
  | .alloc sz _ =>
      inferInstanceAs (Decidable (∀ magic ∈ get_magic sz, ∀ p ∈ g.pools magic, p.Ready))
  | .free _ _ => inferInstanceAs (Decidable True)

/-- There is memory, at the address `a`. -/
def plenty (a : Nat) : Outcome := ⟨fun _ => true, true, some a⟩

/-- Four buffers, all of them freed, and a call that needs quota of their pool. -/
def fourBuffers : List Call :=
  [.alloc 64 (plenty 1), .alloc 64 (plenty 2), .alloc 64 (plenty 3), .alloc 64 (plenty 4),
    .free 0 ⟨some 1⟩, .free 0 ⟨some 2⟩, .free 0 ⟨some 3⟩, .free 0 ⟨some 4⟩, .alloc 1024 (plenty 0)]

theorem run_capped_fourBuffers : ∃ g, execs exec ReadyFor fourBuffers (init 2304) = some g ∧
    g.sz_max = 2304 ∧ g.Capped := by
  have hsome : (execs exec ReadyFor fourBuffers (init 2304)).isSome := by decide +kernel
  obtain ⟨g, hg⟩ := Option.isSome_iff_exists.mp hsome
  exact ⟨g, hg, run_capped (by decide) (execs_run hg)⟩

/-- The pool buys a buffer although it has three, and frees it; three times over, and once more with
    a buffer handed out. -/
def moreBuffers : List Call :=
  [.alloc 64 (plenty 5), .free 0 ⟨some 5⟩, .alloc 1024 (plenty 0),
    .alloc 64 (plenty 6), .free 0 ⟨some 6⟩, .alloc 1024 (plenty 0),
    .alloc 64 (plenty 7), .free 0 ⟨some 7⟩, .alloc 64 (plenty 8), .alloc 1024 (plenty 0),
    .free 0 ⟨some 7⟩, .alloc 1024 (plenty 0)]

/-- **`Shrink` makes quota.**  The pool has none left, and gives 64 bytes of it away. -/
theorem shrink_makes_quota :
    ∃ g, Relation.ReflTransGen (Step fun _ _ => True) (init 2304) g ∧ ¬g.Capped := by
  have hrun : (execs exec (fun _ _ => True) (fourBuffers ++ moreBuffers) (init 2304)).map
      (fun g => (g.sz_max, ∑ i, g.quota i)) = some (2304, 2368) := by
    decide +kernel
  obtain ⟨g, hg, hsum⟩ := Option.map_eq_some_iff.mp hrun
  have hquota : g.sz_max = 2304 ∧ ∑ i, g.quota i = 2368 := Prod.mk.inj hsum
  refine ⟨g, execs_run hg, fun hcapped => ?_⟩
  have hle := hcapped.2
  omega

end UcMemManager

end MysqlProxy
