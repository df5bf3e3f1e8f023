/-
  The accounts of one memory pool (`UcMemPool::Alloc`, `Free` and `Shrink`).

  * `Accounted`: `sz_total` is what the buffers that are handed out take, and `sz_free` what those on
    the free list take.  Every run keeps it (`run_keeps_accounts`), also one that has outgrown its quota:
    then a branch for a counter below zero is never taken (`NoUnderflow`).
  * `Shrink` pops an object, releases its buffer and pushes it back WITHOUT a buffer, so that the
    next turn of the loop meets it and gives up.  At most one buffer is released, and
    `shrink_releases_iff` says when that is enough.

  There is no bound on the number of buffers but the address space: `malloc` does not return a buffer
  when those in use would take `2 ^ 63` bytes (`Call.Fits`).
-/
import MysqlProxy.Knv.MemPool

namespace MysqlProxy

namespace UcMemPool

/-- The objects on the free list that hold memory. -/
def pooled (p : UcMemPool) : Nat := p.freelist.countP fun m => m.mem.isSome

/-- A call. -/
inductive Call where
  | alloc (o : Outcome)
  | free (m : UcMem)
  | shrink (o : Outcome)

/-- What a call makes of the pool; only a buffer that was handed out is freed. -/
def exec (p : UcMemPool) : Call → Option UcMemPool
  | .alloc o => some (p.alloc o).2
  | .free m => if m ∈ p.used then some (p.free m) else none
  | .shrink o => some (p.shrink o).2

/-- A new buffer has room beside those that are there. -/
def Call.Fits (p : UcMemPool) : Call → Prop
  | .alloc o => ∀ _a ∈ o.malloc, p.sz_each * (p.used.length + p.pooled + 1) < 2 ^ 63
  | _ => True

instance (p : UcMemPool) : ∀ c : Call, Decidable (c.Fits p)
  | .alloc o =>
    inferInstanceAs (Decidable (∀ _a ∈ o.malloc, p.sz_each * (p.used.length + p.pooled + 1) < 2 ^ 63))
  | .free _ | .shrink _ => inferInstanceAs (Decidable True)

/-- A new pool. -/
def start (sz_each sz_max : Nat) : UcMemPool := ⟨sz_each, 0, 0, sz_max, [], []⟩

def Step (p p' : UcMemPool) : Prop := ∃ c : Call, c.Fits p ∧ p.exec c = some p'

/-- **The counters are right.** -/
structure Accounted (p : UcMemPool) : Prop where
  total : p.sz_total = p.sz_each * p.used.length
  free : p.sz_free = p.sz_each * p.pooled
  usedMem : ∀ m ∈ p.used, m.mem.isSome
  bound : p.sz_total + p.sz_free < 2 ^ 63

/-- A counter that goes below zero as a `long`. -/
def Underflows (x d : Nat) : Prop := 2 ^ 63 ≤ sub64 x d

/-- No branch for a counter below zero is next: not when the first object on the free list is taken,
    by `Alloc` or by `Shrink`, and not when a buffer is freed. -/
structure NoUnderflow (p : UcMemPool) : Prop where
  take : ∀ a rest, p.freelist = ⟨some a⟩ :: rest → ¬ Underflows p.sz_free p.sz_each
  give : ∀ m ∈ p.used, ¬ Underflows p.sz_total p.sz_each

theorem not_underflows {x d : Nat} (h : d ≤ x) (hx : x < 2 ^ 63) : ¬ Underflows x d := by
  rw [Underflows, sub64_of_le h]
  omega

/-- Accounts that are right do not run below zero. -/
theorem Accounted.noUnderflow {p : UcMemPool} (h : p.Accounted) : p.NoUnderflow := by
  have hbound := h.bound
  refine ⟨fun a rest hfree => ?_, fun m hm => ?_⟩
  · have hcount : p.sz_free = p.sz_each * (rest.countP fun m => m.mem.isSome) + p.sz_each := by
      rw [h.free, pooled, hfree, List.countP_cons_of_pos rfl, Nat.mul_succ]
    exact not_underflows (by omega) (by omega)
  · have hlen : p.used.length = (p.used.length - 1) + 1 := by
      have := List.length_pos_of_mem hm
      omega
    have htotal : p.sz_total = p.sz_each * (p.used.length - 1) + p.sz_each := by
      rw [h.total, hlen, Nat.mul_succ]
      rfl
    exact not_underflows (by omega) (by omega)

/-! ## The calls -/

theorem Bare.pooled {p : UcMemPool} {rest : List UcMem} (h : p.Bare rest) :
    p.pooled = rest.countP fun m => m.mem.isSome := h.countP

theorem accounted_start (sz_each sz_max : Nat) : (start sz_each sz_max).Accounted :=
  ⟨rfl, rfl, fun m hm => (nomatch hm), by show 0 + 0 < 2 ^ 63; decide⟩

/-- A new buffer comes from `malloc`. -/
theorem alloc_malloc {p : UcMemPool} {o : Outcome} {m : UcMem} {rest : List UcMem}
    (hbare : p.Bare rest) (h : (p.alloc o).1.m = some m) : o.malloc ≠ none := by
  intro hnone
  rw [alloc] at h
  cases hnew : p.new o with
  | none =>
    rw [hnew] at h
    cases h
  | some mq =>
    obtain ⟨⟨mem⟩, q⟩ := mq
    rw [hnew] at h
    cases mem with
    | none =>
      simp only [hnone] at h
      split at h
      · cases h
      · cases h
    | some a =>
      rw [new] at hnew
      rcases hbare with hb | ⟨hb, -⟩
      · rw [hb] at hnew
        cases hnew
      · rw [hb] at hnew
        simp only at hnew
        split at hnew
        · cases hnew
        · cases hnew

/-- **`Alloc`.** -/
theorem Accounted.alloc {p : UcMemPool} (h : p.Accounted) {o : Outcome} (hfits : (Call.alloc o).Fits p) :
    (p.alloc o).2.Accounted := by
  have hbound := h.bound
  have hcases := alloc_cases o p
  have hnew := fun m rest hb => @alloc_malloc p o m rest hb
  generalize p.alloc o = r at hcases hnew ⊢
  cases hcases with
  | failed => exact h
  | @kept rest exceed hbare =>
    refine ⟨h.total, ?_, h.usedMem, h.bound⟩
    show p.sz_free = p.sz_each * ((⟨none⟩ : UcMem) :: rest).countP fun m => m.mem.isSome
    rw [h.free, hbare.pooled]
    rfl
  | @made rest a hbare _ =>
    obtain ⟨a', ha'⟩ := Option.ne_none_iff_exists'.mp (hnew _ rest hbare rfl)
    have hroom := hfits a' ha'
    rw [Nat.mul_succ, Nat.mul_add, ← h.total, ← h.free] at hroom
    have hsum : add64 p.sz_total p.sz_each = p.sz_total + p.sz_each := add64_of_lt (by omega)
    refine ⟨?_, ?_, ?_, ?_⟩
    · show add64 p.sz_total p.sz_each = p.sz_each * (p.used.length + 1)
      rw [hsum, h.total, Nat.mul_succ]
    · show p.sz_free = p.sz_each * (rest.countP fun m => m.mem.isSome)
      rw [h.free, hbare.pooled]
    · intro m hm
      rcases List.mem_cons.mp hm with rfl | hm
      · rfl
      · exact h.usedMem m hm
    · show add64 p.sz_total p.sz_each + p.sz_free < 2 ^ 63
      omega
  | @reused rest a hfree =>
    have hcount : p.sz_free = p.sz_each * (rest.countP fun m => m.mem.isSome) + p.sz_each := by
      rw [h.free, pooled, hfree, List.countP_cons_of_pos rfl, Nat.mul_succ]
    have hsum : add64 p.sz_total p.sz_each = p.sz_total + p.sz_each := add64_of_lt (by omega)
    have hsub : subAndFetch p.sz_free p.sz_each = p.sz_free - p.sz_each :=
      subAndFetch_of_le (by omega) (by omega)
    refine ⟨?_, ?_, ?_, ?_⟩
    · show add64 p.sz_total p.sz_each = p.sz_each * (p.used.length + 1)
      rw [hsum, h.total, Nat.mul_succ]
    · show subAndFetch p.sz_free p.sz_each = p.sz_each * (rest.countP fun m => m.mem.isSome)
      rw [hsub, hcount, Nat.add_sub_cancel]
    · intro m hm
      rcases List.mem_cons.mp hm with rfl | hm
      · rfl
      · exact h.usedMem m hm
    · show add64 p.sz_total p.sz_each + subAndFetch p.sz_free p.sz_each < 2 ^ 63
      omega

/-- **`Free`.** -/
theorem Accounted.freed {p : UcMemPool} (h : p.Accounted) {m : UcMem} (hm : m ∈ p.used) :
    (p.free m).Accounted := by
  have hbound := h.bound
  have hused : p.used.length = (p.used.erase m).length + 1 := by
    have hlen := List.length_pos_of_mem hm
    rw [List.length_erase_of_mem hm]
    omega
  have htotal : p.sz_total = p.sz_each * (p.used.erase m).length + p.sz_each := by
    rw [h.total, hused, Nat.mul_succ]
  have hsum : add64 p.sz_free p.sz_each = p.sz_free + p.sz_each := add64_of_lt (by omega)
  have hsub : subAndFetch p.sz_total p.sz_each = p.sz_total - p.sz_each :=
    subAndFetch_of_le (by omega) (by omega)
  refine ⟨?_, ?_, ?_, ?_⟩
  · show subAndFetch p.sz_total p.sz_each = p.sz_each * (p.used.erase m).length
    rw [hsub, htotal, Nat.add_sub_cancel]
  · show add64 p.sz_free p.sz_each = p.sz_each * (m :: p.freelist).countP fun m => m.mem.isSome
    have hcount : ((m :: p.freelist).countP fun m => m.mem.isSome) = p.pooled + 1 :=
      List.countP_cons_of_pos (h.usedMem m hm)
    rw [hsum, h.free, hcount, Nat.mul_succ]
  · intro m' hm'
    exact h.usedMem m' (List.mem_of_mem_erase hm')
  · show subAndFetch p.sz_total p.sz_each + add64 p.sz_free p.sz_each < 2 ^ 63
    omega

/-- The second loop of `Shrink`. -/
theorem Accounted.release {p : UcMemPool} (h : p.Accounted) {r : Nat × UcMemPool} (hr : p.Release r) :
    r.2.Accounted := by
  have hbound := h.bound
  cases hr with
  | idle => exact h
  | @bare rest hbare =>
    refine ⟨h.total, ?_, h.usedMem, h.bound⟩
    show p.sz_free = p.sz_each * ((⟨none⟩ : UcMem) :: rest).countP fun m => m.mem.isSome
    rw [h.free, hbare.pooled]
    rfl
  | @released rest a hfree =>
    have hcount : p.sz_free = p.sz_each * (rest.countP fun m => m.mem.isSome) + p.sz_each := by
      rw [h.free, pooled, hfree, List.countP_cons_of_pos rfl, Nat.mul_succ]
    have hsub : subAndFetch p.sz_free p.sz_each = p.sz_free - p.sz_each :=
      subAndFetch_of_le (by omega) (by omega)
    refine ⟨h.total, ?_, h.usedMem, ?_⟩
    · show subAndFetch p.sz_free p.sz_each =
        p.sz_each * ((⟨none⟩ : UcMem) :: rest).countP fun m => m.mem.isSome
      rw [hsub, hcount, Nat.add_sub_cancel]
      rfl
    · show p.sz_total + subAndFetch p.sz_free p.sz_each < 2 ^ 63
      omega

/-- **`Shrink`.** -/
theorem Accounted.shrink {p : UcMemPool} (h : p.Accounted) (o : Outcome) :
    (p.shrink o).2.Accounted := by
  have hcases := shrink_cases o p
  generalize p.shrink o = r at hcases ⊢
  cases hcases with
  | unused => exact ⟨h.total, h.free, h.usedMem, h.bound⟩
  | release hr =>
    have hrel := h.release hr
    exact ⟨hrel.total, hrel.free, hrel.usedMem, hrel.bound⟩

theorem Step.accounted {p p' : UcMemPool} (hs : Step p p') (h : p.Accounted) : p'.Accounted := by
  obtain ⟨c, hfits, hexec⟩ := hs
  cases c with
  | alloc o =>
    cases hexec
    exact h.alloc hfits
  | free m =>
    rw [exec] at hexec
    split at hexec
    case isTrue hm =>
      cases hexec
      exact h.freed hm
    case isFalse => cases hexec
  | shrink o =>
    cases hexec
    exact h.shrink o

/-- **The accounts of a pool are exact in every state**, and no counter runs below zero. -/
theorem run_keeps_accounts (sz_each sz_max : Nat) {p : UcMemPool}
    (hrun : Relation.ReflTransGen Step (start sz_each sz_max) p) : p.Accounted ∧ p.NoUnderflow := by
  have h := run_invariant hrun (accounted_start sz_each sz_max) fun h hs => Step.accounted hs h
  exact ⟨h, h.noUnderflow⟩

/-- Two buffers; one is freed, and `Shrink` releases it. -/
def twoBuffers : List Call :=
  [.alloc (UcMemManager.plenty 1), .alloc (UcMemManager.plenty 2), .free ⟨some 1⟩,
    .shrink (UcMemManager.plenty 0)]

theorem run_keeps_accounts_twoBuffers :
    ∃ p, execs exec (fun p c => Call.Fits p c) twoBuffers (start 64 128) = some p ∧ p.Accounted ∧
      p.NoUnderflow := by
  have hsome : (execs exec (fun p c => Call.Fits p c) twoBuffers (start 64 128)).isSome := by
    decide +kernel
  obtain ⟨p, hp⟩ := Option.isSome_iff_exists.mp hsome
  exact ⟨p, hp, run_keeps_accounts 64 128 (execs_run hp)⟩

/-! ## `Shrink` -/

/-- The branch for quota that is not allocated applies. -/
def UnusedQuota (p : UcMemPool) : Prop :=
  let sz_allocated := add64 p.sz_total p.sz_free
  let shk := (sub64 p.sz_max sz_allocated / 2) &&& (2 ^ 64 - p.sz_each)
  sz_allocated * 2 % 2 ^ 64 < p.sz_max ∧ p.sz_each < shk

/-- The second loop of `Shrink` takes an object without memory, or finds none. -/
def meetsBare (o : Outcome) : Nat → UcMemPool → Prop
  | 0, _ => False
  | n + 1, p => p.max_free < p.sz_free ∧
    match p.new o with
    | none => True
    | some (m, p) =>
      match m.mem with
      | none => True
      | some _ =>
        let p := p.delete ⟨none⟩
        meetsBare o n { p with sz_free := subAndFetch p.sz_free p.sz_each }

/-- `Shrink` releases the surplus, lowers the quota by what it returns, and does not give up. -/
structure ShrinkRight (p : UcMemPool) (o : Outcome) : Prop where
  surplus : (p.shrink o).2.sz_free ≤ min (p.sz_max / 4) p.sz_total
  lowers : (p.shrink o).2.sz_max + (p.shrink o).1 = p.sz_max
  finds : ¬ meetsBare o (p.freelist.length + 2) p

/-- There is no surplus; or there is one buffer of it, it is next, and the quota allows for it. -/
def OneBufferEnough (p : UcMemPool) : Prop :=
  p.sz_free ≤ p.max_free ∨ ∃ a rest, p.freelist = ⟨some a⟩ :: rest ∧
    p.sz_free ≤ p.max_free + p.sz_each ∧ p.sz_each ≤ p.sz_max ∧ p.sz_max - p.sz_each < 2 ^ 63

theorem max_free_eq (p : UcMemPool) : p.max_free = min (p.sz_max / 4) p.sz_total := by
  rw [max_free]
  split <;> omega

/-- A word, and nothing taken from it. -/
theorem subAndFetch_zero {x : Nat} (hx : x < 2 ^ 64) : subAndFetch x 0 = x := by
  rw [subAndFetch, sub64_of_le (Nat.zero_le x), Nat.sub_zero]
  split
  · exact Nat.mod_eq_of_lt hx
  · rfl

theorem shrink_eq {p : UcMemPool} (h : ¬ p.UnusedQuota) (o : Outcome) :
    p.shrink o = ((p.releaseLoop o (p.freelist.length + 2) 0).1,
      { (p.releaseLoop o (p.freelist.length + 2) 0).2 with
        sz_max := subAndFetch (p.releaseLoop o (p.freelist.length + 2) 0).2.sz_max
          (p.releaseLoop o (p.freelist.length + 2) 0).1 }) := by
  rw [shrink]
  exact if_neg h

/-- **When `Shrink` does what it says.** -/
theorem Accounted.shrinkRight_iff {p : UcMemPool} (h : p.Accounted) (hquota : ¬ p.UnusedQuota)
    (hmax : p.sz_max < 2 ^ 64) (hpos : 0 < p.sz_each) (o : Outcome) :
    p.ShrinkRight o ↔ p.OneBufferEnough := by
  have hbound := h.bound
  by_cases hnone : p.sz_free ≤ p.max_free
  · -- the loop does not start
    have hloop : p.releaseLoop o (p.freelist.length + 2) 0 = (0, p) := by
      rw [releaseLoop, if_neg (by omega)]
    have hshrink := shrink_eq hquota o
    rw [hloop] at hshrink
    refine iff_of_true ⟨?_, ?_, ?_⟩ (.inl hnone)
    · rw [hshrink, ← max_free_eq]
      exact hnone
    · rw [hshrink]
      exact subAndFetch_zero hmax
    · rintro ⟨hlt, -⟩
      omega
  · have hlt : p.max_free < p.sz_free := by omega
    obtain ⟨⟨mem⟩, rest, hlist⟩ : ∃ m rest, p.freelist = m :: rest := by
      refine List.exists_cons_of_ne_nil fun hnil => ?_
      have hzero : p.sz_free = 0 := by rw [h.free, pooled, hnil, List.countP_nil, Nat.mul_zero]
      omega
    have hshrink := shrink_eq hquota o
    cases mem with
    | none =>
      -- the object in front has no memory
      rw [releaseLoop_none o hlist] at hshrink
      refine iff_of_false (fun hr => ?_) ?_
      · have hs := hr.surplus
        rw [hshrink, ← max_free_eq] at hs
        exact hnone hs
      · rintro (hle | ⟨a, rest', hlist', -⟩)
        · exact hnone hle
        · rw [hlist] at hlist'
          cases hlist'
    | some a =>
      have hcount : p.sz_free = p.sz_each * (rest.countP fun m => m.mem.isSome) + p.sz_each := by
        rw [h.free, pooled, hlist, List.countP_cons_of_pos rfl, Nat.mul_succ]
      have hsub : subAndFetch p.sz_free p.sz_each = p.sz_free - p.sz_each :=
        subAndFetch_of_le (by omega) (by omega)
      have heach : add64 0 p.sz_each = p.sz_each := by
        rw [add64_of_lt (by omega), Nat.zero_add]
      have hnew : p.new o = some (⟨some a⟩, { p with freelist := rest }) := by
        rw [new, hlist]
      -- one buffer is released, and its object is in front now
      have hloop : p.releaseLoop o (p.freelist.length + 2) 0 = (p.sz_each,
          { p with freelist := ⟨none⟩ :: rest, sz_free := p.sz_free - p.sz_each }) := by
        rw [releaseLoop, if_pos hlt, hnew]
        simp only
        rw [releaseLoop_none o rfl]
        simp only [delete, hsub, heach]
      have hbare : meetsBare o (p.freelist.length + 2) p ↔
          p.max_free < p.sz_free - p.sz_each := by
        rw [meetsBare, hnew]
        simp only [delete, hsub]
        constructor
        · rintro ⟨-, hagain, -⟩
          exact hagain
        · exact fun hagain => ⟨hlt, hagain, trivial⟩
      rw [hloop] at hshrink
      constructor
      · rintro ⟨hsurplus, hlowers, -⟩
        rw [hshrink, ← max_free_eq] at hsurplus
        rw [hshrink] at hlowers
        replace hsurplus : p.sz_free - p.sz_each ≤ p.max_free := hsurplus
        replace hlowers : subAndFetch p.sz_max p.sz_each + p.sz_each = p.sz_max := hlowers
        refine .inr ⟨a, rest, hlist, by omega, by omega, ?_⟩
        rw [subAndFetch, sub64_of_le (by omega)] at hlowers
        by_contra hbig
        rw [if_pos (by omega), add64, Nat.sub_add_cancel (by omega), Nat.mod_eq_of_lt hmax] at hlowers
        omega
      · rintro (hle | ⟨_, _, -, hle, hfit, hlow⟩)
        · exact absurd hle hnone
        · refine ⟨?_, ?_, ?_⟩
          · rw [hshrink, ← max_free_eq]
            show p.sz_free - p.sz_each ≤ p.max_free
            omega
          · rw [hshrink]
            show subAndFetch p.sz_max p.sz_each + p.sz_each = p.sz_max
            rw [subAndFetch, sub64_of_le hfit, if_neg (by omega)]
            omega
          · rw [hbare]
            omega

theorem sub64_lt {x : Nat} (hx : x < 2 ^ 64) (d : Nat) : sub64 x d < 2 ^ 64 := by
  rw [sub64]
  split
  · omega
  · omega

theorem subAndFetch_lt {x : Nat} (hx : x < 2 ^ 64) (d : Nat) : subAndFetch x d < 2 ^ 64 := by
  have hsub := sub64_lt hx d
  rw [subAndFetch]
  generalize sub64 x d = v at hsub ⊢
  split
  · exact Nat.mod_lt _ (Nat.two_pow_pos 64)
  · exact hsub

/-- The quota is a word, and the size of the buffers does not change. -/
structure Sized (sz_each : Nat) (p : UcMemPool) : Prop where
  each : p.sz_each = sz_each
  quota : p.sz_max < 2 ^ 64

theorem Step.sized {sz_each : Nat} {p p' : UcMemPool} (hs : Step p p') (h : p.Sized sz_each) :
    p'.Sized sz_each := by
  obtain ⟨c, -, hexec⟩ := hs
  cases c with
  | alloc o =>
    cases hexec
    have hcases := alloc_cases o p
    generalize p.alloc o = r at hcases ⊢
    cases hcases with
    | failed | kept | made | reused => exact ⟨h.each, h.quota⟩
  | free m =>
    rw [exec] at hexec
    split at hexec
    · cases hexec
      exact ⟨h.each, h.quota⟩
    · cases hexec
  | shrink o =>
    cases hexec
    have hcases := shrink_cases o p
    generalize p.shrink o = r at hcases ⊢
    cases hcases with
    | @unused shk =>
      refine ⟨h.each, ?_⟩
      have hquota := h.quota
      exact sub64_lt hquota shk
    | release hr =>
      cases hr with
      | idle | bare | released => exact ⟨h.each, subAndFetch_lt h.quota _⟩

/-- **When `Shrink` does what it says**, in every state of a run. -/
theorem shrink_releases_iff {sz_each sz_max : Nat} (hpos : 0 < sz_each) (hmax : sz_max < 2 ^ 64)
    {p : UcMemPool} (hrun : Relation.ReflTransGen Step (start sz_each sz_max) p)
    (hquota : ¬ p.UnusedQuota) (o : Outcome) : p.ShrinkRight o ↔ p.OneBufferEnough := by
  have hsized : p.Sized sz_each := run_invariant hrun ⟨rfl, hmax⟩ fun h hs => Step.sized hs h
  exact (run_keeps_accounts sz_each sz_max hrun).1.shrinkRight_iff hquota hsized.quota
    (by rw [hsized.each]; exact hpos) o

/-- Two buffers, both freed. -/
def twoFreed : List Call :=
  [.alloc (UcMemManager.plenty 1), .alloc (UcMemManager.plenty 2), .free ⟨some 1⟩, .free ⟨some 2⟩]

theorem twoFreed_run : ∃ p, Relation.ReflTransGen Step (start 64 128) p ∧ ¬ p.UnusedQuota ∧
    (p.shrink (UcMemManager.plenty 0)).2.sz_free = 64 ∧ p.sz_total = 0 := by
  have hsome : (execs exec (fun p c => Call.Fits p c) twoFreed (start 64 128)).map (fun p =>
      ((p.sz_each, p.sz_total, p.sz_free, p.sz_max),
        (p.shrink (UcMemManager.plenty 0)).2.sz_free)) = some ((64, 0, 128, 128), 64) := by
    decide +kernel
  obtain ⟨p, hp, hsizes⟩ := Option.map_eq_some_iff.mp hsome
  simp only [Prod.mk.injEq] at hsizes
  obtain ⟨⟨heach, htotal, hfree, hmax⟩, hshrink⟩ := hsizes
  refine ⟨p, execs_run hp, ?_, hshrink, htotal⟩
  rintro ⟨hhalf, -⟩
  rw [htotal, hfree, hmax] at hhalf
  exact absurd hhalf (by decide)

theorem shrink_releases_iff_twoFreed : ∃ p, Relation.ReflTransGen Step (start 64 128) p ∧
    (p.ShrinkRight (UcMemManager.plenty 0) ↔ p.OneBufferEnough) := by
  obtain ⟨p, hrun, hquota, -, -⟩ := twoFreed_run
  exact ⟨p, hrun, shrink_releases_iff (by decide) (by decide) hrun hquota _⟩

/-- **One of two buffers is left**, and the loop has given up. -/
theorem shrink_leaves_surplus : ∃ p, Relation.ReflTransGen Step (start 64 128) p ∧
    ¬ p.UnusedQuota ∧ ¬ p.ShrinkRight (UcMemManager.plenty 0) := by
  obtain ⟨p, hrun, hquota, hfree, htotal⟩ := twoFreed_run
  refine ⟨p, hrun, hquota, fun hright => ?_⟩
  have hle := hright.surplus
  rw [hfree, htotal] at hle
  omega

end UcMemPool

end MysqlProxy
