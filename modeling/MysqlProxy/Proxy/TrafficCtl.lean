/-
  The traffic limiter (`TrafficCtl` in `mysql_proxy_server.cpp`, `comm/atomic_counter_array.c`).

  Six counters and six time stamps stand in a ring.  What is sent is added to the counter at `cIdx`;
  after a time slice `TrafficCtl` clears the counter four places on and makes the one behind it,
  which was cleared one turn ago, the current one.  After a long silence it starts anew.  The sum of
  FIVE counters is compared with the time since the oldest of their stamps.

  * `trafficCtl` is the function, `Accounted` what is asked of the counters: the five add up to what
    was sent since the stamp four places on was taken, and the sixth is zero.
  * `run_accounted`: from the first call on that resets, this holds after every call, whatever the
    clock does.

  Modelling choices.
  * One process: the additions are atomic.
  * The index is a `Fin 6`: it starts at 0, and whatever is stored in it comes out of a `% 6`.
  * `sent` counts all bytes, and a stamp remembers what it was when the stamp was taken.  The code
    knows the counters and the times only.
-/
import MysqlProxy.Lib.Wheel
import Mathlib.Data.UInt

namespace MysqlProxy

/-! ## The counters -/

/-- `atomic_counter_t`, without what is reserved. -/
structure AtomicCounter where
  dwCounter : Fin 6 → UInt32
  cIdx : Fin 6

namespace AtomicCounter

/-- `memset`. -/
def zero : AtomicCounter := ⟨fun _ => 0, 0⟩

def setLastestSlot (c : AtomicCounter) (val : UInt32) : AtomicCounter :=
  { c with dwCounter := Function.update c.dwCounter (c.cIdx + 4) val }

/-- `*pval` is added to. -/
def getFiveSlots (c : AtomicCounter) (pval : UInt32) : UInt32 :=
  (List.range 5).foldl (fun pval i => pval + c.dwCounter (c.cIdx + Fin.ofNat 6 i)) pval

def addCurrentSlot (c : AtomicCounter) (val : UInt32) : AtomicCounter :=
  { c with dwCounter := Function.update c.dwCounter c.cIdx (c.dwCounter c.cIdx + val) }

theorem getFiveSlots_eq (c : AtomicCounter) :
    c.getFiveSlots 0 = windowSum c.dwCounter c.cIdx 5 := by
  have h := foldl_window c.dwCounter c.cIdx 0 5
  rwa [zero_add] at h

end AtomicCounter

/-! ## The limiter -/

structure TimeVal where
  tv_sec : UInt64
  tv_usec : UInt64

def timeToUsec (tv : TimeVal) : UInt64 := tv.tv_sec * 1000000 + tv.tv_usec

def subTime (tv1 tv2 : TimeVal) : UInt64 := timeToUsec tv1 - timeToUsec tv2

/-- A time stamp, and how many bytes had been sent when it was taken. -/
structure Stamp where
  time : TimeVal
  sent : Nat

/-- The counters, `tvTime`, and the bytes that were sent at all. -/
structure Traffic where
  counter : AtomicCounter
  tvTime : Fin 6 → Stamp
  sent : Nat

namespace Traffic

/-- A stamp that is taken now. -/
def stamp (s : Traffic) (now : TimeVal) : Stamp := ⟨now, s.sent⟩

/-- `atomic_counter_array_add_current_slot`, as `SendResponse` calls it. -/
def addCurrentSlot (s : Traffic) (val : UInt32) : Traffic :=
  { s with counter := s.counter.addCurrentSlot val, sent := s.sent + val.toNat }

/-- The time since the current counter was made current is so long that all begins anew. -/
def resets (s : Traffic) (iUTimePice : Int) (tvNow : TimeVal) : Bool :=
  5000 * 1000000 * UInt64.ofInt iUTimePice ≤ subTime tvNow (s.tvTime s.counter.cIdx).time

def reset (s : Traffic) (tvNow : TimeVal) : Traffic :=
  { s with counter := .zero, tvTime := fun _ => s.stamp tvNow }

/-- A new time slice. -/
def turn (s : Traffic) (tvNow : TimeVal) : Traffic :=
  let counter := s.counter.setLastestSlot 0
  let cIdx := counter.cIdx + 5
  { s with
    counter := { counter with cIdx := cIdx }
    tvTime := Function.update s.tvTime cIdx (s.stamp tvNow) }

/-- What `TrafficCtl` does to the counters, unless it resets them. -/
def turned (s : Traffic) (iUTimePice : Int) (tvNow : TimeVal) : Traffic :=
  if 1 * 100000 * UInt64.ofInt iUTimePice < subTime tvNow (s.tvTime s.counter.cIdx).time then
    s.turn tvNow
  else s

/-- `TrafficCtl`. -/
def trafficCtl (s : Traffic) (iSendBytesLimit iUTimePice : Int) (tvNow : TimeVal) : Int × Traffic :=
  if s.resets iUTimePice tvNow then (0, s.reset tvNow)
  else
    let s := s.turned iUTimePice tvNow
    let ullUsec := subTime tvNow (s.tvTime (s.counter.cIdx + 4)).time
    if 1 * 100000 * UInt64.ofInt iUTimePice ≤ ullUsec then
      let dwSendBytes := s.counter.getFiveSlots 0
      if UInt64.ofInt iSendBytesLimit < dwSendBytes.toUInt64 * 1000000 / ullUsec then (1, s)
        else (0, s)
    else (0, s)

/-- The state is one of these three. -/
theorem trafficCtl_cases (s : Traffic) (iSendBytesLimit iUTimePice : Int) (tvNow : TimeVal) :
    (s.trafficCtl iSendBytesLimit iUTimePice tvNow).2 =
      if s.resets iUTimePice tvNow then s.reset tvNow else s.turned iUTimePice tvNow := by
  rw [trafficCtl]
  split
  · rfl
  · dsimp only
    split
    · split <;> rfl
    · rfl

/-- The stamp that the window begins with. -/
def since (s : Traffic) : Stamp := s.tvTime (s.counter.cIdx + 4)

/-- What `TrafficCtl` returns when it comes to the comparison. -/
theorem trafficCtl_compares {s : Traffic} {iSendBytesLimit iUTimePice : Int} {tvNow : TimeVal}
    (hres : ¬ s.resets iUTimePice tvNow)
    (hgate : 1 * 100000 * UInt64.ofInt iUTimePice ≤
      subTime tvNow (s.turned iUTimePice tvNow).since.time) :
    (s.trafficCtl iSendBytesLimit iUTimePice tvNow).1 = 1 ↔
      UInt64.ofInt iSendBytesLimit <
        ((s.turned iUTimePice tvNow).counter.getFiveSlots 0).toUInt64 * 1000000 /
          subTime tvNow (s.turned iUTimePice tvNow).since.time := by
  rw [since] at hgate ⊢
  rw [trafficCtl, if_neg hres]
  dsimp only
  rw [if_pos hgate]
  split
  · exact iff_of_true rfl ‹_›
  · exact iff_of_false Int.zero_ne_one ‹_›

/-! ## Accounts -/

/-- **The accounts are right.** -/
def Accounted (s : Traffic) : Prop :=
  let since := (s.tvTime (s.counter.cIdx + 4)).sent
  since ≤ s.sent ∧ (s.counter.getFiveSlots 0).toNat = (s.sent - since) % 2 ^ 32 ∧
    s.counter.dwCounter (s.counter.cIdx + 5) = 0

/-- Every counter of the window is right, and so is the spare. -/
structure Inv (s : Traffic) : Prop where
  accounts : Accounts s.counter.dwCounter s.counter.cIdx
    (fun i => UInt32.ofNat (s.tvTime i).sent) (UInt32.ofNat s.sent)
  spare : s.counter.dwCounter (s.counter.cIdx + 5) = 0
  past : ∀ i, (s.tvTime i).sent ≤ s.sent

section Steps

variable {s : Traffic}

theorem Inv.accounted (h : s.Inv) : s.Accounted := by
  refine ⟨h.past _, ?_, h.spare⟩
  have hsum := h.accounts 4 (by decide)
  have hwin : windowSum s.counter.dwCounter s.counter.cIdx 5 =
      UInt32.ofNat (s.sent - (s.tvTime (s.counter.cIdx + 4)).sent) := by
    rw [UInt32.ofNat_sub (h.past _), ← hsum]
    exact (add_sub_cancel_right _ _).symm
  rw [AtomicCounter.getFiveSlots_eq, hwin, UInt32.toNat_ofNat']

theorem Inv.reset (s : Traffic) (tvNow : TimeVal) : (s.reset tvNow).Inv where
  accounts := Accounts.start 0 (UInt32.ofNat s.sent)
  spare := rfl
  past _ := Nat.le_refl _

theorem Inv.addCurrentSlot (h : s.Inv) (val : UInt32) : (s.addCurrentSlot val).Inv where
  accounts := by
    have hsent : UInt32.ofNat (s.sent + val.toNat) = UInt32.ofNat s.sent + val := by
      rw [UInt32.ofNat_add, UInt32.ofNat_toNat]
    have hadd := h.accounts.add val
    rw [← hsent] at hadd
    exact hadd
  spare := by
    have hne : s.counter.cIdx + 5 ≠ s.counter.cIdx := by
      generalize s.counter.cIdx = c
      revert c
      decide
    exact (Function.update_of_ne hne _ _).trans h.spare
  past i := Nat.le_trans (h.past i) (Nat.le_add_right _ _)

theorem tvTime_turn (s : Traffic) (tvNow : TimeVal) (i : Fin 6) : (s.turn tvNow).tvTime i =
    if i = s.counter.cIdx + 5 then s.stamp tvNow else s.tvTime i :=
  Function.update_apply ..

theorem Inv.turn (h : s.Inv) (tvNow : TimeVal) : (s.turn tvNow).Inv where
  accounts := by
    have hturn := h.accounts.turn (by decide) h.spare
    have hbase : (fun i => UInt32.ofNat ((s.turn tvNow).tvTime i).sent) =
        Function.update (fun i => UInt32.ofNat (s.tvTime i).sent) (behind s.counter.cIdx 5)
          (UInt32.ofNat s.sent) := by
      funext i
      rw [tvTime_turn, Function.update_apply]
      split
      · exact if_pos ‹_› ▸ rfl
      · exact if_neg ‹_› ▸ rfl
    rw [hbase]
    exact hturn
  spare := Accounts.spare_turn (by decide) s.counter.dwCounter s.counter.cIdx
  past i := by
    rw [tvTime_turn]
    split
    · exact Nat.le_refl _
    · exact h.past i

theorem Inv.turned (h : s.Inv) (iUTimePice : Int) (tvNow : TimeVal) :
    (s.turned iUTimePice tvNow).Inv := by
  rw [Traffic.turned]
  split
  · exact h.turn tvNow
  · exact h

theorem Inv.trafficCtl (h : s.Inv) (iSendBytesLimit iUTimePice : Int) (tvNow : TimeVal) :
    (s.trafficCtl iSendBytesLimit iUTimePice tvNow).2.Inv := by
  rw [trafficCtl_cases]
  split
  · exact Inv.reset s tvNow
  · exact h.turned iUTimePice tvNow

end Steps

/-! ## Runs -/

/-- A call of one of the two functions. -/
inductive Call where
  | addCurrentSlot (val : UInt32)
  | trafficCtl (tvNow : TimeVal)

/-- The state after a call. -/
def exec (iSendBytesLimit iUTimePice : Int) (s : Traffic) : Call → Traffic
  | .addCurrentSlot val => s.addCurrentSlot val
  | .trafficCtl tvNow => (s.trafficCtl iSendBytesLimit iUTimePice tvNow).2

theorem Inv.run {iSendBytesLimit iUTimePice : Int} {s : Traffic} (h : s.Inv) (calls : List Call) :
    (calls.foldl (exec iSendBytesLimit iUTimePice) s).Inv := by
  induction calls generalizing s with
  | nil => exact h
  | cons call calls ih =>
    apply ih
    cases call with
    | addCurrentSlot val => exact h.addCurrentSlot val
    | trafficCtl tvNow => exact h.trafficCtl iSendBytesLimit iUTimePice tvNow

/-- The counters as `ProxyInit` leaves them, and no stamp yet. -/
def init (dwCounter : Fin 6 → UInt32) : Traffic := ⟨⟨dwCounter, 0⟩, fun _ => ⟨⟨0, 0⟩, 0⟩, 0⟩

/-- The time pieces do not overflow. -/
theorem toNat_mul_ofInt {c : UInt64} {n bound : Nat} (hn : n ≤ bound)
    (hbound : c.toNat * bound < 2 ^ 64) (hc : 0 < c.toNat) :
    (c * UInt64.ofInt n).toNat = c.toNat * n := by
  have hmul : c.toNat * n ≤ c.toNat * bound := Nat.mul_le_mul_left _ hn
  have hnlt : n < 2 ^ 64 := by
    have : n ≤ c.toNat * n := Nat.le_mul_of_pos_left n hc
    omega
  have hmod : (n : Int) % 2 ^ 64 = n := Int.emod_eq_of_lt (by omega) (by omega)
  rw [UInt64.toNat_mul, UInt64.ofInt, hmod, Int.toNat_natCast, UInt64.toNat_ofNat',
    Nat.mod_eq_of_lt hnlt, Nat.mod_eq_of_lt (by omega)]

/-- No stamp yet, so the call resets: it is later than 70 hours after the epoch. -/
theorem resets_unstamped {s : Traffic} {iUTimePice : Int} {tvNow : TimeVal}
    (hstamp : (s.tvTime s.counter.cIdx).time = ⟨0, 0⟩) (hpice : 1 ≤ iUTimePice ∧ iUTimePice ≤ 50)
    (hnow : 250000 * 1000000 ≤ (timeToUsec tvNow).toNat) : s.resets iUTimePice tvNow := by
  obtain ⟨n, rfl⟩ := Int.eq_ofNat_of_zero_le (show 0 ≤ iUTimePice by omega)
  have hn : n ≤ 50 := by omega
  have hsince : subTime tvNow ⟨0, 0⟩ = timeToUsec tvNow := by
    have hzero : timeToUsec ⟨0, 0⟩ = 0 := by decide
    rw [subTime, hzero, sub_zero]
  have hslices : (5000 * 1000000 * UInt64.ofInt n).toNat = 5000 * 1000000 * n :=
    toNat_mul_ofInt (c := 5000 * 1000000) hn (by decide) (by decide)
  rw [resets, decide_eq_true_eq, UInt64.le_iff_toNat_le, hslices, hstamp]
  refine Nat.le_trans ?_ (hsince ▸ hnow)
  omega

/-- Of a server that starts, the first call resets, whatever is in the shared memory. -/
theorem resets_init (dwCounter : Fin 6 → UInt32) {iUTimePice : Int} {tvNow : TimeVal}
    (hpice : 1 ≤ iUTimePice ∧ iUTimePice ≤ 50)
    (hnow : 250000 * 1000000 ≤ (timeToUsec tvNow).toNat) :
    (init dwCounter).resets iUTimePice tvNow :=
  resets_unstamped rfl hpice hnow

/-- **The accounts are right after every call that follows the first one that resets.** -/
theorem run_accounted (iSendBytesLimit iUTimePice : Int) {s : Traffic} {tvNow : TimeVal}
    (hfirst : s.resets iUTimePice tvNow) (calls : List Call) :
    (calls.foldl (exec iSendBytesLimit iUTimePice)
      (s.trafficCtl iSendBytesLimit iUTimePice tvNow).2).Accounted := by
  have hstart : (s.trafficCtl iSendBytesLimit iUTimePice tvNow).2.Inv := by
    rw [trafficCtl_cases, if_pos hfirst]
    exact Inv.reset s tvNow
  exact (hstart.run calls).accounted

/-- A server that starts, and sends 100 bytes, 50 two seconds later and 7 after another second. -/
theorem run_accounted_start :
    ([.addCurrentSlot 100, .trafficCtl ⟨1700000002, 0⟩, .addCurrentSlot 50,
      .trafficCtl ⟨1700000003, 5⟩,
      .addCurrentSlot 7].foldl (exec 1000 10)
      ((init fun _ => 3).trafficCtl 1000 10 ⟨1700000000, 0⟩).2).Accounted :=
  run_accounted 1000 10 (resets_init (fun _ => 3) (by decide) (by decide)) _

end Traffic

end MysqlProxy
