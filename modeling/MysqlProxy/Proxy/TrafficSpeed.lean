/-
  What the limiter measures, and what it misses.

  * `trafficCtl_returns`: `TrafficCtl` compares exact numbers, except that the bytes of the window
    are counted modulo `2^32`, and that the quotient is cut.
  * `evaluations_right_iff`: in a run of a server, every evaluation of the window is right exactly
    when no overload is lost by this.
  * `small_windows_right`: windows of less than `2^32` bytes are judged by their speed in whole bytes
    per second.

  The clock does not go back, and its microseconds fit into 64 bits.
-/
import MysqlProxy.Proxy.TrafficCtl

namespace MysqlProxy

/-! ## The clock -/

/-- Microseconds since the epoch. -/
def TimeVal.usec (tv : TimeVal) : Nat := tv.tv_sec.toNat * 1000000 + tv.tv_usec.toNat

theorem usec_zero : TimeVal.usec ⟨0, 0⟩ = 0 := by decide

theorem toNat_timeToUsec (tv : TimeVal) : (timeToUsec tv).toNat = tv.usec % 2 ^ 64 := by
  rw [timeToUsec, UInt64.toNat_add, UInt64.toNat_mul]
  exact Nat.mod_add_mod ..

theorem toNat_subTime {tv1 tv2 : TimeVal} (hle : tv2.usec ≤ tv1.usec) (hlt : tv1.usec < 2 ^ 64) :
    (subTime tv1 tv2).toNat = tv1.usec - tv2.usec := by
  have h1 : (timeToUsec tv1).toNat = tv1.usec := by
    rw [toNat_timeToUsec, Nat.mod_eq_of_lt hlt]
  have h2 : (timeToUsec tv2).toNat = tv2.usec := by
    rw [toNat_timeToUsec, Nat.mod_eq_of_lt (Nat.lt_of_le_of_lt hle hlt)]
  rw [subTime, UInt64.toNat_sub_of_le _ _ (by rwa [UInt64.le_iff_toNat_le, h1, h2]), h1, h2]

namespace Traffic

/-! ## The window -/

/-- How many bytes were sent since the window began. -/
def bytes (s : Traffic) : Nat := s.sent - s.since.sent

/-- How many microseconds ago it began. -/
def elapsed (s : Traffic) (tvNow : TimeVal) : Nat := tvNow.usec - s.since.time.usec

/-- `TrafficCtl` gets to the comparison. -/
def Evaluates (s : Traffic) (iUTimePice : Int) (tvNow : TimeVal) : Prop :=
  ¬ s.resets iUTimePice tvNow ∧ 100000 * iUTimePice ≤ (s.turned iUTimePice tvNow).elapsed tvNow

instance (s : Traffic) (iUTimePice : Int) (tvNow : TimeVal) :
    Decidable (s.Evaluates iUTimePice tvNow) :=
  inferInstanceAs (Decidable (_ ∧ _))

/-- So many bytes in so many microseconds are more than `limit` bytes a second. -/
def Overload (limit : Int) (bytes usec : Nat) : Prop := limit * usec < (bytes * 1000000 : Nat)

instance (limit : Int) (bytes usec : Nat) : Decidable (Overload limit bytes usec) :=
  inferInstanceAs (Decidable (_ < _))

/-- The same, of whole bytes a second. -/
def Exceeds (limit : Int) (bytes usec : Nat) : Prop := limit < (bytes * 1000000 / usec : Nat)

instance (limit : Int) (bytes usec : Nat) : Decidable (Exceeds limit bytes usec) :=
  inferInstanceAs (Decidable (_ < _))

theorem Exceeds.overload {limit : Int} {bytes usec : Nat} (hlimit : 0 ≤ limit)
    (h : Exceeds limit bytes usec) : Overload limit bytes usec := by
  obtain ⟨limit, rfl⟩ := Int.eq_ofNat_of_zero_le hlimit
  have hlt : limit < bytes * 1000000 / usec := Int.ofNat_lt.mp h
  rcases Nat.eq_zero_or_pos usec with rfl | hpos
  · rw [Nat.div_zero] at hlt
    exact absurd hlt (Nat.not_lt_zero _)
  have hmul : (limit + 1) * usec ≤ bytes * 1000000 := (Nat.le_div_iff_mul_le hpos).mp hlt
  have hexpand : (limit + 1) * usec = limit * usec + usec := Nat.succ_mul ..
  have hnat : limit * usec < bytes * 1000000 := by omega
  exact Int.ofNat_lt.mpr hnat

/-- More bytes exceed it, too. -/
theorem Exceeds.mono {limit : Int} {bytes bytes' usec : Nat} (h : Exceeds limit bytes usec)
    (hle : bytes ≤ bytes') : Exceeds limit bytes' usec := by
  have hdiv : bytes * 1000000 / usec ≤ bytes' * 1000000 / usec :=
    Nat.div_le_div_right (Nat.mul_le_mul_right _ hle)
  exact Int.lt_of_lt_of_le h (Int.ofNat_le.mpr hdiv)

/-! ## One call -/

/-- All stamps had been taken then. -/
def Until (s : Traffic) (usec : Nat) : Prop := ∀ i, (s.tvTime i).time.usec ≤ usec

theorem Until.turned {s : Traffic} {usec : Nat} (h : s.Until usec) {tvNow : TimeVal}
    (hnow : tvNow.usec ≤ usec) (iUTimePice : Int) : (s.turned iUTimePice tvNow).Until usec := by
  rw [Traffic.turned]
  split
  · intro i
    rw [tvTime_turn]
    split
    · exact hnow
    · exact h i
  · exact h

theorem Until.trafficCtl {s : Traffic} {usec : Nat} (h : s.Until usec) {tvNow : TimeVal}
    (hnow : tvNow.usec ≤ usec) (iSendBytesLimit iUTimePice : Int) :
    (s.trafficCtl iSendBytesLimit iUTimePice tvNow).2.Until usec := by
  rw [trafficCtl_cases]
  split
  · exact fun _ => hnow
  · exact h.turned hnow iUTimePice

theorem toNat_elapsed {s : Traffic} {tvNow : TimeVal} (h : s.Until tvNow.usec)
    (hnow : tvNow.usec < 2 ^ 64) :
    (subTime tvNow s.since.time).toNat = s.elapsed tvNow :=
  toNat_subTime (h _) hnow

/-- The quotient is exact. -/
theorem toNat_speed (dwSendBytes : UInt32) (ullUsec : UInt64) :
    (dwSendBytes.toUInt64 * 1000000 / ullUsec).toNat =
      dwSendBytes.toNat * 1000000 / ullUsec.toNat := by
  have hbytes : dwSendBytes.toNat < 2 ^ 32 := dwSendBytes.toNat_lt
  have hmul : (dwSendBytes.toUInt64 * 1000000).toNat = dwSendBytes.toNat * 1000000 := by
    have hconst : (1000000 : UInt64).toNat = 1000000 := by decide
    rw [UInt64.toNat_mul, UInt32.toNat_toUInt64, hconst]
    exact Nat.mod_eq_of_lt (by omega)
  rw [UInt64.toNat_div, hmul]

theorem Inv.toNat_bytes {s : Traffic} (h : s.Inv) :
    (s.counter.getFiveSlots 0).toNat = s.bytes % 2 ^ 32 :=
  h.accounted.2.1

/-- The time that has to pass is not less. -/
theorem gate_of_elapsed {pice : Nat} {s : Traffic} {tvNow : TimeVal} (hpice : pice ≤ 50)
    (huntil : s.Until tvNow.usec) (hnow : tvNow.usec < 2 ^ 64)
    (hlong : 100000 * (pice : Int) ≤ s.elapsed tvNow) :
    1 * 100000 * UInt64.ofInt pice ≤ subTime tvNow s.since.time := by
  have hpieces : (1 * 100000 * UInt64.ofInt pice).toNat = 100000 * pice :=
    toNat_mul_ofInt (c := 1 * 100000) hpice (by decide) (by decide)
  have hnat : 100000 * pice ≤ s.elapsed tvNow := by omega
  rwa [UInt64.le_iff_toNat_le, hpieces, toNat_elapsed huntil hnow]

/-- The comparison is one of exact numbers, but for the bytes. -/
theorem compare_iff {limit : Nat} {s : Traffic} {tvNow : TimeVal} (hlimit : limit ≤ 500000000)
    (hinv : s.Inv) (huntil : s.Until tvNow.usec) (hnow : tvNow.usec < 2 ^ 64) :
    UInt64.ofInt limit < (s.counter.getFiveSlots 0).toUInt64 * 1000000 /
      subTime tvNow s.since.time ↔
        Exceeds limit (s.bytes % 2 ^ 32) (s.elapsed tvNow) := by
  have hlim : (UInt64.ofInt limit).toNat = limit := by
    have hmul : (1 * UInt64.ofInt limit).toNat = 1 * limit :=
      toNat_mul_ofInt (c := 1) hlimit (by decide) (by decide)
    rwa [one_mul, Nat.one_mul] at hmul
  rw [UInt64.lt_iff_toNat_lt, hlim, toNat_speed, toNat_elapsed huntil hnow, hinv.toNat_bytes,
    Exceeds, Int.ofNat_lt]

/-- **What `TrafficCtl` returns.** -/
theorem trafficCtl_returns {iSendBytesLimit iUTimePice : Int} {s : Traffic} {tvNow : TimeVal}
    (hlimit : 10000000 ≤ iSendBytesLimit ∧ iSendBytesLimit ≤ 500000000)
    (hpice : 1 ≤ iUTimePice ∧ iUTimePice ≤ 50) (hinv : s.Inv) (huntil : s.Until tvNow.usec)
    (hnow : tvNow.usec < 2 ^ 64) (heval : s.Evaluates iUTimePice tvNow) :
    (s.trafficCtl iSendBytesLimit iUTimePice tvNow).1 = 1 ↔
      Exceeds iSendBytesLimit ((s.turned iUTimePice tvNow).bytes % 2 ^ 32)
        ((s.turned iUTimePice tvNow).elapsed tvNow) := by
  obtain ⟨hres, hlong⟩ := heval
  obtain ⟨pice, rfl⟩ := Int.eq_ofNat_of_zero_le (show 0 ≤ iUTimePice by omega)
  obtain ⟨limit, rfl⟩ := Int.eq_ofNat_of_zero_le (show 0 ≤ iSendBytesLimit by omega)
  have huntil' := huntil.turned (Nat.le_refl _) pice
  have hgate := gate_of_elapsed (by omega) huntil' hnow hlong
  have hcmp := @compare_iff limit _ _ (by omega) (hinv.turned pice tvNow) huntil' hnow
  rw [trafficCtl_compares hres hgate, hcmp]

/-! ## Runs -/

/-- What the calls of `TrafficCtl` read off the clock. -/
def clock (calls : List Call) : List Nat :=
  calls.filterMap fun
    | .addCurrentSlot _ => none
    | .trafficCtl tvNow => some tvNow.usec

theorem mem_clock {calls : List Call} {tvNow : TimeVal} (h : .trafficCtl tvNow ∈ calls) :
    tvNow.usec ∈ clock calls :=
  List.mem_filterMap.mpr ⟨_, h, rfl⟩

/-- The clock does not go back, and fits into 64 bits. -/
def Ticks (calls : List Call) : Prop :=
  (clock calls).Pairwise (· ≤ ·) ∧ ∀ usec ∈ clock calls, usec < 2 ^ 64

instance (calls : List Call) : Decidable (Ticks calls) := inferInstanceAs (Decidable (_ ∧ _))

/-- The counters are new, or it is later than 70 hours after the epoch. -/
def Starts (dwCounter : Fin 6 → UInt32) (calls : List Call) : Prop :=
  (∀ i, dwCounter i = 0) ∨ ∀ usec ∈ clock calls, 250000 * 1000000 ≤ usec

/-- Whenever `TrafficCtl` gets to the comparison in the run, `P` holds of the state before the call
    and of the time. -/
def EveryEvaluation (iSendBytesLimit iUTimePice : Int) (dwCounter : Fin 6 → UInt32)
    (calls : List Call) (P : Traffic → TimeVal → Prop) : Prop :=
  ∀ before tvNow rest, calls = before ++ .trafficCtl tvNow :: rest →
    let s := before.foldl (exec iSendBytesLimit iUTimePice) (init dwCounter)
    s.Evaluates iUTimePice tvNow → P s tvNow

section Runs

variable {iSendBytesLimit iUTimePice : Int} {dwCounter : Fin 6 → UInt32} {calls : List Call}

theorem Until.run {s : Traffic} {usec : Nat} (h : s.Until usec) (calls : List Call)
    (hclock : ∀ u ∈ clock calls, u ≤ usec) :
    (calls.foldl (exec iSendBytesLimit iUTimePice) s).Until usec := by
  induction calls generalizing s with
  | nil => exact h
  | cons call calls ih =>
    cases call with
    | addCurrentSlot val => exact ih h hclock
    | trafficCtl tvNow =>
      have hnow : tvNow.usec ≤ usec := hclock _ List.mem_cons_self
      exact ih (h.trafficCtl hnow _ _) fun u hu => hclock u (List.mem_cons_of_mem _ hu)

/-- `TrafficCtl` was not called yet. -/
def Unstamped (s : Traffic) : Prop := ∀ i, (s.tvTime i).time = ⟨0, 0⟩

theorem Unstamped.resets {s : Traffic} (h : s.Unstamped) (hpice : 1 ≤ iUTimePice ∧ iUTimePice ≤ 50)
    {tvNow : TimeVal} (hlate : 250000 * 1000000 ≤ tvNow.usec) (hnow : tvNow.usec < 2 ^ 64) :
    s.resets iUTimePice tvNow := by
  refine resets_unstamped (h _) hpice ?_
  rwa [toNat_timeToUsec, Nat.mod_eq_of_lt hnow]

/-- The first call of `TrafficCtl` resets, and the accounts are right from then on. -/
theorem unstamped_or_inv {s : Traffic} (hpice : 1 ≤ iUTimePice ∧ iUTimePice ≤ 50)
    (h : s.Unstamped ∨ s.Inv) (calls : List Call)
    (hclock : ∀ usec ∈ clock calls, 250000 * 1000000 ≤ usec ∧ usec < 2 ^ 64) :
    let s' := calls.foldl (exec iSendBytesLimit iUTimePice) s
    s'.Unstamped ∨ s'.Inv := by
  induction calls generalizing s with
  | nil => exact h
  | cons call calls ih =>
    cases call with
    | addCurrentSlot val => exact ih (h.imp id fun hinv => hinv.addCurrentSlot val) hclock
    | trafficCtl tvNow =>
      obtain ⟨hlate, hnow⟩ := hclock _ List.mem_cons_self
      refine ih (.inr ?_) fun u hu => hclock u (List.mem_cons_of_mem _ hu)
      rcases h with h | h
      · rw [exec, trafficCtl_cases, if_pos (h.resets hpice hlate hnow)]
        exact Inv.reset s tvNow
      · exact h.trafficCtl iSendBytesLimit iUTimePice tvNow

/-- The counters that are zero account for nothing. -/
theorem Inv.init (hzero : ∀ i, dwCounter i = 0) : (init dwCounter).Inv := by
  obtain rfl : dwCounter = fun _ => 0 := funext hzero
  exact ⟨Accounts.start 0 (UInt32.ofNat 0), rfl, fun _ => Nat.le_refl _⟩

theorem Until.init (dwCounter : Fin 6 → UInt32) (usec : Nat) : (init dwCounter).Until usec := by
  intro i
  have hzero : ((Traffic.init dwCounter).tvTime i).time.usec = 0 := usec_zero
  rw [hzero]
  exact Nat.zero_le usec

/-- **Before every evaluation of a run the accounts are right**, and no stamp lies ahead. -/
theorem evaluates_state (hpice : 1 ≤ iUTimePice ∧ iUTimePice ≤ 50) (hstarts : Starts dwCounter calls)
    (hticks : Ticks calls) :
    EveryEvaluation iSendBytesLimit iUTimePice dwCounter calls fun s tvNow =>
      s.Inv ∧ s.Until tvNow.usec ∧ tvNow.usec < 2 ^ 64 := by
  rintro before tvNow rest rfl s heval
  obtain ⟨hmono, hfits⟩ := hticks
  have hsplit : clock (before ++ .trafficCtl tvNow :: rest) =
      clock before ++ tvNow.usec :: clock rest := List.filterMap_append ..
  rw [hsplit] at hmono hfits
  have hnow : tvNow.usec < 2 ^ 64 := hfits _ (List.mem_append_right _ List.mem_cons_self)
  have hearlier : ∀ u ∈ clock before, u ≤ tvNow.usec := fun u hu =>
    (List.pairwise_append.mp hmono).2.2 u hu _ List.mem_cons_self
  refine ⟨?_, (Until.init dwCounter _).run before hearlier, hnow⟩
  rcases hstarts with hzero | hlate
  · exact (Inv.init hzero).run before
  · rw [hsplit] at hlate
    have hstart : (Traffic.init dwCounter).Unstamped ∨ (Traffic.init dwCounter).Inv :=
      .inl fun _ => rfl
    have hclock : ∀ u ∈ clock before, 250000 * 1000000 ≤ u ∧ u < 2 ^ 64 := fun u hu =>
      have hmem := List.mem_append_left (tvNow.usec :: clock rest) hu
      ⟨hlate u hmem, hfits u hmem⟩
    rcases unstamped_or_inv hpice hstart before hclock with hnone | hinv
    · have hfirst := hnone.resets hpice (hlate _ (List.mem_append_right _ List.mem_cons_self)) hnow
      exact absurd hfirst heval.1
    · exact hinv

/-- The window is right by `Measure` when what is left of the bytes exceeds the limit. -/
theorem evaluations_right_iff_of (Measure : Int → Nat → Nat → Prop)
    (hmeasure : ∀ limit bytes usec, 0 ≤ limit → Exceeds limit (bytes % 2 ^ 32) usec →
      Measure limit bytes usec)
    (hlimit : 10000000 ≤ iSendBytesLimit ∧ iSendBytesLimit ≤ 500000000)
    (hpice : 1 ≤ iUTimePice ∧ iUTimePice ≤ 50) (hstarts : Starts dwCounter calls)
    (hticks : Ticks calls) :
    (EveryEvaluation iSendBytesLimit iUTimePice dwCounter calls fun s tvNow =>
      let s' := s.turned iUTimePice tvNow
      (s.trafficCtl iSendBytesLimit iUTimePice tvNow).1 = 1 ↔
        Measure iSendBytesLimit s'.bytes (s'.elapsed tvNow)) ↔
    EveryEvaluation iSendBytesLimit iUTimePice dwCounter calls fun s tvNow =>
      let s' := s.turned iUTimePice tvNow
      Measure iSendBytesLimit s'.bytes (s'.elapsed tvNow) →
        Exceeds iSendBytesLimit (s'.bytes % 2 ^ 32) (s'.elapsed tvNow) := by
  refine forall_congr' fun before => forall_congr' fun tvNow => forall_congr' fun rest =>
    forall_congr' fun hcalls => forall_congr' fun heval => ?_
  obtain ⟨hinv, huntil, hnow⟩ := evaluates_state hpice hstarts hticks before tvNow rest hcalls heval
  dsimp only
  rw [trafficCtl_returns hlimit hpice hinv huntil hnow heval]
  exact ⟨Iff.mpr, fun h => ⟨hmeasure _ _ _ (by omega), h⟩⟩

/-- **The limiter misses no overload exactly when none is lost by counting modulo `2^32`**: of whole
    bytes a second, and of the exact quotient. -/
theorem evaluations_right_iff (hlimit : 10000000 ≤ iSendBytesLimit ∧ iSendBytesLimit ≤ 500000000)
    (hpice : 1 ≤ iUTimePice ∧ iUTimePice ≤ 50) (hstarts : Starts dwCounter calls)
    (hticks : Ticks calls) :
    (EveryEvaluation iSendBytesLimit iUTimePice dwCounter calls (fun s tvNow =>
      let s' := s.turned iUTimePice tvNow
      (s.trafficCtl iSendBytesLimit iUTimePice tvNow).1 = 1 ↔
        Exceeds iSendBytesLimit s'.bytes (s'.elapsed tvNow)) ↔
      EveryEvaluation iSendBytesLimit iUTimePice dwCounter calls fun s tvNow =>
        let s' := s.turned iUTimePice tvNow
        Exceeds iSendBytesLimit s'.bytes (s'.elapsed tvNow) →
          Exceeds iSendBytesLimit (s'.bytes % 2 ^ 32) (s'.elapsed tvNow)) ∧
    (EveryEvaluation iSendBytesLimit iUTimePice dwCounter calls (fun s tvNow =>
      let s' := s.turned iUTimePice tvNow
      (s.trafficCtl iSendBytesLimit iUTimePice tvNow).1 = 1 ↔
        Overload iSendBytesLimit s'.bytes (s'.elapsed tvNow)) ↔
      EveryEvaluation iSendBytesLimit iUTimePice dwCounter calls fun s tvNow =>
        let s' := s.turned iUTimePice tvNow
        Overload iSendBytesLimit s'.bytes (s'.elapsed tvNow) →
          Exceeds iSendBytesLimit (s'.bytes % 2 ^ 32) (s'.elapsed tvNow)) := by
  have hmore : ∀ limit bytes usec, Exceeds limit (bytes % 2 ^ 32) usec → Exceeds limit bytes usec :=
    fun _ _ _ h => h.mono (Nat.mod_le ..)
  constructor
  · exact evaluations_right_iff_of Exceeds (fun _ _ _ _ => hmore _ _ _) hlimit hpice hstarts hticks
  · exact evaluations_right_iff_of Overload (fun _ _ _ hpos h => (hmore _ _ _ h).overload hpos)
      hlimit hpice hstarts hticks

/-- Of windows of less than `2^32` bytes none is lost. -/
theorem small_windows_right (hlimit : 10000000 ≤ iSendBytesLimit ∧ iSendBytesLimit ≤ 500000000)
    (hpice : 1 ≤ iUTimePice ∧ iUTimePice ≤ 50) (hstarts : Starts dwCounter calls)
    (hticks : Ticks calls)
    (hsmall : EveryEvaluation iSendBytesLimit iUTimePice dwCounter calls fun s tvNow =>
      (s.turned iUTimePice tvNow).bytes < 2 ^ 32) :
    EveryEvaluation iSendBytesLimit iUTimePice dwCounter calls fun s tvNow =>
      let s' := s.turned iUTimePice tvNow
      (s.trafficCtl iSendBytesLimit iUTimePice tvNow).1 = 1 ↔
        Exceeds iSendBytesLimit s'.bytes (s'.elapsed tvNow) := by
  refine (evaluations_right_iff_of Exceeds (fun _ _ _ _ h => h.mono (Nat.mod_le ..)) hlimit hpice
    hstarts hticks).mpr ?_
  intro before tvNow rest hcalls s heval s' hexc
  rwa [Nat.mod_eq_of_lt (hsmall before tvNow rest hcalls heval)]

end Runs

/-- A server that starts, and ten seconds later has sent 400 million bytes a second. -/
theorem evaluations_right_start :
    EveryEvaluation 300000000 50 (fun _ => 3)
      [.trafficCtl ⟨1700000000, 0⟩, .addCurrentSlot 4000000000, .trafficCtl ⟨1700000010, 0⟩]
      fun s tvNow => (s.trafficCtl 300000000 50 tvNow).1 = 1 ↔
        Overload 300000000 (s.turned 50 tvNow).bytes ((s.turned 50 tvNow).elapsed tvNow) := by
  refine (evaluations_right_iff (by decide) (by decide) (.inr (by decide)) (by decide)).2.mpr ?_
  intro before tvNow rest hcalls s heval
  rcases before with _ | ⟨first, _ | ⟨second, _ | ⟨third, before⟩⟩⟩
  · -- the first call resets
    obtain rfl := Call.trafficCtl.inj (List.cons.inj hcalls).1
    exact absurd heval (by decide)
  · obtain ⟨-, hrest⟩ := List.cons.inj hcalls
    cases (List.cons.inj hrest).1
  · obtain ⟨rfl, hrest⟩ := List.cons.inj hcalls
    obtain ⟨rfl, hlast⟩ := List.cons.inj hrest
    obtain rfl := Call.trafficCtl.inj (List.cons.inj hlast).1
    decide
  · have hlen := congrArg List.length hcalls
    simp at hlen

/-- 450 million bytes a second for ten seconds pass a limit of 300 million. -/
theorem overload_missed :
    let s := (.trafficCtl ⟨1700000000, 0⟩ :: List.replicate 9 (.addCurrentSlot 500000000)).foldl
      (exec 300000000 50) (init fun _ => 0)
    let s' := s.turned 50 ⟨1700000010, 0⟩
    s.Evaluates 50 ⟨1700000010, 0⟩ ∧ s'.bytes = 4500000000 ∧
      s'.elapsed ⟨1700000010, 0⟩ = 10000000 ∧ Exceeds 300000000 4500000000 10000000 ∧
      (s.trafficCtl 300000000 50 ⟨1700000010, 0⟩).1 = 0 := by
  decide +kernel

end Traffic

end MysqlProxy
