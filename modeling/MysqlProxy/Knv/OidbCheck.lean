/-
  The bounds of an OIDB packet (the checks in front of `InitFromOidbPkg`).

  Both lengths come from the network.  They are added as 32-bit words, and the sum becomes an `int`
  before it is compared with the length of the buffer.  A sum below `2 ^ 31` is checked as it should
  be.  A larger one wraps: to a small number, which the buffer may well be longer than, or to a number
  that is not positive, and then the token is looked for in front of the buffer.

  `mem` is the memory around the buffer, which starts at 0.
-/
import MysqlProxy.Knv.Protocol

namespace MysqlProxy

open KnvNode

/-- The buffer in memory. -/
def BufferAt (mem : Int → UInt8) (buf : List UInt8) : Prop :=
  ∀ i b, buf[i]? = some b → mem (i : Nat) = b

/-- The checks: `hlen` and `blen`, if they are passed. -/
def oidbChecks (mem : Int → UInt8) (buf : List UInt8) : Except String (Nat × Nat) :=
  if buf.length < 10 then .error "Bad OidbIpv6 packet: insufficient length"
  else
    let hlen := readBe32 buf 1
    let blen := readBe32 buf 5
    let total_len := int32 ((hlen + blen + 10 : Nat) : Int)
    if (buf.length : Int) < total_len then .error "Bad OidbIpv6 packet: insufficient length"
    else if mem (total_len - 1) ≠ ETX_IPV6_PB then .error "Bad OidbIpv6 packet: ETX token missing"
    else .ok (hlen, blen)

/-- What is behind the checks. -/
def initOidbParts (buf : List UInt8) (hlen blen : Nat) : Except String KnvProtocol :=
  let header := initNode KNV_PKG_HDR_TAG (.string ((buf.drop 9).take hlen)) true 0 false
  let content := (buf.drop (9 + hlen)).take blen
  if (buf.drop (9 + hlen)).take 2 = STX_KNV_BDY then initCollection header content
  else initCompat header content

/-- The header and the body lie inside the buffer, and the token is behind them. -/
structure PartsInside (buf : List UInt8) (hlen blen : Nat) : Prop where
  fits : hlen + blen + 10 ≤ buf.length
  etx : buf[hlen + blen + 9]? = some ETX_IPV6_PB

/-- Whatever is passed is inside, whatever lies around the buffer. -/
def OidbChecked (buf : List UInt8) : Prop :=
  ∀ mem, BufferAt mem buf → ∀ hlen blen, oidbChecks mem buf = .ok (hlen, blen) →
    PartsInside buf hlen blen

/-- The slices. -/
theorem PartsInside.slices {buf : List UInt8} {hlen blen : Nat} (h : PartsInside buf hlen blen) :
    ((buf.drop 9).take hlen).length = hlen ∧ ((buf.drop (9 + hlen)).take blen).length = blen := by
  have hfits := h.fits
  rw [List.length_take, List.length_take, List.length_drop, List.length_drop]
  omega

/-- The buffer, with zeros around it. -/
def zeroAround (buf : List UInt8) (i : Int) : UInt8 := if 0 ≤ i then buf.getD i.toNat 0 else 0

theorem bufferAt_zeroAround (buf : List UInt8) : BufferAt (zeroAround buf) buf := by
  intro i b hi
  rw [zeroAround, if_pos (Int.natCast_nonneg i), Int.toNat_natCast, List.getD_eq_getElem?_getD, hi]
  rfl

/-- **The checks are those of `InitFromOidbPkg`.** -/
theorem initFromOidbPkg_eq (buf : List UInt8) : initFromOidbPkg buf =
    oidbChecks (zeroAround buf) buf >>= fun p => initOidbParts buf p.1 p.2 := by
  rw [initFromOidbPkg, oidbChecks]
  by_cases h10 : buf.length < 10
  · rw [if_pos h10, if_pos h10]
    rfl
  · rw [if_neg h10, if_neg h10]
    simp only
    generalize int32 ((readBe32 buf 1 + readBe32 buf 5 + 10 : Nat) : Int) = total_len
    by_cases hlt : (buf.length : Int) < total_len
    · rw [if_pos hlt, if_pos hlt]
      rfl
    · rw [if_neg hlt, if_neg hlt]
      have hiff : (total_len ≤ 0 ∨ buf[(total_len - 1).toNat]? ≠ some ETX_IPV6_PB) ↔
          zeroAround buf (total_len - 1) ≠ ETX_IPV6_PB := by
        by_cases hpos : total_len ≤ 0
        · rw [zeroAround, if_neg (by omega)]
          exact iff_of_true (.inl hpos) (by decide)
        · have hin : (total_len - 1).toNat < buf.length := by omega
          rw [zeroAround, if_pos (by omega), List.getD_eq_getElem?_getD,
            List.getElem?_eq_getElem hin]
          constructor
          · rintro (h | h) he
            · exact hpos h
            · exact h (congrArg some he)
          · exact fun h => .inr fun he => h (Option.some.inj he)
      by_cases hetx : zeroAround buf (total_len - 1) ≠ ETX_IPV6_PB
      · rw [if_pos (hiff.mpr hetx), if_pos hetx]
        rfl
      · rw [if_neg fun h => hetx (hiff.mp h), if_neg hetx]
        show _ = initOidbParts buf (readBe32 buf 1) (readBe32 buf 5)
        rw [initOidbParts]

/-- The sum fits an `int`; or it wraps, and what it wraps to fails the checks by itself. -/
def SumChecked (buf : List UInt8) : Prop :=
  let sum := readBe32 buf 1 + readBe32 buf 5 + 10
  buf.length < 10 ∨ sum < 2 ^ 31 ∨ (0 < int32 sum ∧
    (buf.length < int32 sum ∨ buf[(int32 sum - 1).toNat]? ≠ some ETX_IPV6_PB))

/-- What is passed. -/
theorem oidbChecks_ok {mem : Int → UInt8} {buf : List UInt8} {p : Nat × Nat}
    (h : oidbChecks mem buf = .ok p) : p = (readBe32 buf 1, readBe32 buf 5) ∧
      10 ≤ buf.length ∧ int32 ((readBe32 buf 1 + readBe32 buf 5 + 10 : Nat) : Int) ≤ buf.length ∧
      mem (int32 ((readBe32 buf 1 + readBe32 buf 5 + 10 : Nat) : Int) - 1) = ETX_IPV6_PB := by
  rw [oidbChecks] at h
  split at h
  · cases h
  · rename_i h10
    simp only at h
    split at h
    · cases h
    · rename_i hlt
      split at h
      · cases h
      · rename_i hetx
        exact ⟨(Except.ok.inj h).symm, by omega, by omega, not_not.mp hetx⟩

theorem oidbChecks_pass {mem : Int → UInt8} {buf : List UInt8} (h10 : 10 ≤ buf.length)
    (hle : int32 ((readBe32 buf 1 + readBe32 buf 5 + 10 : Nat) : Int) ≤ buf.length)
    (hetx : mem (int32 ((readBe32 buf 1 + readBe32 buf 5 + 10 : Nat) : Int) - 1) = ETX_IPV6_PB) :
    oidbChecks mem buf = .ok (readBe32 buf 1, readBe32 buf 5) := by
  rw [oidbChecks, if_neg (by omega)]
  simp only
  rw [if_neg (by omega), if_neg (not_not_intro hetx)]

/-- **When the checks do check the bounds.** -/
theorem oidbChecked_iff (buf : List UInt8) (hlen : buf.length < 2 ^ 31) :
    OidbChecked buf ↔ SumChecked buf := by
  rw [SumChecked]
  constructor
  · intro h
    by_contra hno
    rw [not_or, not_or, not_and_or] at hno
    obtain ⟨h10, hsum, hwrap⟩ := hno
    -- the token is in the buffer or in front of it, and the checks are passed
    have hpass : ∃ mem, BufferAt mem buf ∧
        oidbChecks mem buf = .ok (readBe32 buf 1, readBe32 buf 5) := by
      by_cases hpos : 0 < int32 ((readBe32 buf 1 + readBe32 buf 5 + 10 : Nat) : Int)
      · have hin := hwrap.resolve_left (not_not_intro hpos)
        rw [not_or, not_not] at hin
        have hmem := bufferAt_zeroAround buf _ _ hin.2
        refine ⟨zeroAround buf, bufferAt_zeroAround buf, oidbChecks_pass (by omega) (by omega) ?_⟩
        rw [Int.toNat_of_nonneg (by omega)] at hmem
        exact hmem
      · refine ⟨fun i => if i < 0 then ETX_IPV6_PB else zeroAround buf i, ?_,
          oidbChecks_pass (by omega) (by omega) (if_pos (by omega))⟩
        intro i b hi
        show (if (i : Int) < 0 then _ else _) = b
        rw [if_neg (by omega)]
        exact bufferAt_zeroAround buf i b hi
    obtain ⟨mem, hmem, hpass⟩ := hpass
    have hfits := (h mem hmem _ _ hpass).fits
    omega
  · rintro h mem hmem hl bl hok
    obtain ⟨hp, h10, hle, hetx⟩ := oidbChecks_ok hok
    cases hp
    rcases h with h | h | ⟨hpos, h⟩
    · omega
    · rw [int32_of_lt (by omega) (by omega)] at hle hetx
      have hin : readBe32 buf 1 + readBe32 buf 5 + 9 < buf.length := by omega
      refine ⟨by omega, ?_⟩
      rw [List.getElem?_eq_getElem hin, ← hmem _ _ (List.getElem?_eq_getElem hin), ← hetx]
      exact congrArg (fun i => some (mem i)) (by omega)
    · rcases h with h | h
      · omega
      · have hin : (int32 ((readBe32 buf 1 + readBe32 buf 5 + 10 : Nat) : Int) - 1).toNat < buf.length := by
          omega
        refine absurd ?_ h
        rw [List.getElem?_eq_getElem hin, ← hmem _ _ (List.getElem?_eq_getElem hin), ← hetx,
          Int.toNat_of_nonneg (by omega)]

/-- A header of one byte. -/
theorem oidbChecked_iff_small : OidbChecked [0x28, 0, 0, 0, 1, 0, 0, 0, 0, 65, 0x29] ↔
    SumChecked [0x28, 0, 0, 0, 1, 0, 0, 0, 0, 65, 0x29] :=
  oidbChecked_iff _ (by decide)

/-- **Lengths of `2 ^ 32 - 10` and 11** are passed in a buffer of 11 bytes. -/
theorem wrapped_not_checked : ¬ OidbChecked [0x28, 255, 255, 255, 246, 0, 0, 0, 11, 0, 0x29] := by
  intro h
  have hfits := (h _ (bufferAt_zeroAround _) (2 ^ 32 - 10) 11 (by decide +kernel)).fits
  exact absurd hfits (by decide)

end MysqlProxy
