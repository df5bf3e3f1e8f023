/-
  `StrToHex` and `HexToStr` (`mysql_proxy_server.cpp`, `mysql_proxy_api.cpp`, `crypt_test.cpp`).

  `sprintf` is called once for each byte, two positions behind the call before.  For a `char` below
  zero it prints eight digits, `FFFFFF` in front of its own: the next call writes over all but the
  first two of them, and the calls for the last bytes write behind the buffer.

  * `strToHexIn` is the code on memory that holds anything; `none` is a write outside the buffer.
  * What is returned is `strToHex` (`strToHexIn_eq`): the first two digits of every call.
  * `hexToStr_upperHex`: what should have been printed is always read back.
  * `hexRight_iff`: all is right exactly for ASCII, apart from bytes `0xFF`, whose first two digits
    are their own, with three more bytes behind them.
-/
import MysqlProxy.Proxy.Client
import MysqlProxy.Lib.Mem

namespace MysqlProxy

/-! ## The code -/

/-- `sprintf(buf+pos, "%02X", c)` in a buffer of `size` bytes. -/
def sprintf02X (size : Nat) (buf : Mem) (pos : Nat) (c : UInt8) : Option Mem :=
  let printed := print02X (promoteChar c) ++ [0]
  if pos + printed.length ≤ size then some (buf.write pos printed) else none

/-- The loop of `StrToHex`, from byte `i` on. -/
def strToHexLoop (size : Nat) (buf : Mem) : Nat → List UInt8 → Option Mem
  | _, [] => some buf
  | i, c :: rest => (sprintf02X size buf (i * 2) c).bind fun buf => strToHexLoop size buf (i + 1) rest

/-- `StrToHex`; `buf` is not initialised. -/
def strToHexIn (buf : Mem) (content : List UInt8) : Option (List UInt8) :=
  (strToHexLoop (content.length * 2 + 2) buf 0 content).map fun buf =>
    buf.read 0 (content.length * 2)

def hexToStr (hex : List UInt8) : List UInt8 :=
  (List.range (hex.length / 2)).map fun i =>
    UInt8.ofNat (strtoul ((hex.drop (i * 2)).take 2) 16 % 256)

/-! ## What it is for -/

/-- The two digits of a byte. -/
def bytePair (c : UInt8) : List UInt8 := [digit16 (c.toNat / 16), digit16 (c.toNat % 16)]

/-- The upper-case digits of all bytes. -/
def upperHex (content : List UInt8) : List UInt8 := content.flatMap bytePair

/-- The conversion writes inside its buffer only, returns the digits, and they are read back. -/
structure HexRight (content : List UInt8) : Prop where
  digits : ∀ buf, strToHexIn buf content = some (upperHex content)
  back : hexToStr (upperHex content) = content

/-! ## One byte -/

/-- For a `char` below zero, `FFFFFF` is printed in front. -/
theorem print02X_promoteChar (c : UInt8) : print02X (promoteChar c) = hexDigits c := by
  have h : ∀ n < 256, print02X (promoteChar (UInt8.ofNat n)) = hexDigits (UInt8.ofNat n) := by
    decide +kernel
  have hc := h c.toNat c.toNat_lt
  rwa [UInt8.ofNat_toNat] at hc

theorem take_hexDigits (c : UInt8) :
    (hexDigits c).take 2 = bytePair c ↔ c.toNat < 128 ∨ c.toNat = 255 := by
  have h : ∀ n < 256, (hexDigits (UInt8.ofNat n)).take 2 = bytePair (UInt8.ofNat n) ↔
      (UInt8.ofNat n).toNat < 128 ∨ (UInt8.ofNat n).toNat = 255 := by
    decide +kernel
  have hc := h c.toNat c.toNat_lt
  rwa [UInt8.ofNat_toNat] at hc

theorem strtoul_bytePair (c : UInt8) : UInt8.ofNat (strtoul (bytePair c) 16 % 256) = c := by
  have h : ∀ n < 256, UInt8.ofNat (strtoul (bytePair (UInt8.ofNat n)) 16 % 256) = UInt8.ofNat n := by
    decide +kernel
  have hc := h c.toNat c.toNat_lt
  rwa [UInt8.ofNat_toNat] at hc

/-- How many digits `sprintf` prints. -/
theorem length_hexDigits (c : UInt8) : (hexDigits c).length = if c.toNat < 128 then 2 else 8 := by
  rw [hexDigits]
  split <;> rfl

/-! ## The way back -/

theorem hexToStr_pair (a b : UInt8) (hex : List UInt8) :
    hexToStr (a :: b :: hex) = UInt8.ofNat (strtoul [a, b] 16 % 256) :: hexToStr hex := by
  have hlen : (a :: b :: hex).length / 2 = hex.length / 2 + 1 := by
    rw [List.length_cons, List.length_cons]
    omega
  rw [hexToStr, hlen, List.range_succ_eq_map, List.map_cons, List.map_map]
  refine congrArg _ (List.map_congr_left fun i _ => ?_)
  rw [Function.comp_apply, Nat.succ_mul]
  rfl

/-- **Digits are always read back.** -/
theorem hexToStr_upperHex (content : List UInt8) : hexToStr (upperHex content) = content := by
  induction content with
  | nil => rfl
  | cons c rest ih =>
    have hpair := strtoul_bytePair c
    rw [bytePair] at hpair
    rw [upperHex, List.flatMap_cons, bytePair, List.cons_append, List.cons_append, List.nil_append,
      hexToStr_pair, hpair]
    exact congrArg _ ih

/-! ## The loop -/

/-- The calls of the loop stay inside the buffer: eight digits have three more bytes behind them. -/
def RoomBehind : List UInt8 → Prop
  | [] => True
  | c :: rest => (c.toNat < 128 ∨ 3 ≤ rest.length) ∧ RoomBehind rest

instance decidableRoomBehind : (content : List UInt8) → Decidable (RoomBehind content)
  | [] => .isTrue trivial
  | _ :: rest =>
    have := decidableRoomBehind rest
    inferInstanceAs (Decidable (_ ∧ _))

theorem sprintf02X_eq (size : Nat) (buf : Mem) (pos : Nat) (c : UInt8) :
    sprintf02X size buf pos c =
      if pos + ((hexDigits c).length + 1) ≤ size then some (buf.write pos (hexDigits c ++ [0]))
      else none := by
  rw [sprintf02X, print02X_promoteChar, List.length_append]
  rfl

/-- A call leaves two digits in front of the next. -/
theorem read_write_digits (buf : Mem) (pos : Nat) (c : UInt8) :
    (buf.write pos (hexDigits c ++ [0])).read pos 2 = (hexDigits c).take 2 := by
  have h2 : 2 ≤ (hexDigits c).length := by
    rw [length_hexDigits]
    split <;> decide
  have hread := buf.read_write_inside (a := pos) (i := 0) (n := 2) (l := hexDigits c ++ [0])
    (by rw [List.length_append]; omega)
  rw [Nat.add_zero, List.drop_zero, List.take_append_of_le_length h2] at hread
  exact hread

/-- **The loop** leaves two digits of every call, and nothing is changed in front of it. -/
theorem strToHexLoop_eq {rest : List UInt8} : ∀ {size i : Nat} (buf : Mem),
    size = i * 2 + (rest.length * 2 + 2) → RoomBehind rest →
    ∃ buf', strToHexLoop size buf i rest = some buf' ∧ (∀ x < i * 2, buf' x = buf x) ∧
      buf'.read (i * 2) (rest.length * 2) = strToHex rest := by
  induction rest with
  | nil => exact fun buf _ _ => ⟨buf, rfl, fun _ _ => rfl, rfl⟩
  | cons c rest ih =>
    intro size i buf hsize ⟨hc, hrest⟩
    rw [List.length_cons] at hsize
    have hfit : i * 2 + ((hexDigits c).length + 1) ≤ size := by
      rw [length_hexDigits]
      split <;> omega
    have hnext : size = (i + 1) * 2 + (rest.length * 2 + 2) := by omega
    obtain ⟨buf', hloop, hbefore, hread⟩ := ih (buf.write (i * 2) (hexDigits c ++ [0])) hnext hrest
    rw [Nat.succ_mul] at hbefore hread
    refine ⟨buf', ?_, fun x hx => ?_, ?_⟩
    · rw [strToHexLoop, sprintf02X_eq, if_pos hfit, Option.bind_some]
      exact hloop
    · rw [hbefore x (by omega), Mem.write_away _ (.inl hx)]
    · have htwo : buf'.read (i * 2) 2 = (hexDigits c).take 2 := by
        rw [← read_write_digits buf (i * 2) c]
        exact Mem.read_congr fun j hj => hbefore _ (by omega)
      rw [List.length_cons, Nat.succ_mul, Nat.add_comm (rest.length * 2), Mem.read_add, htwo, hread]
      rfl

/-- A call without room writes outside. -/
theorem strToHexLoop_none {rest : List UInt8} : ∀ {size i : Nat} (buf : Mem),
    size = i * 2 + (rest.length * 2 + 2) → ¬ RoomBehind rest →
    strToHexLoop size buf i rest = none := by
  induction rest with
  | nil => exact fun _ _ h => absurd trivial h
  | cons c rest ih =>
    intro size i buf hsize hroom
    rw [List.length_cons] at hsize
    have hnext : size = (i + 1) * 2 + (rest.length * 2 + 2) := by omega
    rw [strToHexLoop, sprintf02X_eq, length_hexDigits]
    by_cases hc : c.toNat < 128 ∨ 3 ≤ rest.length
    · rw [if_pos (by split <;> omega), Option.bind_some]
      exact ih _ hnext fun h => hroom ⟨hc, h⟩
    · rw [not_or] at hc
      rw [if_neg hc.1, if_neg (by omega), Option.bind_none]

/-- **What `StrToHex` returns**, where it stays inside its buffer. -/
theorem strToHexIn_eq (buf : Mem) (content : List UInt8) :
    strToHexIn buf content = if RoomBehind content then some (strToHex content) else none := by
  have hsize : content.length * 2 + 2 = 0 * 2 + (content.length * 2 + 2) := by omega
  rw [strToHexIn]
  split
  case isTrue hroom =>
    obtain ⟨buf', hloop, -, hread⟩ := strToHexLoop_eq buf hsize hroom
    rw [hloop, Option.map_some, ← hread, Nat.zero_mul]
  case isFalse hroom =>
    rw [strToHexLoop_none buf hsize hroom]
    rfl

/-! ## When it is right -/

/-- Every byte is ASCII, or `0xFF` with three more bytes behind it. -/
def PrintsItself : List UInt8 → Prop
  | [] => True
  | c :: rest => (c.toNat < 128 ∨ c.toNat = 255 ∧ 3 ≤ rest.length) ∧ PrintsItself rest

/-- The first two digits of all calls are those of the bytes exactly if they are for each. -/
theorem strToHex_eq_iff {content : List UInt8} :
    RoomBehind content ∧ strToHex content = upperHex content ↔ PrintsItself content := by
  induction content with
  | nil => exact iff_of_true ⟨trivial, rfl⟩ trivial
  | cons c rest ih =>
    have hlen : ((hexDigits c).take 2).length = (bytePair c).length := by
      rw [List.length_take, length_hexDigits]
      split <;> rfl
    have hhead : strToHex (c :: rest) = upperHex (c :: rest) ↔
        (c.toNat < 128 ∨ c.toNat = 255) ∧ strToHex rest = upperHex rest := by
      rw [← take_hexDigits]
      rw [strToHex, upperHex, List.flatMap_cons, List.flatMap_cons]
      exact ⟨fun h => List.append_inj h hlen, fun ⟨h1, h2⟩ => congrArg₂ _ h1 h2⟩
    rw [hhead, RoomBehind, PrintsItself, ← ih]
    constructor
    · rintro ⟨⟨hroom, hrest⟩, hc, heq⟩
      exact ⟨by omega, hrest, heq⟩
    · rintro ⟨hc, hrest, heq⟩
      exact ⟨⟨by omega, hrest⟩, by omega, heq⟩

/-- **When the conversion is right.** -/
theorem hexRight_iff (content : List UInt8) : HexRight content ↔ PrintsItself content := by
  rw [← strToHex_eq_iff]
  constructor
  · intro h
    have hdigits := h.digits fun _ => 0
    rw [strToHexIn_eq] at hdigits
    split at hdigits
    case isTrue hroom => exact ⟨hroom, Option.some.inj hdigits⟩
    case isFalse => cases hdigits
  · rintro ⟨hroom, heq⟩
    refine ⟨fun buf => ?_, hexToStr_upperHex content⟩
    rw [strToHexIn_eq, if_pos hroom, heq]

/-- **One byte below zero**: its digits are lost, and the buffer of four bytes gets nine. -/
theorem negative_not_hexRight : ¬ HexRight [128] := by
  rw [hexRight_iff]
  rintro ⟨h, -⟩
  revert h
  decide

end MysqlProxy
