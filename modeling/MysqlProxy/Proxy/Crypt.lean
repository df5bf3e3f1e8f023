/-
  `Encrypt` and `Decrypt` (`mysql_proxy_api.cpp`, `mysql_proxy_server.cpp`).

  A content is sent as its length in four bytes, the bytes themselves and spaces up to a multiple of
  8, DES-encrypted in pieces of 512 bytes.  Both functions answer with the empty string when they
  fail.

  `ecb_crypt` is not part of the repository: it is the field `crypt` of an `Ecb`.  It works in
  place, so what it returns is as long as what it was given.
-/
import MysqlProxy.Lib.Machine
import MysqlProxy.Knv.Pb

namespace MysqlProxy

/-- The last argument of `ecb_crypt`. -/
inductive DesMode where
  | encrypt
  | decrypt
  deriving DecidableEq, Repr

/-- `ecb_crypt` with a key; `none` if `DES_FAILED` of what it returns. -/
structure Ecb where
  crypt : DesMode → List UInt8 → List UInt8 → Option (List UInt8)
  length_crypt : ∀ {mode key data out}, crypt mode key data = some out → out.length = data.length

def max_encrypt_length : Nat := 512

/-- The loop of both functions, piece by piece.  `count` is the width of `length`. -/
def cryptLoop (crypt : List UInt8 → Option (List UInt8)) (count : Nat → Nat) :
    Nat → List UInt8 → Option (List UInt8)
  | 0, _ => some []
  | n + 1, rest =>
    if count rest.length = 0 then some []
    else
      let length := min (count rest.length) max_encrypt_length
      (crypt (rest.take length)).bind fun data =>
        (cryptLoop crypt count n (rest.drop length)).map (data ++ ·)

/-- `source`: the length, the content and the spaces. -/
def encryptSource (content : List UInt8) : List UInt8 :=
  let source := leBytes 4 content.length ++ content
  if source.length % 8 ≠ 0 then source ++ List.replicate (8 - source.length % 8) 32 else source

def encrypt (ecb : Ecb) (key content : List UInt8) : List UInt8 :=
  let source := encryptSource content
  -- `length` is unsigned here, and counts down
  let source := source.take (source.length % 2 ^ 32)
  (cryptLoop (ecb.crypt .encrypt key) id (source.length + 1) source).getD []

/-- The end of `Decrypt`: the bytes behind the length, if there are that many.  A length from `2^31`
    on is negative, and the sum wraps around. -/
def decrypted (result : List UInt8) : List UInt8 :=
  if 4 < result.length then
    let length := int32 (leNat (result.take 4))
    if (length + 4) % 2 ^ 64 ≤ result.length then
      (result.drop 4).take (if length < 0 then result.length else length.toNat)
    else []
  else []

/-- The loop and the end of `Decrypt`; `length` is an `int`. -/
def decryptAll (ecb : Ecb) (key content : List UInt8) : List UInt8 :=
  let result := cryptLoop (ecb.crypt .decrypt key) (fun n => (int32 n).toNat)
    (content.length + 1) content
  decrypted (result.getD [])

/-- `Decrypt` of the client. -/
def decrypt (ecb : Ecb) (key content : List UInt8) : List UInt8 :=
  if content.length < 4 then [] else decryptAll ecb key content

/-- `Decrypt` of the server looks at the `int` in the first test: a negative one is large. -/
def serverDecrypt (ecb : Ecb) (key content : List UInt8) : List UInt8 :=
  if int32 content.length % 2 ^ 64 < 4 then [] else decryptAll ecb key content

/-! ## DES on a few blocks -/

namespace Ecb

variable (table : List (List UInt8 × List UInt8))

/-- What the table says about a block of eight bytes. -/
def tableBlock (mode : DesMode) (block : List UInt8) : Option (List UInt8) :=
  match mode with
  | .encrypt => (table.find? fun e => e.1 = block ∧ e.2.length = 8).map Prod.snd
  | .decrypt => (table.find? fun e => e.2 = block ∧ e.1.length = 8).map Prod.fst

/-- Block by block; an odd end fails. -/
def tableCrypt (mode : DesMode) : Nat → List UInt8 → Option (List UInt8)
  | 0, _ => none
  | n + 1, data =>
    if data = [] then some []
    else if data.length < 8 then none
    else (tableBlock table mode (data.take 8)).bind fun block =>
      (tableCrypt mode n (data.drop 8)).map (block ++ ·)

theorem length_tableBlock {mode : DesMode} {block out : List UInt8}
    (h : tableBlock table mode block = some out) : out.length = 8 := by
  cases mode with
  | encrypt =>
    obtain ⟨e, he, rfl⟩ := Option.map_eq_some_iff.mp h
    have := List.find?_some he
    simp only [decide_eq_true_eq] at this
    exact this.2
  | decrypt =>
    obtain ⟨e, he, rfl⟩ := Option.map_eq_some_iff.mp h
    have := List.find?_some he
    simp only [decide_eq_true_eq] at this
    exact this.2

theorem length_tableCrypt {mode : DesMode} {n : Nat} {data out : List UInt8}
    (h : tableCrypt table mode n data = some out) : out.length = data.length := by
  induction n generalizing data out with
  | zero => cases h
  | succ n ih =>
    rw [tableCrypt] at h
    split at h
    case isTrue hnil =>
      cases h
      rw [hnil]
    case isFalse =>
      split at h
      case isTrue => cases h
      case isFalse hlen =>
        obtain ⟨block, hblock, hrest⟩ := Option.bind_eq_some_iff.mp h
        obtain ⟨rest, hr, rfl⟩ := Option.map_eq_some_iff.mp hrest
        rw [List.length_append, length_tableBlock table hblock, ih hr, List.length_drop]
        omega

/-- `ecb_crypt` with one key, as far as a table of blocks goes. -/
def ofTable (key : List UInt8) : Ecb where
  crypt mode k data := if k = key then tableCrypt table mode (data.length + 1) data else none
  length_crypt h := by
    split at h
    · exact length_tableCrypt table h
    · cases h

end Ecb

end MysqlProxy
