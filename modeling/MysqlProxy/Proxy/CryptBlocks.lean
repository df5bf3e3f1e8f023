/-
  What the two sides make of an encrypted content.

  `ecb_crypt` treats its data in blocks of 8 bytes (`Ecb.Applies`).  The loops give it 512 bytes at
  a time, which is the same (`cryptLoop_blocks`), so that a content is encrypted as if in one piece
  and `Decrypt` finds it again.

  The length in front of the bytes is sent by the other side.  `Decrypt` reads it into an `int`, and
  -4 to -1 pass the test in which it meets an unsigned number.
-/
import MysqlProxy.Lib.Blocks
import MysqlProxy.Proxy.Crypt
import Mathlib.Logic.Equiv.Basic

namespace MysqlProxy

/-! ## Block ciphers -/

/-- A bijection of the blocks of 8 bytes for every key. -/
structure BlockCipher where
  block : DesMode → List UInt8 → List UInt8 → List UInt8
  length_block : ∀ mode key b, b.length = 8 → (block mode key b).length = 8
  decrypt_encrypt : ∀ key b, b.length = 8 → block .decrypt key (block .encrypt key b) = b
  encrypt_decrypt : ∀ key b, b.length = 8 → block .encrypt key (block .decrypt key b) = b

/-- `ecb_crypt` applies the cipher to the blocks of its data, up to the 8192 bytes it may be
    given. -/
def Ecb.Applies (ecb : Ecb) (cipher : BlockCipher) : Prop :=
  ∀ mode key data, 8 ∣ data.length → data.length ≤ 8192 →
    ecb.crypt mode key data = some (onBlocks 8 (cipher.block mode key) data)

/-! ## The loop in pieces -/

theorem dvd_min_512 {m : Nat} (h : 8 ∣ m) : 8 ∣ min m max_encrypt_length := by
  rw [Nat.min_def]
  split
  · exact h
  · decide

/-- **Pieces of 512 bytes are as good as one.** -/
theorem cryptLoop_blocks {crypt : List UInt8 → Option (List UInt8)} {f : List UInt8 → List UInt8}
    (hcrypt : ∀ data, 8 ∣ data.length → data.length ≤ 8192 → crypt data = some (onBlocks 8 f data))
    {count : Nat → Nat} (hcount : ∀ m < 2 ^ 31, count m = m) (n : Nat) :
    ∀ rest : List UInt8, 8 ∣ rest.length → rest.length < 2 ^ 31 → rest.length < n →
      cryptLoop crypt count n rest = some (onBlocks 8 f rest) := by
  induction n with
  | zero => exact fun rest _ _ hn => absurd hn (Nat.not_lt_zero _)
  | succ n ih =>
    intro rest hdvd hlt hn
    rw [cryptLoop, hcount _ hlt]
    by_cases h0 : rest.length = 0
    · rw [if_pos h0, List.length_eq_zero_iff.mp h0, onBlocks_nil]
    · rw [if_neg h0]
      have hpiece := dvd_min_512 hdvd
      have hle : min rest.length max_encrypt_length ≤ rest.length := Nat.min_le_left _ _
      have hle' : min rest.length max_encrypt_length ≤ 512 := Nat.min_le_right _ _
      have hpos : 0 < min rest.length max_encrypt_length := by
        rw [Nat.lt_min]
        exact ⟨Nat.pos_of_ne_zero h0, by decide⟩
      generalize min rest.length max_encrypt_length = piece at *
      have htake : (rest.take piece).length = piece := by
        rw [List.length_take]
        omega
      have hdrop : (rest.drop piece).length = rest.length - piece := List.length_drop
      have hrec := ih (rest.drop piece) (by rw [hdrop]; exact Nat.dvd_sub hdvd hpiece)
        (by omega) (by omega)
      have hone := hcrypt (rest.take piece) (by rw [htake]; exact hpiece) (by omega)
      show (crypt (rest.take piece)).bind _ = _
      rw [hone, Option.bind_some, hrec, Option.map_some, ← onBlocks_append (by decide),
        List.take_append_drop]
      rw [htake]
      exact hpiece

/-! ## Encrypting -/

/-- The source: the length, the content, and spaces up to a multiple of 8. -/
theorem encryptSource_eq (content : List UInt8) : ∃ spaces, spaces < 8 ∧
    encryptSource content = leBytes 4 content.length ++ content ++ List.replicate spaces 32 ∧
    (encryptSource content).length = 4 + content.length + spaces ∧
    8 ∣ (encryptSource content).length := by
  have hlen : (leBytes 4 content.length ++ content).length = 4 + content.length := by
    rw [List.length_append, length_leBytes]
  rw [encryptSource]
  simp only [hlen]
  by_cases h : (4 + content.length) % 8 ≠ 0
  · refine ⟨8 - (4 + content.length) % 8, by omega, ?_⟩
    rw [if_pos h, List.length_append, hlen, List.length_replicate]
    refine ⟨rfl, rfl, ?_⟩
    omega
  · refine ⟨0, by decide, ?_⟩
    rw [if_neg h, hlen]
    refine ⟨(List.append_nil _).symm, rfl, ?_⟩
    omega

theorem int32_toNat_of_lt (m : Nat) (h : m < 2 ^ 31) : (int32 m).toNat = m := by
  rw [int32_of_lt (by omega) (by omega)]
  exact Int.toNat_natCast m

/-- The end of `Decrypt` finds what was sent. -/
theorem decrypted_encryptSource {content : List UInt8} (h : content.length < 2 ^ 31 - 16) :
    decrypted (encryptSource content) = content := by
  obtain ⟨spaces, hspaces, hsource, hlen, hdvd⟩ := encryptSource_eq content
  have hprefix : leNat ((encryptSource content).take 4) = content.length := by
    rw [hsource, List.append_assoc, List.take_left' (length_leBytes _ _), leNat_leBytes,
      Nat.mod_eq_of_lt (by omega)]
  have hint : int32 (content.length : Nat) = content.length := int32_of_lt (by omega) (by omega)
  rw [decrypted, hprefix]
  simp only [hint]
  rw [if_pos (by omega), if_pos (by omega), if_neg (by omega), hsource, List.append_assoc,
    List.drop_left' (length_leBytes _ _), Int.toNat_natCast, List.take_left]

/-- **A content is encrypted as if in one piece, and both sides decrypt it again.** -/
theorem encrypt_roundTrip {ecb : Ecb} {cipher : BlockCipher} (h : ecb.Applies cipher)
    (key content : List UInt8) (hlen : content.length < 2 ^ 31 - 16) :
    (∃ spaces, spaces < 8 ∧ 8 ∣ 4 + content.length + spaces ∧ encrypt ecb key content =
      onBlocks 8 (cipher.block .encrypt key)
        (leBytes 4 content.length ++ content ++ List.replicate spaces 32)) ∧
    serverDecrypt ecb key (encrypt ecb key content) = content ∧
    decrypt ecb key (encrypt ecb key content) = content := by
  obtain ⟨spaces, hspaces, hsource, hslen, hdvd⟩ := encryptSource_eq content
  have hone : encrypt ecb key content =
      onBlocks 8 (cipher.block .encrypt key) (encryptSource content) := by
    have htake : (encryptSource content).take ((encryptSource content).length % 2 ^ 32) =
        encryptSource content := by
      rw [Nat.mod_eq_of_lt (by omega), List.take_length]
    have hloop : cryptLoop (ecb.crypt .encrypt key) id ((encryptSource content).length + 1)
        (encryptSource content) =
          some (onBlocks 8 (cipher.block .encrypt key) (encryptSource content)) :=
      cryptLoop_blocks (h .encrypt key) (fun _ _ => rfl) _ _ hdvd (by omega) (Nat.lt_succ_self _)
    rw [encrypt]
    simp only [htake]
    rw [hloop]
    rfl
  -- the ciphertext is as long as the source
  have hclen : (encrypt ecb key content).length = (encryptSource content).length := by
    rw [hone]
    exact length_onBlocks (by decide) (cipher.length_block .encrypt key) hdvd
  have hall : decryptAll ecb key (encrypt ecb key content) = content := by
    rw [decryptAll, cryptLoop_blocks (h .decrypt key) int32_toNat_of_lt _ _
      (by rw [hclen]; exact hdvd) (by omega) (Nat.lt_succ_self _), hone,
      onBlocks_undo (by decide) (cipher.length_block .encrypt key) (cipher.decrypt_encrypt key)
        hdvd]
    exact decrypted_encryptSource hlen
  refine ⟨⟨spaces, hspaces, by rw [← hslen]; exact hdvd, by rw [hone, hsource]⟩, ?_, ?_⟩
  · have hint : int32 ((encrypt ecb key content).length : Nat) = (encrypt ecb key content).length :=
      int32_of_lt (by omega) (by omega)
    rw [serverDecrypt, hint, if_neg (by omega)]
    exact hall
  · rw [decrypt, if_neg (by omega)]
    exact hall

/-- The cipher that exchanges two blocks under one key, as far as DES with this key is known. -/
def BlockCipher.exchange (key plain cipher : List UInt8) (hp : plain.length = 8)
    (hc : cipher.length = 8) : BlockCipher where
  block _ k b := if k = key then Equiv.swap plain cipher b else b
  length_block _ k b hb := by
    split
    · rw [Equiv.swap_apply_def]
      split
      · exact hc
      · split
        · exact hp
        · exact hb
    · exact hb
  decrypt_encrypt k b _ := by
    split
    · exact Equiv.swap_apply_self _ _ _
    · rfl
  encrypt_decrypt k b _ := by
    split
    · exact Equiv.swap_apply_self _ _ _
    · rfl

/-- An `ecb_crypt` that fails on everything else. -/
def Ecb.ofCipher (cipher : BlockCipher) : Ecb where
  crypt mode key data :=
    if 8 ∣ data.length ∧ data.length ≤ 8192 then some (onBlocks 8 (cipher.block mode key) data)
      else none
  length_crypt := by
    intro mode key data out h
    split at h
    case isTrue hdata =>
      cases h
      exact length_onBlocks (by decide) (cipher.length_block mode key) hdata.1
    case isFalse => cases h

theorem Ecb.ofCipher_applies (cipher : BlockCipher) : (Ecb.ofCipher cipher).Applies cipher :=
  fun _ _ _ hdvd hle => if_pos ⟨hdvd, hle⟩

/-- The DES key of the password "a". -/
def keyOfA : List UInt8 := [194, 1, 1, 1, 1, 1, 1, 1]

/-- DES with this key, on the block of the content "ab". -/
def cipherOfAb : BlockCipher :=
  .exchange keyOfA [2, 0, 0, 0, 97, 98, 32, 32] [70, 105, 170, 155, 124, 17, 41, 210] rfl rfl

theorem encrypt_roundTrip_ab :
    encrypt (.ofCipher cipherOfAb) keyOfA [97, 98] = [70, 105, 170, 155, 124, 17, 41, 210] ∧
    serverDecrypt (.ofCipher cipherOfAb) keyOfA [70, 105, 170, 155, 124, 17, 41, 210] = [97, 98] ∧
    decrypt (.ofCipher cipherOfAb) keyOfA [70, 105, 170, 155, 124, 17, 41, 210] = [97, 98] := by
  obtain ⟨_, hserver, hclient⟩ :=
    encrypt_roundTrip (Ecb.ofCipher_applies cipherOfAb) keyOfA [97, 98] (by decide)
  have henc : encrypt (.ofCipher cipherOfAb) keyOfA [97, 98] =
    [70, 105, 170, 155, 124, 17, 41, 210] := by
    decide +kernel
  rw [henc] at hserver hclient
  exact ⟨henc, hserver, hclient⟩

/-! ## The length of the other side -/

/-- `result` of `Decrypt` of the client, before the length is looked at. -/
def decryptedBytes (ecb : Ecb) (key content : List UInt8) : List UInt8 :=
  if content.length < 4 then []
  else (cryptLoop (ecb.crypt .decrypt key) (fun n => (int32 n).toNat)
    (content.length + 1) content).getD []

/-- `result` of `Decrypt` of the server. -/
def serverDecryptedBytes (ecb : Ecb) (key content : List UInt8) : List UInt8 :=
  if int32 content.length % 2 ^ 64 < 4 then []
  else (cryptLoop (ecb.crypt .decrypt key) (fun n => (int32 n).toNat)
    (content.length + 1) content).getD []

/-- The length that the decrypted bytes begin with. -/
def lengthPrefix (result : List UInt8) : Nat := leNat (result.take 4)

/-- The bytes that are returned are as many as the length says, and they are there. -/
def HonoursLength (result out : List UInt8) : Prop :=
  (out ≠ [] → 1 ≤ lengthPrefix result ∧ lengthPrefix result + 4 ≤ result.length) ∧
  (1 ≤ lengthPrefix result → lengthPrefix result + 4 ≤ result.length →
    out = (result.drop 4).take (lengthPrefix result))

/-- An `int` counts down with the bytes that are taken. -/
theorem int32_sub {x y : Int} (h0 : 0 ≤ y) (h : y ≤ int32 x) : int32 (x - y) = int32 x - y := by
  have hlt := int32_lt x
  have hmod : int32 (x - y) = int32 (int32 x - y) := Int.bmod_sub_bmod.symm
  rw [hmod]
  exact int32_of_lt (by omega) (by omega)

/-- The loop of `Decrypt` takes as many bytes as the `int` says, at most. -/
theorem length_cryptLoop_int {crypt : List UInt8 → Option (List UInt8)}
    (hcrypt : ∀ {data out}, crypt data = some out → out.length = data.length) (n : Nat) :
    ∀ {rest out : List UInt8}, cryptLoop crypt (fun n => (int32 n).toNat) n rest = some out →
      out.length ≤ (int32 rest.length).toNat := by
  induction n with
  | zero =>
    intro rest out h
    cases h
    exact Nat.zero_le _
  | succ n ih =>
    intro rest out h
    rw [cryptLoop] at h
    have hle : (int32 rest.length).toNat ≤ rest.length := by
      have := int32_le (x := rest.length) (by omega)
      omega
    generalize hc : (int32 rest.length).toNat = c at *
    by_cases h0 : c = 0
    · rw [if_pos h0] at h
      cases h
      exact Nat.zero_le _
    · rw [if_neg h0] at h
      obtain ⟨data, hdata, h⟩ := Option.bind_eq_some_iff.mp h
      obtain ⟨out', hout, rfl⟩ := Option.map_eq_some_iff.mp h
      have hmin : min c max_encrypt_length ≤ c := Nat.min_le_left _ _
      generalize min c max_encrypt_length = piece at *
      have hrec := ih hout
      have hsub : int32 ((rest.drop piece).length : Nat) = int32 rest.length - piece := by
        have hlen : (((rest.drop piece).length : Nat) : Int) = (rest.length : Int) - piece := by
          rw [List.length_drop]
          omega
        rw [hlen]
        exact int32_sub (by omega) (by omega)
      have htake : data.length ≤ piece := by
        rw [hcrypt hdata, List.length_take]
        exact Nat.min_le_left _ _
      rw [List.length_append]
      omega

/-- **The length is honoured** unless it is one of the last four. -/
theorem honoursLength_decrypted {result : List UInt8} (hlt : result.length < 2 ^ 31) :
    HonoursLength result (decrypted result) ↔
      (result.length ≤ 4 ∨ lengthPrefix result < 2 ^ 32 - 4) := by
  have hprefix : lengthPrefix result < 2 ^ 32 := by
    have h := leNat_lt (result.take 4)
    have hlen : (result.take 4).length ≤ 4 := List.length_take_le _ _
    have hpow : 256 ^ (result.take 4).length ≤ 256 ^ 4 := Nat.pow_le_pow_right (by decide) hlen
    rw [lengthPrefix]
    omega
  have hdrop : (result.drop 4).length = result.length - 4 := List.length_drop
  rw [HonoursLength, decrypted]
  rw [show leNat (result.take 4) = lengthPrefix result from rfl]
  generalize lengthPrefix result = len at *
  by_cases h4 : 4 < result.length
  · rw [if_pos h4]
    by_cases hsmall : len < 2 ^ 31
    · -- a positive length: the test is the one that is meant
      have hint : int32 (len : Nat) = len := int32_of_lt (by omega) (by omega)
      have htest : ((len : Int) + 4) % 2 ^ 64 ≤ result.length ↔ len + 4 ≤ result.length := by omega
      have hpos : ¬ (len : Int) < 0 := by omega
      simp only [hint, htest, if_neg hpos, Int.toNat_natCast]
      refine iff_of_true ⟨fun hne => ?_, fun _ hle => if_pos hle⟩ (.inr (by omega))
      split at hne
      case isTrue hle =>
        refine ⟨?_, hle⟩
        rw [Nat.one_le_iff_ne_zero]
        rintro rfl
        exact hne List.take_zero
      case isFalse => exact absurd rfl hne
    · have hint : int32 (len : Nat) = (len : Int) - 2 ^ 32 := by
        rw [int32, Int.bmod_def]
        split <;> omega
      have hneg : (len : Int) - 2 ^ 32 < 0 := by omega
      simp only [hint, if_pos hneg]
      by_cases hlast : len < 2 ^ 32 - 4
      · -- a negative length that is a large number
        rw [if_neg (by omega)]
        exact iff_of_true ⟨fun h => absurd rfl h, fun _ hle => by omega⟩ (.inr hlast)
      · -- -4 to -1: the sum wraps around
        rw [if_pos (by omega), List.take_of_length_le (by omega)]
        refine iff_of_false (fun h => ?_) (by omega)
        have hne : result.drop 4 ≠ [] := by
          rw [← List.length_pos_iff]
          omega
        have := (h.1 hne).2
        omega
  · rw [if_neg h4]
    exact ⟨fun _ => .inl (by omega), fun _ => ⟨fun h => absurd rfl h, fun _ _ => by omega⟩⟩

/-- **Both sides honour the length** unless more than 4 bytes come with one from `2^32 - 4` on. -/
theorem decrypt_honoursLength (ecb : Ecb) (key content : List UInt8) :
    (HonoursLength (serverDecryptedBytes ecb key content) (serverDecrypt ecb key content) ↔
      ((serverDecryptedBytes ecb key content).length ≤ 4 ∨
        lengthPrefix (serverDecryptedBytes ecb key content) < 2 ^ 32 - 4)) ∧
    (HonoursLength (decryptedBytes ecb key content) (decrypt ecb key content) ↔
      ((decryptedBytes ecb key content).length ≤ 4 ∨
        lengthPrefix (decryptedBytes ecb key content) < 2 ^ 32 - 4)) := by
  have hloop : ((cryptLoop (ecb.crypt .decrypt key) (fun n => (int32 n).toNat) (content.length + 1)
      content).getD []).length < 2 ^ 31 := by
    cases hl : cryptLoop (ecb.crypt .decrypt key) (fun n => (int32 n).toNat) (content.length + 1)
      content with
    | none => exact Nat.two_pow_pos 31
    | some out =>
      have hle := length_cryptLoop_int ecb.length_crypt _ hl
      have hlt := int32_lt content.length
      show out.length < 2 ^ 31
      omega
  have hshort : ([] : List UInt8).length < 2 ^ 31 := Nat.two_pow_pos 31
  have hnil : decrypted [] = [] := rfl
  constructor
  · rw [serverDecrypt, serverDecryptedBytes]
    by_cases h : int32 content.length % 2 ^ 64 < 4
    · rw [if_pos h, if_pos h]
      exact honoursLength_decrypted hshort
    · rw [if_neg h, if_neg h]
      exact honoursLength_decrypted hloop
  · rw [decrypt, decryptedBytes]
    by_cases h : content.length < 4
    · rw [if_pos h, if_pos h]
      exact honoursLength_decrypted hshort
    · rw [if_neg h, if_neg h]
      exact honoursLength_decrypted hloop

/-- DES on the block of the length -1 and the bytes "abcd". -/
def cipherOfMinusOne : BlockCipher :=
  .exchange keyOfA [255, 255, 255, 255, 97, 98, 99, 100] [224, 148, 2, 96, 190, 5, 108, 54] rfl rfl

/-- The length -1 passes, and all the bytes behind it are returned. -/
theorem decrypt_minusOne :
    serverDecrypt (.ofCipher cipherOfMinusOne) keyOfA [224, 148, 2, 96, 190, 5, 108, 54] =
      [97, 98, 99, 100] ∧
    ¬ HonoursLength
      (serverDecryptedBytes (.ofCipher cipherOfMinusOne) keyOfA [224, 148, 2, 96, 190, 5, 108, 54])
      (serverDecrypt (.ofCipher cipherOfMinusOne) keyOfA [224, 148, 2, 96, 190, 5, 108, 54]) := by
  have hout : serverDecrypt (.ofCipher cipherOfMinusOne) keyOfA [224, 148, 2, 96, 190, 5, 108, 54] =
      [97, 98, 99, 100] := by
    decide +kernel
  have hbytes : serverDecryptedBytes (.ofCipher cipherOfMinusOne) keyOfA
      [224, 148, 2, 96, 190, 5, 108, 54] = [255, 255, 255, 255, 97, 98, 99, 100] := by
    decide +kernel
  refine ⟨hout, fun h => ?_⟩
  rw [hout, hbytes] at h
  exact absurd (h.1 (List.cons_ne_nil _ _)).2 (by decide)

end MysqlProxy
