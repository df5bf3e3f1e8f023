/-
  The size evaluator (`pb_eval_vint_length`, `pb_eval_tag_length`, `pb_eval_field_length` of
  `knv/pb.h`) beside the encoder of `knv/pb.c`.

  The two are separate code.  The evaluator counts rounds of a shift loop of its own and adds up in
  machine integers; the encoder fills a ten-byte buffer and checks the room before each piece.  Every
  cached size of a node and every buffer rests on their agreement:

  1. **The loops agree** (`vintLength_eq`): the evaluator's loop counts the bytes the encoder's loop
     writes, and the ten bytes of its buffer are enough for every word (`vintLoop_ten`).
  2. **The sums agree** (`fieldLength_eq`): below `2 ^ 31` the `uint32_t` sum and the `int` it is
     returned as are exact.
  3. **The room checks agree** (`pbAddFieldVal_adds`): the checks of the pieces add up to one check
     of the whole field.
-/
import MysqlProxy.Knv.Pb
import MysqlProxy.Lib.Machine

namespace MysqlProxy

namespace PbEval

/-! ## The evaluator -/

/-- `while (value) { value >>= 7; eval_length++; }` -/
def vintLengthLoop (value eval_length : Nat) : Nat :=
  if value = 0 then eval_length else vintLengthLoop (value / 128) (eval_length + 1)
termination_by value
decreasing_by exact Nat.div_lt_self (by omega) (by omega)

/-- `pb_eval_vint_length`. -/
def vintLength (value : UInt64) : Nat :=
  if value = 0 then 1 else vintLengthLoop value.toNat 0

/-- `pb_eval_tag_length`. -/
def tagLength (wiretype : WireType) (field_number : UInt32) : Nat :=
  vintLength (tagWord wiretype field_number)

/-- `pb_eval_field_length`.  `val->str.len` is a `uint32_t`, and so is the sum it is part of; the
    result is an `int`. -/
def fieldLength (tag : UInt32) : FieldVal → Int
  | .varint i64 => int32 (tagLength .varint tag + vintLength i64)
  | .fixed64 _ => int32 (tagLength .fixed64 tag + 8)
  | .fixed32 _ => int32 (tagLength .fixed32 tag + 4)
  | .string str =>
    let len := str.length % 2 ^ 32
    int32 ((tagLength .string tag + vintLength (UInt64.ofNat len) + len) % 2 ^ 32 : Nat)

/-! ## The loops agree -/

/-- `k` rounds of the encoder's loop are enough for `7 * k` bits, and the evaluator's loop counts
    their bytes. -/
theorem vintLengthLoop_eq {k value : Nat} (eval_length : Nat) (h : value < 2 ^ (7 * k)) :
    vintLengthLoop value eval_length = eval_length + (vintLoop k value).length := by
  induction k generalizing value eval_length with
  | zero =>
    have h0 : value = 0 := by simpa using h
    rw [h0, vintLengthLoop]
    rfl
  | succ k ih =>
    rw [vintLengthLoop, vintLoop]
    split
    · rfl
    · have hdiv : value / 128 < 2 ^ (7 * k) := by
        rw [Nat.mul_succ, Nat.pow_add] at h
        omega
      rw [ih _ hdiv, List.length_cons]
      omega

/-- No word fills more than `buffer[10]`: more rounds would add nothing. -/
theorem vintLoop_ten {value n : Nat} (h : value < 2 ^ 64) (hn : 10 ≤ n) :
    (vintLoop n value).length = (vintLoop 10 value).length := by
  have h10 : value < 2 ^ (7 * 10) := by omega
  have hn' : value < 2 ^ (7 * n) :=
    Nat.lt_of_lt_of_le h10 (Nat.pow_le_pow_right (by decide) (by omega))
  have := vintLengthLoop_eq 0 h10
  have := vintLengthLoop_eq 0 hn'
  omega

/-- **The evaluator's loop counts what the encoder's loop writes.** -/
theorem vintLength_eq (value : UInt64) : vintLength value = pbEvalVintLength value := by
  unfold vintLength pbEvalVintLength
  split
  · rfl
  · have hlt : value.toNat < 2 ^ 64 := value.toNat_lt
    rw [vintLengthLoop_eq (k := 10) 0 (by omega), Nat.zero_add]

theorem tagLength_eq (wiretype : WireType) (field_number : UInt32) :
    tagLength wiretype field_number = pbEvalTagLength wiretype field_number :=
  vintLength_eq _

/-! ## The sums agree -/

/-- **Below `2 ^ 31` the evaluator's `int` is the number of bytes of the field.** -/
theorem fieldLength_eq {tag : UInt32} {val : FieldVal} (h : (fieldBytes tag val).length < 2 ^ 31) :
    fieldLength tag val = ((fieldBytes tag val).length : Int) := by
  rw [length_fieldBytes] at h ⊢
  cases val with
  | varint i64 =>
    simp only [fieldLength, pbEvalFieldLength, tagLength_eq, vintLength_eq] at h ⊢
    exact int32_of_lt (by omega) (by omega)
  | fixed64 i64 =>
    simp only [fieldLength, pbEvalFieldLength, tagLength_eq] at h ⊢
    exact int32_of_lt (by omega) (by omega)
  | fixed32 i32 =>
    simp only [fieldLength, pbEvalFieldLength, tagLength_eq] at h ⊢
    exact int32_of_lt (by omega) (by omega)
  | string str =>
    simp only [pbEvalFieldLength, pbEvalStringLength] at h
    have hlen : str.length % 2 ^ 32 = str.length := Nat.mod_eq_of_lt (by omega)
    simp only [fieldLength, pbEvalFieldLength, pbEvalStringLength, tagLength_eq, vintLength_eq, hlen]
    rw [Nat.mod_eq_of_lt (by omega)]
    exact int32_of_lt (by omega) (by omega)

/-- Only a string can be long. -/
theorem length_fieldBytes_lt {tag : UInt32} {val : FieldVal}
    (h : ∀ str, val = .string str → (fieldBytes tag (.string str)).length < 2 ^ 31) :
    (fieldBytes tag val).length < 2 ^ 31 := by
  cases val with
  | string str => exact h str rfl
  | varint i64 =>
    have htag := pbEvalVintLength_le (tagWord .varint tag)
    have hval := pbEvalVintLength_le i64
    rw [length_fieldBytes, pbEvalFieldLength, pbEvalTagLength]
    omega
  | fixed64 i64 =>
    have htag := pbEvalVintLength_le (tagWord .fixed64 tag)
    rw [length_fieldBytes, pbEvalFieldLength, pbEvalTagLength]
    omega
  | fixed32 i32 =>
    have htag := pbEvalVintLength_le (tagWord .fixed32 tag)
    rw [length_fieldBytes, pbEvalFieldLength, pbEvalTagLength]
    omega

/-! ## The room checks agree -/

/-- The outcome of a call that adds `bytes` or fails. -/
def Adds (call : Except Int PbBuff) (b : PbBuff) (bytes : List UInt8) : Prop :=
  if bytes.length ≤ b.left then call = .ok (b.push bytes) else ∃ code < 0, call = .error code

theorem pbAdd_adds (b : PbBuff) (buf : List UInt8) : Adds (pbAdd b buf) b buf := by
  unfold Adds
  split
  · rename_i h
    exact pbAdd_ok h
  · rename_i h
    exact ⟨-1, by decide, if_pos (by omega)⟩

theorem Adds.orFail {call : Except Int PbBuff} {b : PbBuff} {bytes : List UInt8} {code : Int}
    (h : Adds call b bytes) (hcode : code < 0) : Adds (orFail call code) b bytes := by
  unfold Adds at h ⊢
  split at h <;> rename_i hroom
  · rw [if_pos hroom, h]
    rfl
  · obtain ⟨c, -, rfl⟩ := h
    rw [if_neg hroom]
    exact ⟨code, hcode, rfl⟩

/-- Two pieces, each with a check of its own, are one piece. -/
theorem Adds.bind {call : Except Int PbBuff} {b : PbBuff} {l l' : List UInt8}
    {next : PbBuff → Except Int PbBuff} (h : Adds call b l)
    (hn : Adds (next (b.push l)) (b.push l) l') : Adds (call >>= next) b (l ++ l') := by
  have hleft : (b.push l).left = b.left - l.length := rfl
  unfold Adds at h hn ⊢
  rw [List.length_append]
  rw [hleft] at hn
  split at h
  · rename_i hroom
    rw [h, show (Except.ok (b.push l) >>= next) = next (b.push l) from rfl]
    split at hn
    · rw [if_pos (by omega), hn, PbBuff.push_push]
    · rw [if_neg (by omega)]
      exact hn
  · obtain ⟨c, hc, rfl⟩ := h
    rw [if_neg (by omega)]
    exact ⟨c, hc, rfl⟩

/-- `pb_add_field_val` adds the bytes of the field, or fails. -/
theorem pbAddFieldVal_adds (b : PbBuff) (tag : UInt32) (val : FieldVal) :
    Adds (pbAddFieldVal b tag val) b (fieldBytes tag val) := by
  unfold pbAddFieldVal fieldBytes
  refine ((pbAdd_adds b (vintBytes (tagWord val.type tag))).orFail (by decide)).bind ?_
  cases val with
  | varint i64 => exact pbAdd_adds _ _
  | fixed64 i64 => exact pbAdd_adds _ _
  | string str => exact ((pbAdd_adds _ _).orFail (by decide)).bind (pbAdd_adds _ _)
  | fixed32 i32 => exact pbAdd_adds _ _

/-- The bytes of a `STRING` field in front of its payload. -/
def headBytes (tag : UInt32) (size : Nat) : List UInt8 :=
  vintBytes (tagWord .string tag) ++ vintBytes (UInt64.ofNat size)

theorem pbAddStringHead_adds (b : PbBuff) (tag : UInt32) (size : Nat) :
    Adds (pbAddStringHead b tag size) b (headBytes tag size) :=
  ((pbAdd_adds b (vintBytes (tagWord .string tag))).orFail (by decide)).bind (pbAdd_adds _ _)

theorem fieldBytes_string (tag : UInt32) (str : List UInt8) :
    fieldBytes tag (.string str) = headBytes tag str.length ++ str := by
  unfold fieldBytes headBytes valBytes
  rw [List.append_assoc]
  rfl

/-- What a call has to do that adds `length` bytes to `b`: succeed exactly with that much room, and
    then advance by that much. -/
def Agrees (call : Except Int PbBuff) (b : PbBuff) (length : Int) : Prop :=
  ((∃ b', call = .ok b') ↔ length ≤ (b.left : Int)) ∧
  ∀ b', call = .ok b' → (b'.left : Int) = b.left - length ∧
    ∃ bytes, (bytes.length : Int) = length ∧ b'.out = b.out ++ bytes

theorem Adds.agrees {call : Except Int PbBuff} {b : PbBuff} {bytes : List UInt8}
    (h : Adds call b bytes) : Agrees call b (bytes.length : Int) := by
  unfold Adds at h
  split at h
  · rename_i hroom
    subst h
    refine ⟨⟨fun _ => by omega, fun _ => ⟨_, rfl⟩⟩, ?_⟩
    rintro b' ⟨⟩
    have hleft : (b.push bytes).left = b.left - bytes.length := rfl
    exact ⟨by omega, bytes, rfl, rfl⟩
  · obtain ⟨c, -, rfl⟩ := h
    refine ⟨⟨?_, fun _ => by omega⟩, ?_⟩
    · rintro ⟨b', ⟨⟩⟩
    · rintro b' ⟨⟩

/-- **The size evaluator agrees with the encoder**: for every field, a string below `2 ^ 31` bytes in
    total, `pb_add_field_val` succeeds exactly with room for the evaluated length, and then adds that
    many bytes; `pb_add_string_head` does so with the evaluated length less the payload. -/
theorem encoder_agrees (b : PbBuff) (tag : UInt32) (val : FieldVal)
    (h : ∀ str, val = .string str → (fieldBytes tag (.string str)).length < 2 ^ 31) :
    Agrees (pbAddFieldVal b tag val) b (fieldLength tag val) ∧
    ∀ str, val = .string str →
      Agrees (pbAddStringHead b tag str.length) b (fieldLength tag val - str.length) := by
  rw [fieldLength_eq (length_fieldBytes_lt h)]
  refine ⟨(pbAddFieldVal_adds b tag val).agrees, ?_⟩
  rintro str rfl
  have hhead : ((fieldBytes tag (.string str)).length : Int) - str.length =
      ((headBytes tag str.length).length : Int) := by
    rw [fieldBytes_string, List.length_append]
    omega
  rw [hhead]
  exact (pbAddStringHead_adds b tag str.length).agrees

/-- A string of three bytes, with room for four bytes of the five. -/
theorem encoder_agrees_short :
    Agrees (pbAddFieldVal ⟨[], 4⟩ 3 (.string [1, 2, 3])) ⟨[], 4⟩ (fieldLength 3 (.string [1, 2, 3])) ∧
    ∀ str, FieldVal.string [1, 2, 3] = .string str →
      Agrees (pbAddStringHead ⟨[], 4⟩ 3 str.length) ⟨[], 4⟩
        (fieldLength 3 (.string [1, 2, 3]) - str.length) :=
  encoder_agrees ⟨[], 4⟩ 3 (.string [1, 2, 3]) (by
    rintro str ⟨⟩
    decide)

end PbEval

end MysqlProxy
