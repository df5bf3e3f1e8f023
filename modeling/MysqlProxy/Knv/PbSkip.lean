/-
  Skipping a field (`pb_skip_field` of `knv/pb.c`).

  The skip path has a varint loop and a check of lengths of its own, and both check less than the
  decoders do:
  * `pb_skip_varint` returns zero when the input ends, and does not count bytes;
  * `pb_skip_string` passes only the low 32 bits of the length on.

  A skip agrees with the decoder (`SkipAgrees`) on both fixed types; on a varint that ends within ten
  bytes and within the input; and on a string unless its length is too large for 32 bits while the
  low half of it is still there (`pbSkipField_agrees_iff`).
-/
import MysqlProxy.Knv.PbCursor

namespace MysqlProxy

namespace PbCursor

/-! ## The code -/

/-- `pb_get` and its kin with a null buffer: nothing is read. -/
def pbPass (n : Nat) (f : PbCursor) : Int × PbCursor :=
  if f.left < n then (-1, f.fail "end-of-buffer") else (0, f.advance n)

/-- A byte that was got lies in front of the cursor. -/
theorem pbGetByte_ok {f f' : PbCursor} {byte : Nat} (h : f.pbGetByte = some (0, byte, f')) :
    f.ptr < f.data.length ∧ f' = f.advance 1 := by
  rw [pbGetByte, pbGet, deref] at h
  split at h
  · cases h
  · split at h
    · cases h
      exact ⟨by omega, rfl⟩
    · cases h

/-- `pb_skip_varint`. -/
def pbSkipVarint (f : PbCursor) : Option (Int × PbCursor) :=
  match _hget : f.pbGetByte with
  | none => none
  | some (ret, byte, f') =>
    if _hret : ret ≠ 0 then some (0, f')
    else if 128 ≤ byte then f'.pbSkipVarint
    else some (0, f')
termination_by f.data.length - f.ptr
decreasing_by
  obtain ⟨hlt, rfl⟩ := pbGetByte_ok (not_not.mp _hret ▸ _hget)
  show f.data.length - (f.ptr + 1) < _
  omega

/-- `pb_skip_string`; the length is `val.i32`. -/
def pbSkipString (f : PbCursor) : Option (Int × PbCursor) :=
  f.pbDecodeVarint.map fun (ret, f) => if ret ≠ 0 then (-1, f) else f.pbPass f.i32.toNat

/-- `pb_skip_field`, for the types it knows. -/
def pbSkipField (f : PbCursor) : WireType → Option (Int × PbCursor)
  | .varint => f.pbSkipVarint
  | .fixed64 => some (f.pbPass 8)
  | .string => f.pbSkipString
  | .fixed32 => some (f.pbPass 4)

/-- The decoder of a value of the type. -/
def pbDecodeAs (f : PbCursor) : WireType → Option (Int × PbCursor)
  | .varint => f.pbDecodeVarint
  | .fixed64 => f.pbDecodeFixed64
  | .string => f.pbDecodeString
  | .fixed32 => f.pbDecodeFixed32

/-- The skip succeeds exactly when the decoder does, and leaves the cursor where the decoder does. -/
def SkipAgrees (f : PbCursor) (type : WireType) : Prop :=
  ∃ ret g ret' g', f.pbDecodeAs type = some (ret, g) ∧ f.pbSkipField type = some (ret', g') ∧
    (ret' = 0 ↔ ret = 0) ∧ (ret = 0 → g'.ptr = g.ptr ∧ g'.left = g.left)

/-! ## The loop -/

/-- The bytes behind the first byte that has no continuation bit. -/
def afterVarint : List UInt8 → List UInt8
  | [] => []
  | byte :: rest => if 128 ≤ byte.toNat then afterVarint rest else rest

/-- The varint ends within ten bytes, which are all there. -/
def VarintEnds (rest : List UInt8) : Prop := ∃ i < 10, ∃ byte, rest[i]? = some byte ∧ byte.toNat < 128

/-- **`pb_skip_varint` always returns zero**, however the varint ends. -/
theorem pbSkipVarint_eq {rest : List UInt8} : ∀ {f : PbCursor}, f.Inside → f.rest = rest →
    ∃ f', f.pbSkipVarint = some (0, f') ∧ f.Moves f' ∧ f'.rest = afterVarint rest := by
  induction rest with
  | nil =>
    intro f h hr
    have hget : f.pbGetByte = some (-1, 0, f.fail "end-of-buffer") := by
      rw [pbGetByte, pbGet_eq h, if_pos (by rw [hr]; decide)]
    refine ⟨f.fail "end-of-buffer", ?_, h.fail _, hr⟩
    rw [pbSkipVarint]
    split
    · rename_i he
      rw [hget] at he
      cases he
    · rename_i he
      rw [hget] at he
      cases he
      rfl
  | cons byte rest ih =>
    intro f h hr
    have hroom : ¬ f.rest.length < 1 := by
      rw [hr, List.length_cons]
      omega
    have hget : f.pbGetByte = some (0, byte.toNat, f.advance 1) := by
      rw [pbGetByte, pbGet_eq h, if_neg hroom, hr]
      simp [leNat]
    obtain ⟨hm, hr'⟩ := h.advance (Nat.le_of_not_lt hroom)
    have hdrop : (f.advance 1).rest = rest := by rw [hr', hr]; rfl
    rw [pbSkipVarint, afterVarint]
    split
    · rename_i he
      rw [hget] at he
      cases he
    · rename_i he
      rw [hget] at he
      cases he
      rw [dif_neg (not_not_intro rfl)]
      by_cases hmore : 128 ≤ byte.toNat
      · rw [if_pos hmore, if_pos hmore]
        obtain ⟨f', hskip, hm', hrest⟩ := ih hm.inside hdrop
        exact ⟨f', hskip, hm.trans hm', hrest⟩
      · rw [if_neg hmore, if_neg hmore]
        exact ⟨_, rfl, hm, hdrop⟩

/-- Where the decoder succeeds, it stops there too. -/
theorem pbDecodeVarintAt_rest {rest : List UInt8} : ∀ {bitpos result : Nat} {v : UInt64}
    {l : List UInt8}, pbDecodeVarintAt rest bitpos result = .ok (v, l) → l = afterVarint rest := by
  induction rest with
  | nil => nofun
  | cons byte rest ih =>
    intro bitpos result v l h
    rw [pbDecodeVarintAt] at h
    rw [afterVarint]
    split at h
    · cases h
    · split at h
      case isTrue hmore =>
        rw [if_pos hmore]
        exact ih h
      case isFalse hmore =>
        rw [if_neg hmore]
        cases h
        rfl

/-- The decoder succeeds where a last byte is found before the bits run out. -/
theorem pbDecodeVarintAt_isOk {rest : List UInt8} : ∀ {bitpos result : Nat},
    (∃ p, pbDecodeVarintAt rest bitpos result = .ok p) ↔
      ∃ i byte, bitpos + 7 * i < 64 ∧ rest[i]? = some byte ∧ byte.toNat < 128 := by
  induction rest with
  | nil =>
    intro bitpos result
    constructor
    · rintro ⟨_, ⟨⟩⟩
    · rintro ⟨i, byte, -, hi, -⟩
      cases hi
  | cons byte rest ih =>
    intro bitpos result
    rw [pbDecodeVarintAt]
    by_cases hbit : 64 ≤ bitpos
    · rw [if_pos hbit]
      constructor
      · rintro ⟨_, ⟨⟩⟩
      · rintro ⟨i, _, hi, -, -⟩
        omega
    · rw [if_neg hbit]
      by_cases hmore : 128 ≤ byte.toNat
      · rw [if_pos hmore, ih]
        constructor
        · rintro ⟨i, b, hi, hb, hlt⟩
          exact ⟨i + 1, b, by omega, hb, hlt⟩
        · rintro ⟨i, b, hi, hb, hlt⟩
          cases i with
          | zero =>
            cases hb
            omega
          | succ i => exact ⟨i, b, by omega, hb, hlt⟩
      · rw [if_neg hmore]
        exact ⟨fun _ => ⟨0, byte, by omega, rfl, by omega⟩, fun _ => ⟨_, rfl⟩⟩

theorem pbDecodeVarint_isOk {rest : List UInt8} :
    (∃ p, MysqlProxy.pbDecodeVarint rest = .ok p) ↔ VarintEnds rest := by
  rw [MysqlProxy.pbDecodeVarint, pbDecodeVarintAt_isOk]
  constructor
  · rintro ⟨i, byte, hi, hb⟩
    exact ⟨i, by omega, byte, hb⟩
  · rintro ⟨i, hi, byte, hb⟩
    exact ⟨i, byte, by omega, hb⟩

/-! ## The four types -/

/-- Two cursors that have moved to the same bytes are at the same place. -/
theorem Moves.same_place {f g g' : PbCursor} (h : f.Moves g) (h' : f.Moves g')
    (hr : g'.rest.length = g.rest.length) : g'.ptr = g.ptr ∧ g'.left = g.left := by
  have hl := h.inside.length_rest
  have hl' := h'.inside.length_rest
  have hs := h.inside.sum
  have hs' := h'.inside.sum
  rw [h.data] at hs
  rw [h'.data] at hs'
  omega

theorem pbPass_eq {f : PbCursor} (h : f.Inside) (n : Nat) : f.pbPass n =
    if f.rest.length < n then (-1, f.fail "end-of-buffer") else (0, f.advance n) := by
  have hl := h.length_rest
  rw [pbPass]
  by_cases hn : f.rest.length < n
  · rw [if_pos hn, if_pos (by omega)]
  · rw [if_neg hn, if_neg (by omega)]

theorem skipAgrees_varint {f : PbCursor} (h : f.Inside) :
    f.SkipAgrees .varint ↔ VarintEnds f.rest := by
  obtain ⟨ret, g, hcall, hm, hres⟩ := pbDecodeVarint_refines h
  obtain ⟨g', hskip, hm', hrest⟩ := pbSkipVarint_eq h rfl
  rw [← pbDecodeVarint_isOk]
  constructor
  · rintro ⟨r, x, r', x', hd, hs, hiff, -⟩
    replace hd : f.pbDecodeVarint = some (r, x) := hd
    replace hs : f.pbSkipVarint = some (r', x') := hs
    rw [hcall] at hd
    rw [hskip] at hs
    cases hd
    cases hs
    have hret := hiff.mp rfl
    cases hok : MysqlProxy.pbDecodeVarint f.rest with
    | error l =>
      rw [hok] at hres
      exact absurd hret hres.1
    | ok p => exact ⟨p, rfl⟩
  · rintro ⟨⟨v, l⟩, hok⟩
    rw [hok] at hres
    obtain ⟨rfl, hl, -⟩ := hres
    refine ⟨0, g, 0, g', hcall, hskip, Iff.rfl, fun _ => hm.same_place hm' ?_⟩
    rw [hrest, hl, pbDecodeVarintAt_rest hok]

/-- A fixed type: the word is there, or it is not. -/
theorem skipAgrees_fixed64 {f : PbCursor} (h : f.Inside) : f.SkipAgrees .fixed64 := by
  have hskip : f.pbSkipField .fixed64 = some (f.pbPass 8) := rfl
  rw [pbPass_eq h] at hskip
  by_cases hn : f.rest.length < 8
  · rw [if_pos hn] at hskip
    refine ⟨-1, f.fail "end-of-buffer", -1, _, ?_, hskip, Iff.rfl, fun h => absurd h (by decide)⟩
    show f.pbDecodeFixed64 = _
    rw [pbDecodeFixed64, pbGetDdword, pbGet_eq h, if_pos hn]
    rfl
  · rw [if_neg hn] at hskip
    refine ⟨0, { f.advance 8 with i64 := UInt64.ofNat (leNat (f.rest.take 8)) }, 0, _, ?_, hskip,
      Iff.rfl, fun _ => ⟨rfl, rfl⟩⟩
    show f.pbDecodeFixed64 = _
    rw [pbDecodeFixed64, pbGetDdword, pbGet_eq h, if_neg hn]
    rfl

theorem skipAgrees_fixed32 {f : PbCursor} (h : f.Inside) : f.SkipAgrees .fixed32 := by
  have hskip : f.pbSkipField .fixed32 = some (f.pbPass 4) := rfl
  rw [pbPass_eq h] at hskip
  by_cases hn : f.rest.length < 4
  · rw [if_pos hn] at hskip
    refine ⟨-1, f.fail "end-of-buffer", -1, _, ?_, hskip, Iff.rfl, fun h => absurd h (by decide)⟩
    show f.pbDecodeFixed32 = _
    rw [pbDecodeFixed32, pbGetDword, pbGet_eq h, if_pos hn]
    rfl
  · rw [if_neg hn] at hskip
    refine ⟨0, (f.advance 4).setI32 (leNat (f.rest.take 4)), 0, _, ?_, hskip,
      Iff.rfl, fun _ => ⟨rfl, rfl⟩⟩
    show f.pbDecodeFixed32 = _
    rw [pbDecodeFixed32, pbGetDword, pbGet_eq h, if_neg hn]
    rfl

theorem advance_left (f : PbCursor) (n : Nat) : (f.advance n).left = int32 (f.left - n) := rfl

theorem store_left (f : PbCursor) (i64 : UInt64) (strData : Nat) :
    ({ f with i64 := i64, strData := strData } : PbCursor).left = f.left ∧
      ({ f with i64 := i64, strData := strData } : PbCursor).ptr = f.ptr := ⟨rfl, rfl⟩

/-- A string is skipped to where the decoder stops. -/
theorem setStr_advance_place (g : PbCursor) (sz : Nat) :
    (g.advance sz).ptr = ((g.setStr sz).advance sz).ptr ∧
      (g.advance sz).left = ((g.setStr sz).advance sz).left := by
  obtain ⟨hleft, hptr⟩ : (g.setStr sz).left = g.left ∧ (g.setStr sz).ptr = g.ptr :=
    store_left g _ g.ptr
  generalize g.setStr sz = g' at hleft hptr ⊢
  rw [advance_left, advance_left, hleft]
  exact ⟨congrArg (· + sz) hptr.symm, rfl⟩

/-- A string whose length has been read: the decoder compares all of it with what is left, and the
    skip its low half. -/
theorem skipAgrees_string {f : PbCursor} (h : f.Inside) : f.SkipAgrees .string ↔
    ∀ v l, MysqlProxy.pbDecodeVarint f.rest = .ok (v, l) →
      v.toNat < 2 ^ 32 ∨ l.length < v.toNat % 2 ^ 32 := by
  obtain ⟨ret, g, hcall, hm, hres⟩ := pbDecodeVarint_refines h
  have hdec : f.pbDecodeAs .string = some (if ret ≠ 0 then (-1, g)
      else if g.left % 2 ^ 64 < g.i64.toNat then (-2, g.fail "string overflow")
      else (0, (g.setStr (g.i64.toNat % 2 ^ 32)).advance (g.i64.toNat % 2 ^ 32))) := by
    show f.pbDecodeString = _
    rw [pbDecodeString, hcall, Option.map_some]
  have hskip : f.pbSkipField .string =
      some (if ret ≠ 0 then (-1, g) else g.pbPass g.i32.toNat) := by
    show f.pbSkipString = _
    rw [pbSkipString, hcall, Option.map_some]
  cases hok : MysqlProxy.pbDecodeVarint f.rest with
  | error l =>
    rw [hok] at hres
    rw [if_pos hres.1] at hdec hskip
    exact ⟨nofun, fun _ => ⟨_, _, _, _, hdec, hskip, Iff.rfl, fun h => absurd h (by decide)⟩⟩
  | ok p =>
    obtain ⟨v, l⟩ := p
    rw [hok] at hres
    obtain ⟨rfl, rfl, rfl⟩ := hres
    have hleft := hm.inside.length_rest
    have hsum := hm.inside.sum
    have hsize := hm.inside.size
    have hi32 : g.i32.toNat = g.i64.toNat % 2 ^ 32 := by rw [i32, UInt32.toNat_ofNat']
    rw [if_neg (not_not_intro rfl)] at hdec hskip
    rw [pbPass_eq hm.inside, hi32] at hskip
    have hcond : (∀ v' l', (Except.ok (g.i64, g.rest) : Except (List UInt8) _) = .ok (v', l') →
        v'.toNat < 2 ^ 32 ∨ l'.length < v'.toNat % 2 ^ 32) ↔
        (g.i64.toNat < 2 ^ 32 ∨ g.rest.length < g.i64.toNat % 2 ^ 32) :=
      ⟨fun h => h _ _ rfl, by rintro h _ _ ⟨⟩; exact h⟩
    rw [hcond]
    by_cases hfit : g.i64.toNat ≤ g.rest.length
    · -- the decoder succeeds, and the length is below `2 ^ 31`
      have hmod : g.i64.toNat % 2 ^ 32 = g.i64.toNat := Nat.mod_eq_of_lt (by omega)
      rw [if_neg (by omega)] at hdec
      rw [if_neg (by omega)] at hskip
      refine ⟨fun _ => .inl (by omega), fun _ => ⟨_, _, _, _, hdec, hskip, Iff.rfl, fun _ => ?_⟩⟩
      exact setStr_advance_place g _
    · rw [if_pos (by omega)] at hdec
      by_cases hlow : g.rest.length < g.i64.toNat % 2 ^ 32
      · rw [if_pos hlow] at hskip
        exact ⟨fun _ => .inr hlow, fun _ => ⟨_, _, _, _, hdec, hskip, by decide,
          fun h => absurd h (by decide)⟩⟩
      · -- the skip succeeds where the decoder fails
        rw [if_neg hlow] at hskip
        constructor
        · rintro ⟨r, x, r', x', hd, hs, hiff, -⟩
          rw [hdec] at hd
          rw [hskip] at hs
          cases hd
          cases hs
          exact absurd (hiff.mp rfl) (by decide)
        · intro hor
          omega

/-- What a skip needs to agree with the decoder. -/
def SkipOk (rest : List UInt8) : WireType → Prop
  | .fixed64 | .fixed32 => True
  | .varint => VarintEnds rest
  | .string => ∀ v l, MysqlProxy.pbDecodeVarint rest = .ok (v, l) →
      v.toNat < 2 ^ 32 ∨ l.length < v.toNat % 2 ^ 32

/-- **When a skip agrees with the decoder.** -/
theorem pbSkipField_agrees_iff {f : PbCursor} (h : f.Inside) (type : WireType) :
    f.SkipAgrees type ↔ SkipOk f.rest type := by
  cases type with
  | varint => exact skipAgrees_varint h
  | fixed64 => exact iff_of_true (skipAgrees_fixed64 h) trivial
  | string => exact skipAgrees_string h
  | fixed32 => exact iff_of_true (skipAgrees_fixed32 h) trivial

/-- A varint that ends, and one that does not. -/
theorem pbSkipField_agrees_iff_varint :
    (SkipAgrees (start ⟨[], 0, 0, 0, 0, false, none, 0, 0⟩ [150, 1]) .varint ↔
      SkipOk [150, 1] .varint) ∧
    (SkipAgrees (start ⟨[], 0, 0, 0, 0, false, none, 0, 0⟩ [150]) .varint ↔ SkipOk [150] .varint) :=
  ⟨pbSkipField_agrees_iff (start_inside _ (by decide)) .varint,
    pbSkipField_agrees_iff (start_inside _ (by decide)) .varint⟩

/-- **A varint that is cut off is skipped with success.** -/
theorem skip_truncated_disagrees :
    ¬ SkipAgrees (start ⟨[], 0, 0, 0, 0, false, none, 0, 0⟩ [150]) .varint := by
  rintro ⟨ret, g, ret', g', hd, hs, hiff, -⟩
  have hin : Inside (start ⟨[], 0, 0, 0, 0, false, none, 0, 0⟩ [150]) := start_inside _ (by decide)
  obtain ⟨f', hskip, -, -⟩ := pbSkipVarint_eq hin rfl
  obtain ⟨r, x, hcall, -, hr⟩ := pbDecodeVarint_refines hin
  replace hr : r ≠ 0 ∧ _ := hr
  replace hs : pbSkipVarint _ = some (ret', g') := hs
  replace hd : pbDecodeVarint _ = some (ret, g) := hd
  rw [hskip] at hs
  rw [hcall] at hd
  cases hs
  cases hd
  exact hr.1 (hiff.mp rfl)

end PbCursor

end MysqlProxy
