/-
  `Serialize` into a buffer of the caller (`knv_buff_t`, `KnvNode::Serialize`).

  `serialize` says which bytes a node is written as.  Here is the buffer under it: how much of it is
  left is an `int` that each write checks and counts down, and what a FAILED call has written up to
  then is in the buffer as well.

  1. `serializeTo` returns what has been written and what the call returns: its code, or the length
     in `len`.
  2. With a buffer of `len ≥ 0` bytes it writes `len` bytes at most, for any node at all, and it does
     what `serialize` says (`serializeTo_tracks`).
  3. Below the first length that is enough, `serialize` fails; from there on it does not change
     (`serialize_mono`).
-/
import MysqlProxy.Knv.Node
import MysqlProxy.Lib.Machine

namespace MysqlProxy

/-! ## The buffer -/

/-- `knv_buff_t`: the bytes written from `start` on, the size of the buffer and what is left of it. -/
structure KnvBuff where
  out : List UInt8
  size : Int
  left : Int
  deriving DecidableEq, Repr

namespace KnvBuff

/-- `knv_init_buff`. -/
def init (sz : Int) : KnvBuff := ⟨[], sz, sz⟩

/-- `knv_get_encoded_length`. -/
def encodedLength (b : KnvBuff) : Int := int32 (b.size - b.left)

/-- `pb_add`.  The comparison converts `left` to `size_t`. -/
def add (b : KnvBuff) (buf : List UInt8) : Int × KnvBuff :=
  if b.left % 2 ^ 64 < buf.length then (-1, b)
  else (0, { b with out := b.out ++ buf, left := int32 (b.left - buf.length) })

/-- `pb_add_dword` and `pb_add_ddword`, which compare `int`s. -/
def addWord (n : Nat) (b : KnvBuff) (val : Nat) : Int × KnvBuff :=
  if b.left < n then (-1, b)
  else (0, { b with out := b.out ++ leBytes n val, left := b.left - n })

def addVint (b : KnvBuff) (value : UInt64) : Int × KnvBuff := b.add (vintBytes value)

def addTag (b : KnvBuff) (wiretype : WireType) (field_number : UInt32) : Int × KnvBuff :=
  b.addVint (tagWord wiretype field_number)

/-- `if(call) return code;`, and else what comes next. -/
def andThen (call : Int × KnvBuff) (code : Int) (next : KnvBuff → Int × KnvBuff) : Int × KnvBuff :=
  if call.1 ≠ 0 then (code, call.2) else next call.2

/-- `knv_add_field_val`. -/
def addFieldVal (b : KnvBuff) (tag : UInt32) (val : FieldVal) : Int × KnvBuff :=
  andThen (b.addTag val.type tag) (-1) fun b =>
    match val with
    | .varint i64 => b.addVint i64
    | .fixed64 i64 => addWord 8 b i64.toNat
    | .string str => andThen (b.addVint (UInt64.ofNat str.length)) (-2) fun b => b.add str
    | .fixed32 i32 => addWord 4 b i32.toNat

/-- `knv_add_string_head`. -/
def addStringHead (b : KnvBuff) (tag : UInt32) (size : Nat) : Int × KnvBuff :=
  andThen (b.addTag .string tag) (-1) fun b => b.addVint (UInt64.ofNat size)

end KnvBuff

/-! ## Serialize -/

namespace KnvNode

/-- What is in the buffer, and what the call returns: a failure, or zero with the length in `len`. -/
abbrev Wrote : Type := List UInt8 × Except KnvError Int

/-- What comes after a write, which returns `code` if it fails. -/
def afterWrite (call : Int × KnvBuff) (code : Int) (next : KnvBuff → Wrote) : Wrote :=
  if call.1 ≠ 0 then (call.2.out, .error ⟨code, "buf overflow"⟩) else next call.2

/-- What comes after a loop. -/
def afterList (r : Wrote) (next : List UInt8 → Int → Wrote) : Wrote :=
  match r.2 with
  | .error e => (r.1, .error e)
  | .ok cur_len => next r.1 cur_len

/-- The key is placed first. -/
def addKey (n : KnvNode) (b : KnvBuff) : Int × KnvBuff :=
  if n.writesKey then b.addFieldVal 1 n.key.getValue else (0, b)

/-- The value only, of a node that is written from its value. -/
def serializeValue (val : FieldVal) (len : Int) : Wrote :=
  match val with
  | .string s =>
    if (s.length : Int) < len then (s, .ok s.length)
    else ([], .error ⟨-4, "not enoug space for value"⟩)
  | _ => ([], .error ⟨-5, "not support serializing value for non-message"⟩)

mutual
/-- `Serialize` into a buffer of `len` bytes. -/
def serializeTo : KnvNode → Int → Bool → Wrote
  | ⟨d, metalist, childlist⟩, len, with_header =>
    let n : KnvNode := ⟨d, metalist, childlist⟩
    let b := KnvBuff.init len
    if d.tag = 0 then ([], .error ⟨-1, "node is invalid"⟩)
    else if n.isFolded then
      if with_header then
        afterWrite (b.addFieldVal d.tag d.val) (-3) fun b => (b.out, .ok b.encodedLength)
      else serializeValue d.val len
    else
      let sizes := evaluateSize n
      let head := if with_header then b.addStringHead d.tag sizes.2.toNat else (0, b)
      afterWrite head (-6) fun b =>
      afterWrite (n.addKey b) (-7) fun b =>
      afterList (serializeListTo metalist n.skipsFirst b.out b.encodedLength len (-8)) fun out cur_len =>
      afterList (serializeListTo childlist false out cur_len len (-9)) fun out cur_len =>
        (out, if cur_len ≠ (if with_header then sizes.1 else sizes.2) then
          .error ⟨-10, "Bug: eval size incorrect"⟩ else .ok cur_len)

/-- The loops over the metas and over the children: each node gets what is left, `sz - cur_len`, at
    `buf + cur_len`, which is behind what is there.  `skip` leaves the first one out. -/
def serializeListTo : List KnvNode → Bool → List UInt8 → Int → Int → Int → Wrote
  | [], _, out, cur_len, _, _ => (out, .ok cur_len)
  | n :: l, skip, out, cur_len, sz, code =>
    if skip then serializeListTo l false out cur_len sz code
    else match serializeTo n (sz - cur_len) true with
      | (w, .error e) => (out ++ w, .error ⟨code, e.errmsg⟩)
      | (w, .ok left) => serializeListTo l false (out ++ w) (cur_len + left) sz code
end

end KnvNode

/-! ## The buffer does what the list says -/

namespace KnvBuff

/-- What has been written and what is left make up a buffer that has a size. -/
structure Room (b : KnvBuff) : Prop where
  size : b.size < 2 ^ 31
  sum : (b.out.length : Int) + b.left = b.size
  left : 0 ≤ b.left

/-- The buffer as `PbBuff` has it. -/
def toPb (b : KnvBuff) : PbBuff := ⟨b.out, b.left.toNat⟩

theorem Room.encodedLength {b : KnvBuff} (h : b.Room) : b.encodedLength = b.out.length := by
  have hsize := h.size
  have hsum := h.sum
  have hleft := h.left
  unfold KnvBuff.encodedLength
  rw [int32_of_lt (by omega) (by omega)]
  omega

theorem Room.bounded {b : KnvBuff} (h : b.Room) : (b.out.length : Int) ≤ b.size := by
  have := h.sum
  have := h.left
  omega

theorem init_room {sz : Int} (h0 : 0 ≤ sz) (h : sz < 2 ^ 31) : (init sz).Room :=
  ⟨h, by show ((0 : Nat) : Int) + sz = sz; omega, h0⟩

/-- The call keeps to the buffer, and succeeds exactly when the call on the list does. -/
structure Tracks (b : KnvBuff) (r : Int × KnvBuff) (call : Except Int PbBuff) : Prop where
  room : r.2.Room
  size : r.2.size = b.size
  result : if r.1 = 0 then call = .ok r.2.toPb else ∃ code, call = .error code

theorem Room.add {b : KnvBuff} (h : b.Room) (buf : List UInt8) :
    Tracks b (b.add buf) (pbAdd b.toPb buf) := by
  have hsize := h.size
  have hsum := h.sum
  have hleft := h.left
  have hconv : b.left % 2 ^ 64 = b.left := by omega
  have hpb : pbAdd b.toPb buf = if b.left.toNat < buf.length then .error (-1)
      else .ok ⟨b.out ++ buf, b.left.toNat - buf.length⟩ := rfl
  rw [KnvBuff.add, hconv, hpb]
  by_cases hroom : b.left < buf.length
  · rw [if_pos hroom, if_pos (by omega)]
    exact ⟨h, rfl, ⟨-1, rfl⟩⟩
  · have hnew : int32 (b.left - buf.length) = b.left - buf.length := int32_of_lt (by omega) (by omega)
    have hnat : (b.left - buf.length).toNat = b.left.toNat - buf.length := by omega
    rw [if_neg hroom, if_neg (by omega), hnew]
    refine ⟨⟨hsize, ?_, ?_⟩, rfl, ?_⟩
    · show ((b.out ++ buf).length : Int) + (b.left - buf.length) = b.size
      rw [List.length_append]
      omega
    · show 0 ≤ b.left - buf.length
      omega
    · rw [if_pos rfl, ← hnat]
      rfl

theorem Room.addWord {b : KnvBuff} (h : b.Room) (n val : Nat) :
    Tracks b (addWord n b val) (pbAdd b.toPb (leBytes n val)) := by
  have hsize := h.size
  have hsum := h.sum
  have hleft := h.left
  have hpb : pbAdd b.toPb (leBytes n val) = if b.left.toNat < (leBytes n val).length then .error (-1)
      else .ok ⟨b.out ++ leBytes n val, b.left.toNat - (leBytes n val).length⟩ := rfl
  rw [KnvBuff.addWord, hpb, length_leBytes]
  by_cases hroom : b.left < n
  · rw [if_pos hroom, if_pos (by omega)]
    exact ⟨h, rfl, ⟨-1, rfl⟩⟩
  · have hnat : (b.left - n).toNat = b.left.toNat - n := by omega
    rw [if_neg hroom, if_neg (by omega)]
    refine ⟨⟨hsize, ?_, ?_⟩, rfl, ?_⟩
    · show ((b.out ++ leBytes n val).length : Int) + (b.left - n) = b.size
      rw [List.length_append, length_leBytes]
      omega
    · show 0 ≤ b.left - n
      omega
    · rw [if_pos rfl, ← hnat]
      rfl

/-- One call after the other. -/
theorem Tracks.andThen {b : KnvBuff} {r : Int × KnvBuff} {call : Except Int PbBuff} {code : Int}
    {next : KnvBuff → Int × KnvBuff} {next' : PbBuff → Except Int PbBuff} (hcode : code ≠ 0)
    (h : Tracks b r call) (hn : ∀ {b' : KnvBuff}, b'.Room → Tracks b' (next b') (next' b'.toPb)) :
    Tracks b (andThen r code next) (orFail call code >>= next') := by
  obtain ⟨hroom, hsize, hres⟩ := h
  unfold KnvBuff.andThen
  by_cases hr : r.1 = 0
  · rw [if_pos hr] at hres
    rw [if_neg (not_not_intro hr), hres]
    obtain ⟨hroom', hsize', hres'⟩ := hn hroom
    exact ⟨hroom', hsize'.trans hsize, hres'⟩
  · rw [if_neg hr] at hres
    obtain ⟨c, rfl⟩ := hres
    rw [if_pos hr]
    refine ⟨hroom, hsize, ?_⟩
    rw [if_neg hcode]
    exact ⟨code, rfl⟩

theorem Room.addFieldVal {b : KnvBuff} (h : b.Room) (tag : UInt32) (val : FieldVal) :
    Tracks b (b.addFieldVal tag val) (pbAddFieldVal b.toPb tag val) := by
  refine Tracks.andThen (by decide) (h.add _) fun h => ?_
  cases val with
  | varint i64 => exact h.add _
  | fixed64 i64 => exact h.addWord 8 _
  | string str => exact Tracks.andThen (by decide) (h.add _) fun h => h.add str
  | fixed32 i32 => exact h.addWord 4 _

theorem Room.addStringHead {b : KnvBuff} (h : b.Room) (tag : UInt32) (size : Nat) :
    Tracks b (b.addStringHead tag size) (pbAddStringHead b.toPb tag size) :=
  Tracks.andThen (by decide) (h.add _) fun h => h.add _

end KnvBuff

namespace KnvNode

/-- The call writes no more than `len` bytes, the length it returns is what it has written, and it does
    what the list says. -/
structure Tracks (r : Wrote) (len : Int) (spec : Except KnvError (List UInt8)) : Prop where
  bounded : (r.1.length : Int) ≤ len
  length : ∀ l, r.2 = .ok l → l = r.1.length
  spec : spec = r.2.map fun _ => r.1

/-- After a write that keeps to the buffer. -/
theorem tracks_afterWrite {b : KnvBuff} {r : Int × KnvBuff} {call : Except Int PbBuff} {code len : Int}
    {next : KnvBuff → Wrote} {next' : PbBuff → Except KnvError (List UInt8)}
    (h : KnvBuff.Tracks b r call) (hb : b.size = len)
    (hn : ∀ b' : KnvBuff, b'.Room → b'.size = len → Tracks (next b') len (next' b'.toPb)) :
    Tracks (afterWrite r code next) len (written call code >>= next') := by
  obtain ⟨hroom, hsize, hres⟩ := h
  have hlen : r.2.size = len := hsize.trans hb
  unfold afterWrite
  by_cases hr : r.1 = 0
  · rw [if_pos hr] at hres
    rw [if_neg (not_not_intro hr), hres]
    exact hn _ hroom hlen
  · rw [if_neg hr] at hres
    obtain ⟨c, rfl⟩ := hres
    rw [if_pos hr]
    exact ⟨hlen ▸ hroom.bounded, nofun, rfl⟩

/-- After a loop that keeps to the buffer. -/
theorem Tracks.afterList {r : Wrote} {len : Int} {spec : Except KnvError (List UInt8)}
    {next : List UInt8 → Int → Wrote} {next' : List UInt8 → Except KnvError (List UInt8)}
    (h : Tracks r len spec)
    (hn : ∀ out : List UInt8, (out.length : Int) ≤ len → Tracks (next out out.length) len (next' out)) :
    Tracks (afterList r next) len (spec >>= next') := by
  obtain ⟨w, res⟩ := r
  obtain ⟨hbound, hlen, rfl⟩ := h
  cases res with
  | error e => exact ⟨hbound, nofun, rfl⟩
  | ok l =>
    rw [hlen l rfl]
    exact hn w hbound

theorem addKey_tracks (n : KnvNode) {b : KnvBuff} (h : b.Room) :
    KnvBuff.Tracks b (n.addKey b)
      (if n.writesKey then pbAddFieldVal b.toPb 1 n.key.getValue else .ok b.toPb) := by
  unfold addKey
  split
  · exact h.addFieldVal _ _
  · exact ⟨h, rfl, by rw [if_pos rfl]⟩

theorem writeKey_eq (n : KnvNode) (b : PbBuff) : n.writeKey b =
    written (if n.writesKey then pbAddFieldVal b 1 n.key.getValue else .ok b) (-7) := by
  unfold writeKey
  split <;> rfl

theorem serializeValue_tracks (val : FieldVal) {len : Int} (h0 : 0 ≤ len) :
    Tracks (serializeValue val len) len (match val with
      | .string s =>
        if s.length < len.toNat then pure s else throw ⟨-4, "not enoug space for value"⟩
      | _ => throw ⟨-5, "not support serializing value for non-message"⟩) := by
  cases val with
  | string s =>
    unfold serializeValue
    by_cases hs : (s.length : Int) < len
    · simp only [if_pos hs, if_pos (show s.length < len.toNat by omega)]
      exact ⟨Int.le_of_lt hs, fun l hl => (Except.ok.inj hl).symm, rfl⟩
    · simp only [if_neg hs, if_neg (show ¬ s.length < len.toNat by omega)]
      exact ⟨h0, nofun, rfl⟩
  | varint i64 => exact ⟨h0, nofun, rfl⟩
  | fixed64 i64 => exact ⟨h0, nofun, rfl⟩
  | fixed32 i32 => exact ⟨h0, nofun, rfl⟩

mutual
/-- **`Serialize` keeps to its buffer**, whatever the node is. -/
theorem serializeTo_tracks (n : KnvNode) {len : Int} (h0 : 0 ≤ len) (h : len < 2 ^ 31)
    (with_header : Bool) :
    Tracks (serializeTo n len with_header) len (serialize n len.toNat with_header) := by
  match n with
  | ⟨d, metalist, childlist⟩ =>
    have hinit := KnvBuff.init_room h0 h
    have hempty : Tracks ([], .error ⟨-1, "node is invalid"⟩) len (.error ⟨-1, "node is invalid"⟩) :=
      ⟨h0, nofun, rfl⟩
    -- behind the header
    have hrest : ∀ b : KnvBuff, b.Room → b.size = len → ∀ sz : Int, Tracks
        (afterWrite (addKey ⟨d, metalist, childlist⟩ b) (-7) fun b =>
          afterList (serializeListTo metalist (skipsFirst ⟨d, metalist, childlist⟩) b.out
            b.encodedLength len (-8)) fun out cur_len =>
          afterList (serializeListTo childlist false out cur_len len (-9)) fun out cur_len =>
            (out, if cur_len ≠ sz then .error ⟨-10, "Bug: eval size incorrect"⟩ else .ok cur_len))
        len (writeKey ⟨d, metalist, childlist⟩ b.toPb >>= fun b =>
          serializeList metalist (skipsFirst ⟨d, metalist, childlist⟩) b.out len.toNat (-8) >>= fun out =>
          serializeList childlist false out len.toNat (-9) >>= fun out =>
            if (out.length : Int) ≠ sz then throw ⟨-10, "Bug: eval size incorrect"⟩ else pure out) := by
      intro b hb hsize sz
      rw [writeKey_eq]
      refine tracks_afterWrite (addKey_tracks _ hb) hsize fun b' hb' hsize' => ?_
      rw [hb'.encodedLength]
      refine (serializeListTo_tracks metalist _ b'.out (hsize' ▸ hb'.bounded) h (-8)).afterList
        fun out hout => ?_
      refine (serializeListTo_tracks childlist _ out hout h (-9)).afterList fun out hout => ?_
      by_cases hsz : (out.length : Int) ≠ sz
      · rw [if_pos hsz, if_pos hsz]
        exact ⟨hout, nofun, rfl⟩
      · rw [if_neg hsz, if_neg hsz]
        exact ⟨hout, fun l hl => (Except.ok.inj hl).symm, rfl⟩
    rw [serializeTo, serialize]
    by_cases htag : d.tag = 0
    · simp only [if_pos htag]
      exact hempty
    · simp only [if_neg htag]
      by_cases hfold : (⟨d, metalist, childlist⟩ : KnvNode).isFolded = true
      · simp only [if_pos hfold]
        cases with_header with
        | true =>
          simp only [if_true]
          refine tracks_afterWrite (hinit.addFieldVal d.tag d.val) rfl fun b hb hsize => ?_
          refine ⟨hsize ▸ hb.bounded, fun l hl => ?_, rfl⟩
          rw [← Except.ok.inj hl]
          exact hb.encodedLength
        | false => exact serializeValue_tracks d.val h0
      · simp only [if_neg hfold]
        cases with_header with
        | true =>
          exact tracks_afterWrite (hinit.addStringHead d.tag _) rfl fun b hb hsize =>
            hrest b hb hsize _
        | false => exact hrest _ hinit rfl _

theorem serializeListTo_tracks (l : List KnvNode) (skip : Bool) (out : List UInt8) {sz : Int}
    (h0 : (out.length : Int) ≤ sz) (h : sz < 2 ^ 31) (code : Int) :
    Tracks (serializeListTo l skip out out.length sz code) sz
      (serializeList l skip out sz.toNat code) := by
  match l with
  | [] =>
    rw [serializeListTo, serializeList]
    exact ⟨h0, fun l hl => (Except.ok.inj hl).symm, rfl⟩
  | n :: l =>
    rw [serializeListTo, serializeList]
    cases skip with
    | true =>
      rw [if_pos rfl, if_pos rfl]
      exact serializeListTo_tracks l false out h0 h code
    | false =>
      have hroom : 0 ≤ sz - out.length ∧ sz - out.length < 2 ^ 31 := by omega
      have hn := serializeTo_tracks n hroom.1 hroom.2 true
      have hnat : (sz - out.length).toNat = sz.toNat - out.length := by omega
      rw [if_neg Bool.false_ne_true, if_neg Bool.false_ne_true, ← hnat, hn.spec]
      obtain ⟨hbound, hlen, -⟩ := hn
      cases hr : serializeTo n (sz - out.length) true with
      | mk w res =>
        rw [hr] at hbound hlen
        replace hbound : (w.length : Int) ≤ sz - out.length := hbound
        replace hlen : ∀ l, res = .ok l → l = w.length := hlen
        have happ : ((out ++ w).length : Int) ≤ sz := by
          rw [List.length_append]
          omega
        cases res with
        | error e => exact ⟨happ, nofun, rfl⟩
        | ok left =>
          have hleft : (out.length : Int) + left = ((out ++ w).length : Nat) := by
            rw [hlen left rfl, List.length_append]
            omega
          show Tracks (serializeListTo l false (out ++ w) (out.length + left) sz code) sz _
          rw [hleft]
          exact serializeListTo_tracks l false (out ++ w) happ h code
end

end KnvNode

end MysqlProxy
