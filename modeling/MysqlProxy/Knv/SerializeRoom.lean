/-
  How much room `Serialize` needs.

  `Stored n f`: the node `n` stands for the field `f`, with the size it evaluates to.  All nodes of a
  tree that was built do, and all nodes of a tree that was read from its shortest encoding, however far
  it has been expanded (`Source.stored`).

  The checks on the way down, each with what is left for it, add up to one: the buffer is large enough,
  or the call fails and stays inside (`serializeRight_iff`).  Two calls are different:
  * the value alone of a node that is written from its value needs ONE BYTE MORE than the value has,
  * a negative `len` becomes a huge size in the comparison, and is written past.
-/
import MysqlProxy.Knv.SerializeBuf
import MysqlProxy.Knv.Encoded
import MysqlProxy.Knv.Looking

namespace MysqlProxy

/-! ## A negative length -/

namespace KnvBuff

/-- A call only adds to what is in the buffer. -/
def Grows (b : KnvBuff) (r : Int × KnvBuff) : Prop := b.out <+: r.2.out

theorem add_grows (b : KnvBuff) (buf : List UInt8) : b.Grows (b.add buf) := by
  unfold Grows add
  split
  · exact List.prefix_refl _
  · exact List.prefix_append _ _

theorem addWord_grows (n : Nat) (b : KnvBuff) (val : Nat) : b.Grows (addWord n b val) := by
  unfold Grows addWord
  split
  · exact List.prefix_refl _
  · exact List.prefix_append _ _

theorem Grows.andThen {b : KnvBuff} {r : Int × KnvBuff} {code : Int}
    {next : KnvBuff → Int × KnvBuff} (h : b.Grows r) (hn : ∀ b' : KnvBuff, b'.Grows (next b')) :
    b.Grows (andThen r code next) := by
  unfold KnvBuff.andThen
  split
  · exact h
  · exact List.IsPrefix.trans h (hn _)

/-- With a negative rest the conversion to `size_t` lets everything pass. -/
theorem add_negative {b : KnvBuff} {buf : List UInt8} (h : b.left < 0) (hmin : -2 ^ 31 ≤ b.left)
    (hbuf : buf.length < 2 ^ 32) :
    b.add buf = (0, { b with out := b.out ++ buf, left := int32 (b.left - buf.length) }) := by
  rw [add, if_neg]
  omega

/-- The tag is written, and what follows it only adds to that. -/
theorem addTag_negative {b : KnvBuff} (type : WireType) (tag : UInt32) (h : b.left < 0)
    (hmin : -2 ^ 31 ≤ b.left) (code : Int) {next : KnvBuff → Int × KnvBuff}
    (hn : ∀ b' : KnvBuff, b'.Grows (next b')) :
    (andThen (b.addTag type tag) code next).2.out ≠ [] := by
  have hle := pbEvalVintLength_le (tagWord type tag)
  have hpos := vintBytes_pos (tagWord type tag)
  rw [← length_vintBytes] at hle
  have hadd : b.addTag type tag = _ := add_negative h hmin (by omega)
  rw [hadd, andThen, if_neg (not_not_intro rfl)]
  intro hnil
  have hgrow := (hn { b with
    out := b.out ++ vintBytes (tagWord type tag)
    left := int32 (b.left - (vintBytes (tagWord type tag)).length) }).length_le
  rw [hnil, List.length_append, List.length_nil] at hgrow
  omega

theorem addFieldVal_negative {b : KnvBuff} (tag : UInt32) (val : FieldVal) (h : b.left < 0)
    (hmin : -2 ^ 31 ≤ b.left) : (b.addFieldVal tag val).2.out ≠ [] := by
  refine addTag_negative val.type tag h hmin (-1) fun b' => ?_
  cases val with
  | varint i64 => exact add_grows _ _
  | fixed64 i64 => exact addWord_grows _ _ _
  | string str => exact (add_grows b' _).andThen fun b => add_grows b str
  | fixed32 i32 => exact addWord_grows _ _ _

theorem addFieldVal_grows (b : KnvBuff) (tag : UInt32) (val : FieldVal) :
    b.Grows (b.addFieldVal tag val) := by
  refine Grows.andThen (add_grows b _) fun b' => ?_
  cases val with
  | varint i64 => exact add_grows _ _
  | fixed64 i64 => exact addWord_grows _ _ _
  | string str => exact (add_grows b' _).andThen fun b => add_grows b str
  | fixed32 i32 => exact addWord_grows _ _ _

end KnvBuff

namespace KnvNode

theorem ne_nil_of_prefix {l l' : List UInt8} (h : l <+: l') (hne : l ≠ []) : l' ≠ [] := by
  rintro rfl
  exact hne (List.prefix_nil.mp h)

theorem afterWrite_ne_nil {r : Int × KnvBuff} {code : Int} {next : KnvBuff → Wrote}
    (h : r.2.out ≠ []) (hn : ∀ b : KnvBuff, b.out <+: (next b).1) :
    (afterWrite r code next).1 ≠ [] := by
  unfold afterWrite
  split
  · exact h
  · exact ne_nil_of_prefix (hn _) h

theorem afterWrite_zero (b : KnvBuff) (code : Int) (next : KnvBuff → Wrote) :
    afterWrite (0, b) code next = next b := if_neg (not_not_intro rfl)

theorem afterList_ok (out : List UInt8) (cur_len : Int) (next : List UInt8 → Int → Wrote) :
    afterList (out, .ok cur_len) next = next out cur_len := rfl

theorem afterList_grows {r : Wrote} {next : List UInt8 → Int → Wrote}
    (hn : ∀ out cur_len, out <+: (next out cur_len).1) : r.1 <+: (afterList r next).1 := by
  unfold afterList
  split
  · exact List.prefix_refl _
  · exact hn _ _

theorem serializeListTo_grows (l : List KnvNode) : ∀ (skip : Bool) (out : List UInt8)
    (cur_len sz code : Int), out <+: (serializeListTo l skip out cur_len sz code).1 := by
  induction l with
  | nil =>
    intro skip out cur_len sz code
    simp only [serializeListTo, List.prefix_refl]
  | cons n l ih =>
    intro skip out cur_len sz code
    rw [serializeListTo]
    split
    · exact ih _ _ _ _ _
    · split
      · exact List.prefix_append _ _
      · exact (List.prefix_append _ _).trans (ih _ _ _ _ _)

/-- The lists, and the check at the end. -/
theorem lists_grow (n : KnvNode) (len sz : Int) (b : KnvBuff) : b.out <+:
    (afterList (serializeListTo n.metalist n.skipsFirst b.out b.encodedLength len (-8)) fun out cur_len =>
      afterList (serializeListTo n.childlist false out cur_len len (-9)) fun out cur_len =>
        (out, if cur_len ≠ sz then .error ⟨-10, "Bug: eval size incorrect"⟩ else .ok cur_len)).1 := by
  refine (serializeListTo_grows _ _ _ _ _ _).trans (afterList_grows fun out cur_len => ?_)
  exact (serializeListTo_grows _ _ _ _ _ _).trans (afterList_grows fun out cur_len =>
    List.prefix_refl _)

theorem addKey_grows (n : KnvNode) (b : KnvBuff) : b.Grows (n.addKey b) := by
  unfold addKey
  split
  · exact KnvBuff.addFieldVal_grows b 1 n.key.getValue
  · exact List.prefix_refl _

/-- What is behind the header. -/
theorem body_grows (n : KnvNode) (len sz : Int) (b : KnvBuff) : b.out <+:
    (afterWrite (n.addKey b) (-7) fun b =>
      afterList (serializeListTo n.metalist n.skipsFirst b.out b.encodedLength len (-8)) fun out cur_len =>
      afterList (serializeListTo n.childlist false out cur_len len (-9)) fun out cur_len =>
        (out, if cur_len ≠ sz then .error ⟨-10, "Bug: eval size incorrect"⟩ else .ok cur_len)).1 := by
  have hkey : b.out <+: (n.addKey b).2.out := addKey_grows n b
  unfold afterWrite
  split
  · exact hkey
  · exact hkey.trans (lists_grow n len sz _)

variable {len : Int}

/-- With a header, something is written past a buffer of negative length, -/
theorem serializeTo_negative (n : KnvNode) (htag : n.tag ≠ 0) (hlen : len < 0)
    (hmin : -2 ^ 31 ≤ len) : (serializeTo n len true).1 ≠ [] := by
  obtain ⟨d, metalist, childlist⟩ := n
  replace htag : d.tag ≠ 0 := htag
  rw [serializeTo]
  simp only [if_neg htag, if_true]
  split
  · exact afterWrite_ne_nil (KnvBuff.addFieldVal_negative _ _ hlen hmin) fun b => List.prefix_refl _
  · refine afterWrite_ne_nil ?_ fun b => body_grows ⟨d, metalist, childlist⟩ len _ b
    exact KnvBuff.addTag_negative .string d.tag hlen hmin (-1) fun b => KnvBuff.add_grows _ _

/-- and also without one, by the first field. -/
theorem serializeListTo_negative {n : KnvNode} (htag : n.tag ≠ 0) (l : List KnvNode) (hlen : len < 0)
    (hmin : -2 ^ 31 ≤ len) (code : Int) :
    (serializeListTo (n :: l) false [] 0 len code).1 ≠ [] := by
  have hn := serializeTo_negative n htag hlen hmin
  rw [serializeListTo, if_neg Bool.false_ne_true, Int.sub_zero]
  cases hr : serializeTo n len true with
  | mk w res =>
    rw [hr] at hn
    cases res with
    | error e => exact hn
    | ok left => exact ne_nil_of_prefix (serializeListTo_grows l _ _ _ _ _) hn

theorem serializeTo_negative_value (n : KnvNode) (htag : n.tag ≠ 0) (hfold : n.isFolded = false)
    (hlist : n.metalist ++ n.childlist ≠ []) (htags : ∀ m ∈ n.metalist ++ n.childlist, m.tag ≠ 0)
    (hlen : len < 0) (hmin : -2 ^ 31 ≤ len) : (serializeTo n len false).1 ≠ [] := by
  obtain ⟨d, metalist, childlist⟩ := n
  replace htag : d.tag ≠ 0 := htag
  replace hlist : metalist ++ childlist ≠ [] := hlist
  replace htags : ∀ m ∈ metalist ++ childlist, m.tag ≠ 0 := htags
  rw [serializeTo]
  simp only [if_neg htag, hfold, Bool.false_eq_true, if_false, afterWrite_zero]
  by_cases hkey : writesKey ⟨d, metalist, childlist⟩ = true
  · refine afterWrite_ne_nil ?_ fun b => lists_grow ⟨d, metalist, childlist⟩ len _ b
    rw [addKey, if_pos hkey]
    exact KnvBuff.addFieldVal_negative _ _ hlen hmin
  · have hskip : skipsFirst ⟨d, metalist, childlist⟩ = false := by
      rw [skipsFirst, Bool.eq_false_of_not_eq_true hkey]
      rfl
    have hzero : (KnvBuff.init len).encodedLength = 0 := by
      show int32 (len - len) = 0
      rw [Int.sub_self]
      rfl
    rw [addKey, if_neg hkey, afterWrite_zero, hskip, hzero]
    cases metalist with
    | cons m l =>
      refine ne_nil_of_prefix (afterList_grows fun out cur_len => ?_)
        (serializeListTo_negative (htags m List.mem_cons_self) l hlen hmin (-8))
      exact (serializeListTo_grows _ _ _ _ _ _).trans (afterList_grows fun out cur_len =>
        List.prefix_refl _)
    | nil =>
      cases childlist with
      | nil => exact absurd rfl hlist
      | cons c l =>
        rw [serializeListTo, afterList_ok]
        exact ne_nil_of_prefix (afterList_grows fun out cur_len => List.prefix_refl _)
          (serializeListTo_negative (htags c List.mem_cons_self) l hlen hmin (-9))

/-! ## Codes -/

/-- Every failure has a negative code. -/
def Negative (r : Wrote) : Prop := ∀ e, r.2 = .error e → e.code < 0

theorem negative_afterWrite {r : Int × KnvBuff} {code : Int} {next : KnvBuff → Wrote} (hc : code < 0)
    (hn : ∀ b, Negative (next b)) : Negative (afterWrite r code next) := by
  unfold afterWrite
  split
  · rintro e ⟨⟩
    exact hc
  · exact hn _

theorem negative_afterList {r : Wrote} {next : List UInt8 → Int → Wrote} (hr : Negative r)
    (hn : ∀ out cur_len, Negative (next out cur_len)) : Negative (afterList r next) := by
  unfold afterList
  split
  · rintro e ⟨⟩
    exact hr _ ‹_›
  · exact hn _ _

theorem negative_check (out : List UInt8) (cur_len sz : Int) :
    Negative (out, if cur_len ≠ sz then .error ⟨-10, "Bug: eval size incorrect"⟩
      else .ok cur_len) := by
  by_cases hsz : cur_len ≠ sz
  · rw [if_pos hsz]
    rintro e ⟨⟩
    decide
  · rw [if_neg hsz]
    exact nofun

theorem serializeListTo_code (l : List KnvNode) {code : Int} (hc : code < 0) :
    ∀ (skip : Bool) (out : List UInt8) (cur_len sz : Int),
      Negative (serializeListTo l skip out cur_len sz code) := by
  induction l with
  | nil =>
    intro skip out cur_len sz
    rw [serializeListTo]
    exact nofun
  | cons n l ih =>
    intro skip out cur_len sz
    rw [serializeListTo]
    split
    · exact ih _ _ _ _
    · split
      · rintro e ⟨⟩
        exact hc
      · exact ih _ _ _ _

theorem serializeTo_code (n : KnvNode) (len : Int) (with_header : Bool) :
    Negative (serializeTo n len with_header) := by
  obtain ⟨d, metalist, childlist⟩ := n
  rw [serializeTo]
  simp only
  split
  · rintro e ⟨⟩
    decide
  · split
    · split
      · exact negative_afterWrite (by decide) fun b e he => by cases he
      · unfold serializeValue
        split
        · split
          · rintro e ⟨⟩
          · rintro e ⟨⟩
            decide
        · rintro e ⟨⟩
          decide
    · refine negative_afterWrite (by decide) fun b => negative_afterWrite (by decide) fun b => ?_
      refine negative_afterList (serializeListTo_code _ (by decide) _ _ _ _) fun out cur_len => ?_
      exact negative_afterList (serializeListTo_code _ (by decide) _ _ _ _) fun out cur_len =>
        negative_check out cur_len _

/-! ## What a node stands for -/

mutual
/-- The field a node stands for: its own, if its value is up to date, and else its tag with the fields of
    its metas and its children. -/
def standsFor : KnvNode → PbField
  | ⟨d, metalist, childlist⟩ =>
    if isFolded ⟨d, metalist, childlist⟩ then ⟨d.tag, d.val⟩
    else ⟨d.tag, .string (messageBytes (standForList metalist ++ standForList childlist))⟩

def standForList : List KnvNode → List PbField
  | [] => []
  | n :: l => standsFor n :: standForList l
end

theorem standForList_eq (l : List KnvNode) : standForList l = l.map standsFor := by
  induction l with
  | nil => rfl
  | cons n l ih => rw [standForList, ih, List.map_cons]

theorem standsFor_eq (n : KnvNode) : n.standsFor = if n.isFolded then n.view
    else ⟨n.tag, .string (messageBytes (n.metalist.map standsFor ++ n.childlist.map standsFor))⟩ := by
  obtain ⟨d, metalist, childlist⟩ := n
  rw [standsFor, standForList_eq, standForList_eq]
  rfl

/-- **The node is written as the field it stands for, in the size it evaluates to.** -/
structure Stored (n : KnvNode) : Prop extends Writes n n.standsFor where
  tag_ne : n.tag ≠ 0
  value : n.isFolded = false → ∀ len, n.standsFor.val.str.length ≤ len →
    serialize n len false = .ok n.standsFor.val.str
  listed : n.isFolded = false → n.metalist ++ n.childlist ≠ []
  tags : ∀ m ∈ n.metalist ++ n.childlist, m.tag ≠ 0

/-- What the call is to do: succeed exactly if there is room for `R` bytes, the evaluated size or the
    length of the value, and then write them; fail with a negative code if there is less, and never
    write past the buffer. -/
def SerializeRight (n : KnvNode) (len : Int) (with_header : Bool) : Prop :=
  let R : Int := if with_header then (evaluateSize n).1 else n.standsFor.val.str.length
  let bytes := if with_header then fieldBytes n.standsFor.tag n.standsFor.val else n.standsFor.val.str
  let r := serializeTo n len with_header
  ((∃ l, r.2 = .ok l) ↔ R ≤ len) ∧ (∀ l, r.2 = .ok l → l = R ∧ r.1 = bytes) ∧
    (len < R → (∃ e, r.2 = .error e ∧ e.code < 0) ∧ r.1.length ≤ len.toNat)

theorem isString_of_not_folded {n : KnvNode} (h : n.isFolded = false) : n.isString = true := by
  rw [isFolded, Bool.or_eq_false_iff, isFlat] at h
  have hflat := h.1
  simp only [Bool.or_eq_false_iff, Bool.not_eq_false'] at hflat
  exact hflat.1.1

/-- With a buffer that has a size, the call does what `serialize` does in it and in larger ones. -/
theorem serializeRight_of_serialize {n : KnvNode} {len : Int} {with_header : Bool} (h0 : 0 ≤ len)
    (h : len < 2 ^ 31) {bytes : List UInt8}
    (hbytes : bytes = if with_header then fieldBytes n.standsFor.tag n.standsFor.val
      else n.standsFor.val.str)
    (hsize : (bytes.length : Int) = if with_header then (evaluateSize n).1
      else n.standsFor.val.str.length)
    (hok : ∀ l, bytes.length ≤ l → serialize n l with_header = .ok bytes) :
    SerializeRight n len with_header := by
  obtain ⟨hbound, hlength, hspec⟩ := serializeTo_tracks n h0 h with_header
  have hcode := serializeTo_code n len with_header
  unfold SerializeRight
  rw [← hbytes, ← hsize]
  generalize serializeTo n len with_header = r at hbound hlength hspec hcode
  obtain ⟨w, res⟩ := r
  have hfits : (∃ l, res = .ok l) → w = bytes := by
    rintro ⟨l, rfl⟩
    have hs : serialize n len.toNat with_header = .ok w := hspec
    exact serialize_unique hs (hok _ (Nat.le_refl _))
  have hiff : (∃ l, res = .ok l) ↔ (bytes.length : Int) ≤ len := by
    constructor
    · intro hl
      rw [← hfits hl]
      exact hbound
    · intro hle
      rw [hok len.toNat (by omega)] at hspec
      cases res with
      | error e => cases hspec
      | ok l => exact ⟨l, rfl⟩
  refine ⟨hiff, ?_, ?_⟩
  · rintro l rfl
    have hw := hfits ⟨l, rfl⟩
    refine ⟨?_, hw⟩
    rw [← hw]
    exact hlength l rfl
  · intro hlt
    refine ⟨?_, by omega⟩
    cases res with
    | ok l => exact absurd (hiff.mp ⟨l, rfl⟩) (by omega)
    | error e => exact ⟨e, rfl, hcode e rfl⟩

/-- **`Serialize` into a buffer is right exactly where it is not given the length of a value that it
    copies, or a negative length.** -/
theorem Stored.right_iff {n : KnvNode} (h : Stored n) (hstr : n.isString = true) {len : Int}
    (hmin : -2 ^ 31 ≤ len) (hmax : len < 2 ^ 31) (with_header : Bool) :
    SerializeRight n len with_header ↔
      if n.isFolded = true ∧ with_header = false then len ≠ n.str.length else 0 ≤ len := by
  by_cases hcopy : n.isFolded = true ∧ with_header = false
  · obtain ⟨hfold, rfl⟩ := hcopy
    have hview : n.standsFor.val.str = n.str := by
      rw [standsFor_eq, if_pos hfold]
      rfl
    have hcall : serializeTo n len false = if (n.str.length : Int) < len then
        (n.str, .ok n.str.length) else ([], .error ⟨-4, "not enoug space for value"⟩) := by
      have htag := h.tag_ne
      obtain ⟨d, metalist, childlist⟩ := n
      replace htag : d.tag ≠ 0 := htag
      rw [serializeTo]
      simp only [if_neg htag, hfold, if_true, Bool.false_eq_true, if_false]
      show serializeValue d.val len = _
      unfold KnvNode.str
      have htype : (d.val.type = .string) := of_decide_eq_true hstr
      cases hv : d.val with
      | string s => rfl
      | _ =>
        rw [hv] at htype
        cases htype
    rw [if_pos ⟨hfold, rfl⟩]
    unfold SerializeRight
    simp only [Bool.false_eq_true, if_false, hview, hcall]
    by_cases hlt : (n.str.length : Int) < len
    · rw [if_pos hlt]
      refine ⟨fun _ => by omega, fun _ => ⟨⟨fun _ => by omega, fun _ => ⟨_, rfl⟩⟩, ?_, by omega⟩⟩
      rintro l ⟨⟩
      exact ⟨rfl, rfl⟩
    · rw [if_neg hlt]
      constructor
      · rintro ⟨hiff, -, -⟩ he
        obtain ⟨l, hl⟩ := hiff.mpr (by omega)
        cases hl
      · intro hne
        refine ⟨⟨?_, fun _ => by omega⟩, nofun, fun _ => ?_⟩
        · rintro ⟨l, ⟨⟩⟩
        exact ⟨⟨_, rfl, by decide⟩, Nat.zero_le _⟩
  · rw [if_neg hcopy]
    constructor
    · intro hright
      by_contra hneg
      have hR : len < (if with_header = true then (evaluateSize n).1 else
          (n.standsFor.val.str.length : Int)) := by
        split
        · rw [h.size]
          omega
        · omega
      have hwrote := (hright.2.2 hR).2
      have hnil : (serializeTo n len with_header).1 = [] := by
        rw [← List.length_eq_zero_iff]
        omega
      cases with_header with
      | true => exact serializeTo_negative n h.tag_ne (by omega) hmin hnil
      | false =>
        have hfold : n.isFolded = false := by
          cases hf : n.isFolded with
          | false => rfl
          | true => exact absurd ⟨hf, rfl⟩ hcopy
        exact serializeTo_negative_value n h.tag_ne hfold (h.listed hfold) h.tags (by omega) hmin hnil
    · intro h0
      cases with_header with
      | true =>
        refine serializeRight_of_serialize h0 hmax rfl ?_ fun l hl => ?_
        · simp only [if_true]
          rw [h.size, length_fieldBytes]
          rfl
        · simp only [if_true] at hl ⊢
          rw [length_fieldBytes] at hl
          exact h.bytes l hl
      | false =>
        have hfold : n.isFolded = false := by
          cases hf : n.isFolded with
          | false => rfl
          | true => exact absurd ⟨hf, rfl⟩ hcopy
        exact serializeRight_of_serialize h0 hmax rfl rfl (h.value hfold)

/-! ## Trees that were built -/

/-- A node that is written from its value, in the size it has. -/
theorem stored_of_folded {n : KnvNode} (hfold : n.isFolded = true) (htag : n.tag ≠ 0)
    (hsz : (evaluateSize n).1 = n.view.size) (htags : ∀ m ∈ n.metalist ++ n.childlist, m.tag ≠ 0) :
    n.standsFor = n.view ∧ Stored n := by
  have hview : n.standsFor = n.view := by rw [standsFor_eq, if_pos hfold]
  refine ⟨hview, ?_⟩
  have hputs : Puts n n.view := Shown.puts ⟨rfl, rfl, hfold⟩ htag
  refine { tag := ?_, bytes := ?_, size := ?_, tag_ne := htag, value := ?_, listed := ?_, tags := htags }
  · rw [hview]
    exact hputs.tag
  · rw [hview]
    exact hputs.bytes
  · rw [hview]
    exact hsz
  · intro hf
    rw [hfold] at hf
    cases hf
  · intro hf
    rw [hfold] at hf
    cases hf

theorem Leaf.stored {n : KnvNode} {f : PbField} (h : Leaf n f) : n.standsFor = f ∧ Stored n := by
  have hv : n.view = f := by
    obtain ⟨tag, val⟩ := f
    rw [view, h.tag, h.val]
  have htag : n.tag ≠ 0 := by rw [h.tag]; exact h.tag_ne
  rw [← hv]
  refine stored_of_folded (isFolded_of_isFlat h.flat) htag (by rw [hv]; exact h.toStands.evaluateSize) ?_
  rw [h.metalist, h.childlist]
  exact fun m hm => absurd hm List.not_mem_nil

theorem map_standsFor {l : List KnvNode} {fs : List PbField}
    (h : List.Forall₂ (fun m f => m.standsFor = f ∧ Stored m) l fs) : l.map standsFor = fs := by
  induction h with
  | nil => rfl
  | cons h _ ih => rw [List.map_cons, h.1, ih]

/-- **A node that means a tree stands for the tree's field.** -/
theorem Means.stored {n : KnvNode} {t : Tree} (h : Means n t) : n.standsFor = t.field ∧ Stored n := by
  induction h with
  | leaf hl =>
    rw [Tree.field]
    exact hl.stored
  | @node n tag key ms ts ht hlen hkids ih =>
    have hc : List.Forall₂ (fun m f => m.standsFor = f ∧ Stored m) n.childlist
        (ts.map Tree.field) := by
      rw [List.forall₂_map_right_iff]
      exact List.forall₂_iff_get.mpr ⟨hlen, ih⟩
    have hm : List.Forall₂ (fun m f => m.standsFor = f ∧ Stored m) n.metalist
        (Tree.keyFields key ++ ms) := ht.metalist.imp fun _ _ hleaf => hleaf.stored
    have htags : ∀ m ∈ n.metalist ++ n.childlist, m.tag ≠ 0 := by
      intro m hmem
      rcases List.mem_append.mp hmem with hmem | hmem
      · obtain ⟨f, -, hf⟩ := forall₂_mem hm hmem
        exact hf.2.tag_ne
      · obtain ⟨f, -, hf⟩ := forall₂_mem hc hmem
        exact hf.2.tag_ne
    have hn0 : n.tag ≠ 0 := by rw [ht.tag]; exact ht.tag_ne
    have hfield : (Tree.node tag key ms ts).field =
        ⟨tag, .string (messageBytes (Tree.keyFields key ++ ms ++ ts.map Tree.field))⟩ := by
      rw [Tree.field, Tree.fieldList_eq]
    have hwrites := (Means.node ht hlen hkids).writes
    by_cases hempty : Tree.keyFields key ++ ms ++ ts.map Tree.field = []
    · have hfold : n.isFolded = true := by rw [ht.isFolded]; exact decide_eq_true hempty
      have hv : n.view = (Tree.node tag key ms ts).field := by
        rw [hfield, hempty, view, ht.tag, ht.val]
        rfl
      rw [← hv]
      exact stored_of_folded hfold hn0 (by rw [hv]; exact hwrites.size) htags
    · have hfold : n.isFolded = false := by rw [ht.isFolded]; exact decide_eq_false hempty
      have hstands : n.standsFor = (Tree.node tag key ms ts).field := by
        rw [standsFor_eq, hfold, if_neg Bool.false_ne_true, map_standsFor hm, map_standsFor hc,
          hfield, ht.tag]
      have hsz : KnvNode.evaluateSize n =
          (((⟨n.tag, .string (messageBytes (Tree.keyFields key ++ ms ++ ts.map Tree.field))⟩ :
              PbField).size : Int),
            ((messageBytes (Tree.keyFields key ++ ms ++ ts.map Tree.field)).length : Int)) := by
        rw [ht.evaluateSize, ht.sz, ht.val_sz, ht.tag]
        rfl
      have hputs : ∀ {l : List KnvNode} {fs : List PbField},
          List.Forall₂ (fun m f => m.standsFor = f ∧ Stored m) l fs → List.Forall₂ Puts l fs :=
        fun hl => hl.imp fun m f hmf => hmf.1 ▸ hmf.2.toPuts
      have hval := (serialize_node hn0 hfold (hputs hm) (hputs hc) ht.keyFirst hsz).1
      refine ⟨hstands, ⟨?_, hn0, ?_, ?_, htags⟩⟩
      · rw [hstands]
        exact hwrites
      · intro _
        rw [hstands, hfield]
        exact hval
      · intro _ hnil
        obtain ⟨hmn, hcn⟩ := List.append_eq_nil_iff.mp hnil
        rw [hmn] at hm
        rw [hcn] at hc
        refine hempty ?_
        rw [List.forall₂_nil_left_iff.mp hm, List.forall₂_nil_left_iff.mp hc]
        rfl

theorem Means.stored_inside {x n : KnvNode} (hx : Inside x n) :
    ∀ {t : Tree}, Means n t → Stored x := by
  induction hx with
  | self => exact fun h => h.stored.2
  | @metas n m hm _ ih =>
    intro t h
    cases h with
    | leaf h =>
      rw [h.metalist] at hm
      exact absurd hm List.not_mem_nil
    | node ht _ _ =>
      obtain ⟨f, -, hleaf⟩ := forall₂_mem ht.metalist hm
      exact ih (.leaf hleaf)
  | @children n c hc _ ih =>
    intro t h
    cases h with
    | leaf h =>
      rw [h.childlist] at hc
      exact absurd hc List.not_mem_nil
    | node _ hlen hall =>
      obtain ⟨t, -, ht⟩ := forall₂_mem (List.forall₂_iff_get.mpr ⟨hlen, hall⟩) hc
      exact ih ht

/-! ## Trees that were read -/

/-- The shortest encoding, in all depths: where the bytes are a message, its fields have tags of the
    wire format, take what they need, and have such values. -/
inductive Canonical : List UInt8 → Prop
  | intro {s : List UInt8} :
    (∀ fs, pbFields s = some (fs, true) → ∀ p ∈ fs, FieldOk p.1.tag p.1.val ∧ p.2 = p.1.size) →
    (∀ fs, pbFields s = some (fs, true) → ∀ p ∈ fs, Canonical p.1.val.str) → Canonical s

/-- A node that was read and not edited. -/
structure Pristine (n : KnvNode) : Prop where
  folded : n.isFolded = true
  tag : n.tag ≠ 0
  sz : n.eval_sz = n.view.size
  closed : n.child_num = none → Canonical n.str

theorem OfField.pristine {b : Bool} {m : KnvNode} {q : PbField × Nat} (h : OfField b m q)
    (hok : FieldOk q.1.tag q.1.val) (hq : q.2 = q.1.size) (hc : Canonical q.1.val.str) :
    Everywhere Pristine m := by
  obtain ⟨hfold, htag, hval, hm, hcs, hsz⟩ := h.fresh
  refine everywhere_of_flat ⟨hfold, ?_, ?_, fun _ => ?_⟩ hm hcs
  · rw [htag]
    intro h0
    have hpos := hok.tag_pos
    rw [h0] at hpos
    exact absurd hpos (by decide)
  · have hview : m.view = q.1 := h.view
    rw [hsz (by rw [hq]; exact q.1.size_pos), hq, hview]
  · rw [str, hval]
    exact hc

theorem lasting_pristine : Lasting Pristine where
  expand := by
    intro n p k h hnum
    have hcan := h.closed hnum
    have hhead := innerExpand_head n p k
    simp only [head, Prod.mk.injEq] at hhead
    obtain ⟨-, htag, hval, -, -, hsz, -⟩ := hhead
    refine ⟨⟨isFolded_innerExpand hnum p k, ?_, ?_, ?_⟩, ?_⟩
    · rw [htag]
      exact h.tag
    · rw [hsz, h.sz, view, view, htag, hval]
    · intro hnone
      exact absurd hnone (innerExpand_num n p k)
    · intro m hm
      obtain ⟨fs, q, b, hfs, hq, ho⟩ := mem_innerExpand hnum hm
      obtain ⟨hfields, hvals⟩ := hcan
      obtain ⟨hok, hsize⟩ := hfields fs hfs q hq
      exact ho.pristine hok hsize (hvals fs hfs q hq)
  lists := by
    intro n ms cs h hms
    refine ⟨?_, h.tag, h.sz, h.closed⟩
    have hfold := h.folded
    have hempty : ms.isEmpty = n.metalist.isEmpty := by
      rw [Bool.eq_iff_iff, List.isEmpty_iff, List.isEmpty_iff]
      exact hms
    rw [isFolded, isFlat] at hfold ⊢
    rw [← hfold]
    show (_ || (_ && ms.isEmpty) || _) = _
    rw [hempty]
    rfl

/-- **The trees of the library**: built call by call, or read from the shortest encoding of a field and
    expanded here and there. -/
inductive Source : KnvNode → Prop
  | built {tag : UInt32} {key : Option FieldVal} {s s' : BuildState} : BuildState.Start tag key s →
    Relation.ReflTransGen BuildState.Step s s' → Source s'.root
  | read {f : PbField} {n n' : KnvNode} : FieldOk f.tag f.val → Canonical f.val.str →
    f.size < 2 ^ 31 → newFromData (fieldBytes f.tag f.val) = .ok n →
    Relation.ReflTransGen Expands n n' → Source n'

theorem Source.stored {x n : KnvNode} (h : Source n) (hx : Inside x n) : Stored x := by
  cases h with
  | built hstart hrun => exact Means.stored_inside hx (BuildState.run_sound hstart hrun).means
  | @read f n₀ _ hok hcan hsize hnew hrun =>
    rw [newFromData_fieldBytes hsize hok.tag_pos hok.tag_lt] at hnew
    cases hnew
    have hstart : Everywhere Pristine (initNode f.tag f.val true f.size false) :=
      OfField.pristine (b := false) (q := (f, f.size)) ⟨0, rfl⟩ hok rfl hcan
    have hall : Everywhere Pristine n := run_invariant hrun hstart fun hs hstep =>
      Everywhere.expands lasting_pristine hstep hs
    have hx' := Everywhere.inside hx hall
    have hp := hx'.self
    refine (stored_of_folded hp.folded hp.tag ?_ ?_).2
    · rw [evaluateSize_cached (by rw [hp.sz]; exact Int.natCast_nonneg _), hp.sz]
    · cases hx' with
      | intro _ hms hcs =>
        intro m hm
        rcases List.mem_append.mp hm with hm | hm
        · exact (hms m hm).self.tag
        · exact (hcs m hm).self.tag

/-- **`Serialize` succeeds exactly when the buffer is large enough**, for every string node of every
    tree of the library, unless the value alone is copied into a buffer of just its length, or the
    length is negative. -/
theorem Source.serializeRight_iff {x n : KnvNode} (h : Source n) (hx : Inside x n)
    (hstr : x.isString = true) {len : Int} (hmin : -2 ^ 31 ≤ len) (hmax : len < 2 ^ 31)
    (with_header : Bool) : SerializeRight x len with_header ↔
      if x.isFolded = true ∧ with_header = false then len ≠ x.str.length else 0 ≤ len :=
  (h.stored hx).right_iff hstr hmin hmax with_header

/-- The node that is read from the field 20 with the value `abc`. -/
def readValue : KnvNode := initNode 20 (.string [97, 98, 99]) true 6 false

theorem readValue_source : Source readValue := by
  have hfields : pbFields [97, 98, 99] = none := by decide
  have hok : FieldOk 20 (.string [97, 98, 99]) := by
    refine ⟨by decide, by decide, ?_⟩
    rintro str ⟨⟩
    decide
  refine .read (f := ⟨20, .string [97, 98, 99]⟩) hok ⟨fun fs hfs => ?_, fun fs hfs => ?_⟩
    (by decide) rfl .refl
  · exact nomatch hfields.symm.trans hfs
  · exact nomatch hfields.symm.trans hfs

theorem source_serializeRight_iff_readValue : SerializeRight readValue 4 false ↔
    if readValue.isFolded = true ∧ false = false then (4 : Int) ≠ readValue.str.length
      else 0 ≤ (4 : Int) :=
  readValue_source.serializeRight_iff .self rfl (by decide) (by decide) false

/-- **Three bytes are not enough for the value `abc`**, and a buffer of length -1 is written past. -/
theorem readValue_not_right : Source readValue ∧ readValue.isString = true ∧
    ¬ SerializeRight readValue 3 false ∧ ¬ SerializeRight readValue (-1) true := by
  refine ⟨readValue_source, rfl, ?_, ?_⟩
  · rintro ⟨hiff, -, -⟩
    obtain ⟨l, hl⟩ := hiff.mpr (by decide)
    exact absurd hl nofun
  · rintro ⟨-, -, hsmall⟩
    exact absurd (hsmall (by decide)).2 (by decide)

end KnvNode

end MysqlProxy
