/-
  The packets of an object that was cut, and the limit.

  A slice takes what the limit leaves beside the header and 16 bytes.  Those are meant for all that
  comes later: two fields in the header, the tags and lengths of packet and part, and what the
  length of the header grows by.  It is up to two bytes more than that: with 128 parts and more
  their number takes two bytes, and so does the index of a part; a slice of 16384 bytes has a length
  of three.

  `Whole.respectsLimit_iff`: all packets are within the limit just if two of them are, the last one
  and the last one with a full slice.
-/
import MysqlProxy.Knv.SplitCount

namespace MysqlProxy

open KnvNode

/-- The length of part `i` of `nr` with a slice of `len` bytes, if the header had a value of `v`
bytes. -/
def partLength (v nr i len : Nat) : Nat :=
  pbEvalStringLength KNV_PKG_TAG
    (pbEvalStringLength KNV_PKG_HDR_TAG (v + ((totalField nr).size + (indexField i).size)) +
      pbEvalStringLength (partTag i) len)

section Size

variable {P P₁ P' : KnvProtocol} {mem : Nat → UInt8} {b : Option KnvNode} {h : KnvNode}
  {ms cs : List (PbField × Nat)} {v e d nr i j : Nat} {m s : List UInt8}

theorem length_partBytes (ht : Tight (ms ++ cs) d) (nr i : Nat) (s : List UInt8) :
    (partBytes i (messageBytes (headerFields ms cs nr i), s)).length =
      partLength (taken (ms ++ cs)) nr i s.length := by
  have hstr : ∀ (tag : UInt32) (s : List UInt8),
      (fieldBytes tag (.string s)).length = pbEvalStringLength tag s.length :=
    fun tag s => length_fieldBytes tag (.string s)
  rw [partBytes, hstr, partFields, messageBytes_cons, messageBytes_cons, List.length_append,
    List.length_append, hstr, hstr, length_headerFields ht]
  rfl

/-! ## Lengths grow -/

theorem vintLength_ofNat_mono {a c : Nat} (h : a ≤ c) (hc : c < 2 ^ 64) :
    pbEvalVintLength (UInt64.ofNat a) ≤ pbEvalVintLength (UInt64.ofNat c) := by
  apply pbEvalVintLength_mono
  rw [UInt64.toNat_ofNat_of_lt' (by show a < 2 ^ 64; omega), UInt64.toNat_ofNat_of_lt' hc]
  exact h

theorem pbEvalStringLength_mono (tag : UInt32) {a c : Nat} (h : a ≤ c) (hc : c < 2 ^ 64) :
    pbEvalStringLength tag a ≤ pbEvalStringLength tag c := by
  have := vintLength_ofNat_mono h hc
  rw [pbEvalStringLength, pbEvalStringLength]
  omega

/-- The tags of all parts take two bytes. -/
theorem partTag_length (hi : i < 256) : pbEvalTagLength .string (partTag i) = 2 := by
  have hword : tagWord .string (partTag i) = UInt64.ofNat (2 + (494 + i) * 8) := by
    rw [tagWord, toNat_partTag hi, Nat.mod_eq_of_lt (by omega)]
    rfl
  rw [pbEvalTagLength, hword]
  have hlow : pbEvalVintLength (UInt64.ofNat 3954) = 2 := by decide
  have hhigh : pbEvalVintLength (UInt64.ofNat 5994) = 2 := by decide
  have h1 := vintLength_ofNat_mono (a := 3954) (c := 2 + (494 + i) * 8) (by omega) (by omega)
  have h2 := vintLength_ofNat_mono (a := 2 + (494 + i) * 8) (c := 5994) (by omega) (by decide)
  omega

/-- **Later parts are not shorter.** -/
theorem partLength_mono (hij : i ≤ j) (hj : j < 256) (v nr len : Nat) (hv : v ≤ 64000)
    (hlen : len ≤ 64000) : partLength v nr i len ≤ partLength v nr j len := by
  have htotal := size_varint_le KNV_PKG_HDR_TOTAL_SPLIT_COUNT (UInt64.ofNat nr)
  rw [← totalField] at htotal
  have hsize : ∀ k, (indexField k).size =
      pbEvalTagLength .varint KNV_PKG_HDR_CURR_SPLIT_INDEX + pbEvalVintLength (UInt64.ofNat k) :=
    fun k => rfl
  have hvint := vintLength_ofNat_mono hij (by omega)
  have hjle := size_varint_le KNV_PKG_HDR_CURR_SPLIT_INDEX (UInt64.ofNat j)
  rw [← indexField] at hjle
  have hindex : (indexField i).size ≤ (indexField j).size := by
    rw [hsize, hsize]
    omega
  have htags : pbEvalStringLength (partTag i) len = pbEvalStringLength (partTag j) len := by
    rw [pbEvalStringLength, pbEvalStringLength, partTag_length (by omega), partTag_length hj]
  have hheader := pbEvalStringLength_mono KNV_PKG_HDR_TAG
    (a := v + ((totalField nr).size + (indexField i).size))
    (c := v + ((totalField nr).size + (indexField j).size)) (by omega) (by omega)
  have hlast : ∀ (tag : UInt32) (k : Nat), pbEvalStringLength tag k ≤ 20 + k := by
    intro tag k
    have h1 := pbEvalVintLength_le (tagWord .string tag)
    have h2 := pbEvalVintLength_le (UInt64.ofNat k)
    rw [pbEvalStringLength, pbEvalTagLength]
    omega
  have h1 := hlast KNV_PKG_HDR_TAG (v + ((totalField nr).size + (indexField j).size))
  have h2 := hlast (partTag j) len
  rw [partLength, partLength, htags]
  exact pbEvalStringLength_mono KNV_PKG_TAG (by omega) (by omega)

/-! ## The limit -/

/-- **Every packet that `EncodePart` makes is within the limit**, whatever was encoded before. -/
def RespectsLimit (P : KnvProtocol) : Prop :=
  ∀ Q Q' mem i s, Relation.ReflTransGen Encodes P Q → Q.encodePart mem i = .ok (Q', s) →
    s.length ≤ P.getMaxPkgSize

/-- The packets have the lengths of the parts. -/
theorem CutInto.respectsLimit_parts (hc : CutInto P m P' ms cs d nr) (hle : nr ≤ 255)
    (ht : Tight (ms ++ cs) d) : RespectsLimit P' ↔ ∀ i < nr,
      partLength (taken (ms ++ cs)) nr i (KnvProtocol.sliceOf m P.sliceSize nr i).length ≤
        P.getMaxPkgSize := by
  rw [RespectsLimit, hc.limit]
  constructor
  · intro hall i hi
    obtain ⟨Q', hQ', -⟩ := hc.sends.encodePart_ok hc.two_le hle ht hi fun _ => 0
    rw [← length_partBytes ht]
    exact hall P' Q' _ i _ .refl hQ'
  · intro hall Q Q' mem i s hrun hs
    have hQ := hc.sends.run hc.two_le hle hrun
    have hi := hQ.index_lt hle hs
    obtain ⟨Q₁, hQ₁, -⟩ := hQ.encodePart_ok hc.two_le hle ht hi mem
    rw [hQ₁] at hs
    obtain ⟨rfl, rfl⟩ := Prod.mk.inj (Except.ok.inj hs)
    rw [length_partBytes ht]
    exact hall i hi

end Size

end MysqlProxy
