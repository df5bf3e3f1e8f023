/-
  What a node is written as, whatever the buffer.

  `Serialize` hands a shrinking rest of its buffer down the tree, and each level checks its own pieces.
  `encoded n` is the same without a buffer: the bytes, if there are any.  The two agree exactly:

    `serialize n len true = .ok w`  iff  `encoded n = some w` and `w` fits into `len`,

  and without a header the same holds of `encodedBody`, for a node that is written from its lists.
-/
import MysqlProxy.Knv.Tree
import MysqlProxy.Knv.PbEval

namespace MysqlProxy

theorem except_bind_eq_ok {ε α β : Type} {x : Except ε α} {f : α → Except ε β} {b : β} :
    (x >>= f) = .ok b ↔ ∃ a, x = .ok a ∧ f a = .ok b := by
  cases x with
  | error e => exact ⟨nofun, fun ⟨a, ha, _⟩ => nomatch ha⟩
  | ok a => exact ⟨fun h => ⟨a, rfl, h⟩, fun ⟨a', ha, h⟩ => by cases ha; exact h⟩

/-- A call that adds bytes succeeds if there is room for them. -/
theorem PbEval.Adds.eq_ok {call : Except Int PbBuff} {b c : PbBuff} {bytes : List UInt8}
    (h : Adds call b bytes) : call = .ok c ↔ bytes.length ≤ b.left ∧ c = b.push bytes := by
  unfold Adds at h
  split at h
  · rename_i hroom
    rw [h]
    exact ⟨fun hc => ⟨hroom, (Except.ok.inj hc).symm⟩, fun ⟨_, hc⟩ => congrArg _ hc.symm⟩
  · rename_i hroom
    obtain ⟨code, -, rfl⟩ := h
    exact ⟨nofun, fun ⟨hle, _⟩ => absurd hle hroom⟩

namespace KnvNode

theorem written_eq_ok {r : Except Int PbBuff} {code : Int} {b : PbBuff} :
    written r code = .ok b ↔ r = .ok b := by
  constructor
  · intro h
    cases r with
    | error e => cases h
    | ok c =>
      cases h
      rfl
  · rintro rfl
    rfl

/-- The key in front, if it is written from the member. -/
def keyBytes (n : KnvNode) : List UInt8 := if n.writesKey then fieldBytes 1 n.key.getValue else []

theorem writeKey_eq_ok {n : KnvNode} {b c : PbBuff} :
    n.writeKey b = .ok c ↔ n.keyBytes.length ≤ b.left ∧ c = b.push n.keyBytes := by
  unfold writeKey keyBytes
  split
  · rw [written_eq_ok]
    exact (PbEval.pbAddFieldVal_adds b 1 n.key.getValue).eq_ok
  · constructor
    · rintro ⟨⟩
      refine ⟨Nat.zero_le _, ?_⟩
      cases b
      simp [PbBuff.push]
    · rintro ⟨-, rfl⟩
      cases b
      simp [PbBuff.push]

mutual
/-- What `Serialize` writes with a header. -/
def encoded : KnvNode → Option (List UInt8)
  | ⟨d, metalist, childlist⟩ =>
    let n : KnvNode := ⟨d, metalist, childlist⟩
    if d.tag = 0 then none
    else if n.isFolded then some (fieldBytes d.tag d.val)
    else do
      let ms ← encodedList metalist n.skipsFirst
      let cs ← encodedList childlist false
      let out := PbEval.headBytes d.tag (evaluateSize n).2.toNat ++ (n.keyBytes ++ ms ++ cs)
      if (out.length : Int) = (evaluateSize n).1 then some out else none

def encodedList : List KnvNode → Bool → Option (List UInt8)
  | [], _ => some []
  | n :: l, skip =>
    if skip then encodedList l false
    else do
      let bytes ← encoded n
      let rest ← encodedList l false
      return bytes ++ rest
end

/-- What is written behind the header, from the key and the lists. -/
def encodedBody (n : KnvNode) : Option (List UInt8) := do
  let ms ← encodedList n.metalist n.skipsFirst
  let cs ← encodedList n.childlist false
  return n.keyBytes ++ ms ++ cs

theorem encoded_of_folded {n : KnvNode} (htag : n.tag ≠ 0) (hfold : n.isFolded = true) :
    encoded n = some (fieldBytes n.tag n.val) := by
  obtain ⟨d, metalist, childlist⟩ := n
  replace htag : d.tag ≠ 0 := htag
  rw [encoded]
  simp only [if_neg htag, hfold, if_true]

theorem encoded_of_lists {n : KnvNode} {out : List UInt8} (htag : n.tag ≠ 0)
    (hfold : n.isFolded = false) : encoded n = some out ↔ ∃ w, encodedBody n = some w ∧
      out = PbEval.headBytes n.tag (evaluateSize n).2.toNat ++ w ∧
      (out.length : Int) = (evaluateSize n).1 := by
  obtain ⟨d, metalist, childlist⟩ := n
  replace htag : d.tag ≠ 0 := htag
  rw [encoded, encodedBody]
  simp only [if_neg htag, hfold, Bool.false_eq_true, if_false, Option.bind_eq_bind, Option.pure_def,
    Option.bind_eq_some_iff, Option.some.injEq]
  constructor
  · rintro ⟨ms, hms, cs, hcs, hout⟩
    split at hout
    · rename_i hlen
      cases hout
      exact ⟨_, ⟨ms, hms, cs, hcs, rfl⟩, rfl, hlen⟩
    · cases hout
  · rintro ⟨w, ⟨ms, hms, cs, hcs, rfl⟩, rfl, hlen⟩
    exact ⟨ms, hms, cs, hcs, if_pos hlen⟩

/-! ## It is what `Serialize` writes -/

/-- The lists behind what is in the buffer already. -/
def lists (n : KnvNode) (b : PbBuff) (len : Nat) : Except KnvError (List UInt8) := do
  let b ← n.writeKey b
  let out ← serializeList n.metalist n.skipsFirst b.out len (-8)
  serializeList n.childlist false out len (-9)

theorem serialize_folded {n : KnvNode} (htag : n.tag ≠ 0) (hfold : n.isFolded = true) {len : Nat}
    {w : List UInt8} : serialize n len true = .ok w ↔
      fieldBytes n.tag n.val = w ∧ w.length ≤ len := by
  obtain ⟨d, metalist, childlist⟩ := n
  replace htag : d.tag ≠ 0 := htag
  rw [serialize]
  simp only [if_neg htag, hfold, if_true]
  rw [except_bind_eq_ok]
  constructor
  · rintro ⟨c, hc, hw⟩
    obtain ⟨hroom, rfl⟩ :=
      (PbEval.pbAddFieldVal_adds ⟨[], len⟩ d.tag d.val).eq_ok.mp (written_eq_ok.mp hc)
    cases hw
    exact ⟨rfl, hroom⟩
  · rintro ⟨rfl, hroom⟩
    exact ⟨_, written_eq_ok.mpr
      ((PbEval.pbAddFieldVal_adds ⟨[], len⟩ d.tag d.val).eq_ok.mpr ⟨hroom, rfl⟩), rfl⟩

/-- With the check at the end, for both kinds of calls. -/
theorem serialize_lists {n : KnvNode} (htag : n.tag ≠ 0) (hfold : n.isFolded = false) {len : Nat}
    {with_header : Bool} {w : List UInt8} : serialize n len with_header = .ok w ↔
      ∃ head : List UInt8, head = (if with_header then
        PbEval.headBytes n.tag (evaluateSize n).2.toNat else []) ∧ head.length ≤ len ∧
      lists n ⟨head, len - head.length⟩ len = .ok w ∧
      (w.length : Int) = if with_header then (evaluateSize n).1 else (evaluateSize n).2 := by
  obtain ⟨d, metalist, childlist⟩ := n
  replace htag : d.tag ≠ 0 := htag
  have hend : ∀ (b : PbBuff) (sz : Int),
      (writeKey ⟨d, metalist, childlist⟩ b >>= fun b =>
        serializeList metalist (skipsFirst ⟨d, metalist, childlist⟩) b.out len (-8) >>= fun out =>
        serializeList childlist false out len (-9) >>= fun out =>
          if (out.length : Int) ≠ sz then throw ⟨-10, "Bug: eval size incorrect"⟩ else pure out) =
        Except.ok w ↔ lists ⟨d, metalist, childlist⟩ b len = .ok w ∧ (w.length : Int) = sz := by
    intro b sz
    unfold lists
    simp only [except_bind_eq_ok]
    constructor
    · rintro ⟨c, hc, out, ho, out', ho', hw⟩
      split at hw
      · cases hw
      · rename_i hsz
        cases hw
        exact ⟨⟨c, hc, out, ho, ho'⟩, not_not.mp hsz⟩
    · rintro ⟨⟨c, hc, out, ho, ho'⟩, hsz⟩
      exact ⟨c, hc, out, ho, w, ho', if_neg (not_not_intro hsz)⟩
  rw [serialize]
  simp only [if_neg htag, hfold, Bool.false_eq_true, if_false]
  cases with_header with
  | true =>
    simp only [if_true]
    rw [except_bind_eq_ok]
    constructor
    · rintro ⟨c, hc, hw⟩
      obtain ⟨hroom, rfl⟩ :=
        (PbEval.pbAddStringHead_adds ⟨[], len⟩ d.tag _).eq_ok.mp (written_eq_ok.mp hc)
      obtain ⟨hl, hsz⟩ := (hend _ _).mp hw
      exact ⟨_, rfl, hroom, hl, hsz⟩
    · rintro ⟨head, rfl, hroom, hl, hsz⟩
      exact ⟨_, written_eq_ok.mpr
        ((PbEval.pbAddStringHead_adds ⟨[], len⟩ d.tag _).eq_ok.mpr ⟨hroom, rfl⟩),
        (hend _ _).mpr ⟨hl, hsz⟩⟩
  | false =>
    constructor
    · intro hw
      obtain ⟨hl, hsz⟩ := (hend _ _).mp hw
      exact ⟨[], rfl, Nat.zero_le _, hl, hsz⟩
    · rintro ⟨head, rfl, -, hl, hsz⟩
      exact (hend _ _).mpr ⟨hl, hsz⟩

/-- The key and the lists, if the lists are written as they are encoded. -/
theorem lists_eq_ok {n : KnvNode} {len : Nat}
    (hms : ∀ {out w : List UInt8}, out.length ≤ len →
      (serializeList n.metalist n.skipsFirst out len (-8) = .ok w ↔
        ∃ v, encodedList n.metalist n.skipsFirst = some v ∧ w = out ++ v ∧ w.length ≤ len))
    (hcs : ∀ {out w : List UInt8}, out.length ≤ len →
      (serializeList n.childlist false out len (-9) = .ok w ↔
        ∃ v, encodedList n.childlist false = some v ∧ w = out ++ v ∧ w.length ≤ len))
    {head w : List UInt8} (hlen : head.length ≤ len) :
    lists n ⟨head, len - head.length⟩ len = .ok w ↔
      ∃ v, encodedBody n = some v ∧ w = head ++ v ∧ w.length ≤ len := by
  unfold lists encodedBody
  simp only [except_bind_eq_ok, Option.bind_eq_bind, Option.pure_def, Option.bind_eq_some_iff,
    Option.some.injEq, writeKey_eq_ok]
  constructor
  · rintro ⟨c, ⟨hk, rfl⟩, out, ho, hw⟩
    have hk' : (head ++ n.keyBytes).length ≤ len := by
      rw [List.length_append]
      replace hk : n.keyBytes.length ≤ len - head.length := hk
      omega
    obtain ⟨ms, hms, rfl, hle⟩ := (hms hk').mp ho
    obtain ⟨cs, hcs, rfl, hle'⟩ := (hcs hle).mp hw
    exact ⟨_, ⟨ms, hms, cs, hcs, rfl⟩, by simp only [List.append_assoc], hle'⟩
  · rintro ⟨v, ⟨ms, hem, cs, hec, rfl⟩, rfl, hle⟩
    simp only [List.length_append] at hle
    have hk : n.keyBytes.length ≤ len - head.length := by omega
    have hk' : (head ++ n.keyBytes).length ≤ len := by
      rw [List.length_append]
      omega
    have hm : (head ++ n.keyBytes ++ ms).length ≤ len := by
      simp only [List.length_append]
      omega
    refine ⟨_, ⟨hk, rfl⟩, _, (hms hk').mpr ⟨ms, hem, rfl, hm⟩, (hcs hm).mpr ⟨cs, hec, ?_, ?_⟩⟩
    · simp only [List.append_assoc]
    · simp only [List.length_append]
      omega

mutual
/-- **`Serialize` with a header** writes what the node is encoded as, if it fits. -/
theorem serialize_eq_ok (n : KnvNode) {len : Nat} {w : List UInt8} :
    serialize n len true = .ok w ↔ encoded n = some w ∧ w.length ≤ len := by
  match n with
  | ⟨d, metalist, childlist⟩ =>
    by_cases htag : d.tag = 0
    · rw [serialize, encoded]
      simp only [if_pos htag]
      exact ⟨nofun, fun h => nomatch h.1⟩
    · cases hfold : isFolded ⟨d, metalist, childlist⟩ with
      | true =>
        rw [serialize_folded htag hfold, encoded_of_folded htag hfold, Option.some.injEq]
      | false =>
        rw [serialize_lists htag hfold, encoded_of_lists htag hfold]
        simp only [if_true]
        constructor
        · rintro ⟨head, rfl, hroom, hl, hsz⟩
          obtain ⟨v, hv, hw, hle⟩ := (lists_eq_ok (n := ⟨d, metalist, childlist⟩)
            (fun h => serializeList_eq_ok metalist h) (fun h => serializeList_eq_ok childlist h)
            hroom).mp hl
          exact ⟨⟨v, hv, hw, hsz⟩, hle⟩
        · rintro ⟨⟨v, hv, hw, hsz⟩, hle⟩
          have hroom : (PbEval.headBytes d.tag
              (evaluateSize ⟨d, metalist, childlist⟩).2.toNat).length ≤ len := by
            rw [hw, List.length_append] at hle
            exact Nat.le_trans (Nat.le_add_right _ _) hle
          exact ⟨_, rfl, hroom, (lists_eq_ok (n := ⟨d, metalist, childlist⟩)
            (fun h => serializeList_eq_ok metalist h) (fun h => serializeList_eq_ok childlist h)
            hroom).mpr ⟨v, hv, hw, hle⟩, hsz⟩

theorem serializeList_eq_ok (l : List KnvNode) {skip : Bool} {len : Nat} {code : Int}
    {out w : List UInt8} (hout : out.length ≤ len) :
    serializeList l skip out len code = .ok w ↔
      ∃ v, encodedList l skip = some v ∧ w = out ++ v ∧ w.length ≤ len := by
  match l with
  | [] =>
    rw [serializeList, encodedList]
    constructor
    · rintro ⟨⟩
      exact ⟨[], rfl, (List.append_nil _).symm, hout⟩
    · rintro ⟨v, ⟨⟩, rfl, -⟩
      rw [List.append_nil]
      rfl
  | n :: l =>
    rw [serializeList, encodedList]
    cases skip with
    | true => exact serializeList_eq_ok l hout
    | false =>
      simp only [Bool.false_eq_true, if_false, Option.bind_eq_bind, Option.pure_def,
        Option.bind_eq_some_iff, Option.some.injEq]
      constructor
      · intro hs
        cases hn : serialize n (len - out.length) true with
        | error e =>
          rw [hn] at hs
          cases hs
        | ok bytes =>
          rw [hn] at hs
          obtain ⟨hb, hfit⟩ := (serialize_eq_ok n).mp hn
          have hle : (out ++ bytes).length ≤ len := by
            rw [List.length_append]
            omega
          obtain ⟨v, hv, rfl, hw⟩ := (serializeList_eq_ok l hle).mp hs
          exact ⟨_, ⟨bytes, hb, v, hv, rfl⟩, by rw [List.append_assoc], hw⟩
      · rintro ⟨v, ⟨bytes, hb, rest, hr, rfl⟩, rfl, hle⟩
        simp only [List.length_append] at hle
        have hn : serialize n (len - out.length) true = .ok bytes :=
          (serialize_eq_ok n).mpr ⟨hb, by omega⟩
        have hbytes : (out ++ bytes).length ≤ len := by
          rw [List.length_append]
          omega
        rw [hn]
        refine (serializeList_eq_ok l hbytes).mpr ⟨rest, hr, ?_, ?_⟩
        · rw [List.append_assoc]
        · simp only [List.length_append]
          omega
end

/-- **`Serialize` without a header**, of a node that is written from its lists. -/
theorem serialize_value_eq_ok {n : KnvNode} (htag : n.tag ≠ 0) (hfold : n.isFolded = false)
    {len : Nat} {w : List UInt8} : serialize n len false = .ok w ↔
      encodedBody n = some w ∧ w.length ≤ len ∧ (w.length : Int) = (evaluateSize n).2 := by
  rw [serialize_lists htag hfold]
  simp only [Bool.false_eq_true, if_false]
  have hl : ∀ w : List UInt8, lists n ⟨[], len - ([] : List UInt8).length⟩ len = .ok w ↔
      ∃ v, encodedBody n = some v ∧ w = [] ++ v ∧ w.length ≤ len := fun w =>
    lists_eq_ok (fun h => serializeList_eq_ok n.metalist h)
      (fun h => serializeList_eq_ok n.childlist h) (Nat.zero_le _)
  constructor
  · rintro ⟨head, rfl, -, hw, hsz⟩
    obtain ⟨v, hv, rfl, hle⟩ := (hl w).mp hw
    exact ⟨hv, hle, hsz⟩
  · rintro ⟨hv, hle, hsz⟩
    exact ⟨[], rfl, Nat.zero_le _, (hl w).mpr ⟨w, hv, rfl, hle⟩, hsz⟩

theorem serialize_tag {n : KnvNode} {len : Nat} {with_header : Bool} {w : List UInt8}
    (h : serialize n len with_header = .ok w) : n.tag ≠ 0 := by
  obtain ⟨d, metalist, childlist⟩ := n
  intro htag
  replace htag : d.tag = 0 := htag
  rw [serialize] at h
  simp only [if_pos htag] at h
  cases h

/-- The bytes do not depend on the room. -/
theorem serialize_unique {n : KnvNode} {len len' : Nat} {with_header : Bool} {w w' : List UInt8}
    (h : serialize n len with_header = .ok w) (h' : serialize n len' with_header = .ok w') :
    w = w' := by
  have htag := serialize_tag h
  cases with_header with
  | true =>
    have hw := ((serialize_eq_ok n).mp h).1
    rw [((serialize_eq_ok n).mp h').1] at hw
    exact (Option.some.inj hw).symm
  | false =>
    cases hfold : n.isFolded with
    | false =>
      have hw := ((serialize_value_eq_ok htag hfold).mp h).1
      rw [((serialize_value_eq_ok htag hfold).mp h').1] at hw
      exact (Option.some.inj hw).symm
    | true =>
      obtain ⟨d, metalist, childlist⟩ := n
      replace htag : d.tag ≠ 0 := htag
      have hval : ∀ {l : Nat} {v : List UInt8},
          serialize ⟨d, metalist, childlist⟩ l false = .ok v → d.val.str = v := by
        intro l v hs
        rw [serialize] at hs
        simp only [if_neg htag, hfold, if_true, Bool.false_eq_true, if_false] at hs
        split at hs
        · rename_i s hs'
          split at hs
          · cases hs
            rw [hs']
            rfl
          · cases hs
        · cases hs
      rw [← hval h, ← hval h']

/-- **`Serialize` to a string.** -/
theorem serializeString_eq_ok {n : KnvNode} {w : List UInt8} : n.serializeString = .ok w ↔
    encoded n = some w ∧ (w.length : Int) = (evaluateSize n).1 := by
  rw [serializeString]
  constructor
  · intro h
    cases hs : serialize n (evaluateSize n).1.toNat true with
    | error e =>
      simp only [hs] at h
      cases h
    | ok bytes =>
      simp only [hs] at h
      split at h
      · cases h
      · rename_i hsz
        cases h
        exact ⟨((serialize_eq_ok n).mp hs).1, (not_not.mp hsz).symm⟩
  · rintro ⟨hw, hsz⟩
    have hs : serialize n (evaluateSize n).1.toNat true = .ok w :=
      (serialize_eq_ok n).mpr ⟨hw, by omega⟩
    simp only [hs]
    exact if_neg (not_not_intro hsz.symm)

end KnvNode

end MysqlProxy
