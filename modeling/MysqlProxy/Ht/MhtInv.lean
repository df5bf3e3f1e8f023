/-
  The invariant of a `MultiHashTable`, and what its node operations keep.

  `Inv t`: every non-empty node sits in a slot of its own key's hash, in a used row; no key is in
  two nodes; and the positions of ALL nodes, the empty ones included, are the handles of a valid
  block store, so the values of different nodes share no block.

  `Has t k p` — node `p` holds key `k`.  `Search` finds it (`search_node`), and a read of `k` is a
  read of its chain (`getData_has`) or, if there is no such node, of nothing (`getData_absent`).

  What an eviction does to all other keys is said once, by `Forgets`: each entry of the new table
  is an entry of the old one, with the same key and the same readings.
-/
import MysqlProxy.Ht.MhtNodes
import MysqlProxy.Ht.LinkTableData

namespace MysqlProxy.MultiHashTable

/-! ## The invariant -/

structure Inv (t : MultiHashTable) : Prop where
  rows : Rows t
  maxRow : t.ddwMaxUsedRow < t.ddwRowNum
  iter : t.ddwEraseIterator < t.ddwHashNodeNum
  fits : ∀ p, p < t.ddwHashNodeNum → t.nodeKeyLen p ≤ t.getMaxKeyLen
  placed : ∀ p, p < t.ddwHashNodeNum → t.nodeLtPos p ≠ 0 →
    t.nodeHashKey p = (t.hashfunc (t.keyOf p)).toNat ∧
      ∃ i, i ≤ t.ddwMaxUsedRow ∧ p = t.slot (t.hashfunc (t.keyOf p)).toNat i
  unique : ∀ p q, p < t.ddwHashNodeNum → q < t.ddwHashNodeNum → t.nodeLtPos p ≠ 0 →
    t.nodeLtPos q ≠ 0 → t.keyOf p = t.keyOf q → p = q
  lt : t.lt.Valid (slots t.ddwHashNodeNum t.nodeLtPos)

/-- The keys of the claims about the cache: they fit a node and its length field. -/
def ValidKey (t : MultiHashTable) (k : List UInt8) : Prop :=
  1 ≤ k.length ∧ k.length ≤ 255 ∧ k.length ≤ t.getMaxKeyLen

instance (t : MultiHashTable) (k : List UInt8) : Decidable (t.ValidKey k) :=
  inferInstanceAs (Decidable (_ ∧ _ ∧ _))

/-- Node `p` holds key `k`. -/
def Has (t : MultiHashTable) (k : List UInt8) (p : Nat) : Prop :=
  p < t.ddwHashNodeNum ∧ t.nodeLtPos p ≠ 0 ∧ t.keyOf p = k

theorem ValidKey.ne_nil {t : MultiHashTable} {k : List UInt8} (h : t.ValidKey k) : k ≠ [] := by
  rintro rfl
  exact absurd h.1 (by simp)

/-- A key that fits is compared in full. -/
theorem hnodeCmp_iff {t : MultiHashTable} {k : List UInt8} {p : Nat} (hk : k.length ≤ 255) :
    t.hnodeCmp k p = true ↔ t.keyOf p = k := by
  have hmod : k.length % 256 = k.length := Nat.mod_eq_of_lt (by omega)
  simp only [hnodeCmp, hmod, List.take_length, decide_eq_true_eq]
  constructor
  · rintro ⟨h1, h2⟩
    rw [keyOf, ← h1]
    exact h2.symm
  · intro h
    have hlen : k.length = t.nodeKeyLen p := by rw [← length_keyOf, h]
    refine ⟨hlen, ?_⟩
    rw [hlen]
    exact h.symm

section Search

variable {t : MultiHashTable} {k : List UInt8} {p : Nat}

theorem Inv.has_unique (h : Inv t) {q : Nat} (hp : t.Has k p) (hq : t.Has k q) : p = q :=
  h.unique p q hp.1 hq.1 hp.2.1 hq.2.1 (hp.2.2.trans hq.2.2.symm)

/-- **`Search` finds exactly the node of the key.** -/
theorem search_node (h : Inv t) (hk : t.ValidKey k) :
    (t.search k (t.hashfunc k).toNat).1.node = some p ↔ t.Has k p := by
  obtain ⟨-, hspec⟩ := search_spec h.maxRow k (t.hashfunc k).toNat
  have hfound : ∀ q, (t.search k (t.hashfunc k).toNat).1.node = some q → t.Has k q := by
    intro q hq
    obtain ⟨i, hi, rfl, hne, -, hcmp⟩ := hspec.found q hq
    exact ⟨slot_lt h.rows (Nat.lt_of_le_of_lt hi h.maxRow) _, hne, (hnodeCmp_iff hk.2.1).mp hcmp⟩
  refine ⟨hfound p, fun hp => ?_⟩
  obtain ⟨hlt, hne, hkey⟩ := hp
  obtain ⟨hhash, i, hi, hslot⟩ := h.placed p hlt hne
  rw [hkey] at hhash hslot
  have hmatch : t.Matches k (t.hashfunc k).toNat p :=
    ⟨hne, hhash.symm, (hnodeCmp_iff hk.2.1).mpr hkey⟩
  cases hnode : (t.search k (t.hashfunc k).toNat).1.node with
  | none => exact absurd (hslot ▸ hmatch) (hspec.missed hnode i hi)
  | some q => rw [h.has_unique (hfound q hnode) ⟨hlt, hne, hkey⟩]

theorem search_none (h : Inv t) (hk : t.ValidKey k) :
    (t.search k (t.hashfunc k).toNat).1.node = none ↔ ∀ p, ¬ t.Has k p := by
  constructor
  · intro hnone p hp
    rw [(search_node h hk).mpr hp] at hnone
    simp at hnone
  · intro hno
    cases hnode : (t.search k (t.hashfunc k).toNat).1.node with
    | none => rfl
    | some p => exact absurd ((search_node h hk).mp hnode) (hno p)

end Search

/-! ## Reading -/

/-- What a read of node `p` gives. -/
def readNode (t : MultiHashTable) (p n : Nat) : Except MhtError (List UInt8) :=
  match t.lt.getData (t.nodeLtPos p) n with
  | .error e => .error (.linkTableGet e)
  | .ok d => .ok d

theorem getData_has {t : MultiHashTable} {k : List UInt8} {p n : Nat} (h : Inv t)
    (hk : t.ValidKey k) (hn : 1 ≤ n) (hp : t.Has k p) (now : Nat) (upd : Bool) :
    (t.getData now k n upd).result = t.readNode p n ∧
      (t.getData now k n upd).table = if upd then t.touch now p else t := by
  have hsame := (search_spec h.maxRow k (t.hashfunc k).toNat).1
  have hnode := (search_node h hk).mpr hp
  have hkey : ∀ t', t' = (if upd then t.touch now p else t) →
      t'.keyOf p = k ∧ t'.nodeLtPos p = t.nodeLtPos p ∧ t'.lt = t.lt := by
    rintro t' rfl
    cases upd with
    | false => exact ⟨hp.2.2, rfl, rfl⟩
    | true =>
      obtain ⟨h1, -, h3⟩ := touch_self (t := t) (p := p) now
      exact ⟨h3.trans hp.2.2, h1, rfl⟩
  obtain ⟨h1, h2, h3⟩ := hkey _ rfl
  unfold getData readNode
  rw [if_neg (by simp only [hk.ne_nil, false_or]; omega)]
  simp only [hsame, hnode]
  rw [if_pos ((hnodeCmp_iff hk.2.1).mpr h1), h2, h3]
  cases t.lt.getData (t.nodeLtPos p) n with
  | error e => exact ⟨rfl, rfl⟩
  | ok d => exact ⟨rfl, rfl⟩

theorem getData_absent {t : MultiHashTable} {k : List UInt8} {n : Nat} (h : Inv t)
    (hk : t.ValidKey k) (hn : 1 ≤ n) (hp : ∀ p, ¬ t.Has k p) (now : Nat) (upd : Bool) :
    (t.getData now k n upd).result = .ok [] ∧ (t.getData now k n upd).table = t := by
  have hsame := (search_spec h.maxRow k (t.hashfunc k).toNat).1
  have hnode := (search_none h hk).mpr hp
  unfold getData
  rw [if_neg (by simp only [hk.ne_nil, false_or]; omega)]
  simp only [hsame, hnode, and_self]

theorem getData_small {t : MultiHashTable} {k : List UInt8} {n : Nat} (hn : n < 1) (now : Nat)
    (upd : Bool) :
    (t.getData now k n upd).result = .error .badArgument ∧ (t.getData now k n upd).table = t := by
  unfold getData
  rw [if_pos (.inr hn)]
  exact ⟨rfl, rfl⟩

/-! ## Changes to single nodes -/

/-- The invariant survives any change after which the non-empty nodes are old ones with their old
    hash and key, over a block store that is valid for the new positions. -/
theorem Inv.update {t t' : MultiHashTable} (h : Inv t) (hs : SameShape t t')
    (hmax : t'.ddwMaxUsedRow = t.ddwMaxUsedRow) (hiter : t'.ddwEraseIterator < t.ddwHashNodeNum)
    (hfits : ∀ q, q < t.ddwHashNodeNum → t'.nodeKeyLen q ≤ t.getMaxKeyLen)
    (hnodes : ∀ q, q < t.ddwHashNodeNum → t'.nodeLtPos q ≠ 0 →
      t.nodeLtPos q ≠ 0 ∧ t'.nodeHashKey q = t.nodeHashKey q ∧ t'.keyOf q = t.keyOf q)
    (hlt : t'.lt.Valid (slots t.ddwHashNodeNum t'.nodeLtPos)) : Inv t' where
  rows := hs.toRows h.rows
  maxRow := by rw [hmax, hs.rowNum]; exact h.maxRow
  iter := by rw [hs.num]; exact hiter
  fits p hp := by rw [hs.maxKeyLen]; exact hfits p (hs.num ▸ hp)
  placed p hp hne := by
    rw [hs.num] at hp
    obtain ⟨h1, h2, h3⟩ := hnodes p hp hne
    obtain ⟨hh, i, hi, hslot⟩ := h.placed p hp h1
    rw [h2, h3, hs.hash, hmax]
    exact ⟨hh, i, hi, by rw [hs.slot]; exact hslot⟩
  unique p q hp hq hne hne' hkey := by
    rw [hs.num] at hp hq
    obtain ⟨h1, -, h3⟩ := hnodes p hp hne
    obtain ⟨g1, -, g3⟩ := hnodes q hq hne'
    exact h.unique p q hp hq h1 g1 (by rw [← h3, ← g3]; exact hkey)
  lt := by rw [hs.num]; exact hlt

/-- Taking the position of node `p` out of the list of handles. -/
theorem Inv.valid_cons {t : MultiHashTable} (h : Inv t) {p : Nat} (hp : p < t.ddwHashNodeNum) :
    t.lt.Valid (t.nodeLtPos p :: slots t.ddwHashNodeNum (Function.update t.nodeLtPos p 0)) :=
  h.lt.cons_zero.perm (slots_update_perm t.nodeLtPos 0 hp).symm

/-- The entries of `t'` are entries of `t`, with their readings. -/
structure Forgets (t t' : MultiHashTable) : Prop extends SameShape t t' where
  maxRow : t'.ddwMaxUsedRow = t.ddwMaxUsedRow
  blockSize : t'.lt.ddwBlockSize = t.lt.ddwBlockSize
  allBlocks : t'.lt.ddwAllBlockCount = t.lt.ddwAllBlockCount
  same : ∀ q, q < t.ddwHashNodeNum → t'.nodeLtPos q ≠ 0 → SameNode t t' q ∧
    ∀ n, t'.lt.getData (t.nodeLtPos q) n = t.lt.getData (t.nodeLtPos q) n

/-- Node `p` is as it was, and reads as it did. -/
def KeepsNode (t t' : MultiHashTable) (p : Nat) : Prop :=
  SameNode t t' p ∧
    (t.nodeLtPos p ≠ 0 → ∀ n, t'.lt.getData (t.nodeLtPos p) n = t.lt.getData (t.nodeLtPos p) n)

theorem Forgets.refl (t : MultiHashTable) : Forgets t t :=
  ⟨SameShape.refl t, rfl, rfl, rfl, fun q _ _ => ⟨SameNode.refl t q, fun _ => rfl⟩⟩

theorem Forgets.trans {t t' t'' : MultiHashTable} (h : Forgets t t') (h' : Forgets t' t'') :
    Forgets t t'' := by
  refine ⟨h.toSameShape.trans h'.toSameShape, h'.maxRow.trans h.maxRow,
    h'.blockSize.trans h.blockSize, h'.allBlocks.trans h.allBlocks, fun q hq hne => ?_⟩
  obtain ⟨hn', hr'⟩ := h'.same q (by rw [h.num]; exact hq) hne
  have hne' : t'.nodeLtPos q ≠ 0 := hn'.pos ▸ hne
  obtain ⟨hn, hr⟩ := h.same q hq hne'
  exact ⟨hn.trans hn', fun n => by rw [← hn.pos, hr' n, hn.pos, hr n]⟩

theorem KeepsNode.refl (t : MultiHashTable) (p : Nat) : KeepsNode t t p :=
  ⟨SameNode.refl t p, fun _ _ => rfl⟩

theorem KeepsNode.trans {t t' t'' : MultiHashTable} {p : Nat} (h : KeepsNode t t' p)
    (h' : KeepsNode t' t'' p) : KeepsNode t t'' p :=
  ⟨h.1.trans h'.1, fun hne n => by
    rw [← h.1.pos, h'.2 (h.1.pos ▸ hne) n, h.1.pos, h.2 hne n]⟩

/-- An entry of the new table is an entry of the old one. -/
theorem Forgets.has {t t' : MultiHashTable} (h : Forgets t t') {k : List UInt8} {p : Nat}
    (hp : t'.Has k p) : t.Has k p ∧ ∀ n, t'.readNode p n = t.readNode p n := by
  obtain ⟨hlt, hne, hkey⟩ := hp
  rw [h.num] at hlt
  obtain ⟨hn, hr⟩ := h.same p hlt hne
  refine ⟨⟨hlt, hn.pos ▸ hne, hn.key ▸ hkey⟩, fun n => ?_⟩
  rw [readNode, readNode, hn.pos, hr n]

theorem KeepsNode.has {t t' : MultiHashTable} {k : List UInt8} {p : Nat} (h : KeepsNode t t' p)
    (hs : SameShape t t') (hp : t.Has k p) :
    t'.Has k p ∧ ∀ n, t'.readNode p n = t.readNode p n := by
  obtain ⟨hlt, hne, hkey⟩ := hp
  refine ⟨⟨hs.num ▸ hlt, by rw [h.1.pos]; exact hne, by rw [h.1.key]; exact hkey⟩, fun n => ?_⟩
  rw [readNode, readNode, h.1.pos, h.2 hne n]

theorem SameShape.validKey {t t' : MultiHashTable} (h : SameShape t t') {k : List UInt8} :
    t'.ValidKey k ↔ t.ValidKey k := by
  unfold ValidKey
  rw [h.maxKeyLen]

/-! ## Wiping and erasing a node -/

section Wipe

variable {t : MultiHashTable} {p : Nat}

theorem wipeNode_away (h : Inv t) {q : Nat} (hq : q < t.ddwHashNodeNum) (hpq : q ≠ p) :
    SameNode t (t.wipeNode p) q := by
  have hw : 16 < t.ddwHashNodeSize := h.rows.wide
  refine (writeNode_away hpq ?_).sameNode h.rows.wide (h.fits q hq)
  rw [List.length_replicate, sizeofMhtNode]
  omega

/-- The positions after wiping. -/
theorem slots_wipeNode (h : Inv t) :
    slots t.ddwHashNodeNum (t.wipeNode p).nodeLtPos =
      slots t.ddwHashNodeNum (Function.update t.nodeLtPos p 0) := by
  refine slots_congr fun q hq => ?_
  by_cases hpq : q = p
  · subst hpq; rw [wipeNode_ltPos, Function.update_self]
  · rw [Function.update_of_ne hpq, (wipeNode_away h hq hpq).pos]

/-- Wiping node `p` over a block store that is valid for the other positions. -/
theorem Inv.wipe (h : Inv t) {lt : LinkTable}
    (hv : lt.Valid (slots t.ddwHashNodeNum (Function.update t.nodeLtPos p 0))) :
    Inv ({ t with lt := lt }.wipeNode p) := by
  have haway : ∀ q, q < t.ddwHashNodeNum → q ≠ p →
      SameNode t ({ t with lt := lt }.wipeNode p) q := fun q hq hpq =>
    ⟨(wipeNode_away h hq hpq).hash, (wipeNode_away h hq hpq).pos, (wipeNode_away h hq hpq).key⟩
  have hself : ({ t with lt := lt }.wipeNode p).nodeLtPos p = 0 := wipeNode_ltPos
  refine h.update ⟨rfl, rfl, rfl, rfl, rfl, rfl⟩ rfl h.iter ?_ ?_ ?_
  · intro q hq
    by_cases hpq : q = p
    · subst hpq
      rw [wipeNode_keyLen]
      exact Nat.zero_le _
    · rw [(haway q hq hpq).keyLen]
      exact h.fits q hq
  · intro q hq hne
    by_cases hpq : q = p
    · subst hpq; exact absurd hself hne
    · have hsame := haway q hq hpq
      exact ⟨hsame.pos ▸ hne, hsame.hash, hsame.key⟩
  · have hslots : slots t.ddwHashNodeNum ({ t with lt := lt }.wipeNode p).nodeLtPos =
        slots t.ddwHashNodeNum (Function.update t.nodeLtPos p 0) := slots_wipeNode h
    rw [hslots]
    exact hv

/-- The nodes that survive keep their chains. -/
theorem mem_slots_update {q : Nat} (hq : q < t.ddwHashNodeNum) (hpq : q ≠ p) :
    t.nodeLtPos q ∈ slots t.ddwHashNodeNum (Function.update t.nodeLtPos p 0) :=
  mem_slots.mpr ⟨q, hq, Function.update_of_ne hpq _ _⟩

/-- **Erasing a node** forgets it and keeps all others. -/
theorem eraseNode_spec (h : Inv t) (hp : p < t.ddwHashNodeNum) :
    Inv (t.eraseNode p) ∧ Forgets t (t.eraseNode p) ∧ (t.eraseNode p).nodeLtPos p = 0 ∧
      (t.eraseNode p).ddwEraseIterator = t.ddwEraseIterator ∧
      ∀ q, q < t.ddwHashNodeNum → q ≠ p → KeepsNode t (t.eraseNode p) q := by
  have hv := h.valid_cons hp
  obtain ⟨hv', hk, hhead⟩ := hv.recycleBlock
  have hself : (t.eraseNode p).nodeLtPos p = 0 := wipeNode_ltPos
  have hkeep : ∀ q, q < t.ddwHashNodeNum → q ≠ p → KeepsNode t (t.eraseNode p) q := by
    intro q hq hpq
    have hsame := wipeNode_away h hq hpq
    refine ⟨⟨hsame.hash, hsame.pos, hsame.key⟩, fun _ n => ?_⟩
    exact hv.tail.getData_keep (mem_slots_update hq hpq) hhead.all hhead.size hk
  refine ⟨h.wipe hv', ⟨⟨rfl, rfl, rfl, rfl, rfl, rfl⟩, rfl, hhead.size, hhead.all, ?_⟩, hself, rfl, hkeep⟩
  intro q hq hne
  have hpq : q ≠ p := by
    rintro rfl
    exact hne hself
  obtain ⟨hsame, hread⟩ := hkeep q hq hpq
  exact ⟨hsame, hread (hsame.pos ▸ hne)⟩

/-- Wiping a node without giving up its value: the chain is lost, no other one is touched. -/
theorem wipeNode_spec (h : Inv t) (hp : p < t.ddwHashNodeNum) :
    Inv (t.wipeNode p) ∧ Forgets t (t.wipeNode p) ∧
      ∀ q, q < t.ddwHashNodeNum → q ≠ p → KeepsNode t (t.wipeNode p) q := by
  have hkeep : ∀ q, q < t.ddwHashNodeNum → q ≠ p → KeepsNode t (t.wipeNode p) q :=
    fun q hq hpq => ⟨wipeNode_away h hq hpq, fun _ _ => rfl⟩
  refine ⟨h.wipe (h.valid_cons hp).tail, ⟨⟨rfl, rfl, rfl, rfl, rfl, rfl⟩, rfl, rfl, rfl, ?_⟩, hkeep⟩
  intro q hq hne
  have hpq : q ≠ p := by
    rintro rfl
    exact hne wipeNode_ltPos
  exact ⟨(hkeep q hq hpq).1, fun _ => rfl⟩

/-- Noting an access changes nothing that a search or a read depends on. -/
theorem touch_spec (h : Inv t) (now : Nat) :
    Inv (t.touch now p) ∧ Forgets t (t.touch now p) ∧
      ∀ q, q < t.ddwHashNodeNum → KeepsNode t (t.touch now p) q := by
  have hw : 16 < t.ddwHashNodeSize := h.rows.wide
  have hsame : ∀ q, q < t.ddwHashNodeNum → SameNode t (t.touch now p) q := by
    intro q hq
    by_cases hpq : q = p
    · subst hpq
      obtain ⟨h1, h2, h3⟩ := touch_self (t := t) (p := q) now
      exact ⟨h2, h1, h3⟩
    · refine (writeNode_away hpq ?_).sameNode h.rows.wide (h.fits q hq)
      rw [length_leBytes]
      omega
  have hinv : Inv (t.touch now p) := by
    refine h.update ⟨rfl, rfl, rfl, rfl, rfl, rfl⟩ rfl h.iter ?_ ?_ ?_
    · intro q hq
      rw [(hsame q hq).keyLen]
      exact h.fits q hq
    · intro q hq hne
      exact ⟨(hsame q hq).pos ▸ hne, (hsame q hq).hash, (hsame q hq).key⟩
    · rw [slots_congr fun q hq => (hsame q hq).pos]
      exact h.lt
  exact ⟨hinv, ⟨⟨rfl, rfl, rfl, rfl, rfl, rfl⟩, rfl, rfl, rfl, fun q hq _ => ⟨hsame q hq, fun _ => rfl⟩⟩,
    fun q hq => ⟨hsame q hq, fun _ _ => rfl⟩⟩

end Wipe

end MysqlProxy.MultiHashTable
