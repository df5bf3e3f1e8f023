/-
  One edit of a root that was received.

  `RootEdit` is an edit: a leaf is inserted, a meta is set, or the children with a tag are removed.
  `RootEdit.metas` and `RootEdit.children` say what the field lists are meant to become, and
  `RootEdit.Fits` is the condition on the bytes that came and on the edit:

  * an edit that changes nothing needs a root header that was written the way this library writes it;
  * any other needs that of every field that STAYS, no bytes behind the last field, a key that fits
    its 16-bit length and is the first meta, and tags of 29 bits.

  `RootEdit.writesBack_iff` says that this is exactly when the edited root is written back.
-/
import MysqlProxy.Knv.Rewrite

namespace MysqlProxy

open KnvNode

/-- The edits of a root. -/
inductive RootEdit where
  | insertIntLeaf (tag : UInt32) (val : UInt64)
  | insertStrLeaf (tag : UInt32) (val : List UInt8)
  | setMetaInt (tag : UInt32) (val : UInt64)
  | removeChildrenByTag (tag : UInt32)
  deriving DecidableEq, Repr

/-- The list with `f` in place of the last field with its tag. -/
def setLast (f : PbField) : List PbField → List PbField
  | [] => []
  | g :: fs => if g.tag = f.tag ∧ ∀ h ∈ fs, h.tag ≠ f.tag then f :: fs else g :: setLast f fs

/-- The list without the last field with a tag. -/
def eraseLast (tag : UInt32) : List (PbField × Nat) → List (PbField × Nat)
  | [] => []
  | p :: fs => if p.1.tag = tag ∧ ∀ q ∈ fs, q.1.tag ≠ tag then fs else p :: eraseLast tag fs

/-- The last field with a tag. -/
def lastTaken (tag : UInt32) (fs : List (PbField × Nat)) : Option (PbField × Nat) :=
  fs.reverse.find? fun p => p.1.tag = tag

namespace RootEdit

def exec : RootEdit → KnvNode → Except KnvError (KnvNode × List Int)
  | insertIntLeaf tag val, n => n.insertIntLeaf tag val
  | insertStrLeaf tag val, n => n.insertStrLeaf tag val
  | setMetaInt tag val, n => n.setMetaInt tag val
  | removeChildrenByTag tag, n => n.removeChildrenByTag tag

/-- What the metas are meant to become.  A new key goes to the first position. -/
def metas : RootEdit → List PbField → List PbField
  | setMetaInt tag val, ms =>
    if ∃ f ∈ ms, f.tag = tag then setLast ⟨tag, .varint val⟩ ms
    else if tag = 1 then ⟨tag, .varint val⟩ :: ms
    else ms ++ [⟨tag, .varint val⟩]
  | _, ms => ms

/-- What the children are meant to become. -/
def children : RootEdit → List PbField → List PbField
  | insertIntLeaf tag val, cs => cs ++ [⟨tag, .varint val⟩]
  | insertStrLeaf tag val, cs => cs ++ [⟨tag, .string val⟩]
  | removeChildrenByTag tag, cs => cs.filter fun f => f.tag ≠ tag
  | setMetaInt _ _, cs => cs

/-- The edited field list of a value with the fields `fs`: metas, then children. -/
def edited (e : RootEdit) (fs : List (PbField × Nat)) : List PbField :=
  e.metas (metaFields (fs.map Prod.fst)) ++ e.children (childFields (fs.map Prod.fst))

/-- The edit changes the lists. -/
def Moves : RootEdit → List (PbField × Nat) → Prop
  | removeChildrenByTag tag, fs => ∃ p ∈ fs, isMeta p = false ∧ p.1.tag = tag
  | _, _ => True

/-- The edit leaves the size alone. -/
def KeepsSize : RootEdit → List (PbField × Nat) → Prop
  | insertIntLeaf _ _, _ => False
  | insertStrLeaf _ _, _ => False
  | setMetaInt tag val, fs =>
    ∃ p, lastTaken tag fs = some p ∧ p.2 = (⟨tag, .varint val⟩ : PbField).size
  | removeChildrenByTag tag, fs => ¬ Moves (removeChildrenByTag tag) fs

/-- The received fields that stay as they are. -/
def kept : RootEdit → List (PbField × Nat) → List (PbField × Nat)
  | setMetaInt tag _, fs => eraseLast tag fs
  | removeChildrenByTag tag, fs => fs.filter fun p => isMeta p || p.1.tag ≠ tag
  | _, fs => fs

/-- The member `key` after the edit.  A key that came is cut to its 16-bit length. -/
def key : RootEdit → List UInt8 → KnvKey
  | setMetaInt tag val, s => if tag = 1 then KnvKey.init (.varint val) else (keyOfValue s).1
  | _, s => (keyOfValue s).1

/-- The tag of a leaf that is inserted. -/
def leafTag : RootEdit → Option UInt32
  | insertIntLeaf tag _ => some tag
  | insertStrLeaf tag _ => some tag
  | _ => none

/-- The conditions on a value `s` with the fields `fs` when the edit changes the lists. -/
structure Rewritable (e : RootEdit) (tag : UInt32) (s : List UInt8) (fs : List (PbField × Nat)) :
    Prop where
  /-- What stays came the way it is written, -/
  canonical : ∀ p ∈ e.kept fs, p.2 = p.1.size
  /-- and there was nothing behind the last field. -/
  whole : taken fs = s.length
  /-- A key is the first of the metas, with all its bytes. -/
  key : (e.key s).val ≠ [] →
    (e.metas (metaFields (fs.map Prod.fst))).head? = some ⟨1, (e.key s).getValue⟩
  /-- Every tag can be written. -/
  tags : ∀ f ∈ e.edited fs, 0 < f.tag.toNat ∧ f.tag.toNat < 2 ^ 29
  /-- A leaf with a meta's tag has no child before it. -/
  order : ∀ t, e.leafTag = some t → t.toNat ≤ UC_MAX_META_NUM → childFields (fs.map Prod.fst) = []
  small : pbEvalStringLength tag (messageBytes (e.edited fs)).length < 2 ^ 31

/-- **The condition** on a root `n` with the value `s` and its fields `fs`. -/
structure Fits (e : RootEdit) (n : KnvNode) (s : List UInt8) (fs : List (PbField × Nat)) : Prop where
  tag : n.tag.toNat < 2 ^ 29
  /-- If no size changes, the root's header has to be as it is written. -/
  header : e.KeepsSize fs → n.eval_sz = pbEvalStringLength n.tag s.length
  value : e.Moves fs → e.Rewritable n.tag s fs

end RootEdit

namespace KnvNode

/-! ## A root that was received -/

/-- A root that has not been expanded yet, with the value `s`, the key `k` and the size `sz`. -/
structure Fresh (n : KnvNode) (s : List UInt8) (k : KnvKey) (sz : Nat) : Prop where
  tag : n.tag ≠ 0
  val : n.val = .string s
  child_num : n.child_num = none
  ht : n.ht = KnvHt.clear
  no_key : n.no_key = false
  key : n.key = k
  eval_sz : n.eval_sz = sz
  eval_val_sz : n.eval_val_sz = s.length
  le : pbEvalStringLength n.tag s.length ≤ sz

theorem initNode_key {s : List UInt8} (h : s ≠ []) (tag : UInt32) (sz : Nat) :
    (initNode tag (.string s) true sz false).key = (keyOfValue s).1 := by
  have hs : (FieldVal.string s).str ≠ [] := h
  unfold initNode
  simp only [if_true]
  rw [if_pos hs]
  rfl

theorem initNode_eval_sz {sz : Nat} (h : 0 < sz) (tag : UInt32) (val : FieldVal) (k : Bool) :
    (initNode tag val true sz k).eval_sz = sz := by
  show (if true = true then (if 0 < sz then (sz : Int) else (pbEvalFieldLength tag val : Int)) else 0) = _
  rw [if_pos rfl, if_pos h]

theorem fresh_newFromData {data : List UInt8} {n : KnvNode} {s : List UInt8}
    {fs : List (PbField × Nat)} (hnew : newFromData data = .ok n) (htag : n.tag ≠ 0)
    (hval : n.val = .string s) (hfs : pbFields s = some (fs, true)) :
    ∃ sz, sz < 2 ^ 31 ∧ Fresh n s (keyOfValue s).1 sz := by
  unfold newFromData at hnew
  split at hnew
  · cases hnew
  · rename_i f rest hb
    unfold pbBegin at hb
    split at hb
    · cases hb
    · rename_i hsmall
      have hsize := size_le_taken hb
      have hpos := f.size_pos
      cases hnew
      obtain ⟨ftag, fval⟩ := f
      have hfv : fval = .string s := hval
      subst hfv
      have hne : s ≠ [] := by
        rintro rfl
        cases hfs
      refine ⟨data.length - rest.length, by omega, ?_⟩
      exact
        { tag := htag
          val := rfl
          child_num := initNode_num hfs
          ht := rfl
          no_key := rfl
          key := initNode_key hne ftag _
          eval_sz := initNode_eval_sz (by omega) ftag _ false
          eval_val_sz := rfl
          le := by
            have : pbEvalStringLength ftag s.length = (⟨ftag, .string s⟩ : PbField).size := rfl
            show pbEvalStringLength ftag s.length ≤ _
            omega }

theorem Fresh.grown {n : KnvNode} {s : List UInt8} {k : KnvKey} {sz : Nat} (h : Fresh n s k sz)
    {fs : List (PbField × Nat)} (hfs : pbFields s = some (fs, true)) :
    Grown false (n.innerExpand false false) n fs ∧
      (n.innerExpand false false).subnode_dirty = false :=
  innerExpand_grown h.child_num h.val h.ht hfs (fun h => Bool.false_ne_true h.2) false

theorem length_key_init (val : FieldVal) : ∀ s, (KnvKey.init val).getValue = .string s →
    s.length < 2 ^ 16 := by
  intro s hs
  cases val with
  | string str =>
    cases hs
    show (str.take (str.length % 2 ^ 16)).length < 2 ^ 16
    rw [List.length_take]
    omega
  | varint i => cases hs
  | fixed64 i => cases hs
  | fixed32 i => cases hs

/-- A key that came is short, and there is a first field with tag 1. -/
theorem keyOfValue_spec {s : List UInt8} {fs : List (PbField × Nat)} {eom : Bool}
    (hfs : pbFields s = some (fs, eom)) :
    (∀ str, (keyOfValue s).1.getValue = .string str → str.length < 2 ^ 32) ∧
      ((keyOfValue s).1.val ≠ [] → metaFields (fs.map Prod.fst) ≠ []) := by
  obtain ⟨f, rest, hd, hlen, rfl⟩ := pbFields_first hfs
  have hb : pbBegin s = .ok (f, rest) := by
    rw [pbBegin, if_neg (Nat.not_le.mpr hlen)]
    exact hd
  have hkey : (keyOfValue s).1 = if f.tag = 1 then KnvKey.init f.val else KnvKey.none .string := by
    rw [keyOfValue, hb]
  rw [hkey]
  by_cases hf : f.tag = 1
  · rw [if_pos hf]
    refine ⟨fun str hs => Nat.lt_trans (length_key_init f.val str hs) (by decide), fun _ => ?_⟩
    rw [List.map_cons, metaFields_cons (by rw [hf]; decide)]
    exact List.cons_ne_nil _ _
  · rw [if_neg hf]
    constructor
    · intro str hs
      cases hs
      decide
    · exact fun hne => absurd rfl hne

theorem OfField.shown {k : Bool} {m : KnvNode} {p : PbField × Nat} (h : OfField k m p) :
    Shown m p.1 := by
  obtain ⟨r, rfl⟩ := h
  exact ⟨rfl, rfl, isFolded_of_isFlat (isFlat_of_nothing (initNode_child_num p.1.tag p.1.val p.2 k) rfl)⟩

theorem shown_of_ofField {k : Bool} {l : List KnvNode} {ps : List (PbField × Nat)}
    (h : List.Forall₂ (OfField k) l ps) : List.Forall₂ Shown l (ps.map Prod.fst) := by
  rw [List.forall₂_map_right_iff]
  exact h.imp fun _ _ hm => hm.shown

theorem Grown.shown_metalist {k : Bool} {m n : KnvNode} {fs : List (PbField × Nat)}
    (h : Grown k m n fs) : List.Forall₂ Shown m.metalist (metaFields (fs.map Prod.fst)) := by
  rw [← filter_isMeta]
  exact shown_of_ofField h.metalist

theorem Grown.shown_childlist {k : Bool} {m n : KnvNode} {fs : List (PbField × Nat)}
    (h : Grown k m n fs) : List.Forall₂ Shown m.childlist (childFields (fs.map Prod.fst)) := by
  rw [← filter_not_isMeta]
  exact shown_of_ofField h.childlist

/-! ## Lists of metas and of children -/

/-- Metas before children is the order of the walk. -/
theorem fields_in_order {ms cs : List PbField} (hm : ∀ f ∈ ms, f.tag.toNat ≤ UC_MAX_META_NUM)
    (hc : ∀ f ∈ cs, UC_MAX_META_NUM < f.tag.toNat) :
    metaFields (ms ++ cs) ++ childFields (ms ++ cs) = ms ++ cs := by
  rw [metaFields_append hm hc, childFields_append hm hc]

/-- A leaf behind the children is in order if it is a child, or there is no other. -/
theorem leaf_in_order {ms cs : List PbField} (hm : ∀ f ∈ ms, f.tag.toNat ≤ UC_MAX_META_NUM)
    (hc : ∀ f ∈ cs, UC_MAX_META_NUM < f.tag.toNat) (f : PbField) :
    metaFields (ms ++ (cs ++ [f])) ++ childFields (ms ++ (cs ++ [f])) = ms ++ (cs ++ [f]) ↔
      (f.tag.toNat ≤ UC_MAX_META_NUM → cs = []) := by
  by_cases hf : f.tag.toNat ≤ UC_MAX_META_NUM
  · have hm' : metaFields (ms ++ (cs ++ [f])) = ms ++ [f] := by
      rw [← List.append_assoc, metaFields, List.filter_append]
      show metaFields (ms ++ cs) ++ metaFields [f] = _
      rw [metaFields_append hm hc, metaFields_cons hf]
      rfl
    have hc' : childFields (ms ++ (cs ++ [f])) = cs := by
      rw [← List.append_assoc, childFields, List.filter_append]
      show childFields (ms ++ cs) ++ childFields [f] = _
      rw [childFields_append hm hc, childFields, List.filter_cons_of_neg (by simpa using hf)]
      exact List.append_nil cs
    rw [hm', hc', List.append_assoc]
    constructor
    · intro h _
      have h' := List.append_cancel_left h
      cases cs with
      | nil => rfl
      | cons c cs =>
        have hcf : f = c := (List.cons.inj h').1
        have hgt := hc c List.mem_cons_self
        rw [← hcf] at hgt
        exact absurd hf (Nat.not_le.mpr hgt)
    · intro h
      rw [h hf]
      rfl
  · refine ⟨fun _ h => absurd h hf, fun _ => fields_in_order hm ?_⟩
    intro g hg
    rcases List.mem_append.mp hg with hg | hg
    · exact hc g hg
    · rw [List.mem_singleton.mp hg]
      exact Nat.lt_of_not_le hf

/-! ## Sizes of what stays -/

/-- The bytes that received fields need when they are written. -/
def needed (fs : List (PbField × Nat)) : Nat := (fs.map fun p => p.1.size).sum

theorem needed_le_taken {fs : List (PbField × Nat)} (h : ∀ p ∈ fs, p.1.size ≤ p.2) :
    needed fs ≤ taken fs := by
  induction fs with
  | nil => exact Nat.le_refl 0
  | cons p fs ih =>
    have hp := h p List.mem_cons_self
    have hrec := ih fun q hq => h q (List.mem_cons_of_mem p hq)
    show p.1.size + needed fs ≤ p.2 + taken fs
    omega

/-- The fields need as many bytes as there are just if each came as it is written and nothing came
    behind them. -/
theorem needed_eq_iff {fs : List (PbField × Nat)} (h : ∀ p ∈ fs, p.1.size ≤ p.2) {len : Nat}
    (hlen : taken fs ≤ len) : needed fs = len ↔ (∀ p ∈ fs, p.2 = p.1.size) ∧ taken fs = len := by
  have hle := needed_le_taken h
  constructor
  · intro he
    refine ⟨?_, by omega⟩
    have heq : needed fs = taken fs := by omega
    clear he hle hlen
    induction fs with
    | nil => exact fun p hp => absurd hp List.not_mem_nil
    | cons p fs ih =>
      have hp := h p List.mem_cons_self
      have hfs := needed_le_taken fun q hq => h q (List.mem_cons_of_mem p hq)
      have heq' : p.1.size + needed fs = p.2 + taken fs := heq
      intro q hq
      rcases List.mem_cons.mp hq with rfl | hq
      · omega
      · exact ih (fun r hr => h r (List.mem_cons_of_mem p hr)) (by omega) q hq
  · rintro ⟨hall, ht⟩
    have hmap : needed fs = taken fs := by
      unfold needed taken
      rw [List.map_congr_left fun p hp => (hall p hp).symm]
    omega

theorem length_messageBytes_shown (fs : List (PbField × Nat)) :
    (messageBytes (metaFields (fs.map Prod.fst) ++ childFields (fs.map Prod.fst))).length =
      needed fs := by
  rw [length_messageBytes, needed]
  have hp : (metaFields (fs.map Prod.fst) ++ childFields (fs.map Prod.fst)).Perm (fs.map Prod.fst) :=
    List.filter_append_perm _ _
  rw [(hp.map PbField.size).sum_nat, List.map_map]
  rfl

/-! ## The last field with a tag -/

theorem find?_reverse_cons {α : Type*} (q : α → Bool) (a : α) (l : List α) :
    (a :: l).reverse.find? q = (l.reverse.find? q).or (if q a then some a else none) := by
  rw [List.reverse_cons, List.find?_append]
  congr 1
  cases hq : q a with
  | true => rw [List.find?_cons_of_pos hq, if_pos rfl]
  | false => rw [List.find?_cons_of_neg (by simp [hq]), List.find?_nil, if_neg Bool.false_ne_true]

theorem find?_reverse_none {α : Type*} {q : α → Bool} {l : List α} (h : l.reverse.find? q = none) :
    ∀ a ∈ l, q a = false := by
  intro a ha
  have := List.find?_eq_none.mp h a (List.mem_reverse.mpr ha)
  simpa using this

theorem of_find?_decide {α : Type*} {P : α → Prop} [DecidablePred P] {l : List α} {a : α}
    (h : l.find? (fun x => decide (P x)) = some a) : P a :=
  of_decide_eq_true (List.find?_some (p := fun x => decide (P x)) h)

/-- The last field with a tag, and the others. -/
theorem eraseLast_perm {tag : UInt32} {fs : List (PbField × Nat)} {p : PbField × Nat}
    (h : lastTaken tag fs = some p) : (p :: eraseLast tag fs).Perm fs := by
  induction fs with
  | nil => cases h
  | cons q fs ih =>
    unfold lastTaken at h ih
    rw [find?_reverse_cons] at h
    rw [eraseLast]
    cases hr : fs.reverse.find? fun p => decide (p.1.tag = tag) with
    | some r =>
      -- there is one further on
      rw [hr, Option.some_or] at h
      have hmem : r ∈ fs := List.mem_reverse.mp (List.mem_of_find?_eq_some hr)
      have htag : r.1.tag = tag := (of_find?_decide hr :)
      rw [if_neg fun hc => hc.2 r hmem htag]
      exact (List.Perm.swap q p _).trans ((ih (hr.trans h)).cons q)
    | none =>
      rw [hr, Option.none_or] at h
      have hall := find?_reverse_none hr
      split at h
      · rename_i hq
        cases h
        rw [if_pos ⟨of_decide_eq_true hq, fun r hr => of_decide_eq_false (hall r hr)⟩]
      · cases h

theorem mem_eraseLast {tag : UInt32} {fs : List (PbField × Nat)} {q : PbField × Nat}
    (h : q ∈ eraseLast tag fs) : q ∈ fs := by
  induction fs with
  | nil => exact h
  | cons p fs ih =>
    rw [eraseLast] at h
    split at h
    · exact List.mem_cons_of_mem p h
    · rcases List.mem_cons.mp h with rfl | h
      · exact List.mem_cons_self
      · exact List.mem_cons_of_mem p (ih h)

theorem sums_eraseLast {tag : UInt32} {fs : List (PbField × Nat)} {p : PbField × Nat}
    (h : lastTaken tag fs = some p) :
    p.1.size + needed (eraseLast tag fs) = needed fs ∧ p.2 + taken (eraseLast tag fs) = taken fs := by
  have hp := eraseLast_perm h
  exact ⟨(hp.map fun q : PbField × Nat => q.1.size).sum_nat, (hp.map Prod.snd).sum_nat⟩

theorem setLast_ne_nil (f : PbField) {ms : List PbField} (h : ms ≠ []) : setLast f ms ≠ [] := by
  cases ms with
  | nil => exact absurd rfl h
  | cons g ms =>
    rw [setLast]
    split <;> exact List.cons_ne_nil _ _

theorem eraseLast_none {tag : UInt32} {fs : List (PbField × Nat)} (h : lastTaken tag fs = none) :
    eraseLast tag fs = fs := by
  induction fs with
  | nil => rfl
  | cons q fs ih =>
    have hall := find?_reverse_none h
    have hq : q.1.tag ≠ tag := of_decide_eq_false (hall q List.mem_cons_self)
    unfold lastTaken at h ih
    rw [find?_reverse_cons, Option.or_eq_none_iff] at h
    rw [eraseLast, if_neg fun hc => hq hc.1, ih h.1]

/-- Setting the last field with a tag changes the size by the difference. -/
theorem length_setLast {f g : PbField} {ms : List PbField}
    (h : ms.reverse.find? (fun x => decide (x.tag = f.tag)) = some g) :
    (messageBytes (setLast f ms)).length + g.size = (messageBytes ms).length + f.size := by
  induction ms with
  | nil => cases h
  | cons x ms ih =>
    rw [find?_reverse_cons] at h
    rw [setLast]
    cases hr : ms.reverse.find? fun x => decide (x.tag = f.tag) with
    | some y =>
      rw [hr, Option.some_or] at h
      have hmem : y ∈ ms := List.mem_reverse.mp (List.mem_of_find?_eq_some hr)
      have htag : y.tag = f.tag := (of_find?_decide hr :)
      have hrec := ih (hr.trans h)
      rw [if_neg fun hc => hc.2 y hmem htag, messageBytes_cons, messageBytes_cons, List.length_append,
        List.length_append]
      omega
    | none =>
      rw [hr, Option.none_or] at h
      have hall := find?_reverse_none hr
      split at h
      · rename_i hx
        cases h
        rw [if_pos ⟨of_decide_eq_true hx, fun r hr => of_decide_eq_false (hall r hr)⟩,
          messageBytes_cons, messageBytes_cons, List.length_append, List.length_append,
          length_fieldBytes, length_fieldBytes]
        show f.size + _ + g.size = g.size + _ + f.size
        omega
      · cases h

theorem replaceRef_of_not_mem {x : KnvNode} {l : List KnvNode} (h : x.ref ∉ l.map fun y => y.ref) :
    replaceRef x l = l := by
  induction l with
  | nil => rfl
  | cons y l ih =>
    rw [List.map_cons, List.mem_cons, not_or] at h
    show (if y.ref = x.ref then x else y) :: replaceRef x l = y :: l
    rw [if_neg fun he => h.1 he.symm, ih h.2]

/-- The node of the last field with a tag is replaced where it stands. -/
theorem shown_setLast {l : List KnvNode} {ms : List PbField} (h : List.Forall₂ Shown l ms)
    (hnd : (l.map fun y => y.ref).Nodup) {f : PbField} {x x' : KnvNode}
    (hx : l.reverse.find? (fun y => decide (y.tag = f.tag)) = some x) (href : x'.ref = x.ref)
    (hx' : Shown x' f) : List.Forall₂ Shown (replaceRef x' l) (setLast f ms) := by
  induction h with
  | nil => cases hx
  | @cons m g l ms hm hl ih =>
    rw [find?_reverse_cons] at hx
    rw [List.map_cons, List.nodup_cons] at hnd
    show List.Forall₂ Shown ((if m.ref = x'.ref then x' else m) :: replaceRef x' l) _
    rw [setLast]
    cases hr : l.reverse.find? fun y => decide (y.tag = f.tag) with
    | some y =>
      rw [hr, Option.some_or] at hx
      cases hx
      have hmem : x ∈ l := List.mem_reverse.mp (List.mem_of_find?_eq_some hr)
      have htag : x.tag = f.tag := (of_find?_decide hr :)
      obtain ⟨g', hg', hxg⟩ := forall₂_mem hl hmem
      have hne : m.ref ≠ x'.ref := fun he =>
        hnd.1 (List.mem_map.mpr ⟨x, hmem, by rw [← href, ← he]⟩)
      rw [if_neg hne, if_neg fun hc => hc.2 g' hg' (hxg.tag.symm.trans htag)]
      exact .cons hm (ih hnd.2 hr)
    | none =>
      rw [hr, Option.none_or] at hx
      have hall := find?_reverse_none hr
      split at hx
      · rename_i hmt
        cases hx
        have hgt : g.tag = f.tag := hm.tag.symm.trans (of_decide_eq_true hmt)
        have hrest : ∀ h ∈ ms, h.tag ≠ f.tag := by
          intro h' hh' he
          obtain ⟨y, hy, hyh⟩ := forall₂_mem (List.Forall₂.flip hl) hh'
          exact of_decide_eq_false (hall y hy) (hyh.tag.trans he)
        rw [if_pos href.symm, if_pos ⟨hgt, hrest⟩, replaceRef_of_not_mem (by rw [href]; exact hnd.1)]
        exact .cons hx' hl
      · cases hx

/-! ## The edits of a received root -/

section Received

variable {n n' : KnvNode} {s : List UInt8} {k : KnvKey} {sz : Nat} {fs : List (PbField × Nat)}

/-- The key the node has is short, and if there is one there is a meta. -/
def KeyShort (k : KnvKey) (ms : List PbField) : Prop :=
  (∀ str, k.getValue = .string str → str.length < 2 ^ 32) ∧ (k.val ≠ [] → ms ≠ [])

theorem KeyShort.keyed {m : KnvNode} {ms : List PbField} (h : KeyShort m.key ms) :
    m.writesKey = true → ms ≠ [] := by
  intro hw
  rw [writesKey, Bool.and_eq_true] at hw
  exact h.2 (of_decide_eq_true hw.2)

theorem Fresh.isString (h : Fresh n s k sz) : n.isString = true := by
  unfold KnvNode.isString
  rw [h.val]
  rfl

/-- The members an edit of the lists leaves alone. -/
structure SameHead (m n : KnvNode) : Prop where
  tag : m.tag = n.tag
  key : m.key = n.key
  no_key : m.no_key = n.no_key
  eval_sz : m.eval_sz = n.eval_sz
  eval_val_sz : m.eval_val_sz = n.eval_val_sz

theorem Grown.sameHead {k : Bool} {m : KnvNode} (h : Grown k m n fs) : SameHead m n := by
  have hh := h.head
  unfold KnvNode.head at hh
  simp only [Prod.mk.injEq] at hh
  exact ⟨hh.2.1, hh.2.2.2.1, hh.2.2.2.2.1, hh.2.2.2.2.2.1, hh.2.2.2.2.2.2⟩

/-- **The end of an edit** of a received root: the size of the value is patched, and that of the whole
    field computed from it, unless nothing has changed. -/
theorem Fresh.stale_edited (h : Fresh n s k sz) {m : KnvNode} (hh : SameHead m n)
    {ms cs : List PbField} (hnum : m.child_num = some cs.length)
    (hm : List.Forall₂ Shown m.metalist ms) (hc : List.Forall₂ Shown m.childlist cs)
    (hk : KeyShort k ms) {o : Int} {v : Nat} (ho : (s.length : Int) + o = v)
    (hle : (messageBytes (ms ++ cs)).length ≤ v) :
    Stale (edited m o).1 ms cs v (if o = 0 then sz else pbEvalStringLength n.tag v) ∧
      (edited m o).1.key = k ∧ (edited m o).1.no_key = false ∧ (edited m o).1.tag = n.tag := by
  have htag : m.tag ≠ 0 := by rw [hh.tag]; exact h.tag
  have hkey : m.key = k := hh.key.trans h.key
  have hno : m.no_key = false := hh.no_key.trans h.no_key
  have hsz : m.eval_sz = sz := hh.eval_sz.trans h.eval_sz
  have hvsz : m.eval_val_sz = s.length := hh.eval_val_sz.trans h.eval_val_sz
  have hkeyed : m.writesKey = true → ms ≠ [] := KeyShort.keyed (by rw [hkey]; exact hk)
  have hshort : ∀ s, m.key.getValue = .string s → s.length < 2 ^ 32 := by rw [hkey]; exact hk.1
  have hpos : 0 ≤ m.eval_sz := by rw [hsz]; omega
  by_cases h0 : o = 0
  · have hed : (edited m o).1 = m.setValueDirty := by
      unfold edited updateEvalSz
      rw [if_pos hpos, if_pos h0]
    have hv : s.length = v := by omega
    have hle' : pbEvalStringLength m.tag v ≤ sz := by rw [hh.tag, ← hv]; exact h.le
    rw [hed, if_pos h0]
    exact ⟨⟨htag, rfl, hnum, hm, hc, hkeyed, hshort, by rw [← hv]; exact hvsz, hsz, hle, hle'⟩,
      hkey, hno, hh.tag⟩
  · have hnew : m.eval_val_sz + o = v := by rw [hvsz]; exact ho
    have hed : (edited m o).1 = KnvNode.setValueDirty { m with
        eval_val_sz := m.eval_val_sz + o
        eval_sz := (pbEvalStringLength m.tag (m.eval_val_sz + o).toNat : Int) } := by
      unfold edited updateEvalSz
      rw [if_pos hpos, if_neg h0]
    rw [hed, if_neg h0, hnew, ← hh.tag]
    exact ⟨⟨htag, rfl, hnum, hm, hc, hkeyed, hshort, rfl, rfl, hle, Nat.le_refl _⟩, hkey, hno, rfl⟩

theorem length_messageBytes_insert (fs : List (PbField × Nat)) (f : PbField) :
    (messageBytes (metaFields (fs.map Prod.fst) ++ (childFields (fs.map Prod.fst) ++ [f]))).length =
      needed fs + f.size := by
  rw [← List.append_assoc, messageBytes_append, List.length_append, length_messageBytes_shown]
  rw [length_messageBytes [f], List.map_singleton, List.sum_singleton]

theorem length_messageBytes_newMeta (fs : List (PbField × Nat)) (f : PbField) :
    (messageBytes ((if f.tag = 1 then f :: metaFields (fs.map Prod.fst)
      else metaFields (fs.map Prod.fst) ++ [f]) ++ childFields (fs.map Prod.fst))).length =
      needed fs + f.size := by
  have hshown := length_messageBytes_shown fs
  rw [messageBytes_append, List.length_append] at hshown ⊢
  split
  · rw [messageBytes_cons, List.length_append, length_fieldBytes]
    show f.size + _ + _ = _
    omega
  · rw [messageBytes_append, List.length_append, length_messageBytes [f], List.map_singleton,
      List.sum_singleton]
    omega

theorem needed_le_length (hfs : pbFields s = some (fs, true)) : needed fs ≤ s.length := by
  obtain ⟨_, _, htaken, hall⟩ := pbFields_taken hfs
  exact Nat.le_trans (needed_le_taken fun p hp => (hall p hp).1) htaken

/-- A leaf goes behind the children. -/
theorem stale_insertNode {f : PbField} {offs : List Int} (h : Fresh n s k sz)
    (hfs : pbFields s = some (fs, true)) (hk : KeyShort k (metaFields (fs.map Prod.fst)))
    (hins : n.insertNode (initNode f.tag f.val true 0 false) = .ok (n', offs)) :
    Stale n' (metaFields (fs.map Prod.fst)) (childFields (fs.map Prod.fst) ++ [f])
      (s.length + f.size) (pbEvalStringLength n.tag (s.length + f.size)) ∧
      n'.key = k ∧ n'.no_key = false ∧ n'.tag = n.tag := by
  obtain ⟨hg, _⟩ := h.grown hfs
  have hpos := f.size_pos
  have hneeded := needed_le_length hfs
  have hne : (f.size : Int) ≠ 0 := by omega
  have hleaf : Stands (initNode f.tag f.val true 0 false) f := initNode_stands f (.inl rfl) false
  unfold insertNode at hins
  rw [if_neg h.tag, if_neg (by rw [h.isString]; decide), hleaf.evaluateSize] at hins
  obtain ⟨rfl, -⟩ := Prod.mk.inj (Except.ok.inj hins)
  generalize n.innerExpand false false = m at hg ⊢
  have hsame := hg.sameHead
  have hnum : (m.hangChild (initNode f.tag f.val true 0 false)).child_num =
      some (childFields (fs.map Prod.fst) ++ [f]).length := by
    show m.child_num.map (· + 1) = _
    rw [hg.child_num, hg.shown_childlist.length_eq, List.length_append]
    rfl
  have hend := h.stale_edited (m := m.hangChild (initNode f.tag f.val true 0 false))
    ⟨hsame.tag, hsame.key, hsame.no_key, hsame.eval_sz, hsame.eval_val_sz⟩ hnum hg.shown_metalist
    (List.rel_append hg.shown_childlist (.cons ⟨rfl, rfl, isFolded_of_isFlat hleaf.flat⟩ .nil)) hk
    (o := f.size) (v := s.length + f.size) (by push_cast; rfl)
    (by rw [length_messageBytes_insert]; omega)
  rw [if_neg hne] at hend
  exact hend

theorem OfField.evaluateSize {k : Bool} {m : KnvNode} {p : PbField × Nat} (h : OfField k m p)
    (hpos : 0 < p.2) : (evaluateSize m).1 = p.2 := by
  obtain ⟨r, rfl⟩ := h
  have hsz := initNode_eval_sz hpos p.1.tag p.1.val k
  rw [evaluateSize_cached (by show 0 ≤ (initNode p.1.tag p.1.val true p.2 k).eval_sz; rw [hsz]; omega)]
  exact hsz

/-- Received nodes say how many bytes they took. -/
theorem evaluateSizes_ofField {k : Bool} {l : List KnvNode} {ps : List (PbField × Nat)}
    (h : List.Forall₂ (OfField k) l ps) (hpos : ∀ p ∈ ps, 0 < p.2) :
    evaluateSizes l false = taken ps := by
  induction h with
  | nil => rfl
  | @cons m p l ps hm _ ih =>
    rw [evaluateSizes, if_neg Bool.false_ne_true, hm.evaluateSize (hpos p List.mem_cons_self),
      ih fun q hq => hpos q (List.mem_cons_of_mem p hq)]
    show (p.2 : Int) + taken ps = ((p.2 + taken ps : Nat) : Int)
    push_cast
    rfl

theorem taken_filter (fs : List (PbField × Nat)) (q : PbField × Nat → Bool) :
    taken (fs.filter q) + taken (fs.filter (!q ·)) = taken fs := by
  have hp : (fs.filter q ++ fs.filter (!q ·)).Perm fs := List.filter_append_perm q fs
  have hsum := (hp.map Prod.snd).sum_nat
  rw [List.map_append, List.sum_append] at hsum
  exact hsum

/-- The fields that stay when the children with a tag are removed, and those that go. -/
theorem remove_kept (fs : List (PbField × Nat)) (tag : UInt32) :
    metaFields ((fs.filter fun p => isMeta p || p.1.tag ≠ tag).map Prod.fst) =
        metaFields (fs.map Prod.fst) ∧
      childFields ((fs.filter fun p => isMeta p || p.1.tag ≠ tag).map Prod.fst) =
        (childFields (fs.map Prod.fst)).filter (fun f => f.tag ≠ tag) ∧
      (fs.filter (!isMeta ·)).filter (fun p => p.1.tag = tag) =
        fs.filter (!(fun p => isMeta p || p.1.tag ≠ tag) ·) := by
  refine ⟨?_, ?_, ?_⟩
  · rw [← filter_isMeta, ← filter_isMeta, List.filter_filter]
    congr 1
    apply List.filter_congr
    intro p _
    cases isMeta p <;> rfl
  · rw [← filter_not_isMeta, ← filter_not_isMeta, List.filter_filter, List.filter_map, List.filter_filter]
    congr 1
    apply List.filter_congr
    intro p _
    show (!isMeta p && (isMeta p || decide (p.1.tag ≠ tag))) = (decide (p.1.tag ≠ tag) && !isMeta p)
    cases isMeta p <;> simp
  · rw [List.filter_filter]
    apply List.filter_congr
    intro p _
    show (decide (p.1.tag = tag) && !isMeta p) = !(isMeta p || decide (p.1.tag ≠ tag))
    cases isMeta p <;> simp

/-- The children with the tag, as nodes and as fields. -/
theorem Grown.gone {m : KnvNode} (hg : Grown false m n fs) (tag : UInt32) :
    List.Forall₂ (OfField false) (m.childlist.filter fun c => c.tag = tag)
      ((fs.filter (!isMeta ·)).filter fun p => p.1.tag = tag) :=
  forall₂_filter (fun c p hc => by rw [hc.shown.tag]) hg.childlist

/-- The children with a tag leave with the bytes they took. -/
theorem stale_removeChildrenByTag {tag : UInt32} {offs : List Int} (h : Fresh n s k sz)
    (hfs : pbFields s = some (fs, true)) (hk : KeyShort k (metaFields (fs.map Prod.fst)))
    (hmoves : ∃ p ∈ fs, isMeta p = false ∧ p.1.tag = tag)
    (hrem : n.removeChildrenByTag tag = .ok (n', offs)) :
    ∃ v, v + taken (fs.filter (!(fun p => isMeta p || p.1.tag ≠ tag) ·)) = s.length ∧
      Stale n' (metaFields (fs.map Prod.fst))
        ((childFields (fs.map Prod.fst)).filter fun f => f.tag ≠ tag) v
        (pbEvalStringLength n.tag v) ∧
      n'.key = k ∧ n'.no_key = false ∧ n'.tag = n.tag := by
  obtain ⟨hg, _⟩ := h.grown hfs
  obtain ⟨_, _, htaken, hall⟩ := pbFields_taken hfs
  obtain ⟨hkm, hkc, hgone⟩ := remove_kept fs tag
  have hsum := taken_filter fs fun p => isMeta p || p.1.tag ≠ tag
  have hpos : ∀ p ∈ fs, 0 < p.2 := fun p hp => Nat.lt_of_lt_of_le p.1.size_pos (hall p hp).1
  have hneeded := needed_le_taken fun p (hp : p ∈ fs.filter fun p => isMeta p || p.1.tag ≠ tag) =>
    (hall p (List.mem_of_mem_filter hp)).1
  unfold removeChildrenByTag at hrem
  rw [if_neg h.tag] at hrem
  generalize n.innerExpand false false = m at hg hrem
  have hsame := hg.sameHead
  have hnodes := hg.gone tag
  rw [hgone] at hnodes
  generalize hG : fs.filter (!(fun p => isMeta p || p.1.tag ≠ tag) ·) = G at hnodes hsum ⊢
  have hGpos : ∀ p ∈ G, 0 < p.2 := fun p hp => by
    rw [← hG] at hp
    exact hpos p (List.mem_of_mem_filter hp)
  -- there is something to remove
  obtain ⟨p, hp, hpm, hpt⟩ := hmoves
  have hpG : p ∈ G := by
    rw [← hG]
    refine List.mem_filter.mpr ⟨hp, ?_⟩
    show (!(isMeta p || decide (p.1.tag ≠ tag))) = true
    rw [hpm, hpt]
    simp
  have hne : m.childlist.filter (fun c => c.tag = tag) ≠ [] := by
    intro h0
    rw [h0] at hnodes
    rw [List.forall₂_nil_left_iff.mp hnodes] at hpG
    exact absurd hpG List.not_mem_nil
  have hnum : m.child_num.getD 0 ≠ 0 := by
    rw [hg.child_num]
    show m.childlist.length ≠ 0
    intro h0
    rw [List.length_eq_zero_iff.mp h0] at hne
    exact hne rfl
  have hGtaken : 0 < taken G := by
    obtain ⟨l, r, rfl⟩ := List.append_of_mem hpG
    have := hGpos p hpG
    rw [taken, List.map_append, List.sum_append, List.map_cons, List.sum_cons]
    omega
  simp only [if_neg hnum, if_neg hne] at hrem
  rw [evaluateSizes_ofField hnodes hGpos] at hrem
  obtain ⟨rfl, -⟩ := Prod.mk.inj (Except.ok.inj hrem)
  have hfilter : List.Forall₂ Shown (m.childlist.filter fun c => c.tag ≠ tag)
      ((childFields (fs.map Prod.fst)).filter fun f => f.tag ≠ tag) :=
    forall₂_filter (fun c f hc => by rw [hc.tag]) hg.shown_childlist
  have hlen : m.childlist.length - (m.childlist.filter fun c => c.tag = tag).length =
      (m.childlist.filter fun c => c.tag ≠ tag).length := by
    have hsplit := List.length_eq_length_filter_add (l := m.childlist) fun c => decide (c.tag = tag)
    have hnot : m.childlist.filter (fun c => !decide (c.tag = tag)) =
        m.childlist.filter fun c => c.tag ≠ tag := List.filter_congr fun c _ => by simp
    rw [hnot] at hsplit
    omega
  refine ⟨s.length - taken G, by omega, ?_⟩
  have ho : ¬ (-(taken G : Int)) = 0 := by omega
  have hend := h.stale_edited (m := { m with
      ht := (m.childlist.filter fun c => c.tag = tag).foldl
        (fun ht c => (ht.remove m.childView c.ref).getD ht) m.ht
      childlist := m.childlist.filter fun c => c.tag ≠ tag
      child_num := m.child_num.map (· - (m.childlist.filter fun c => c.tag = tag).length) })
    ⟨hsame.tag, hsame.key, hsame.no_key, hsame.eval_sz, hsame.eval_val_sz⟩
    (by
      show m.child_num.map (· - (m.childlist.filter fun c => c.tag = tag).length) = _
      rw [hg.child_num, Option.map_some, hlen, hfilter.length_eq])
    hg.shown_metalist hfilter hk (o := -(taken G : Int)) (v := s.length - taken G) (by omega)
    (by rw [← hkm, ← hkc, length_messageBytes_shown]; omega)
  rw [if_neg ho] at hend
  exact hend

/-- Without such children nothing happens. -/
theorem removeChildrenByTag_none {tag : UInt32} (h : Fresh n s k sz)
    (hfs : pbFields s = some (fs, true))
    (hno : ¬ ∃ p ∈ fs, isMeta p = false ∧ p.1.tag = tag) :
    n.removeChildrenByTag tag = .ok (n.innerExpand false false, []) := by
  obtain ⟨hg, _⟩ := h.grown hfs
  have hnodes := hg.gone tag
  have hnil : (fs.filter (!isMeta ·)).filter (fun p => p.1.tag = tag) = [] := by
    rw [List.filter_eq_nil_iff]
    intro p hp ht
    obtain ⟨hmem, hm⟩ := List.mem_filter.mp hp
    exact hno ⟨p, hmem, by simpa using hm, of_decide_eq_true ht⟩
  rw [hnil] at hnodes
  unfold removeChildrenByTag
  rw [if_neg h.tag]
  simp only [List.forall₂_nil_right_iff.mp hnodes, if_true, ite_self]

/-- **A root that nothing was done to** is written back if its header is as it is written. -/
theorem writesBack_expanded (h : Fresh n s k sz) (hfs : pbFields s = some (fs, true))
    (hsmall : sz < 2 ^ 31) :
    WritesBack (n.innerExpand false false)
        (metaFields (fs.map Prod.fst) ++ childFields (fs.map Prod.fst)) ↔
      n.tag.toNat < 2 ^ 29 ∧ n.eval_sz = pbEvalStringLength n.tag s.length := by
  obtain ⟨hg, hclean⟩ := h.grown hfs
  obtain ⟨hlen, -⟩ := pbFields_taken hfs
  have hshownFields : shownFields s = metaFields (fs.map Prod.fst) ++ childFields (fs.map Prod.fst) := by
    rw [shownFields, hfs]
  have hval : (n.innerExpand false false).val = .string s := by
    have hh := hg.head
    unfold KnvNode.head at hh
    simp only [Prod.mk.injEq] at hh
    exact hh.2.2.1.trans h.val
  generalize n.innerExpand false false = m at hg hclean hval ⊢
  have hsame := hg.sameHead
  have hsz : m.eval_sz = sz := hsame.eval_sz.trans h.eval_sz
  have hmtag : m.tag ≠ 0 := by rw [hsame.tag]; exact h.tag
  have hs : s ≠ [] := by
    rintro rfl
    cases hfs
  have hshown : Shown m ⟨n.tag, .string s⟩ := by
    refine ⟨hsame.tag, hval, ?_⟩
    unfold isFolded KnvNode.str
    rw [hval, hclean]
    show (m.isFlat || (decide (s ≠ []) && true)) = true
    rw [decide_eq_true hs]
    simp
  have heval : evaluateSize m = (m.eval_sz, m.eval_val_sz) := evaluateSize_cached (by rw [hsz]; omega)
  have hfield : fieldBytes n.tag (.string s) = strHead n.tag s.length ++ s := by
    rw [fieldBytes, strHead, List.append_assoc]
    rfl
  constructor
  · rintro ⟨out, n', hser, hnew, htag, _⟩
    obtain ⟨hser', hlen'⟩ := serializeString_inv hser
    obtain ⟨_, hout⟩ := hshown.serialize_inv hser'
    have hlen'' : m.eval_sz = out.length := by rw [heval] at hlen'; exact hlen'
    rw [hout, hfield] at hnew
    obtain ⟨_, sz', rfl⟩ := newFromData_strHead (by omega) hnew
    refine ⟨?_, ?_⟩
    · rw [hsame.tag] at htag
      exact tag_lt_of_low htag
    · rw [← hsame.eval_sz, hlen'', hout, length_fieldBytes]
      rfl
  · rintro ⟨htag, hcan⟩
    have hwrites : Writes m ⟨n.tag, .string s⟩ :=
      ⟨hshown.puts h.tag, by rw [heval, hsame.eval_sz, hcan]; rfl⟩
    have hsize : (⟨n.tag, .string s⟩ : PbField).size < 2 ^ 31 := by
      rw [h.eval_sz] at hcan
      have : sz = (⟨n.tag, .string s⟩ : PbField).size := by exact_mod_cast hcan
      omega
    have hpos : 0 < n.tag.toNat := Nat.pos_of_ne_zero fun h0 => h.tag (UInt32.toNat_inj.mp h0)
    refine ⟨_, _, hwrites.serializeString, newFromData_fieldBytes hsize hpos htag, hsame.tag.symm, ?_⟩
    show List.map view ((initNode n.tag (.string s) true _ false).fields false) = _
    rw [fields_initNode h.tag, hshownFields]

/-- A field with a meta's tag is found among the metas. -/
theorem lastTaken_eq {tag : UInt32} (ht : tag.toNat ≤ UC_MAX_META_NUM) :
    lastTaken tag fs = (fs.filter isMeta).reverse.find? fun p => decide (p.1.tag = tag) := by
  rw [lastTaken, ← List.filter_reverse, List.find?_filter]
  congr 1
  funext p
  by_cases hp : p.1.tag = tag
  · have hm : isMeta p = true := by
      rw [isMeta, hp]
      exact decide_eq_true ht
    simp [hp, hm]
  · simp [hp]

theorem find?_metaFields {tag : UInt32} (ht : tag.toNat ≤ UC_MAX_META_NUM) {p : PbField × Nat}
    (h : lastTaken tag fs = some p) :
    (metaFields (fs.map Prod.fst)).reverse.find? (fun y => decide (y.tag = tag)) = some p.1 := by
  rw [lastTaken_eq ht] at h
  rw [← filter_isMeta, ← List.map_reverse, List.find?_map]
  exact congrArg (Option.map Prod.fst) h

/-- The meta that `GetMeta` finds is that of the last field with the tag. -/
theorem Fresh.getMeta_rel (h : Fresh n s k sz) (hfs : pbFields s = some (fs, true)) {tag : UInt32}
    (ht : tag.toNat ≤ UC_MAX_META_NUM) :
    (n.innerExpand false false).getMeta tag =
        (n.innerExpand false false).metalist.reverse.find? (fun m => decide (m.tag = tag)) ∧
      Option.Rel (OfField true) ((n.innerExpand false false).getMeta tag) (lastTaken tag fs) := by
  obtain ⟨hg, _⟩ := h.grown hfs
  have hexp : (n.innerExpand false false).innerExpand false false = n.innerExpand false false :=
    innerExpand_expanded (by rw [hg.child_num]; exact fun he => nomatch he) false false
  have hmtag : (n.innerExpand false false).tag ≠ 0 := by rw [hg.sameHead.tag]; exact h.tag
  have hfind : (n.innerExpand false false).getMeta tag =
      (n.innerExpand false false).metalist.reverse.find? fun m => decide (m.tag = tag) := by
    rw [getMeta_eq hmtag ht, hexp, hg.metas]
    congr 1
    funext m
    rw [decide_eq_decide]
    exact UInt32.toNat_inj
  refine ⟨hfind, ?_⟩
  rw [hfind, lastTaken_eq ht]
  exact forall₂_find? (fun m p hm => by rw [hm.shown.tag]) (List.forall₂_reverse_iff.mpr hg.metalist)

/-- A new meta. -/
theorem stale_setMeta_new {f : PbField} {o : Int} (h : Fresh n s k sz)
    (hfs : pbFields s = some (fs, true)) (hk : ∀ str, k.getValue = .string str → str.length < 2 ^ 32)
    (hlast : lastTaken f.tag fs = none) (hset : n.setMeta f.tag f.val = .ok (n', o)) :
    Stale n' (if f.tag = 1 then f :: metaFields (fs.map Prod.fst) else metaFields (fs.map Prod.fst) ++ [f])
      (childFields (fs.map Prod.fst)) (s.length + f.size)
      (pbEvalStringLength n.tag (s.length + f.size)) ∧
      n'.key = k ∧ n'.no_key = false ∧ n'.tag = n.tag := by
  obtain ⟨hg, _⟩ := h.grown hfs
  have hpos := f.size_pos
  have hneeded := needed_le_length hfs
  have hne : (f.size : Int) ≠ 0 := by omega
  have hmeta : f.tag.toNat ≤ UC_MAX_META_NUM := by
    by_contra hgt
    rw [setMeta, if_neg h.tag, if_neg (by rw [h.isString]; decide), if_pos (Nat.lt_of_not_le hgt)] at hset
    cases hset
  have hrel := (h.getMeta_rel hfs hmeta).2
  rw [hlast] at hrel
  have hnone : (n.innerExpand false false).getMeta f.tag = none := by
    cases hm : (n.innerExpand false false).getMeta f.tag with
    | none => rfl
    | some x => rw [hm] at hrel; cases hrel
  have hnew : Stands (initNode f.tag f.val true 0 true) f := initNode_stands f (.inl rfl) true
  rw [setMeta, if_neg h.tag, if_neg (by rw [h.isString]; decide), if_neg (Nat.not_lt.mpr hmeta)] at hset
  simp only [hnone] at hset
  rw [hnew.size] at hset
  obtain ⟨rfl, -⟩ := Prod.mk.inj (Except.ok.inj hset)
  generalize n.innerExpand false false = m at hg ⊢
  have hsame := hg.sameHead
  have hnode : Shown { initNode f.tag f.val true 0 true with ref := m.next_ref } f :=
    ⟨rfl, rfl, isFolded_of_isFlat hnew.flat⟩
  have hlist : List.Forall₂ Shown (m.hangMeta (initNode f.tag f.val true 0 true) (f.tag = 1)).metalist
      (if f.tag = 1 then f :: metaFields (fs.map Prod.fst)
        else metaFields (fs.map Prod.fst) ++ [f]) := by
    unfold hangMeta
    by_cases h1 : f.tag = 1
    · simp only [h1, decide_true, if_true]
      rw [h1] at hnode
      exact .cons hnode hg.shown_metalist
    · simp only [h1, decide_false, if_false, Bool.false_eq_true]
      exact List.rel_append hg.shown_metalist (.cons hnode .nil)
  have hbytes : (messageBytes ((if f.tag = 1 then f :: metaFields (fs.map Prod.fst)
        else metaFields (fs.map Prod.fst) ++ [f]) ++ childFields (fs.map Prod.fst))).length =
      needed fs + f.size := length_messageBytes_newMeta fs f
  have hend := h.stale_edited (m := m.hangMeta (initNode f.tag f.val true 0 true) (f.tag = 1))
    ⟨hsame.tag, hsame.key, hsame.no_key, hsame.eval_sz, hsame.eval_val_sz⟩
    (hg.child_num.trans (by rw [hg.shown_childlist.length_eq])) hlist hg.shown_childlist
    ⟨hk, fun _ => by split <;> simp⟩ (o := f.size) (v := s.length + f.size) (by push_cast; rfl)
    (by rw [hbytes]; omega)
  rw [if_neg hne] at hend
  exact hend

/-- A meta in place of the last one with its tag. -/
theorem stale_setMeta_last {f : PbField} {p : PbField × Nat} {o : Int} (h : Fresh n s k sz)
    (hfs : pbFields s = some (fs, true)) (hk : ∀ str, k.getValue = .string str → str.length < 2 ^ 32)
    (hlast : lastTaken f.tag fs = some p) (hset : n.setMeta f.tag f.val = .ok (n', o)) :
    ∃ v, v + p.2 = s.length + f.size ∧
      Stale n' (setLast f (metaFields (fs.map Prod.fst))) (childFields (fs.map Prod.fst)) v
        (if p.2 = f.size then sz else pbEvalStringLength n.tag v) ∧
      n'.key = k ∧ n'.no_key = false ∧ n'.tag = n.tag := by
  obtain ⟨hg, _⟩ := h.grown hfs
  obtain ⟨_, _, htaken, hall⟩ := pbFields_taken hfs
  have hmeta : f.tag.toNat ≤ UC_MAX_META_NUM := by
    by_contra hgt
    rw [setMeta, if_neg h.tag, if_neg (by rw [h.isString]; decide), if_pos (Nat.lt_of_not_le hgt)] at hset
    cases hset
  -- the field that goes, and its node
  have hp : p ∈ fs := List.mem_reverse.mp (List.mem_of_find?_eq_some hlast)
  have hpsize := hall p hp
  have hppos : 0 < p.2 := Nat.lt_of_lt_of_le p.1.size_pos hpsize.1
  obtain ⟨hfind, hrel⟩ := h.getMeta_rel hfs hmeta
  rw [hlast] at hrel
  cases hx : (n.innerExpand false false).getMeta f.tag with
  | none => rw [hx] at hrel; cases hrel
  | some x =>
    rw [hx] at hrel hfind
    have hxp : OfField true x p := by cases hrel; assumption
    rw [setMeta, if_neg h.tag, if_neg (by rw [h.isString]; decide), if_neg (Nat.not_lt.mpr hmeta)] at hset
    simp only [hx] at hset
    rw [hxp.evaluateSize hppos] at hset
    generalize hx' : (if x.child_num = none then
        ({ x with val := f.val, eval_val_sz := f.val.str.length,
                  eval_sz := pbEvalFieldLength f.tag f.val } : KnvNode)
      else ({ x with val := f.val, eval_val_sz := f.val.str.length,
                     eval_sz := pbEvalFieldLength f.tag f.val } : KnvNode).initChildList
        (if !(n.innerExpand false false).no_key && f.tag = 1 then some 0 else none)) = x' at hset
    have hxtag : x.tag = f.tag := (of_find?_decide hfind.symm :)
    have href : x'.ref = x.ref := by
      rw [← hx']
      split <;> rfl
    have hsize : x'.eval_sz = f.size := by
      rw [← hx']
      split <;> rfl
    have hshown : Shown x' f := by
      rw [← hx']
      split
      · rename_i hnone
        exact ⟨hxtag, rfl, isFolded_of_isFlat (by unfold isFlat; simp [hnone])⟩
      · refine ⟨hxtag, rfl, isFolded_of_isFlat (isFlat_of_nothing ?_ rfl)⟩
        show (if _ then some 0 else none) = none ∨ (if _ then some 0 else none) = some 0
        split
        · exact .inr rfl
        · exact .inl rfl
    rw [hsize] at hset
    obtain ⟨rfl, -⟩ := Prod.mk.inj (Except.ok.inj hset)
    clear hset hx' hx hrel
    generalize n.innerExpand false false = m at hg hfind ⊢
    have hsame := hg.sameHead
    have hnd : (m.metalist.map fun y => y.ref).Nodup := by
      have := hg.nodup
      rw [List.map_append] at this
      exact (List.nodup_append.mp this).1
    have hlist := shown_setLast hg.shown_metalist hnd hfind.symm href hshown
    have hg' := find?_metaFields hmeta hlast
    have hbytes := length_setLast hg'
    have hshown' := length_messageBytes_shown fs
    rw [messageBytes_append, List.length_append] at hshown'
    have hneed : needed fs + p.2 ≤ s.length + p.1.size := by
      obtain ⟨hn, ht⟩ := sums_eraseLast hlast
      have := needed_le_taken fun q (hq : q ∈ eraseLast f.tag fs) => (hall q (mem_eraseLast hq)).1
      omega
    have hms : metaFields (fs.map Prod.fst) ≠ [] := by
      intro h0
      rw [h0] at hg'
      cases hg'
    refine ⟨s.length - p.2 + f.size, by omega, ?_⟩
    have hend := h.stale_edited (m := { m with metalist := replaceRef x' m.metalist })
      ⟨hsame.tag, hsame.key, hsame.no_key, hsame.eval_sz, hsame.eval_val_sz⟩
      (hg.child_num.trans (by rw [hg.shown_childlist.length_eq])) hlist hg.shown_childlist
      ⟨hk, fun _ => setLast_ne_nil f hms⟩ (o := (f.size : Int) - p.2)
      (v := s.length - p.2 + f.size) (by omega)
      (by rw [messageBytes_append, List.length_append]; omega)
    by_cases he : p.2 = f.size
    · rw [if_pos (by omega)] at hend
      rw [if_pos he]
      exact hend
    · rw [if_neg (by omega)] at hend
      rw [if_neg he]
      exact hend

end Received

end KnvNode

namespace RootEdit

/-- **The condition of the edited node is that on what was received.**  `gone` is what the fields
    that leave had taken, `extra` what the new ones need. -/
theorem exact_iff_fits {e : RootEdit} {n n' : KnvNode} {s : List UInt8} {fs : List (PbField × Nat)}
    {v sz : Nat} (gone extra : Nat) (hmoves : e.Moves fs) (htag : n'.tag = n.tag)
    (hno : n'.no_key = false)
    (hkey : n'.key = e.key s) (hv : v + gone = s.length + extra)
    (hbytes : (messageBytes (e.edited fs)).length = needed (e.kept fs) + extra)
    (htaken : taken (e.kept fs) + gone = taken fs) (hall : taken fs ≤ s.length)
    (hle : ∀ p ∈ e.kept fs, p.1.size ≤ p.2)
    (hsz : (e.KeepsSize fs ∧ v = s.length ∧ n.eval_sz = sz) ∨
      (¬ e.KeepsSize fs ∧ sz = pbEvalStringLength n.tag v))
    (horder : metaFields (e.edited fs) ++ childFields (e.edited fs) = e.edited fs ↔
      ∀ t, e.leafTag = some t → t.toNat ≤ UC_MAX_META_NUM → childFields (fs.map Prod.fst) = []) :
    Exact n' (e.metas (metaFields (fs.map Prod.fst))) (e.children (childFields (fs.map Prod.fst))) v sz ↔
      e.Fits n s fs := by
  have hneeded := needed_eq_iff hle (show taken (e.kept fs) ≤ s.length - gone by omega)
  have hwhole : taken (e.kept fs) = s.length - gone ↔ taken fs = s.length := by omega
  have hval : v = (messageBytes (e.edited fs)).length ↔ needed (e.kept fs) = s.length - gone := by
    rw [hbytes]
    omega
  constructor
  · intro hx
    have hcan := hneeded.mp (hval.mp hx.val_sz)
    refine ⟨htag ▸ hx.tag, ?_, fun _ => ?_⟩
    · intro hk
      rcases hsz with ⟨_, hvs, hes⟩ | ⟨hnk, _⟩
      · rw [hes, hx.sz, htag, hvs]
      · exact absurd hk hnk
    · exact
        { canonical := hcan.1
          whole := hwhole.mp hcan.2
          key := by
            intro hne
            rw [← hkey] at hne ⊢
            obtain ⟨f, ms', hms, hf1, hfv⟩ := hx.key (by
              rw [writesKey, hno]
              exact decide_eq_true hne)
            rw [hms, List.head?_cons, ← hf1, ← hfv]
          tags := hx.tags
          order := horder.mp hx.order
          small := by
            have hval' : v = (messageBytes (e.edited fs)).length := hx.val_sz
            rw [← hval', ← htag, ← hx.sz]
            exact hx.small }
  · intro hfit
    have hr := hfit.value hmoves
    have hvs : v = (messageBytes (e.edited fs)).length :=
      hval.mpr (hneeded.mpr ⟨hr.canonical, hwhole.mpr hr.whole⟩)
    have hsize : sz = pbEvalStringLength n.tag v := by
      rcases hsz with ⟨hk, hvs', hes⟩ | ⟨_, he⟩
      · have := hfit.header hk
        rw [hes, ← hvs'] at this
        exact_mod_cast this
      · exact he
    exact
      { tag := htag.symm ▸ hfit.tag
        key := by
          intro hw
          rw [writesKey, hno] at hw
          have hne : n'.key.val ≠ [] := of_decide_eq_true hw
          rw [hkey] at hne ⊢
          have hh := hr.key hne
          cases hms : e.metas (metaFields (fs.map Prod.fst)) with
          | nil => rw [hms] at hh; cases hh
          | cons f ms' =>
            rw [hms] at hh
            have hf : f = ⟨1, (e.key s).getValue⟩ := Option.some.inj hh
            exact ⟨f, ms', rfl, by rw [hf], by rw [hf]⟩
        tags := hr.tags
        order := horder.mpr hr.order
        val_sz := hvs
        sz := by rw [htag]; exact hsize
        small := by
          rw [hsize, hvs]
          exact hr.small }

/-- `SetMeta` of an integer on a received root.  A key also goes into the member. -/
theorem setMetaInt_inv {n n' : KnvNode} {s : List UInt8} {k : KnvKey} {sz : Nat} {tag : UInt32}
    {val : UInt64} {offs : List Int} (h : Fresh n s k sz)
    (hset : n.setMetaInt tag val = .ok (n', offs)) :
    ∃ n₁ n₂ o, Fresh n₁ s (if tag = 1 then KnvKey.init (.varint val) else k) sz ∧ n₁.tag = n.tag ∧
      n₁.setMeta tag (.varint val) = .ok (n₂, o) ∧
      n' = if tag = 1 then { n₂ with no_key := false } else n₂ := by
  unfold KnvNode.setMetaInt setMetaOrKey at hset
  by_cases h1 : tag = 1
  · have hok : KeyOk (.varint val) := trivial
    have hval : (KnvKey.init (.varint val)).getValue = .varint val := hok.init.2
    have hne : (KnvKey.init (.varint val)).val ≠ [] := hok.init.1
    have hcond : (!n.no_key && decide (tag = 1)) = true := by rw [h.no_key, h1]; rfl
    rw [if_pos hcond] at hset
    unfold setKey at hset
    simp only [hval, if_pos hne] at hset
    cases hm : ({ n with key := KnvKey.init (.varint val) } : KnvNode).setMeta 1 (.varint val) with
    | error e => rw [hm] at hset; cases hset
    | ok q =>
      obtain ⟨n₂, o⟩ := q
      rw [hm] at hset
      cases hset
      refine ⟨{ n with key := KnvKey.init (.varint val) }, n₂, o,
        ⟨h.tag, h.val, h.child_num, h.ht, h.no_key, ?_, h.eval_sz, h.eval_val_sz, h.le⟩, rfl, ?_, ?_⟩
      · exact (if_pos h1).symm
      · rw [h1]
        exact hm
      · exact (if_pos h1).symm
  · have hcond : ¬ (!n.no_key && decide (tag = 1)) = true := by simp [h1]
    rw [if_neg hcond] at hset
    cases hm : n.setMeta tag (.varint val) with
    | error e => rw [hm] at hset; cases hset
    | ok q =>
      obtain ⟨n₂, o⟩ := q
      rw [hm] at hset
      cases hset
      exact ⟨n, n₂, o, by rw [if_neg h1]; exact h, rfl, hm, (if_neg h1).symm⟩

theorem with_no_key {n : KnvNode} (h : n.no_key = false) : ({ n with no_key := false } : KnvNode) = n := by
  obtain ⟨⟨⟩, _, _⟩ := n
  cases h
  rfl

section Iff

variable {n n' : KnvNode} {s : List UInt8} {sz : Nat} {fs : List (PbField × Nat)} {offs : List Int}

/-- An inserted leaf. -/
theorem writesBack_insert {e : RootEdit} {f : PbField} (h : Fresh n s (keyOfValue s).1 sz)
    (hfs : pbFields s = some (fs, true)) (hmoves : e.Moves fs) (hsize : ¬ e.KeepsSize fs)
    (hkept : e.kept fs = fs) (hkey : e.key s = (keyOfValue s).1) (hleaf : e.leafTag = some f.tag)
    (hm : ∀ ms, e.metas ms = ms) (hc : ∀ cs, e.children cs = cs ++ [f])
    (hins : n.insertNode (initNode f.tag f.val true 0 false) = .ok (n', offs)) :
    WritesBack n' (e.edited fs) ↔ e.Fits n s fs := by
  obtain ⟨_, _, htaken, hall⟩ := pbFields_taken hfs
  obtain ⟨hst, hk, hno, htag⟩ := stale_insertNode h hfs (keyOfValue_spec hfs) hins
  have hed : e.edited fs =
      metaFields (fs.map Prod.fst) ++ (childFields (fs.map Prod.fst) ++ [f]) := by
    rw [edited, hm, hc]
  rw [← exact_iff_fits 0 f.size hmoves htag hno (by rw [hk, hkey])
    (show s.length + f.size + 0 = _ from rfl) (by rw [hed, hkept]; exact length_messageBytes_insert fs f)
    (by rw [hkept, Nat.add_zero]) htaken (by rw [hkept]; exact fun p hp => (hall p hp).1)
    (.inr ⟨hsize, rfl⟩) ?_, hm, hc, hed]
  · exact stale_writesBack_iff hst
  · rw [hed, leaf_in_order (metaFields_le _) (childFields_gt _) f, hleaf]
    constructor
    · intro hf t ht hle
      cases ht
      exact hf hle
    · exact fun hf hle => hf f.tag rfl hle

/-- Children that are removed. -/
theorem writesBack_remove {tag : UInt32} (h : Fresh n s (keyOfValue s).1 sz)
    (hfs : pbFields s = some (fs, true)) (hmoves : (removeChildrenByTag tag).Moves fs)
    (hrem : n.removeChildrenByTag tag = .ok (n', offs)) :
    WritesBack n' ((removeChildrenByTag tag).edited fs) ↔ (removeChildrenByTag tag).Fits n s fs := by
  obtain ⟨_, _, htaken, hall⟩ := pbFields_taken hfs
  obtain ⟨v, hv, hst, hk, hno, htag⟩ :=
    stale_removeChildrenByTag h hfs (keyOfValue_spec hfs) hmoves hrem
  obtain ⟨hkm, hkc, _⟩ := remove_kept fs tag
  have hsum := taken_filter fs fun p => isMeta p || p.1.tag ≠ tag
  have hchild : ∀ f ∈ (childFields (fs.map Prod.fst)).filter (fun f => f.tag ≠ tag),
      UC_MAX_META_NUM < f.tag.toNat := fun f hf => childFields_gt _ f (List.mem_of_mem_filter hf)
  rw [← exact_iff_fits (taken (fs.filter (!(fun p => isMeta p || p.1.tag ≠ tag) ·))) 0 hmoves htag hno
    hk hv ?_ hsum htaken (fun p hp => (hall p (List.mem_of_mem_filter hp)).1)
    (.inr ⟨not_not_intro hmoves, rfl⟩) ?_]
  · exact stale_writesBack_iff hst
  · show (messageBytes (metaFields _ ++ (childFields _).filter _)).length = needed (fs.filter _) + 0
    rw [← hkm, ← hkc, length_messageBytes_shown]
    rfl
  · exact ⟨fun _ t ht => (nomatch ht), fun _ => fields_in_order (metaFields_le _) hchild⟩

theorem mem_setLast {f g : PbField} {ms : List PbField} (h : g ∈ setLast f ms) : g = f ∨ g ∈ ms := by
  induction ms with
  | nil => exact absurd h List.not_mem_nil
  | cons x ms ih =>
    rw [setLast] at h
    split at h
    · rcases List.mem_cons.mp h with rfl | h
      · exact .inl rfl
      · exact .inr (List.mem_cons_of_mem x h)
    · rcases List.mem_cons.mp h with rfl | h
      · exact .inr List.mem_cons_self
      · exact (ih h).imp id (List.mem_cons_of_mem x)

theorem mem_metas {tag : UInt32} {val : UInt64} {ms : List PbField} {f : PbField}
    (h : f ∈ (setMetaInt tag val).metas ms) : f = ⟨tag, .varint val⟩ ∨ f ∈ ms := by
  rw [metas] at h
  split at h
  · exact mem_setLast h
  · split at h
    · exact List.mem_cons.mp h
    · rcases List.mem_append.mp h with h | h
      · exact .inr h
      · exact .inl (List.mem_singleton.mp h)

/-- A meta that is set: it is new, or takes the place of the last one with its tag. -/
theorem writesBack_setMeta {tag : UInt32} {val : UInt64} (h : Fresh n s (keyOfValue s).1 sz)
    (hfs : pbFields s = some (fs, true)) (hset : n.setMetaInt tag val = .ok (n', offs)) :
    WritesBack n' ((setMetaInt tag val).edited fs) ↔ (setMetaInt tag val).Fits n s fs := by
  obtain ⟨_, _, htaken, hall⟩ := pbFields_taken hfs
  obtain ⟨n₁, n₂, o, hfresh, hn₁, hm, hn'⟩ := setMetaInt_inv h hset
  have hshort : ∀ str, (if tag = 1 then KnvKey.init (.varint val) else (keyOfValue s).1).getValue =
      .string str → str.length < 2 ^ 32 := by
    intro str hs
    split at hs
    · exact Nat.lt_trans (length_key_init _ str hs) (by decide)
    · exact (keyOfValue_spec hfs).1 str hs
  have hle : tag.toNat ≤ UC_MAX_META_NUM := by
    by_contra hgt
    rw [setMeta, if_neg hfresh.tag, if_neg (by rw [hfresh.isString]; decide),
      if_pos (Nat.lt_of_not_le hgt)] at hm
    cases hm
  have horder : metaFields ((setMetaInt tag val).edited fs) ++
      childFields ((setMetaInt tag val).edited fs) = (setMetaInt tag val).edited fs := by
    refine fields_in_order ?_ (childFields_gt _)
    intro f hf
    rcases mem_metas hf with rfl | hf
    · exact hle
    · exact metaFields_le _ f hf
  have horder' : metaFields ((setMetaInt tag val).edited fs) ++
      childFields ((setMetaInt tag val).edited fs) = (setMetaInt tag val).edited fs ↔
      ∀ t, (setMetaInt tag val).leafTag = some t → t.toNat ≤ UC_MAX_META_NUM →
        childFields (fs.map Prod.fst) = [] := ⟨fun _ t ht => (nomatch ht), fun _ => horder⟩
  have hmoves : (setMetaInt tag val).Moves fs := trivial
  have hn₂ : n₂.no_key = false → n' = n₂ := by
    intro hno
    rw [hn']
    split
    · exact with_no_key hno
    · rfl
  have hmem : (∃ f ∈ metaFields (fs.map Prod.fst), f.tag = tag) ↔ ∃ p ∈ fs, p.1.tag = tag := by
    constructor
    · rintro ⟨f, hf, ht⟩
      obtain ⟨p, hp, rfl⟩ := List.mem_map.mp (List.mem_of_mem_filter hf)
      exact ⟨p, hp, ht⟩
    · rintro ⟨p, hp, ht⟩
      refine ⟨p.1, List.mem_filter.mpr ⟨List.mem_map.mpr ⟨p, hp, rfl⟩, ?_⟩, ht⟩
      rw [ht]
      exact decide_eq_true hle
  cases hl : lastTaken tag fs with
  | none =>
    obtain ⟨hst, hk, hno, htag⟩ :=
      stale_setMeta_new (f := ⟨tag, .varint val⟩) hfresh hfs hshort hl hm
    rw [hn₁] at hst htag
    rw [hn₂ hno]
    have hnone : ¬ ∃ f ∈ metaFields (fs.map Prod.fst), f.tag = tag := by
      rw [hmem]
      rintro ⟨p, hp, ht⟩
      exact of_decide_eq_false (find?_reverse_none hl p hp) ht
    have hmetas : (setMetaInt tag val).metas (metaFields (fs.map Prod.fst)) =
        if tag = 1 then ⟨tag, .varint val⟩ :: metaFields (fs.map Prod.fst)
        else metaFields (fs.map Prod.fst) ++ [⟨tag, .varint val⟩] := if_neg hnone
    have hkept : (setMetaInt tag val).kept fs = fs := eraseLast_none hl
    rw [← exact_iff_fits 0 (⟨tag, .varint val⟩ : PbField).size hmoves htag hno hk
      (show s.length + _ + 0 = _ from rfl) ?_ (by rw [hkept, Nat.add_zero]) htaken
      (by rw [hkept]; exact fun p hp => (hall p hp).1) (.inr ⟨?_, rfl⟩) horder']
    · rw [edited, hmetas]
      exact stale_writesBack_iff hst
    · rw [edited, hmetas, hkept]
      exact length_messageBytes_newMeta fs ⟨tag, .varint val⟩
    · rintro ⟨p, hp, _⟩
      rw [hl] at hp
      cases hp
  | some p =>
    obtain ⟨v, hv, hst, hk, hno, htag⟩ :=
      stale_setMeta_last (f := ⟨tag, .varint val⟩) hfresh hfs hshort hl hm
    obtain ⟨hneeded, htakenE⟩ := sums_eraseLast hl
    rw [hn₁] at hst htag
    rw [hn₂ hno]
    have hp : p ∈ fs := List.mem_reverse.mp (List.mem_of_find?_eq_some hl)
    have hpt : p.1.tag = tag := (of_find?_decide hl :)
    have hmetas : (setMetaInt tag val).metas (metaFields (fs.map Prod.fst)) =
        setLast ⟨tag, .varint val⟩ (metaFields (fs.map Prod.fst)) := if_pos (hmem.mpr ⟨p, hp, hpt⟩)
    rw [← exact_iff_fits p.2 (⟨tag, .varint val⟩ : PbField).size hmoves htag hno hk hv ?_
      (by rw [Nat.add_comm]; exact htakenE) htaken (fun q hq => (hall q (mem_eraseLast hq)).1) ?_ horder']
    · rw [edited, hmetas]
      exact stale_writesBack_iff hst
    · have hbytes := length_setLast (f := ⟨tag, .varint val⟩) (find?_metaFields hle hl)
      have hshown := length_messageBytes_shown fs
      rw [edited, hmetas]
      rw [messageBytes_append, List.length_append] at hshown ⊢
      show _ + (messageBytes (childFields (fs.map Prod.fst))).length = needed (eraseLast tag fs) + _
      omega
    · by_cases he : p.2 = (⟨tag, .varint val⟩ : PbField).size
      · rw [if_pos he]
        exact .inl ⟨⟨p, hl, he⟩, by omega, h.eval_sz⟩
      · rw [if_neg he]
        refine .inr ⟨?_, rfl⟩
        rintro ⟨q, hq, hqe⟩
        rw [hl] at hq
        cases hq
        exact he hqe

end Iff

/-- The node of a leaf is made before it is inserted. -/
theorem insertLeaf_inv {n n' : KnvNode} {tag : UInt32} {val : FieldVal} {offs : List Int}
    (h : (newNode tag none val >>= n.insertNode) = .ok (n', offs)) :
    n.insertNode (initNode tag val true 0 false) = .ok (n', offs) := by
  by_cases ht : tag = 0
  · rw [newNode, if_pos ht] at h
    cases h
  · rw [newNode_leaf ht] at h
    exact h

/-- **A received root is written back after an edit** exactly if what it keeps came the way it is
    written. -/
theorem writesBack_iff {data : List UInt8} {e : RootEdit} {n n' : KnvNode} {s : List UInt8}
    {fs : List (PbField × Nat)} {offs : List Int} (hnew : newFromData data = .ok n)
    (htag : n.tag ≠ 0) (hval : n.val = .string s) (hfs : pbFields s = some (fs, true))
    (hexec : e.exec n = .ok (n', offs)) : WritesBack n' (e.edited fs) ↔ e.Fits n s fs := by
  obtain ⟨sz, hsmall, h⟩ := fresh_newFromData hnew htag hval hfs
  cases e with
  | insertIntLeaf tag val =>
    exact writesBack_insert (f := ⟨tag, .varint val⟩) h hfs trivial id rfl rfl rfl (fun _ => rfl)
      (fun _ => rfl) (insertLeaf_inv hexec)
  | insertStrLeaf tag val =>
    exact writesBack_insert (f := ⟨tag, .string val⟩) h hfs trivial id rfl rfl rfl (fun _ => rfl)
      (fun _ => rfl) (insertLeaf_inv hexec)
  | setMetaInt tag val => exact writesBack_setMeta h hfs hexec
  | removeChildrenByTag tag =>
    by_cases hmoves : (removeChildrenByTag tag).Moves fs
    · exact writesBack_remove h hfs hmoves hexec
    · -- nothing was removed, and the root is written as it came
      have hsame : n' = n.innerExpand false false := by
        have hexec' : n.removeChildrenByTag tag = .ok (n', offs) := hexec
        rw [removeChildrenByTag_none h hfs hmoves] at hexec'
        cases hexec'
        rfl
      have hed : (removeChildrenByTag tag).edited fs =
          metaFields (fs.map Prod.fst) ++ childFields (fs.map Prod.fst) := by
        show _ ++ (childFields (fs.map Prod.fst)).filter (fun f => f.tag ≠ tag) = _
        rw [List.filter_eq_self.mpr]
        · rfl
        intro f hf
        have hgt := childFields_gt _ f hf
        obtain ⟨p, hp, rfl⟩ := List.mem_map.mp (List.mem_of_mem_filter hf)
        refine decide_eq_true fun ht => hmoves ⟨p, hp, ?_, ht⟩
        exact decide_eq_false (Nat.not_le.mpr hgt)
      rw [hsame, hed, writesBack_expanded h hfs hsmall]
      constructor
      · exact fun ⟨ht, hh⟩ => ⟨ht, fun _ => hh, fun hm => absurd hm hmoves⟩
      · exact fun hfit => ⟨hfit.tag, hfit.header hmoves⟩

/-- A root with one leaf, one byte each for the leaf's tag and value, gets another leaf. -/
theorem writesBack_iff_canonical : ∃ n n' offs, newFromData [0x5A, 2, 0x58, 1] = .ok n ∧
    (insertIntLeaf 12 5).exec n = .ok (n', offs) ∧
    (WritesBack n' [⟨11, .varint 1⟩, ⟨12, .varint 5⟩] ↔
      (insertIntLeaf 12 5).Fits n [0x58, 1] [(⟨11, .varint 1⟩, 2)]) ∧
    (insertIntLeaf 12 5).Fits n [0x58, 1] [(⟨11, .varint 1⟩, 2)] := by
  refine ⟨initNode 11 (.string [0x58, 1]) true 4 false, _, _, rfl, rfl, ?_, ?_⟩
  · exact @writesBack_iff [0x5A, 2, 0x58, 1] (insertIntLeaf 12 5) _ _ [0x58, 1] [(⟨11, .varint 1⟩, 2)] _
      rfl (by decide) rfl rfl rfl
  · refine ⟨by decide, fun h => False.elim h, fun _ => ⟨?_, rfl, fun h => absurd rfl h, ?_, ?_, ?_⟩⟩
    · decide
    · decide
    · intro t ht hle
      cases ht
      exact absurd hle (by decide)
    · decide

/-- The leaf's value takes two bytes where one is enough: after the insertion `Serialize` fails with
    the text of the branch that is called a bug. -/
theorem padded_varint_not_written_back : ∃ n n' offs, newFromData [0x5A, 3, 0x58, 0x81, 0] = .ok n ∧
    n.tag ≠ 0 ∧ n.val = .string [0x58, 0x81, 0] ∧
    pbFields [0x58, 0x81, 0] = some ([(⟨11, .varint 1⟩, 3)], true) ∧
    (insertIntLeaf 12 5).exec n = .ok (n', offs) ∧
    n'.serializeString = .error ⟨-2, "Bug: eval size incorrect"⟩ ∧
    ¬ WritesBack n' [⟨11, .varint 1⟩, ⟨12, .varint 5⟩] := by
  refine ⟨initNode 11 (.string [0x58, 0x81, 0]) true 5 false, _, _, rfl, by decide, rfl, rfl, rfl, rfl, ?_⟩
  rintro ⟨out, n', hs, _⟩
  cases hs

end RootEdit

end MysqlProxy
