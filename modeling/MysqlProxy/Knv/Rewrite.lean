/-
  A tree that was received, edited and written back.

  An expanded node remembers how many bytes each field TOOK, and the edits of the root patch a size
  that started from these numbers.  `Serialize` writes every field anew.  The two agree when what came
  was written the way this library writes it, and `Serialize` fails when it was not.

  * `WritesBack n fs`: the node is written, and the bytes are read as the fields `fs` again.
  * `Stale n ms cs`: the node was edited, it holds the metas `ms` and the children `cs`, and its sizes
    account for what these need AT LEAST.
  * `stale_writesBack_iff`: such a node is written back exactly if the sizes are what is needed, the
    key in the member `key` is the first meta, and every tag has 29 bits.
-/
import MysqlProxy.Knv.PbRaw
import MysqlProxy.Knv.TreeRun

namespace MysqlProxy

/-! ## What a successful write has written -/

theorem pbAdd_inv {b b' : PbBuff} {l : List UInt8} (h : pbAdd b l = .ok b') : b' = b.push l := by
  rw [pbAdd] at h
  split at h
  · cases h
  · cases h
    rfl

theorem orFail_inv {r : Except Int PbBuff} {code : Int} {b : PbBuff} (h : orFail r code = .ok b) :
    r = .ok b := by
  cases r with
  | error e => cases h
  | ok c => exact h

theorem pbAddFieldVal_inv {b b' : PbBuff} {tag : UInt32} {val : FieldVal}
    (h : pbAddFieldVal b tag val = .ok b') : b' = b.push (fieldBytes tag val) := by
  unfold pbAddFieldVal at h
  cases ht : orFail (pbAddTag b val.type tag) (-1) with
  | error e => rw [ht] at h; cases h
  | ok b₁ =>
    rw [ht] at h
    have hb₁ := pbAdd_inv (orFail_inv ht)
    cases val with
    | varint i64 =>
      rw [pbAdd_inv h, hb₁, PbBuff.push_push]
      rfl
    | fixed64 i64 =>
      rw [pbAdd_inv h, hb₁, PbBuff.push_push]
      rfl
    | string str =>
      cases hl : orFail (pbAddVint b₁ (UInt64.ofNat str.length)) (-2) with
      | error e =>
        have h' : (orFail (pbAddVint b₁ (UInt64.ofNat str.length)) (-2) >>= fun b => pbAdd b str) =
          .ok b' := h
        rw [hl] at h'
        cases h'
      | ok b₂ =>
        have h' : (orFail (pbAddVint b₁ (UInt64.ofNat str.length)) (-2) >>= fun b => pbAdd b str) =
          .ok b' := h
        rw [hl] at h'
        rw [pbAdd_inv h', pbAdd_inv (orFail_inv hl), hb₁, PbBuff.push_push, PbBuff.push_push]
        rfl
    | fixed32 i32 =>
      rw [pbAdd_inv h, hb₁, PbBuff.push_push]
      rfl

theorem pbAddStringHead_inv {b b' : PbBuff} {tag : UInt32} {size : Nat}
    (h : pbAddStringHead b tag size = .ok b') :
    b' = b.push (vintBytes (tagWord .string tag) ++ vintBytes (UInt64.ofNat size)) := by
  unfold pbAddStringHead at h
  cases ht : orFail (pbAddTag b .string tag) (-1) with
  | error e => rw [ht] at h; cases h
  | ok b₁ =>
    rw [ht] at h
    rw [pbAdd_inv h, pbAdd_inv (orFail_inv ht), PbBuff.push_push]

namespace KnvNode

theorem written_inv {r : Except Int PbBuff} {code : Int} {b : PbBuff} (h : written r code = .ok b) :
    r = .ok b := by
  cases r with
  | error e => cases h
  | ok c => cases h; rfl

/-- A folded node that holds a field, whatever its size says. -/
structure Shown (m : KnvNode) (f : PbField) : Prop where
  tag : m.tag = f.tag
  val : m.val = f.val
  folded : m.isFolded = true

theorem isFolded_of_isFlat {m : KnvNode} (h : m.isFlat = true) : m.isFolded = true := by
  rw [isFolded, h]
  rfl

theorem Shown.puts {m : KnvNode} {f : PbField} (h : Shown m f) (htag : f.tag ≠ 0) : Puts m f := by
  refine ⟨h.tag, fun len hlen => ?_⟩
  have hfold := h.folded
  obtain ⟨d, ms, cs⟩ := m
  have ht : d.tag = f.tag := h.tag
  have hv : d.val = f.val := h.val
  have hroom : (fieldBytes f.tag f.val).length ≤ (PbBuff.mk [] len).left := by
    rw [length_fieldBytes]
    exact hlen
  rw [KnvNode.serialize]
  simp only [hfold, ht, hv, htag, if_true, if_false, pure_bind]
  rw [pbAddFieldVal_eq hroom]
  rfl

theorem puts_of_shown {l : List KnvNode} {fs : List PbField} (h : List.Forall₂ Shown l fs)
    (htag : ∀ f ∈ fs, f.tag ≠ 0) : List.Forall₂ Puts l fs := by
  induction h with
  | nil => exact .nil
  | @cons m f l fs hm _ ih =>
    exact .cons (hm.puts (htag f List.mem_cons_self))
      (ih fun g hg => htag g (List.mem_cons_of_mem f hg))

/-- A folded node that was written has a tag, and was written as its field. -/
theorem Shown.serialize_inv {m : KnvNode} {f : PbField} (h : Shown m f) {len : Nat}
    {out : List UInt8} (hs : serialize m len true = .ok out) :
    f.tag ≠ 0 ∧ out = fieldBytes f.tag f.val := by
  have hfold := h.folded
  obtain ⟨d, ms, cs⟩ := m
  have ht : d.tag = f.tag := h.tag
  have hv : d.val = f.val := h.val
  rw [KnvNode.serialize] at hs
  by_cases h0 : f.tag = 0
  · simp only [ht, h0, if_true] at hs
    cases hs
  · simp only [hfold, ht, hv, h0, if_true, if_false, pure_bind] at hs
    cases hw : written (pbAddFieldVal ⟨[], len⟩ f.tag f.val) (-3) with
    | error e => rw [hw] at hs; cases hs
    | ok b =>
      rw [hw] at hs
      cases hs
      rw [pbAddFieldVal_inv (written_inv hw)]
      exact ⟨h0, List.nil_append _⟩

/-- The same for a list. -/
theorem serializeList_inv {l : List KnvNode} {fs : List PbField} (h : List.Forall₂ Shown l fs)
    {len : Nat} {code : Int} {out out' : List UInt8}
    (hs : serializeList l false out len code = .ok out') :
    (∀ f ∈ fs, f.tag ≠ 0) ∧ out' = out ++ messageBytes fs := by
  induction h generalizing out with
  | nil =>
    rw [serializeList] at hs
    cases hs
    exact ⟨fun f hf => absurd hf List.not_mem_nil, (List.append_nil _).symm⟩
  | @cons m f l fs hm _ ih =>
    rw [serializeList, if_neg Bool.false_ne_true] at hs
    cases hw : serialize m (len - out.length) true with
    | error e => rw [hw] at hs; cases hs
    | ok bytes =>
      rw [hw] at hs
      obtain ⟨h0, rfl⟩ := hm.serialize_inv hw
      obtain ⟨hall, rfl⟩ := ih hs
      constructor
      · intro g hg
        rcases List.mem_cons.mp hg with rfl | hg
        · exact h0
        · exact hall g hg
      · rw [messageBytes_cons, List.append_assoc]

/-! ## What is read -/

/-- The field a node shows. -/
def view (n : KnvNode) : PbField := ⟨n.tag, n.val⟩

theorem OfField.view {k : Bool} {m : KnvNode} {p : PbField × Nat} (h : OfField k m p) :
    m.view = p.1 := by
  obtain ⟨r, rfl⟩ := h
  rfl

theorem map_view_ofField {k : Bool} {l : List KnvNode} {ps : List (PbField × Nat)}
    (h : List.Forall₂ (OfField k) l ps) : l.map KnvNode.view = ps.map Prod.fst := by
  induction h with
  | nil => rfl
  | @cons m p l ps hm _ ih => rw [List.map_cons, List.map_cons, hm.view, ih]

/-- The metas of a list of received fields, and its children. -/
theorem filter_isMeta (fs : List (PbField × Nat)) :
    (fs.filter isMeta).map Prod.fst = metaFields (fs.map Prod.fst) := by
  rw [metaFields, List.filter_map]
  rfl

theorem filter_not_isMeta (fs : List (PbField × Nat)) :
    (fs.filter (!isMeta ·)).map Prod.fst = childFields (fs.map Prod.fst) := by
  rw [childFields, List.filter_map]
  rfl

/-- The fields of a value, as a walk over the node shows them: metas first. -/
def shownFields (s : List UInt8) : List PbField :=
  match pbFields s with
  | some (fs, true) => metaFields (fs.map Prod.fst) ++ childFields (fs.map Prod.fst)
  | _ => []

/-- A value that is no message shows nothing. -/
theorem fields_of_no_lists {n : KnvNode} {p : Bool} (hm : (n.innerExpand p false).metalist = [])
    (hc : (n.innerExpand p false).childlist = []) : n.fields p = [] := by
  unfold fields
  simp only [hm, hc]
  rfl

/-- **The walk over a node that was read.** -/
theorem fields_initNode {tag : UInt32} (htag : tag ≠ 0) (s : List UInt8) (sz : Nat) :
    ((initNode tag (.string s) true sz false).fields false).map view = shownFields s := by
  generalize hn : initNode tag (.string s) true sz false = n
  have hntag : n.tag ≠ 0 := by rw [← hn]; exact htag
  have hstr : n.isString = true ∧ n.str = s := by rw [← hn]; exact ⟨rfl, rfl⟩
  have hlists : n.metalist = [] ∧ n.childlist = [] := by rw [← hn]; exact ⟨rfl, rfl⟩
  -- the cases in which `InnerExpand` leaves no lists
  have hnone : (∀ fs, pbFields s ≠ some (fs, true)) → n.fields false = [] := by
    intro hbad
    have hexp : (n.innerExpand false false).metalist = [] ∧
        (n.innerExpand false false).childlist = [] := by
      unfold innerExpand
      split
      · exact hlists
      · simp only
        split
        · exact ⟨rfl, rfl⟩
        · split
          · exact ⟨rfl, rfl⟩
          · split
            · exact ⟨rfl, rfl⟩
            · rename_i fs eom hfs
              cases eom with
              | false => exact ⟨rfl, rfl⟩
              | true => exact absurd (hstr.2 ▸ hfs) (hbad fs)
    exact fields_of_no_lists hexp.1 hexp.2
  unfold shownFields
  split
  · rename_i fs hfs
    have hval : n.val = .string s := by rw [← hn]; rfl
    have hnum : n.child_num = none := by rw [← hn]; exact initNode_num hfs
    have hht : n.ht = KnvHt.clear := by rw [← hn]; rfl
    have hp : ¬ (n.tag = 1 ∧ false = true) := fun h => Bool.false_ne_true h.2
    have hgrown := (innerExpand_grown hnum hval hht hfs hp false).1
    have hgtag : (n.innerExpand false false).tag ≠ 0 := by
      rw [show (n.innerExpand false false).tag = n.tag from congrArg (fun h => h.2.1) hgrown.head]
      exact hntag
    rw [hgrown.fields rfl hntag hgtag, List.map_append, map_view_ofField hgrown.metalist,
      map_view_ofField hgrown.childlist, filter_isMeta, filter_not_isMeta]
  · rename_i hbad
    rw [hnone fun fs hfs => hbad fs hfs]
    rfl

/-- Fields that fit the wire are shown again, metas first. -/
theorem shownFields_messageBytes {fs : List PbField} (hok : ∀ f ∈ fs, FieldOk f.tag f.val)
    (hlen : (messageBytes fs).length < 2 ^ 31) :
    shownFields (messageBytes fs) = metaFields fs ++ childFields fs := by
  cases fs with
  | nil => rfl
  | cons f fs =>
    unfold shownFields
    rw [pbFields_messageBytes hok hlen]
    simp only [List.map_map]
    show metaFields (List.map id (f :: fs)) ++ childFields (List.map id (f :: fs)) = _
    rw [List.map_id]

/-! ## Edited nodes -/

/-- `Serialize` to a string succeeds, and the bytes are read as a root with the same tag whose walk
    shows the fields `fs`. -/
def WritesBack (n : KnvNode) (fs : List PbField) : Prop :=
  ∃ out n', n.serializeString = .ok out ∧ newFromData out = .ok n' ∧ n'.tag = n.tag ∧
    (n'.fields false).map view = fs

/-- An edited root with the metas `ms` and the children `cs`.  The size `v` of its value is at least
    what they need, and the size `e` of the whole field at least what that needs. -/
structure Stale (n : KnvNode) (ms cs : List PbField) (v e : Nat) : Prop where
  tag : n.tag ≠ 0
  val : n.val = .string []
  child_num : n.child_num = some cs.length
  metalist : List.Forall₂ Shown n.metalist ms
  childlist : List.Forall₂ Shown n.childlist cs
  keyed : n.writesKey = true → ms ≠ []
  key_lt : ∀ s, n.key.getValue = .string s → s.length < 2 ^ 32
  val_sz : n.eval_val_sz = v
  sz : n.eval_sz = e
  val_le : (messageBytes (ms ++ cs)).length ≤ v
  le : pbEvalStringLength n.tag v ≤ e

/-- The sizes, the key and the tags are such that the node is written back. -/
structure Exact (n : KnvNode) (ms cs : List PbField) (v e : Nat) : Prop where
  tag : n.tag.toNat < 2 ^ 29
  key : KeyFirst n ms
  tags : ∀ f ∈ ms ++ cs, 0 < f.tag.toNat ∧ f.tag.toNat < 2 ^ 29
  order : metaFields (ms ++ cs) ++ childFields (ms ++ cs) = ms ++ cs
  val_sz : v = (messageBytes (ms ++ cs)).length
  sz : e = pbEvalStringLength n.tag v
  small : e < 2 ^ 31

/-- The header of a string. -/
def strHead (tag : UInt32) (len : Nat) : List UInt8 :=
  vintBytes (tagWord .string tag) ++ vintBytes (UInt64.ofNat len)

theorem length_strHead (tag : UInt32) (len : Nat) :
    (strHead tag len).length + len = pbEvalStringLength tag len := by
  rw [strHead, List.length_append, length_vintBytes, length_vintBytes]
  rfl

/-- The steps of writing a node that is not folded: the head, the key, the metas and the children, which
    together are as long as the evaluated size. -/
theorem serialize_steps {n : KnvNode} (hfold : n.isFolded = false) {len : Nat} {out : List UInt8}
    (hs : serialize n len true = .ok out) : ∃ b out₁,
      n.writeKey (PbBuff.push ⟨[], len⟩ (strHead n.tag (evaluateSize n).2.toNat)) = .ok b ∧
      serializeList n.metalist n.skipsFirst b.out len (-8) = .ok out₁ ∧
      serializeList n.childlist false out₁ len (-9) = .ok out ∧
      (out.length : Int) = (evaluateSize n).1 := by
  obtain ⟨d, metalist, childlist⟩ := n
  rw [KnvNode.serialize] at hs
  by_cases hd0 : d.tag = 0
  · simp only [hd0, if_true] at hs
    cases hs
  simp only [hfold, hd0, if_false, if_true, Bool.false_eq_true, pure_bind] at hs
  cases hh : written (pbAddStringHead ⟨[], len⟩ d.tag
      (evaluateSize ⟨d, metalist, childlist⟩).2.toNat) (-6) with
  | error err => rw [hh] at hs; cases hs
  | ok b =>
    rw [hh] at hs
    have hb : b = PbBuff.push ⟨[], len⟩ (strHead d.tag
        (evaluateSize ⟨d, metalist, childlist⟩).2.toNat) := pbAddStringHead_inv (written_inv hh)
    have hs₁ : (writeKey ⟨d, metalist, childlist⟩ b >>= fun b => _) = Except.ok out := hs
    cases hk : writeKey ⟨d, metalist, childlist⟩ b with
    | error err => rw [hk] at hs₁; cases hs₁
    | ok b' =>
      rw [hk] at hs₁
      have hs₂ : (serializeList metalist _ b'.out len (-8) >>= fun out => _) = Except.ok out := hs₁
      cases hm : serializeList metalist (skipsFirst ⟨d, metalist, childlist⟩) b'.out len (-8) with
      | error err => rw [hm] at hs₂; cases hs₂
      | ok out₁ =>
        rw [hm] at hs₂
        have hs₃ : (serializeList childlist false out₁ len (-9) >>= fun out => _) = Except.ok out :=
          hs₂
        cases hc : serializeList childlist false out₁ len (-9) with
        | error err => rw [hc] at hs₃; cases hs₃
        | ok out₂ =>
          rw [hc] at hs₃
          have hs₄ : (if (out₂.length : Int) ≠ (evaluateSize ⟨d, metalist, childlist⟩).1 then
            Except.error _ else Except.ok out₂) = Except.ok out := hs₃
          split at hs₄
          · cases hs₄
          · rename_i hlen
            cases hs₄
            exact ⟨b', out₁, hb ▸ hk, hm, hc, not_not.mp hlen⟩

section Stale

variable {n : KnvNode} {ms cs : List PbField} {v e : Nat}

theorem Stale.isString (h : Stale n ms cs v e) : n.isString = true := by
  unfold KnvNode.isString
  rw [h.val]
  rfl

theorem Stale.evaluateSize (h : Stale n ms cs v e) : evaluateSize n = ((e : Int), (v : Int)) := by
  rw [evaluateSize_cached (by rw [h.sz]; omega), h.sz, h.val_sz]

/-- Without any field the node is flat, and otherwise it is not folded. -/
theorem Stale.isFlat (h : Stale n ms cs v e) : n.isFlat = decide (ms ++ cs = []) := by
  have hempty : n.metalist.isEmpty = decide (ms = []) := by
    rw [Bool.eq_iff_iff, decide_eq_true_iff, List.isEmpty_iff, ← List.length_eq_zero_iff,
      ← List.length_eq_zero_iff, h.metalist.length_eq]
  unfold KnvNode.isFlat
  rw [h.isString, h.child_num, hempty]
  cases cs with
  | nil => simp
  | cons c cs => simp

theorem Stale.isFolded (h : Stale n ms cs v e) : n.isFolded = decide (ms ++ cs = []) := by
  have hstr : n.str = [] := by
    unfold KnvNode.str
    rw [h.val]
    rfl
  unfold KnvNode.isFolded
  rw [h.isFlat, hstr]
  simp

/-- The key, if it is written, and the metas. -/
theorem Stale.metas_inv (h : Stale n ms cs v e) {len : Nat} {b b' : PbBuff} {out : List UInt8}
    (hk : n.writeKey b = .ok b')
    (hm : serializeList n.metalist n.skipsFirst b'.out len (-8) = .ok out) :
    (∀ f ∈ ms, f.tag ≠ 0) ∧ ∃ body, out = b.out ++ body ∧
      (KeyFirst n ms → body = messageBytes ms) ∧
      (n.writesKey = true → ∃ rest, body = fieldBytes 1 n.key.getValue ++ rest) := by
  have hlist := h.metalist
  unfold writeKey at hk
  unfold skipsFirst at hm
  by_cases hw : n.writesKey = true
  · rw [if_pos hw] at hk
    rw [hw, Bool.true_and] at hm
    have hb' := pbAddFieldVal_inv (written_inv hk)
    have hout : b'.out = b.out ++ fieldBytes 1 n.key.getValue := by rw [hb']; rfl
    cases ms with
    | nil => exact absurd rfl (h.keyed hw)
    | cons f ms =>
      obtain ⟨m, l, hmf, hl, hml⟩ := List.forall₂_cons_right_iff.mp hlist
      rw [hml] at hm
      by_cases hf : f.tag = 1
      · -- the first meta is left out
        have hfirst : firstIsKey (m :: l) = true := by
          show decide (m.tag = 1) = true
          rw [hmf.tag, hf]
          rfl
        rw [hfirst, serializeList, if_pos rfl] at hm
        obtain ⟨hall, rfl⟩ := serializeList_inv hl hm
        refine ⟨?_, fieldBytes 1 n.key.getValue ++ messageBytes ms, ?_, ?_, fun _ => ⟨_, rfl⟩⟩
        · intro g hg
          rcases List.mem_cons.mp hg with rfl | hg
          · rw [hf]
            decide
          · exact hall g hg
        · rw [hout, List.append_assoc]
        · intro hkey
          obtain ⟨g, ms', hms, hg1, hgv⟩ := hkey hw
          cases hms
          rw [messageBytes_cons, hg1, hgv]
      · have hfirst : firstIsKey (m :: l) = false := by
          show decide (m.tag = 1) = false
          rw [hmf.tag]
          exact decide_eq_false hf
        rw [hfirst] at hm
        obtain ⟨hall, rfl⟩ := serializeList_inv (.cons hmf hl) hm
        refine ⟨hall, fieldBytes 1 n.key.getValue ++ messageBytes (f :: ms), ?_, ?_, fun _ => ⟨_, rfl⟩⟩
        · rw [hout, List.append_assoc]
        · intro hkey
          obtain ⟨g, ms', hms, hg1, _⟩ := hkey hw
          cases hms
          exact absurd hg1 hf
  · rw [if_neg hw] at hk
    rw [Bool.eq_false_of_not_eq_true hw, Bool.false_and] at hm
    cases hk
    obtain ⟨hall, rfl⟩ := serializeList_inv hlist hm
    exact ⟨hall, messageBytes ms, rfl, fun _ => rfl, fun h => absurd h hw⟩

/-- **What a node that is not flat has written**, if it was written. -/
theorem Stale.serialize_inv (h : Stale n ms cs v e) (hne : ms ++ cs ≠ []) {len : Nat}
    {out : List UInt8} (hs : serialize n len true = .ok out) :
    (∀ f ∈ ms ++ cs, f.tag ≠ 0) ∧ ∃ body, out = strHead n.tag v ++ body ∧
      (KeyFirst n ms → body = messageBytes (ms ++ cs)) ∧
      (n.writesKey = true → ∃ rest, body = fieldBytes 1 n.key.getValue ++ rest) := by
  obtain ⟨b, out₁, hk, hm, hc, _⟩ :=
    serialize_steps (by rw [h.isFolded]; exact decide_eq_false hne) hs
  obtain ⟨hmtags, body, rfl, hbody, hkeyed⟩ := h.metas_inv hk hm
  obtain ⟨hctags, rfl⟩ := serializeList_inv h.childlist hc
  refine ⟨?_, body ++ messageBytes cs, ?_, ?_, ?_⟩
  · intro f hf
    rcases List.mem_append.mp hf with hf | hf
    · exact hmtags f hf
    · exact hctags f hf
  · rw [h.evaluateSize, List.append_assoc]
    rfl
  · intro hkey
    rw [hbody hkey, messageBytes_append]
  · intro hw
    obtain ⟨rest, rfl⟩ := hkeyed hw
    exact ⟨rest ++ messageBytes cs, List.append_assoc _ _ _⟩

/-- `serializeString`, if it succeeds, has filled the buffer it asked for. -/
theorem serializeString_inv {out : List UInt8} (hs : n.serializeString = .ok out) :
    serialize n (KnvNode.evaluateSize n).1.toNat true = .ok out ∧
      (KnvNode.evaluateSize n).1 = out.length := by
  unfold KnvNode.serializeString at hs
  simp only at hs
  split at hs
  · cases hs
  · rename_i bytes hb
    split at hs
    · cases hs
    · rename_i hlen
      cases hs
      exact ⟨hb, not_not.mp hlen⟩

/-- The header of a string is read with the 29 bits of the tag that were written. -/
theorem newFromData_strHead {tag : UInt32} {len : Nat} {body : List UInt8} (hlen : len < 2 ^ 32)
    {n' : KnvNode} (h : newFromData (strHead tag len ++ body) = .ok n') :
    (strHead tag len ++ body).length < 2 ^ 31 ∧ ∃ sz, n' =
      initNode (UInt32.ofNat (tag.toNat % 2 ^ 29)) (.string (body.take len)) true sz false := by
  have hword : (tagWord .string tag).toNat = 2 + tag.toNat % 2 ^ 29 * 8 := by
    rw [tagWord, UInt64.toNat_ofNat']
    show (2 + _) % _ = _
    omega
  have hne : tagWord .string tag ≠ 0 := by
    intro h0
    rw [h0] at hword
    simp at hword
    omega
  have hmod : (tagWord .string tag).toNat % 8 = 2 := by rw [hword]; omega
  have hdiv : (tagWord .string tag).toNat / 8 = tag.toNat % 2 ^ 29 := by rw [hword]; omega
  have hlen' : (UInt64.ofNat len).toNat = len := by
    rw [UInt64.toNat_ofNat']
    omega
  unfold newFromData at h
  split at h
  · cases h
  · rename_i f rest hb
    cases h
    unfold pbBegin at hb
    split at hb
    · cases hb
    · rename_i hsmall
      refine ⟨Nat.lt_of_not_le hsmall, (strHead tag len ++ body).length - rest.length, ?_⟩
      rw [pbDecodeTag, strHead, List.append_assoc, pbDecodeVarint_vintBytes] at hb
      simp only [if_neg hne, hmod, WireType.ofCode, pbDecodeVal, pbDecodeString,
        pbDecodeVarint_vintBytes, hlen', hdiv, Nat.mod_eq_of_lt hlen] at hb
      split at hb
      · cases hb
      · rename_i hd
        split at hd
        · cases hd
        · cases hd
          cases hb
          rfl

/-- The first field that is read at the start of a written field is that field. -/
theorem shownFields_take {f : PbField} (hf : FieldOk f.tag f.val) (hmeta : f.tag.toNat ≤ UC_MAX_META_NUM)
    {rest : List UInt8} {fs : List PbField} (hne : fs ≠ [])
    (h : shownFields ((fieldBytes f.tag f.val ++ rest).take v) = fs) : ∃ fs', fs = f :: fs' := by
  unfold shownFields at h
  split at h
  · rename_i gs hgs
    obtain ⟨g, r, hd, -, rfl⟩ := pbFields_first hgs
    have happ := pbDecodeTag_append hd (List.drop v (fieldBytes f.tag f.val ++ rest))
    rw [List.take_append_drop, pbDecodeTag_fieldBytes hf] at happ
    have hfg : f = g := congrArg Prod.fst (Except.ok.inj happ)
    subst hfg
    rw [List.map_cons, metaFields_cons hmeta] at h
    exact ⟨_, h.symm⟩
  · exact absurd h.symm hne

/-- No more than 29 bits of a tag are shown. -/
theorem shownFields_tag_lt {fs : List PbField}
    (h : ∀ f ∈ fs, ∀ str, f.val = .string str → str.length < 2 ^ 32) :
    ∀ f ∈ shownFields (messageBytes fs), f.tag.toNat < 2 ^ 29 := by
  intro f hf
  unfold shownFields at hf
  split at hf
  · rename_i gs hgs
    have hall := pbFields_messageBytes_tag_lt h hgs
    have hmem : f ∈ gs.map Prod.fst := by
      rcases List.mem_append.mp hf with hf | hf
      · exact List.mem_of_mem_filter hf
      · exact List.mem_of_mem_filter hf
    obtain ⟨p, hp, rfl⟩ := List.mem_map.mp hmem
    exact hall p hp
  · exact absurd hf List.not_mem_nil

theorem tag_lt_of_low {t : UInt32} (h : UInt32.ofNat (t.toNat % 2 ^ 29) = t) :
    t.toNat < 2 ^ 29 := by
  rw [← h, UInt32.toNat_ofNat']
  omega

theorem strHead_zero_le (tag : UInt32) (len : Nat) :
    (strHead tag 0).length ≤ (strHead tag len).length := by
  have hpos := vintBytes_pos (UInt64.ofNat len)
  rw [strHead, strHead, List.length_append, List.length_append]
  exact Nat.add_le_add_left hpos _

/-- The key is the first meta, if the node is written back. -/
theorem Stale.keyFirst (h : Stale n ms cs v e) {body : List UInt8}
    (hkeyed : n.writesKey = true → ∃ rest, body = fieldBytes 1 n.key.getValue ++ rest)
    (hshown : shownFields (body.take v) = ms ++ cs) : KeyFirst n ms := by
  intro hw
  obtain ⟨rest, rfl⟩ := hkeyed hw
  have hms := h.keyed hw
  have hok : FieldOk 1 n.key.getValue := ⟨by decide, by decide, fun s hs => h.key_lt s hs⟩
  obtain ⟨fs', hfs⟩ := shownFields_take (f := ⟨1, n.key.getValue⟩) hok (show (1 : UInt32).toNat ≤ 10 by decide)
    (List.append_ne_nil_of_left_ne_nil hms cs) hshown
  cases ms with
  | nil => exact absurd rfl hms
  | cons f ms =>
    have hf : f = ⟨1, n.key.getValue⟩ := (List.cons.inj hfs).1
    exact ⟨f, ms, rfl, by rw [hf], by rw [hf]⟩

/-- Sizes, key and tags are as they must be if the node is written back. -/
theorem Stale.exact (h : Stale n ms cs v e) (hw : WritesBack n (ms ++ cs)) : Exact n ms cs v e := by
  obtain ⟨out, n', hs, hnew, htag, hfields⟩ := hw
  obtain ⟨hser, hlen⟩ := serializeString_inv hs
  simp only [h.evaluateSize, Int.toNat_natCast] at hser hlen
  have hlen' : e = out.length := by exact_mod_cast hlen
  have hle := h.le
  rw [← length_strHead] at hle
  by_cases hempty : ms ++ cs = []
  · -- a flat node: only a header is written
    have hshown : Shown n ⟨n.tag, .string []⟩ :=
      ⟨rfl, h.val, by rw [h.isFolded]; exact decide_eq_true hempty⟩
    obtain ⟨_, hout⟩ := hshown.serialize_inv hser
    have hout' : out = strHead n.tag 0 ++ [] := by
      rw [hout, fieldBytes, strHead, List.append_nil]
      rfl
    have hzero := strHead_zero_le n.tag v
    have hv : v = 0 := by
      rw [hout', List.append_nil] at hlen'
      omega
    rw [hout'] at hnew
    obtain ⟨hsmall, sz, rfl⟩ := newFromData_strHead (by decide) hnew
    rw [← hout', ← hlen'] at hsmall
    exact
      { tag := tag_lt_of_low htag
        key := fun hw => absurd (List.append_eq_nil_iff.mp hempty).1 (h.keyed hw)
        tags := by rw [hempty]; exact fun f hf => absurd hf List.not_mem_nil
        order := by rw [hempty]; rfl
        val_sz := by rw [hempty, hv]; rfl
        sz := by rw [hlen', hout', List.append_nil, hv, ← length_strHead, Nat.add_zero]
        small := hsmall }
  · obtain ⟨htags, body, hout, hbody, hkeyed⟩ := h.serialize_inv hempty hser
    have hout_len : out.length = (strHead n.tag v).length + body.length := by
      rw [hout, List.length_append]
    have hsmall : e < 2 ^ 31 := by
      rw [hlen']
      unfold newFromData pbBegin at hnew
      split at hnew
      · cases hnew
      · rename_i hb
        split at hb
        · cases hb
        · rename_i hlt
          exact Nat.lt_of_not_le hlt
    rw [hout] at hnew
    obtain ⟨_, sz, rfl⟩ := newFromData_strHead (by omega) hnew
    have htag' : UInt32.ofNat (n.tag.toNat % 2 ^ 29) = n.tag := htag
    rw [htag', fields_initNode h.tag] at hfields
    have hkey := h.keyFirst hkeyed hfields
    -- nothing is missing and nothing is left over
    have hval := h.val_le
    rw [← hbody hkey] at hval
    have hv : v = body.length := by omega
    have hmsg : (messageBytes (ms ++ cs)).length < 2 ^ 31 := by
      rw [← hbody hkey]
      omega
    rw [hv, List.take_length, hbody hkey] at hfields
    have hlow := shownFields_tag_lt fun f hf => str_lt_of_mem hmsg hf
    rw [hfields] at hlow
    have htags' : ∀ f ∈ ms ++ cs, 0 < f.tag.toNat ∧ f.tag.toNat < 2 ^ 29 := fun f hf =>
      ⟨Nat.pos_of_ne_zero fun h0 => htags f hf (UInt32.toNat_inj.mp h0), hlow f hf⟩
    rw [shownFields_messageBytes
      (fun f hf => fieldOk_of_mem hmsg hf (htags' f hf).1 (htags' f hf).2) hmsg] at hfields
    exact
      { tag := tag_lt_of_low htag'
        key := hkey
        tags := htags'
        order := hfields
        val_sz := by rw [← hbody hkey]; exact hv
        sz := by rw [← length_strHead]; omega
        small := hsmall }

/-- And then it is written back. -/
theorem Stale.writesBack (h : Stale n ms cs v e) (hx : Exact n ms cs v e) :
    WritesBack n (ms ++ cs) := by
  have htag0 : 0 < n.tag.toNat := Nat.pos_of_ne_zero fun h0 => h.tag (UInt32.toNat_inj.mp h0)
  have htags : ∀ f ∈ ms ++ cs, f.tag ≠ 0 := fun f hf h0 => by
    have := (hx.tags f hf).1
    rw [h0] at this
    exact absurd this (by decide)
  have hsz : KnvNode.evaluateSize n =
      (((⟨n.tag, .string (messageBytes (ms ++ cs))⟩ : PbField).size : Int),
        ((messageBytes (ms ++ cs)).length : Int)) := by
    rw [h.evaluateSize, hx.sz, hx.val_sz]
    rfl
  have hm := puts_of_shown h.metalist fun f hf => htags f (List.mem_append_left cs hf)
  have hc := puts_of_shown h.childlist fun f hf => htags f (List.mem_append_right ms hf)
  have hsmall : (⟨n.tag, .string (messageBytes (ms ++ cs))⟩ : PbField).size < 2 ^ 31 := by
    have := hx.small
    rw [hx.sz, hx.val_sz] at this
    exact this
  have hmsg : (messageBytes (ms ++ cs)).length < 2 ^ 31 := Nat.lt_of_le_of_lt str_le_size hsmall
  have hwrites : Writes n ⟨n.tag, .string (messageBytes (ms ++ cs))⟩ := by
    by_cases hempty : ms ++ cs = []
    · have hshown : Shown n ⟨n.tag, .string []⟩ :=
        ⟨rfl, h.val, by rw [h.isFolded]; exact decide_eq_true hempty⟩
      refine ⟨?_, by rw [hsz]⟩
      rw [hempty]
      exact hshown.puts h.tag
    · have hfold : n.isFolded = false := by rw [h.isFolded]; exact decide_eq_false hempty
      exact ⟨⟨rfl, (serialize_node h.tag hfold hm hc hx.key hsz).2⟩, by rw [hsz]⟩
  refine ⟨_, _, hwrites.serializeString, newFromData_fieldBytes hsmall htag0 hx.tag, rfl, ?_⟩
  show List.map view ((initNode n.tag (.string (messageBytes (ms ++ cs))) true _ false).fields false) = _
  rw [fields_initNode h.tag, shownFields_messageBytes _ hmsg, hx.order]
  exact fun f hf => fieldOk_of_mem hmsg hf (hx.tags f hf).1 (hx.tags f hf).2

/-- **Exactly then.** -/
theorem stale_writesBack_iff (h : Stale n ms cs v e) :
    WritesBack n (ms ++ cs) ↔ Exact n ms cs v e := ⟨h.exact, h.writesBack⟩

end Stale

end KnvNode

end MysqlProxy
