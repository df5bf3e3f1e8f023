/-
  Building a message field by field and writing it.

  `Built n ms cs` says that a root node stands for the message with the metas `ms` and the children
  `cs`: the lists hold them, the cached sizes are right, and a key is also the first meta.
  `NewTree` makes such a node with no fields, every setter of a NEW field adds one
  (`built_setKey`, `built_setMeta`, `built_setChild`), and `Serialize` writes exactly these fields
  into any buffer that is long enough (`serialize_built`): the size evaluator is never wrong.
-/
import MysqlProxy.Knv.Node
import Mathlib.Data.List.Forall2

namespace MysqlProxy

namespace KnvNode

/-! ## Flat nodes -/

/-- A flat node that stands for a field, with its size evaluated. -/
structure Stands (m : KnvNode) (f : PbField) : Prop where
  tag : m.tag = f.tag
  val : m.val = f.val
  flat : m.isFlat = true
  size : m.eval_sz = f.size

/-- A list of nodes for a list of fields. -/
abbrev Hold (l : List KnvNode) (fs : List PbField) : Prop := List.Forall₂ Stands l fs

theorem isFlat_of_nothing {m : KnvNode} (h : m.child_num = none ∨ m.child_num = some 0)
    (hl : m.metalist = []) : m.isFlat = true := by
  unfold isFlat
  rcases h with h | h
  · rw [h]; simp
  · rw [h, hl]; simp

/-- A new node has nothing below it. -/
theorem initNode_child_num (tag : UInt32) (val : FieldVal) (sz : Nat) (no_key : Bool) :
    (initNode tag val true sz no_key).child_num = none ∨
      (initNode tag val true sz no_key).child_num = some 0 := by
  unfold initNode
  simp only [if_true]
  split
  · cases no_key with
    | true => exact .inl rfl
    | false =>
      show (if _ then _ else _) = _ ∨ _
      cases (keyOfValue val.str).2 with
      | true => exact .inl rfl
      | false => exact .inr rfl
  · exact .inr rfl

/-- A new node stands for its field, be its size evaluated or measured. -/
theorem initNode_stands (f : PbField) {sz : Nat} (hsz : sz = 0 ∨ sz = f.size) (no_key : Bool) :
    Stands (initNode f.tag f.val true sz no_key) f where
  tag := rfl
  val := rfl
  flat := isFlat_of_nothing (initNode_child_num f.tag f.val sz no_key) rfl
  size := by
    have hpos := f.size_pos
    show (if true = true then (if 0 < sz then (sz : Int) else pbEvalFieldLength f.tag f.val) else 0) = _
    rw [if_pos rfl]
    rcases hsz with h | h
    · rw [h]; rfl
    · rw [h, if_pos hpos]

/-- A size that was evaluated is not evaluated again. -/
theorem evaluateSize_cached {n : KnvNode} (h : 0 ≤ n.eval_sz) :
    evaluateSize n = (n.eval_sz, n.eval_val_sz) := by
  obtain ⟨d, metalist, childlist⟩ := n
  rw [evaluateSize]
  exact if_pos h

theorem Stands.evaluateSize {m : KnvNode} {f : PbField} (h : Stands m f) :
    (evaluateSize m).1 = f.size := by
  rw [evaluateSize_cached (by rw [h.size]; omega), h.size]

/-- A flat node is written as its field. -/
theorem Stands.serialize {m : KnvNode} {f : PbField} (h : Stands m f) (htag : f.tag ≠ 0) {len : Nat}
    (hlen : f.size ≤ len) : serialize m len true = .ok (fieldBytes f.tag f.val) := by
  obtain ⟨d, ms, cs⟩ := m
  have ht : d.tag = f.tag := h.tag
  have hv : d.val = f.val := h.val
  have hfold : (KnvNode.mk d ms cs).isFolded = true := by
    unfold isFolded
    rw [h.flat]
    rfl
  have hroom : (fieldBytes f.tag f.val).length ≤ (PbBuff.mk [] len).left := by
    rw [length_fieldBytes]
    exact hlen
  rw [KnvNode.serialize]
  simp only [hfold, ht, hv, htag, if_true, if_false, pure_bind]
  rw [pbAddFieldVal_eq hroom]
  rfl

/-- A flat node gives its string back. -/
theorem getStrVal_stands {m : KnvNode} {f : PbField} (h : Stands m f) (htag : f.tag ≠ 0) :
    m.getStrVal = f.val.str := by
  unfold getStrVal fold
  have hfold : m.isFolded = true := by
    unfold isFolded
    rw [h.flat]
    rfl
  rw [if_neg (by rw [h.tag]; exact htag), if_pos hfold]
  show m.val.str = _
  rw [h.val]

/-- The node `m`, flat or not, is written as the field `f`. -/
structure Puts (m : KnvNode) (f : PbField) : Prop where
  tag : m.tag = f.tag
  bytes : ∀ len, f.size ≤ len → serialize m len true = .ok (fieldBytes f.tag f.val)

/-- And its size says so. -/
structure Writes (m : KnvNode) (f : PbField) : Prop extends Puts m f where
  size : (evaluateSize m).1 = f.size

theorem Stands.writes {m : KnvNode} {f : PbField} (h : Stands m f) (htag : f.tag ≠ 0) :
    Writes m f :=
  ⟨⟨h.tag, fun _ hlen => h.serialize htag hlen⟩, h.evaluateSize⟩

theorem Hold.writes {l : List KnvNode} {fs : List PbField} (h : Hold l fs)
    (htag : ∀ f ∈ fs, f.tag ≠ 0) : List.Forall₂ Writes l fs := by
  induction h with
  | nil => exact .nil
  | @cons m f l fs hm _ ih =>
    exact .cons (hm.writes (htag f List.mem_cons_self))
      (ih fun g hg => htag g (List.mem_cons_of_mem f hg))

theorem puts_of_writes {l : List KnvNode} {fs : List PbField} (h : List.Forall₂ Writes l fs) :
    List.Forall₂ Puts l fs := h.imp fun _ _ hm => hm.toPuts

/-- A list of nodes is appended field by field. -/
theorem serializeList_puts (code : Int) {len : Nat} {l : List KnvNode} {fs : List PbField}
    (h : List.Forall₂ Puts l fs) :
    ∀ out : List UInt8, out.length + (messageBytes fs).length ≤ len →
      serializeList l false out len code = .ok (out ++ messageBytes fs) := by
  induction h with
  | nil =>
    intro out _
    rw [serializeList]
    show Except.ok out = Except.ok (out ++ [])
    rw [List.append_nil]
  | @cons m f l fs hm _ ih =>
    intro out hlen
    rw [messageBytes_cons, List.length_append, length_fieldBytes] at hlen
    have hf : pbEvalFieldLength f.tag f.val = f.size := rfl
    have hfit : f.size ≤ len - out.length := by omega
    rw [serializeList, if_neg Bool.false_ne_true, hm.bytes _ hfit]
    show serializeList l false (out ++ fieldBytes f.tag f.val) len code = _
    rw [ih _ (by rw [List.length_append, length_fieldBytes]; omega), messageBytes_cons,
      List.append_assoc]

/-- The sum of the sizes. -/
theorem evaluateSizes_writes {l : List KnvNode} {fs : List PbField} (h : List.Forall₂ Writes l fs) :
    evaluateSizes l false = (messageBytes fs).length := by
  induction h with
  | nil => rfl
  | @cons m f l fs hm _ ih =>
    rw [evaluateSizes, if_neg Bool.false_ne_true, hm.size, ih, messageBytes_cons, List.length_append,
      length_fieldBytes]
    rfl

/-! ## Nodes with fields -/

section Nodes

variable {n : KnvNode} {ms cs : List PbField}

/-- The member `key`, if it is written, is the first of the metas. -/
def KeyFirst (n : KnvNode) (ms : List PbField) : Prop :=
  n.writesKey = true → ∃ f ms', ms = f :: ms' ∧ f.tag = 1 ∧ f.val = n.key.getValue

/-- The key and the metas behind it are the fields of `ms`, whatever was written before. -/
theorem serialize_metas (hm : List.Forall₂ Puts n.metalist ms) (hkey : KeyFirst n ms)
    (len : Nat) (pre : List UInt8) (hlen : pre.length + (messageBytes ms).length ≤ len) :
    ∃ b, n.writeKey ⟨pre, len - pre.length⟩ = .ok b ∧
      serializeList n.metalist n.skipsFirst b.out len (-8) = .ok (pre ++ messageBytes ms) := by
  unfold writeKey skipsFirst
  by_cases hw : n.writesKey = true
  · -- the first meta is the key: it is written from the member and then skipped
    obtain ⟨f, ms', rfl, hf, hval⟩ := hkey hw
    obtain ⟨m, l, hm, hl, hml⟩ := List.forall₂_cons_right_iff.mp hm
    have hfirst : firstIsKey n.metalist = true := by
      rw [hml]
      show decide (m.tag = 1) = true
      rw [hm.tag, hf]
      rfl
    rw [messageBytes_cons, List.length_append] at hlen
    rw [if_pos hw, hw, hfirst, ← hval, ← hf, pbAddFieldVal_eq (by show _ ≤ len - pre.length; omega)]
    refine ⟨_, rfl, ?_⟩
    rw [hml, Bool.and_self, serializeList, if_pos rfl]
    show serializeList l false (pre ++ fieldBytes f.tag f.val) len (-8) = _
    rw [serializeList_puts _ hl _ (by rw [List.length_append]; omega), messageBytes_cons,
      List.append_assoc]
  · rw [if_neg hw, Bool.eq_false_of_not_eq_true hw, Bool.false_and]
    exact ⟨_, rfl, serializeList_puts _ hm _ hlen⟩

theorem messageBytes_append (fs gs : List PbField) :
    messageBytes (fs ++ gs) = messageBytes fs ++ messageBytes gs := List.flatMap_append

/-- `pb_add_string_head` with enough room. -/
theorem pbAddStringHead_eq {b : PbBuff} {tag : UInt32} {size : Nat} {head : List UInt8}
    (hhead : head = vintBytes (tagWord .string tag) ++ vintBytes (UInt64.ofNat size))
    (h : head.length ≤ b.left) : pbAddStringHead b tag size = .ok (b.push head) := by
  subst hhead
  rw [List.length_append] at h
  unfold pbAddStringHead pbAddTag pbAddVint
  rw [pbAdd_ok (by omega), orFail_ok]
  exact pbAdd_push h

/-- **A node with fields is written as these fields**, with or without a header, into any buffer that
    is long enough, if its size is right. -/
theorem serialize_node (htag : n.tag ≠ 0) (hfold : n.isFolded = false)
    (hm : List.Forall₂ Puts n.metalist ms) (hc : List.Forall₂ Puts n.childlist cs)
    (hkey : KeyFirst n ms)
    (hsz : evaluateSize n = (((⟨n.tag, .string (messageBytes (ms ++ cs))⟩ : PbField).size : Int),
      ((messageBytes (ms ++ cs)).length : Int))) :
    (∀ len, (messageBytes (ms ++ cs)).length ≤ len →
      serialize n len false = .ok (messageBytes (ms ++ cs))) ∧
    ∀ len, (⟨n.tag, .string (messageBytes (ms ++ cs))⟩ : PbField).size ≤ len →
      serialize n len true = .ok (fieldBytes n.tag (.string (messageBytes (ms ++ cs)))) := by
  -- what is written behind the header, and the test at the end
  have hbody : ∀ (len : Nat) (pre : List UInt8),
      pre.length + (messageBytes (ms ++ cs)).length ≤ len → ∃ b,
        n.writeKey ⟨pre, len - pre.length⟩ = .ok b ∧
        serializeList n.metalist n.skipsFirst b.out len (-8) = .ok (pre ++ messageBytes ms) ∧
        serializeList n.childlist false (pre ++ messageBytes ms) len (-9) =
          .ok (pre ++ messageBytes (ms ++ cs)) := by
    intro len pre hlen
    rw [messageBytes_append, List.length_append] at hlen
    obtain ⟨b, hb, hmetas⟩ := serialize_metas hm hkey len pre (by omega)
    refine ⟨b, hb, hmetas, ?_⟩
    rw [serializeList_puts _ hc _ (by rw [List.length_append]; omega), messageBytes_append,
      List.append_assoc]
  obtain ⟨d, metalist, childlist⟩ := n
  have hd0 : d.tag ≠ 0 := htag
  constructor
  · intro len hlen
    obtain ⟨b, hb, hmetas, hchildren⟩ := hbody len [] (by simpa using hlen)
    rw [List.nil_append] at hmetas hchildren
    rw [KnvNode.serialize]
    simp only [hfold, hd0, hsz, if_false, Bool.false_eq_true, pure_bind]
    rw [show (⟨[], len⟩ : PbBuff) = ⟨[], len - ([] : List UInt8).length⟩ from rfl, hb]
    show (serializeList metalist _ b.out len (-8) >>= _) = _
    rw [hmetas]
    show (serializeList childlist false (messageBytes ms) len (-9) >>= _) = _
    rw [hchildren]
    exact if_neg (not_not_intro rfl)
  · intro len hlen
    generalize hhead : vintBytes (tagWord .string d.tag) ++
      vintBytes (UInt64.ofNat (messageBytes (ms ++ cs)).length) = head
    have hfield : fieldBytes d.tag (.string (messageBytes (ms ++ cs))) =
        head ++ messageBytes (ms ++ cs) := by
      rw [← hhead, fieldBytes, List.append_assoc]
      rfl
    have hsize : (⟨d.tag, .string (messageBytes (ms ++ cs))⟩ : PbField).size =
        head.length + (messageBytes (ms ++ cs)).length := by
      rw [PbField.size, ← length_fieldBytes, hfield, List.length_append]
    have hlen' : head.length + (messageBytes (ms ++ cs)).length ≤ len := by
      rw [← hsize]
      exact hlen
    obtain ⟨b, hb, hmetas, hchildren⟩ := hbody len head hlen'
    have hput : pbAddStringHead ⟨[], len⟩ d.tag (messageBytes (ms ++ cs)).length =
        .ok ⟨head, len - head.length⟩ :=
      pbAddStringHead_eq hhead.symm (by show _ ≤ len; omega)
    rw [KnvNode.serialize]
    simp only [hfold, hd0, hsz, if_false, if_true, Bool.false_eq_true, pure_bind, Int.toNat_natCast]
    rw [hput]
    show (KnvNode.writeKey _ _ >>= _) = _
    rw [hb]
    show (serializeList metalist _ b.out len (-8) >>= _) = _
    rw [hmetas]
    show (serializeList childlist false (head ++ messageBytes ms) len (-9) >>= _) = _
    rw [hchildren]
    have hdone : ((head ++ messageBytes (ms ++ cs)).length : Int) =
        ((⟨d.tag, .string (messageBytes (ms ++ cs))⟩ : PbField).size : Int) := by
      rw [List.length_append, hsize]
    show (if _ then _ else _) = _
    rw [if_neg (not_not_intro hdone), hfield]
    rfl

end Nodes

/-! ## Roots under construction -/

/-- The root `n` is expanded to the metas `ms` and the children `cs`. -/
structure Shaped (n : KnvNode) (ms cs : List PbField) : Prop where
  tag : n.tag ≠ 0
  no_key : n.no_key = false
  expanded : n.child_num = some cs.length
  metalist : Hold n.metalist ms
  childlist : Hold n.childlist cs
  metas : ∀ t, (∀ f ∈ ms, f.tag.toNat ≠ t) → n.metalist = [] ∨ n.metas t = none
  key : n.key.val ≠ [] → ∃ f ms', ms = f :: ms' ∧ f.tag = 1 ∧ f.val = n.key.getValue

/-- The root `n` stands for the message with the metas `ms` and the children `cs`. -/
structure Built (n : KnvNode) (ms cs : List PbField) : Prop extends Shaped n ms cs where
  val : n.val = .string []
  val_sz : n.eval_val_sz = ((ms ++ cs).map PbField.size).sum
  sz : n.eval_sz = pbEvalStringLength n.tag ((ms ++ cs).map PbField.size).sum

theorem Built.innerExpand {n : KnvNode} {ms cs : List PbField} (h : Built n ms cs) (p k : Bool) :
    n.innerExpand p k = n := by
  unfold KnvNode.innerExpand
  rw [if_pos]
  rw [h.expanded]
  exact fun h => nomatch h

theorem Built.isString {n : KnvNode} {ms cs : List PbField} (h : Built n ms cs) :
    n.isString = true := by
  unfold KnvNode.isString
  rw [h.val]
  rfl

/-- `NewTree` starts with no fields. -/
theorem built_newTree {tag : UInt32} (h : tag ≠ 0) :
    ∃ n, newTree tag none = .ok n ∧ n.tag = tag ∧ Built n [] [] := by
  refine ⟨initNode tag (.string []) true 0 false, ?_, rfl, ?_⟩
  · unfold newTree newNode
    simp only [if_neg h]
    rfl
  · exact
      { tag := h
        val := rfl
        no_key := rfl
        expanded := rfl
        metalist := .nil
        childlist := .nil
        metas := fun t _ => .inl rfl
        key := fun hne => absurd rfl hne
        val_sz := rfl
        sz := rfl }

/-- **The end of an edit**: when the lists have one field more than the sizes account for, the sizes
    are brought up to date. -/
theorem built_edited {n : KnvNode} {ms cs fs : List PbField} {f : PbField} (h : Shaped n ms cs)
    (hv : n.eval_val_sz = (fs.map PbField.size).sum)
    (hs : n.eval_sz = pbEvalStringLength n.tag (fs.map PbField.size).sum)
    (hperm : (f :: fs).Perm (ms ++ cs)) :
    (edited n f.size).1.tag = n.tag ∧ Built (edited n f.size).1 ms cs := by
  have hpos := f.size_pos
  have hsum : f.size + (fs.map PbField.size).sum = ((ms ++ cs).map PbField.size).sum :=
    (hperm.map PbField.size).sum_nat
  have hnew : n.eval_val_sz + (f.size : Int) = ((ms ++ cs).map PbField.size).sum := by
    rw [hv, ← hsum]
    omega
  have hed : (edited n f.size).1 =
      { n with
        eval_val_sz := n.eval_val_sz + f.size
        eval_sz := (pbEvalStringLength n.tag (n.eval_val_sz + f.size).toNat : Int)
        val := .string []
        subnode_dirty := true } := by
    unfold edited updateEvalSz
    rw [if_pos (by rw [hs]; omega), if_neg (by omega)]
    rfl
  rw [hed]
  refine ⟨rfl, ⟨⟨h.tag, h.no_key, h.expanded, h.metalist, h.childlist, h.metas, h.key⟩, rfl, hnew, ?_⟩⟩
  show ((pbEvalStringLength n.tag (n.eval_val_sz + f.size).toNat : Nat) : Int) = _
  rw [hnew]
  rfl

/-- A meta that is not there is not found. -/
theorem Built.getMeta {n : KnvNode} {ms cs : List PbField} (h : Built n ms cs) {tag : UInt32}
    (hnew : ∀ f ∈ ms, f.tag ≠ tag) : n.getMeta tag = none := by
  unfold KnvNode.getMeta
  simp only [h.innerExpand]
  split
  · rfl
  · rcases h.metas tag.toNat fun f hf he => hnew f hf (UInt32.toNat_inj.mp he) with he | he
    · exact if_pos he
    · rw [he, Option.bind_none, ite_self]

/-- `ref` is no part of what a node stands for. -/
theorem Stands.with_ref {m : KnvNode} {f : PbField} (h : Stands m f) (r : Nat) :
    Stands { m with ref := r } f :=
  ⟨h.tag, h.val, h.flat, h.size⟩

/-- A new meta hung at the end.  The key member does not change. -/
theorem Shaped.hangMeta {n m : KnvNode} {ms cs : List PbField} {f : PbField} (h : Shaped n ms cs)
    (hm : Stands m f) : Shaped (n.hangMeta m false) (ms ++ [f]) cs where
  tag := h.tag
  no_key := h.no_key
  expanded := h.expanded
  metalist := List.rel_append h.metalist (.cons (hm.with_ref n.next_ref) .nil)
  childlist := h.childlist
  metas := by
    intro t ht
    right
    show (if t = m.tag.toNat then _ else if n.metalist = [] then none else n.metas t) = none
    rw [hm.tag, if_neg fun he => ht f (by simp) he.symm]
    rcases h.metas t fun g hg => ht g (by simp [hg]) with he | he
    · rw [if_pos he]
    · rw [he, ite_self]
  key := by
    intro hne
    obtain ⟨g, ms', hms, hg⟩ := h.key hne
    exact ⟨g, ms' ++ [f], by rw [hms]; rfl, hg⟩

/-- `SetMeta` of a tag that is not there, on an expanded root. -/
theorem setMeta_new {n : KnvNode} {f : PbField} (htag : n.tag ≠ 0) (hstr : n.isString = true)
    (hexp : n.innerExpand false false = n) (hmeta : f.tag.toNat ≤ UC_MAX_META_NUM)
    (hnone : n.getMeta f.tag = none) :
    n.setMeta f.tag f.val =
      .ok (edited (n.hangMeta (initNode f.tag f.val true 0 true) (f.tag = 1)) f.size) := by
  have hm : Stands (initNode f.tag f.val true 0 true) f := initNode_stands f (.inl rfl) true
  unfold setMeta
  rw [if_neg htag, if_neg (by rw [hstr]; decide), if_neg (by omega)]
  simp only [hexp, hnone]
  rw [hm.size]

/-- **A new meta is appended.** -/
theorem built_setMeta {n : KnvNode} {ms cs : List PbField} (h : Built n ms cs) {f : PbField}
    (hnew : ∀ g ∈ ms, g.tag ≠ f.tag) (hmeta : f.tag.toNat ≤ UC_MAX_META_NUM) (hkey : f.tag ≠ 1) :
    ∃ p, n.setMeta f.tag f.val = .ok p ∧ p.1.tag = n.tag ∧ Built p.1 (ms ++ [f]) cs := by
  have hm : Stands (initNode f.tag f.val true 0 true) f := initNode_stands f (.inl rfl) true
  have hset := setMeta_new h.tag h.isString (h.innerExpand false false) hmeta (h.getMeta hnew)
  rw [decide_eq_false hkey] at hset
  have hperm : (f :: (ms ++ cs)).Perm ((ms ++ [f]) ++ cs) := by
    rw [List.append_assoc]
    exact List.perm_middle.symm
  obtain ⟨htag, hb⟩ := built_edited (h.toShaped.hangMeta hm) h.val_sz h.sz hperm
  exact ⟨_, hset, htag, hb⟩

theorem Built.metalist_nil {n : KnvNode} {cs : List PbField} (h : Built n [] cs) :
    n.metalist = [] := List.forall₂_nil_right_iff.mp h.metalist

/-- The key comes to an expanded root without metas. -/
theorem Built.hangKey {n m : KnvNode} {cs : List PbField} {s : List UInt8} (h : Built n [] cs)
    (hm : Stands m ⟨1, .string s⟩) :
    Shaped (hangMeta { n with key := ⟨.string, s⟩ } m true) [⟨1, .string s⟩] cs where
  tag := h.tag
  no_key := h.no_key
  expanded := h.expanded
  metalist := by
    show Hold ({ m with ref := n.next_ref } :: n.metalist) _
    rw [h.metalist_nil]
    exact .cons (hm.with_ref n.next_ref) .nil
  childlist := h.childlist
  metas := by
    intro t ht
    right
    show (if t = m.tag.toNat then _ else if n.metalist = [] then none else n.metas t) = none
    rw [hm.tag, if_neg fun he => ht _ List.mem_cons_self he.symm, if_pos h.metalist_nil]
  key := fun _ => ⟨_, [], rfl, rfl, rfl⟩

/-- **A key is put in front**, unless it is empty. -/
theorem built_setKey {n : KnvNode} {cs : List PbField} (h : Built n [] cs) {s : List UInt8}
    (hs : s.length < 2 ^ 16) :
    ∃ p, n.setKey (.string s) = .ok p ∧ p.1.tag = n.tag ∧
      Built p.1 (if s = [] then [] else [⟨1, .string s⟩]) cs := by
  have hinit : KnvKey.init (.string s) = ⟨.string, s⟩ := by
    rw [KnvKey.init, Nat.mod_eq_of_lt hs, List.take_length]
  -- the node with the new key member, still without the meta
  generalize hn₁ : ({ n with key := ⟨.string, s⟩ } : KnvNode) = n₁
  have htag₁ : n₁.tag = n.tag := by rw [← hn₁]
  have hexp₁ : n₁.innerExpand false false = n₁ := by
    unfold KnvNode.innerExpand
    rw [if_pos]
    rw [← hn₁]
    show n.child_num ≠ none
    rw [h.expanded]
    exact fun h => nomatch h
  have hnil₁ : n₁.metalist = [] := by rw [← hn₁]; exact h.metalist_nil
  have hnone₁ : n₁.getMeta 1 = none := by
    unfold KnvNode.getMeta
    simp only [hexp₁, hnil₁, if_true, ite_self]
  unfold setKey
  simp only [hinit, hn₁]
  by_cases hempty : s = []
  · have hrem : n₁.innerRemoveMeta 1 = .ok (n₁, 0) := by
      unfold innerRemoveMeta
      rw [if_neg (by rw [htag₁]; exact h.tag), if_neg (by decide)]
      simp only [hexp₁, hnil₁, if_true]
    rw [if_pos hempty, if_neg (not_not_intro hempty), hrem]
    refine ⟨_, rfl, htag₁, ?_⟩
    subst hn₁
    exact ⟨⟨h.tag, rfl, h.expanded, h.metalist, h.childlist, h.metas, fun hne => absurd hempty hne⟩,
      h.val, h.val_sz, h.sz⟩
  · have hval : KnvKey.getValue ⟨.string, s⟩ = .string s := rfl
    have hset := setMeta_new (n := n₁) (f := ⟨1, .string s⟩) (by rw [htag₁]; exact h.tag)
      (by rw [← hn₁]; exact h.isString) hexp₁ (show (1 : UInt32).toNat ≤ 10 by decide) hnone₁
    rw [if_neg hempty, if_pos hempty, hval, hset]
    subst hn₁
    obtain ⟨htag, hb⟩ := built_edited (h.hangKey (initNode_stands ⟨1, .string s⟩ (.inl rfl) true))
      h.val_sz h.sz (List.Perm.refl _)
    refine ⟨_, rfl, htag, ?_⟩
    exact ⟨⟨hb.tag, rfl, hb.expanded, hb.metalist, hb.childlist, hb.metas, hb.key⟩,
      hb.val, hb.val_sz, hb.sz⟩

/-- A new child hung at the end. -/
theorem Shaped.hangChild {n c : KnvNode} {ms cs : List PbField} {f : PbField} (h : Shaped n ms cs)
    (hc : Stands c f) : Shaped (n.hangChild c) ms (cs ++ [f]) where
  tag := h.tag
  no_key := h.no_key
  expanded := by
    show n.child_num.map (· + 1) = _
    rw [h.expanded, List.length_append]
    rfl
  metalist := h.metalist
  childlist := List.rel_append h.childlist (.cons (hc.with_ref n.next_ref) .nil)
  metas := h.metas
  key := h.key

/-- **A child is appended**, and read as a string no further. -/
theorem built_insertChild {n : KnvNode} {ms cs : List PbField} (h : Built n ms cs) {f : PbField}
    (htag : f.tag ≠ 0) :
    ∃ p, n.insertChild f.tag f.val = .ok p ∧ p.1.tag = n.tag ∧ Built p.1 ms (cs ++ [f]) := by
  have hc : Stands (initNode f.tag f.val true 0 false) f := initNode_stands f (.inl rfl) false
  have hins : n.insertChild f.tag f.val =
      .ok (edited (n.hangChild (initNode f.tag f.val true 0 false)) f.size) := by
    unfold insertChild newNode
    simp only [if_neg htag, if_neg h.tag, h.isString, h.innerExpand]
    rfl
  have hperm : (f :: (ms ++ cs)).Perm (ms ++ (cs ++ [f])) := by
    rw [← List.append_assoc]
    exact (List.perm_append_singleton f (ms ++ cs)).symm
  obtain ⟨htag', hb⟩ := built_edited (h.toShaped.hangChild hc) h.val_sz h.sz hperm
  exact ⟨_, hins, htag', hb⟩

/-- The first child comes through `SetChild`, too. -/
theorem built_setChild {n : KnvNode} {ms : List PbField} (h : Built n ms []) {f : PbField}
    (htag : f.tag ≠ 0) :
    ∃ p, n.setChild f.tag f.val = .ok p ∧ p.1.tag = n.tag ∧ Built p.1 ms [f] := by
  have hnone : n.findChildByTag f.tag = none := by
    unfold findChildByTag
    simp only [h.innerExpand, h.expanded, if_neg h.tag]
    rfl
  obtain ⟨p, hins, htag', hb⟩ := built_insertChild h htag
  refine ⟨p, ?_, htag', hb⟩
  unfold setChild
  rw [hnone, hins]
  rfl

/-! ## Writing what was built -/

theorem Built.evaluateSize {n : KnvNode} {ms cs : List PbField} (h : Built n ms cs) :
    evaluateSize n = (n.eval_sz, n.eval_val_sz) :=
  evaluateSize_cached (by rw [h.sz]; omega)

/-- A root with a field has to be written field by field. -/
theorem Built.isFolded {n : KnvNode} {ms cs : List PbField} (h : Built n ms cs)
    (hne : ms ++ cs ≠ []) : n.isFolded = false := by
  have hstr : n.str = [] := by
    unfold KnvNode.str
    rw [h.val]
    rfl
  have hflat : n.isFlat = false := by
    unfold isFlat
    rw [h.isString, h.expanded]
    cases cs with
    | cons c cs => simp
    | nil =>
      cases ms with
      | nil => exact absurd rfl hne
      | cons f ms =>
        obtain ⟨m, l, _, _, hl⟩ := List.forall₂_cons_right_iff.mp h.metalist
        rw [hl]
        simp
  unfold KnvNode.isFolded
  rw [hflat, hstr]
  simp

/-- **What was built is what is written**: without its header, the root is the concatenation of its
    fields, and any buffer that holds them will do. -/
theorem serialize_built {n : KnvNode} {ms cs : List PbField} (h : Built n ms cs)
    (hne : ms ++ cs ≠ []) (htag : ∀ f ∈ ms ++ cs, f.tag ≠ 0) {len : Nat}
    (hlen : (messageBytes (ms ++ cs)).length ≤ len) :
    serialize n len false = .ok (messageBytes (ms ++ cs)) := by
  have hkey : KeyFirst n ms := by
    intro hw
    rw [writesKey, Bool.and_eq_true] at hw
    exact h.key (of_decide_eq_true hw.2)
  have hsz : evaluateSize n = (((⟨n.tag, .string (messageBytes (ms ++ cs))⟩ : PbField).size : Int),
      ((messageBytes (ms ++ cs)).length : Int)) := by
    rw [h.evaluateSize, h.sz, h.val_sz, ← length_messageBytes]
    rfl
  exact (serialize_node h.tag (h.isFolded hne)
    (puts_of_writes (Hold.writes h.metalist fun f hf => htag f (List.mem_append_left cs hf)))
    (puts_of_writes (Hold.writes h.childlist fun f hf => htag f (List.mem_append_right ms hf)))
    hkey hsz).1 len hlen

end KnvNode

end MysqlProxy
