/-
  The sizes that nodes keep.

  A node keeps a size for its field: what the field took when it was received, or what the edits
  have made of that.  `Serialize` writes the field anew, and fails if what it has written is not as
  long.

  * `Keeps m p`: the node `m` is the field `p.1`, and keeps `p.2` bytes for it, which are enough.
    If they are exactly enough it is written, and in any case nothing else is.
  * `KeepsAll n ms cs v e`: an expanded node with lists that keep the fields `ms` and `cs`.  It
    keeps `v` bytes for its value and `e` for the whole field, which are enough for the lists.
  * Every edit takes this along: a child more (`KeepsAll.insertNode`), the children with a tag less
    (`KeepsAll.removeChildrenByTag`), another number in a child (`KeepsAll.setLast`), and a child
    that was edited itself (`KeepsAll.replaceChild`).
  * `KeepsAll.keeps`: such a node keeps its own field, so that the same holds a level higher.
-/
import MysqlProxy.Knv.Opened
import MysqlProxy.Knv.RootEdit

namespace MysqlProxy

namespace KnvNode

/-- **The node `m` is the field `p.1`, and keeps `p.2` bytes for it.** -/
structure Keeps (m : KnvNode) (p : PbField × Nat) : Prop where
  tag : m.tag = p.1.tag
  size : (evaluateSize m).1 = p.2
  le : p.1.size ≤ p.2
  inv : ∀ len out, p.2 ≤ len → serialize m len true = .ok out → out = fieldBytes p.1.tag p.1.val
  bytes : p.1.tag ≠ 0 → p.2 = p.1.size → ∀ len, p.1.size ≤ len →
    serialize m len true = .ok (fieldBytes p.1.tag p.1.val)

/-- An expanded node that keeps the fields of its lists. -/
structure KeepsAll (n : KnvNode) (ms cs : List (PbField × Nat)) (v e : Nat) : Prop where
  tag : n.tag ≠ 0
  isString : n.isString = true
  indexed : Indexed n
  metas : MetasOk n
  metalist : List.Forall₂ Keeps n.metalist ms
  childlist : List.Forall₂ Keeps n.childlist cs
  key : KeyFirst n (ms.map Prod.fst)
  val_sz : n.eval_val_sz = v
  sz : n.eval_sz = e
  taken_le : taken (ms ++ cs) ≤ v
  le : pbEvalStringLength n.tag v ≤ e

/-! ## Nodes that keep their field -/

theorem Writes.keeps {m : KnvNode} {f : PbField} (h : Writes m f) : Keeps m (sized f) where
  tag := h.tag
  size := h.size
  le := Nat.le_refl _
  inv := by
    intro len out hlen hs
    rw [h.bytes len hlen] at hs
    exact (Except.ok.inj hs).symm
  bytes := fun _ _ => h.bytes

theorem Keeps.writes {m : KnvNode} {p : PbField × Nat} (h : Keeps m p) (htag : p.1.tag ≠ 0)
    (hsz : p.2 = p.1.size) : Writes m p.1 :=
  ⟨⟨h.tag, h.bytes htag hsz⟩, by rw [h.size, hsz]⟩

/-- A folded node. -/
theorem Shown.keeps {m : KnvNode} {p : PbField × Nat} (h : Shown m p.1)
    (hsz : (KnvNode.evaluateSize m).1 = p.2) (hle : p.1.size ≤ p.2) : Keeps m p where
  tag := h.tag
  size := hsz
  le := hle
  inv := fun _ _ _ hs => (h.serialize_inv hs).2
  bytes := fun htag _ => (h.puts htag).bytes

/-- A field that was read. -/
theorem OfField.keeps {k : Bool} {m : KnvNode} {p : PbField × Nat} (h : OfField k m p)
    (hle : p.1.size ≤ p.2) : Keeps m p :=
  h.shown.keeps (h.evaluateSize (Nat.lt_of_lt_of_le p.1.size_pos hle)) hle

/-- A node that is written alike. -/
theorem Keeps.alike {m m' : KnvNode} {p : PbField × Nat} (h : Keeps m p) (htag : m'.tag = m.tag)
    (hs : SameWriting m m') : Keeps m' p where
  tag := htag.trans h.tag
  size := by rw [hs.1, h.size]
  le := h.le
  inv := by
    intro len out hlen hw
    rw [hs.2] at hw
    exact h.inv len out hlen hw
  bytes := by
    intro h0 hsz len hlen
    rw [hs.2]
    exact h.bytes h0 hsz len hlen

theorem Keeps.with_ref {m : KnvNode} {p : PbField × Nat} (h : Keeps m p) (r : Nat) :
    Keeps { m with ref := r } p := by
  refine h.alike rfl ⟨?_, fun len header => ?_⟩
  · obtain ⟨d, ms, cs⟩ := m
    rw [evaluateSize, evaluateSize]
    rfl
  · obtain ⟨d, ms, cs⟩ := m
    have hsz : evaluateSize ⟨{ d with ref := r }, ms, cs⟩ = evaluateSize ⟨d, ms, cs⟩ := by
      rw [evaluateSize, evaluateSize]
      rfl
    show serialize ⟨{ d with ref := r }, ms, cs⟩ len header = serialize ⟨d, ms, cs⟩ len header
    rw [serialize, serialize, hsz]
    rfl

/-! ## Lists of such nodes -/

theorem evaluateSizes_keeps {l : List KnvNode} {ps : List (PbField × Nat)}
    (h : List.Forall₂ Keeps l ps) : evaluateSizes l false = taken ps := by
  induction h with
  | nil => rfl
  | @cons m p l ps hm _ ih =>
    rw [evaluateSizes, if_neg Bool.false_ne_true, ih, hm.size, taken, taken, List.map_cons,
      List.sum_cons]
    exact (Nat.cast_add _ _).symm

theorem map_tag_keeps {l : List KnvNode} {ps : List (PbField × Nat)} (h : List.Forall₂ Keeps l ps) :
    l.map (fun m => m.tag) = ps.map fun p => p.1.tag := by
  induction h with
  | nil => rfl
  | @cons m p l ps hm _ ih => rw [List.map_cons, List.map_cons, ih, hm.tag]

theorem needed_le_taken_keeps {l : List KnvNode} {ps : List (PbField × Nat)}
    (h : List.Forall₂ Keeps l ps) : needed ps ≤ taken ps := by
  refine needed_le_taken fun p hp => ?_
  obtain ⟨m, _, hm⟩ := forall₂_mem h.flip hp
  exact hm.le

theorem length_messageBytes_needed (ps : List (PbField × Nat)) :
    (messageBytes (ps.map Prod.fst)).length = needed ps := by
  induction ps with
  | nil => rfl
  | cons p ps ih =>
    rw [List.map_cons, messageBytes_cons, List.length_append, ih, length_fieldBytes]
    rfl

/-- Whatever is written of a list is the fields it keeps. -/
theorem serializeList_keeps_inv {l : List KnvNode} {ps : List (PbField × Nat)}
    (h : List.Forall₂ Keeps l ps) {len : Nat} {code : Int} {out out' : List UInt8}
    (hroom : out.length + taken ps ≤ len) (hs : serializeList l false out len code = .ok out') :
    out' = out ++ messageBytes (ps.map Prod.fst) := by
  induction h generalizing out with
  | nil =>
    rw [serializeList] at hs
    cases hs
    exact (List.append_nil _).symm
  | @cons m p l ps hm _ ih =>
    have htaken : taken (p :: ps) = p.2 + taken ps := List.sum_cons
    have hle := hm.le
    have hsize : (fieldBytes p.1.tag p.1.val).length = p.1.size := length_fieldBytes _ _
    rw [serializeList, if_neg Bool.false_ne_true] at hs
    cases hw : serialize m (len - out.length) true with
    | error e => rw [hw] at hs; cases hs
    | ok bytes =>
      rw [hw] at hs
      obtain rfl := hm.inv _ _ (by omega) hw
      rw [ih (by rw [List.length_append]; omega) hs, List.map_cons,
        messageBytes_cons, List.append_assoc]

/-- A list that keeps exactly what its fields need is written. -/
theorem puts_of_keeps {l : List KnvNode} {ps : List (PbField × Nat)} (h : List.Forall₂ Keeps l ps)
    (htag : ∀ p ∈ ps, p.1.tag ≠ 0) (hsz : ∀ p ∈ ps, p.2 = p.1.size) :
    List.Forall₂ Puts l (ps.map Prod.fst) := by
  induction h with
  | nil => exact .nil
  | @cons m p l ps hm _ ih =>
    exact .cons (hm.writes (htag p List.mem_cons_self) (hsz p List.mem_cons_self)).toPuts
      (ih (fun q hq => htag q (List.mem_cons_of_mem p hq))
        fun q hq => hsz q (List.mem_cons_of_mem p hq))

/-- Only a node with a tag is written. -/
theorem serialize_tag_ne {m : KnvNode} {len : Nat} {header : Bool} {out : List UInt8}
    (hs : serialize m len header = .ok out) : m.tag ≠ 0 := by
  obtain ⟨d, ms, cs⟩ := m
  intro h0
  replace h0 : d.tag = 0 := h0
  rw [serialize] at hs
  simp only [h0, if_true] at hs
  cases hs

theorem serializeList_tags {l : List KnvNode} {len : Nat} {code : Int} {out out' : List UInt8}
    (hs : serializeList l false out len code = .ok out') : ∀ m ∈ l, m.tag ≠ 0 := by
  induction l generalizing out with
  | nil => exact fun m hm => absurd hm List.not_mem_nil
  | cons m l ih =>
    rw [serializeList, if_neg Bool.false_ne_true] at hs
    cases hw : serialize m (len - out.length) true with
    | error e => rw [hw] at hs; cases hs
    | ok bytes =>
      rw [hw] at hs
      intro x hx
      rcases List.mem_cons.mp hx with rfl | hx
      · exact serialize_tag_ne hw
      · exact ih hs x hx

/-! ## What an expanded node has written -/

theorem fieldBytes_string (tag : UInt32) (s : List UInt8) :
    fieldBytes tag (.string s) = strHead tag s.length ++ s := by
  rw [fieldBytes, strHead, List.append_assoc]
  rfl

theorem forall₂_concat {α β : Type*} {R : α → β → Prop} {l : List α} {l' : List β} {a : α} {b : β}
    (h : List.Forall₂ R (l ++ [a]) (l' ++ [b])) : List.Forall₂ R l l' ∧ R a b := by
  have hrev := List.forall₂_reverse_iff.mpr h
  rw [List.reverse_append, List.reverse_append] at hrev
  cases hrev with
  | cons hab hrest => exact ⟨List.forall₂_reverse_iff.mp hrest, hab⟩

theorem forall₂_imp_of_mem {α β : Type*} {R S : α → β → Prop} {l : List α} {l' : List β}
    (h : List.Forall₂ R l l') (hrs : ∀ a, ∀ b ∈ l', R a b → S a b) : List.Forall₂ S l l' := by
  induction h with
  | nil => exact .nil
  | @cons a b l l' hab _ ih =>
    exact .cons (hrs a b List.mem_cons_self hab)
      (ih fun a b hb => hrs a b (List.mem_cons_of_mem _ hb))

section KeepsAll

variable {n : KnvNode} {ms cs : List (PbField × Nat)} {v e : Nat} {tag : UInt32} {j : UInt64}

theorem KeepsAll.evaluateSize (h : KeepsAll n ms cs v e) :
    evaluateSize n = ((e : Int), (v : Int)) := by
  rw [evaluateSize_cached (by rw [h.sz]; omega), h.sz, h.val_sz]

theorem KeepsAll.needed_le (h : KeepsAll n ms cs v e) : needed (ms ++ cs) ≤ taken (ms ++ cs) :=
  needed_le_taken_keeps (List.rel_append h.metalist h.childlist)

/-- The key, if it is written, and the metas. -/
theorem KeepsAll.metas_inv (h : KeepsAll n ms cs v e) {len : Nat} {b b' : PbBuff} {out : List UInt8}
    (hroom : b.out.length + taken ms ≤ len) (hk : n.writeKey b = .ok b')
    (hm : serializeList n.metalist n.skipsFirst b'.out len (-8) = .ok out) :
    out = b.out ++ messageBytes (ms.map Prod.fst) := by
  have hlist := h.metalist
  rw [writeKey] at hk
  rw [skipsFirst] at hm
  by_cases hw : n.writesKey = true
  · rw [if_pos hw] at hk
    rw [hw, Bool.true_and] at hm
    have hout : b'.out = b.out ++ fieldBytes 1 n.key.getValue := by
      rw [pbAddFieldVal_inv (written_inv hk)]
      rfl
    obtain ⟨f, fs, hms, hf1, hfv⟩ := h.key hw
    cases ms with
    | nil => cases hms
    | cons p ms =>
      obtain ⟨rfl, rfl⟩ := List.cons.inj hms
      obtain ⟨m, l, hmp, hl, hml⟩ := List.forall₂_cons_right_iff.mp hlist
      have htaken : taken (p :: ms) = p.2 + taken ms := List.sum_cons
      have hle := hmp.le
      have hsize : (fieldBytes 1 n.key.getValue).length = p.1.size := by
        rw [← hf1, ← hfv, length_fieldBytes]
        rfl
      -- the first meta is the key, and is left out
      have hfirst : firstIsKey (m :: l) = true := by
        show decide (m.tag = 1) = true
        rw [hmp.tag, hf1]
        rfl
      rw [hml, hfirst, serializeList, if_pos rfl] at hm
      rw [serializeList_keeps_inv hl (by rw [hout, List.length_append, hsize]; omega) hm, hout,
        List.map_cons, messageBytes_cons, hf1, hfv, List.append_assoc]
  · rw [if_neg hw] at hk
    cases hk
    rw [Bool.eq_false_of_not_eq_true hw, Bool.false_and] at hm
    exact serializeList_keeps_inv hlist hroom hm

/-- **What such a node has written are the fields of its lists**, and then nothing was kept for
    anything else. -/
theorem KeepsAll.serialize_inv (h : KeepsAll n ms cs v e) (hfold : n.isFolded = false) {len : Nat}
    {out : List UInt8} (hlen : e ≤ len) (hs : serialize n len true = .ok out) :
    out = fieldBytes n.tag (.string (messageBytes ((ms ++ cs).map Prod.fst))) ∧
      needed (ms ++ cs) = v ∧ e = pbEvalStringLength n.tag v := by
  obtain ⟨b, out₁, hk, hm, hc, hout⟩ := serialize_steps hfold hs
  have hle := h.le
  have htk := h.taken_le
  have hneed := h.needed_le
  rw [h.evaluateSize] at hk hout
  have hout' : out.length = e := Int.ofNat.inj hout
  have hsum : taken (ms ++ cs) = taken ms + taken cs := by
    rw [taken, List.map_append, List.sum_append]
    rfl
  have hhead : (PbBuff.push ⟨[], len⟩ (strHead n.tag v)).out = strHead n.tag v := List.nil_append _
  have hstr := length_strHead n.tag v
  simp only [Int.toNat_natCast] at hk
  have hms : needed ms ≤ taken ms := needed_le_taken_keeps h.metalist
  obtain rfl := h.metas_inv (by rw [hhead]; omega) hk hm
  rw [hhead] at hc
  obtain rfl := serializeList_keeps_inv h.childlist
    (by rw [List.length_append, length_messageBytes_needed]; omega) hc
  rw [List.append_assoc, ← messageBytes_append, ← List.map_append] at hout' ⊢
  rw [List.length_append, length_messageBytes_needed] at hout'
  have hv : needed (ms ++ cs) = v := by omega
  refine ⟨?_, hv, by omega⟩
  rw [fieldBytes_string, length_messageBytes_needed, hv]

/-- And every field has a tag. -/
theorem KeepsAll.tags_inv (h : KeepsAll n ms cs v e) (hfold : n.isFolded = false) {len : Nat}
    {out : List UInt8} (hs : serialize n len true = .ok out) : ∀ p ∈ ms ++ cs, p.1.tag ≠ 0 := by
  obtain ⟨b, out₁, -, hm, hc, -⟩ := serialize_steps hfold hs
  intro p hp
  rcases List.mem_append.mp hp with hp | hp
  · rw [skipsFirst] at hm
    by_cases hw : n.writesKey = true
    · -- the first meta is the key
      obtain ⟨f, fs, hms, hf1, -⟩ := h.key hw
      cases ms with
      | nil => exact absurd hp List.not_mem_nil
      | cons q ms =>
        obtain ⟨rfl, rfl⟩ := List.cons.inj hms
        obtain ⟨m, l, hmq, hl, hml⟩ := List.forall₂_cons_right_iff.mp h.metalist
        have hfirst : firstIsKey (m :: l) = true := by
          show decide (m.tag = 1) = true
          rw [hmq.tag, hf1]
          rfl
        rw [hw, hml, hfirst, Bool.and_true, serializeList, if_pos rfl] at hm
        rcases List.mem_cons.mp hp with rfl | hp
        · rw [hf1]
          decide
        · obtain ⟨x, hx, hk⟩ := forall₂_mem hl.flip hp
          rw [← hk.tag]
          exact serializeList_tags hm x hx
    · rw [Bool.eq_false_of_not_eq_true hw, Bool.false_and] at hm
      obtain ⟨x, hx, hk⟩ := forall₂_mem h.metalist.flip hp
      rw [← hk.tag]
      exact serializeList_tags hm x hx
  · obtain ⟨x, hx, hk⟩ := forall₂_mem h.childlist.flip hp
    rw [← hk.tag]
    exact serializeList_tags hc x hx

/-- **Such a node is written** if it keeps exactly what its fields need. -/
theorem KeepsAll.serialize (h : KeepsAll n ms cs v e) (hfold : n.isFolded = false)
    (htags : ∀ p ∈ ms ++ cs, p.1.tag ≠ 0) (hv : needed (ms ++ cs) = v)
    (he : e = pbEvalStringLength n.tag v) {len : Nat} (hlen : e ≤ len) :
    serialize n len true =
      .ok (fieldBytes n.tag (.string (messageBytes ((ms ++ cs).map Prod.fst)))) := by
  have hsz : ∀ p ∈ ms ++ cs, p.2 = p.1.size := by
    refine ((needed_eq_iff (fun p hp => ?_) h.taken_le).mp hv).1
    obtain ⟨m, _, hm⟩ := forall₂_mem (List.rel_append h.metalist h.childlist).flip hp
    exact hm.le
  have hbytes : (messageBytes (ms.map Prod.fst ++ cs.map Prod.fst)).length = v := by
    rw [← List.map_append, length_messageBytes_needed, hv]
  have hnode := (serialize_node h.tag hfold
    (puts_of_keeps h.metalist (fun p hp => htags p (List.mem_append_left _ hp))
      fun p hp => hsz p (List.mem_append_left _ hp))
    (puts_of_keeps h.childlist (fun p hp => htags p (List.mem_append_right _ hp))
      fun p hp => hsz p (List.mem_append_right _ hp)) h.key
    (by
      rw [h.evaluateSize, hbytes, he, ← hbytes]
      rfl)).2 len
  rw [List.map_append]
  refine hnode ?_
  show pbEvalStringLength n.tag (messageBytes (ms.map Prod.fst ++ cs.map Prod.fst)).length ≤ len
  rw [hbytes, ← he]
  exact hlen

/-! ## Edits -/

theorem KeepsAll.expanded (h : KeepsAll n ms cs v e) : n.child_num ≠ none := by
  rw [h.indexed.child_num]
  exact Option.some_ne_none _

theorem KeepsAll.innerExpand (h : KeepsAll n ms cs v e) (p k : Bool) : n.innerExpand p k = n :=
  innerExpand_expanded h.expanded p k

/-- **The end of an edit**: the lists have changed, the sizes are patched by the offset. -/
theorem KeepsAll.edited (h : KeepsAll n ms cs v e) {m : KnvNode} (hh : SameHead m n)
    (hix : Indexed m)
    (hmetas : MetasOk m) {ms' cs' : List (PbField × Nat)}
    (hm : List.Forall₂ Keeps m.metalist ms') (hc : List.Forall₂ Keeps m.childlist cs')
    (hk : KeyFirst m (ms'.map Prod.fst)) {o : Int} {w : Nat} (ho : (v : Int) + o = w)
    (hle : taken (ms' ++ cs') ≤ w) :
    KeepsAll (edited m o).1 ms' cs' w (if o = 0 then e else pbEvalStringLength n.tag w) := by
  have hsz : m.eval_sz = e := hh.eval_sz.trans h.sz
  have hval : m.eval_val_sz = v := hh.eval_val_sz.trans h.val_sz
  have hset : (KnvNode.edited m o).1 = (m.updateEvalSz o).1.setValueDirty := by
    rw [KnvNode.edited, if_pos (by rw [hsz]; omega)]
  have hupd : m.updateEvalSz o = if o = 0 then (m, 0) else
      ({ m with eval_val_sz := w, eval_sz := (pbEvalStringLength n.tag w : Nat) },
        (pbEvalStringLength n.tag w : Int) - e) := by
    rw [updateEvalSz, hval, hsz, hh.tag, ho]
    rfl
  rw [hset, hupd]
  by_cases h0 : o = 0
  · rw [if_pos h0, if_pos h0]
    have hw : w = v := by omega
    exact ⟨hh.tag.trans_ne h.tag, rfl, hix.congr rfl rfl rfl rfl rfl,
      ⟨hmetas.known, hmetas.complete⟩, hm, hc,
      hk, hval.trans (by rw [hw]), hsz, hle, by
        show pbEvalStringLength m.tag w ≤ e
        rw [hh.tag, hw]
        exact h.le⟩
  · rw [if_neg h0, if_neg h0]
    exact ⟨hh.tag.trans_ne h.tag, rfl, hix.congr rfl rfl rfl rfl rfl,
      ⟨hmetas.known, hmetas.complete⟩, hm, hc,
      hk, rfl, rfl, hle, by
        show pbEvalStringLength m.tag w ≤ _
        rw [hh.tag]⟩

/-- The size that an edit leaves is what the value needs, if it was so before. -/
theorem snug_edited (he : e = pbEvalStringLength tag v) {o : Int} {w : Nat}
    (ho : (v : Int) + o = w) :
    (if o = 0 then e else pbEvalStringLength tag w) = pbEvalStringLength tag w := by
  split
  · have hw : w = v := by omega
    rw [hw, he]
  · rfl

theorem taken_append (ps qs : List (PbField × Nat)) : taken (ps ++ qs) = taken ps + taken qs := by
  rw [taken, List.map_append, List.sum_append]
  rfl

theorem needed_append (ps qs : List (PbField × Nat)) :
    needed (ps ++ qs) = needed ps + needed qs := by
  rw [needed, List.map_append, List.sum_append]
  rfl

/-- The bytes that are kept for the fields with a tag, and for the others. -/
theorem taken_filter_tag (ps : List (PbField × Nat)) (tag : UInt32) :
    taken (ps.filter fun p => p.1.tag ≠ tag) + taken (ps.filter fun p => p.1.tag = tag) =
      taken ps := by
  have hnot : ps.filter (fun p => !decide (p.1.tag ≠ tag)) = ps.filter fun p => p.1.tag = tag :=
    List.filter_congr fun p _ => by simp
  rw [← hnot]
  exact taken_filter ps fun p => decide (p.1.tag ≠ tag)

/-- What an edit leaves alone for those above, and what it makes of the value. -/
structure Patched (n n' : KnvNode) : Prop where
  ident : ident n' = ident n
  key : n'.key = n.key
  val : n'.val = n.val ∨ n'.val = .string []

theorem childlist_edited (n : KnvNode) (o : Int) : (KnvNode.edited n o).1.childlist =
    n.childlist := by
  obtain ⟨sz, val_sz, he⟩ := edited_eq n o
  rw [he]

theorem patched_edited (n : KnvNode) (o : Int) : Patched n (KnvNode.edited n o).1 := by
  obtain ⟨sz, val_sz, he⟩ := edited_eq n o
  rw [he]
  exact ⟨rfl, rfl, .inr rfl⟩

/-- **A child more.** -/
theorem KeepsAll.insertNode (h : KeepsAll n ms cs v e) {c : KnvNode} {f : PbField}
    (hc : Writes c f) :
    ∃ n' offs, n.insertNode c = .ok (n', offs) ∧
      KeepsAll n' ms (cs ++ [sized f]) (v + f.size) (pbEvalStringLength n.tag (v + f.size)) ∧
      Patched n n' ∧ n'.val = .string [] ∧
      n'.childlist = n.childlist ++ [{ c with ref := n.next_ref }] := by
  have hsz : (KnvNode.evaluateSize c).1 = f.size := hc.size
  have hpos : (f.size : Int) ≠ 0 := by
    have := f.size_pos
    omega
  have hlist : List.Forall₂ Keeps (n.hangChild c).childlist (cs ++ [sized f]) :=
    List.rel_append h.childlist (.cons (hc.keeps.with_ref _) .nil)
  have hk := h.edited (m := n.hangChild c) ⟨rfl, rfl, rfl, rfl, rfl⟩ (h.indexed.hangChild c)
    ⟨h.metas.known, h.metas.complete⟩ h.metalist hlist h.key (o := f.size) (w := v + f.size)
    (by omega) (by
      have := h.taken_le
      rw [taken_append] at this
      rw [taken_append, taken_append]
      show taken ms + (taken cs + f.size) ≤ v + f.size
      omega)
  rw [if_neg hpos] at hk
  obtain ⟨sz, val_sz, he⟩ := edited_eq (n.hangChild c) f.size
  refine ⟨_, [(KnvNode.edited (n.hangChild c) f.size).2], ?_, hk, ⟨?_, ?_, ?_⟩, ?_, ?_⟩
  · rw [KnvNode.insertNode, if_neg h.tag, if_neg (by rw [h.isString]; decide), h.innerExpand, hsz]
  all_goals rw [he]
  · rfl
  · rfl
  · exact .inr rfl
  · rfl

/-- **The children with a tag less.** -/
theorem KeepsAll.removeChildrenByTag (h : KeepsAll n ms cs v e) (tag : UInt32) :
    ∃ n' offs v' e', n.removeChildrenByTag tag = .ok (n', offs) ∧
      KeepsAll n' ms (cs.filter fun p => p.1.tag ≠ tag) v' e' ∧
      v' + taken cs = v + taken (cs.filter fun p => p.1.tag ≠ tag) ∧ Patched n n' ∧
      n'.childlist = n.childlist.filter fun c => c.tag ≠ tag := by
  have hstay : List.Forall₂ Keeps (n.childlist.filter fun c => c.tag ≠ tag)
      (cs.filter fun p => p.1.tag ≠ tag) :=
        forall₂_filter (fun c p hc => by rw [hc.tag]) h.childlist
  have hgo : List.Forall₂ Keeps (n.childlist.filter fun c => c.tag = tag)
      (cs.filter fun p => p.1.tag = tag) :=
        forall₂_filter (fun c p hc => by rw [hc.tag]) h.childlist
  have hsum := taken_filter_tag cs tag
  have hle := h.taken_le
  rw [taken_append] at hle
  -- nothing to remove
  have hnone : n.childlist.filter (fun c => c.tag = tag) = [] →
    KeepsAll n ms (cs.filter fun p => p.1.tag ≠ tag)
      v e ∧ v + taken cs = v + taken (cs.filter fun p => p.1.tag ≠ tag) ∧
      n.childlist = n.childlist.filter fun c => c.tag ≠ tag := by
    intro hnil
    have hself : n.childlist = n.childlist.filter fun c => c.tag ≠ tag := by
      refine (List.filter_eq_self.mpr fun c hc => ?_).symm
      have hne := List.filter_eq_nil_iff.mp hnil c hc
      simpa using hne
    rw [hnil] at hgo
    rw [List.forall₂_nil_left_iff.mp hgo] at hsum
    have h0 : taken ([] : List (PbField × Nat)) = 0 := rfl
    rw [← hself] at hstay
    exact ⟨⟨h.tag, h.isString, h.indexed, h.metas, h.metalist, hstay, h.key, h.val_sz, h.sz, by
      rw [taken_append]
      omega, h.le⟩, by omega, hself⟩
  rw [KnvNode.removeChildrenByTag, if_neg h.tag, h.innerExpand]
  by_cases hnum : n.child_num.getD 0 = 0
  · have hnil : n.childlist = [] := by
      rw [h.indexed.child_num] at hnum
      exact List.length_eq_zero_iff.mp hnum
    obtain ⟨hk, hv, hl⟩ := hnone (by rw [hnil]; rfl)
    simp only [if_pos hnum]
    exact ⟨n, [], v, e, rfl, hk, hv, ⟨rfl, rfl, .inl rfl⟩, hl⟩
  · simp only [if_neg hnum]
    by_cases hnil : n.childlist.filter (fun c => c.tag = tag) = []
    · obtain ⟨hk, hv, hl⟩ := hnone hnil
      rw [if_pos hnil]
      exact ⟨n, [], v, e, rfl, hk, hv, ⟨rfl, rfl, .inl rfl⟩, hl⟩
    · rw [if_neg hnil, evaluateSizes_keeps hgo]
      have hk := h.edited (m := { n with
          ht := (n.childlist.filter fun c => c.tag = tag).foldl
            (fun ht c => (ht.remove n.childView c.ref).getD ht) n.ht
          childlist := n.childlist.filter fun c => c.tag ≠ tag
          child_num := n.child_num.map (· - (n.childlist.filter fun c => c.tag = tag).length) })
        ⟨rfl, rfl, rfl, rfl, rfl⟩ ((removes_byTag n tag).indexed h.indexed)
        ⟨h.metas.known, h.metas.complete⟩ h.metalist hstay h.key
        (o := -(taken (cs.filter fun p => p.1.tag = tag) : Int))
        (w := v - taken (cs.filter fun p => p.1.tag = tag)) (by omega) (by rw [taken_append]; omega)
      refine ⟨_, _, _, _, rfl, hk, by omega, ?_, ?_⟩
      · exact ⟨(patched_edited _ _).ident, (patched_edited _ _).key, (patched_edited _ _).val⟩
      · exact childlist_edited _ _

/-- **The metas with a tag less**, which is not the tag of the key. -/
theorem KeepsAll.removeMetas (h : KeepsAll n ms cs v e) {tag : UInt32}
    (hle : tag.toNat ≤ UC_MAX_META_NUM)
    (htag : tag ≠ 1) : ∃ n' offs v' e', n.removeField tag = .ok (n', offs) ∧
      KeepsAll n' (ms.filter fun p => p.1.tag ≠ tag) cs v' e' ∧
      v' + taken ms = v + taken (ms.filter fun p => p.1.tag ≠ tag) ∧ Patched n n' ∧
      n'.childlist = n.childlist ∧
      (e = pbEvalStringLength n.tag v → e' = pbEvalStringLength n.tag v') := by
  have hstay : List.Forall₂ Keeps (n.metalist.filter fun m => m.tag ≠ tag)
      (ms.filter fun p => p.1.tag ≠ tag) := forall₂_filter (fun c p hc => by rw [hc.tag]) h.metalist
  have hgo : List.Forall₂ Keeps (n.metalist.filter fun m => m.tag = tag)
      (ms.filter fun p => p.1.tag = tag) := forall₂_filter (fun c p hc => by rw [hc.tag]) h.metalist
  have hsum := taken_filter_tag ms tag
  have hroom := h.taken_le
  rw [taken_append] at hroom
  rw [removeField, if_pos hle, removeMetaByTag, if_neg h.tag, if_neg (by omega)]
  simp only [h.innerExpand]
  by_cases hnone : n.metalist = [] ∨ n.metas tag.toNat = none
  · have hall : ∀ p ∈ ms, p.1.tag ≠ tag := by
      intro p hp
      obtain ⟨m, hm, hk⟩ := forall₂_mem h.metalist.flip hp
      intro he
      exact (h.metas.slot tag.toNat).mp hnone m hm (by rw [hk.tag, he])
    have hself : ms.filter (fun p => p.1.tag ≠ tag) = ms :=
      List.filter_eq_self.mpr fun p hp => decide_eq_true (hall p hp)
    rw [if_pos hnone, hself]
    exact ⟨n, [], v, e, rfl, h, rfl, ⟨rfl, rfl, .inl rfl⟩, rfl, id⟩
  · rw [if_neg hnone, if_neg (by simp [htag])]
    have hkey : KeyFirst n ((ms.filter fun p => p.1.tag ≠ tag).map Prod.fst) := by
      intro hw
      obtain ⟨f, fs, hms, hf1, hfv⟩ := h.key hw
      cases ms with
      | nil => cases hms
      | cons p ms =>
        obtain ⟨rfl, rfl⟩ := List.cons.inj hms
        have hp : p.1.tag ≠ tag := by
          rw [hf1]
          exact htag.symm
        have hcons : (p :: ms).filter (fun p => p.1.tag ≠ tag) = p :: ms.filter fun p =>
          p.1.tag ≠ tag :=
          List.filter_cons_of_pos (by simpa using hp)
        exact ⟨p.1, _, by rw [hcons, List.map_cons], hf1, hfv⟩
    have hk := h.edited (m := { n with
        metalist := n.metalist.filter fun m => m.tag ≠ tag
        metas := fun t => if t = tag.toNat then none else n.metas t })
      ⟨rfl, rfl, rfl, rfl, rfl⟩ (h.indexed.congr rfl rfl rfl rfl rfl) (h.metas.remove tag) hstay
      h.childlist hkey (o := -(taken (ms.filter fun p => p.1.tag = tag) : Int))
      (w := v - taken (ms.filter fun p => p.1.tag = tag)) (by omega) (by rw [taken_append]; omega)
    have hsnug := fun he : e = pbEvalStringLength n.tag v => snug_edited he
      (o := -(taken (ms.filter fun p => p.1.tag = tag) : Int))
      (w := v - taken (ms.filter fun p => p.1.tag = tag)) (by omega)
    rw [← evaluateSizes_keeps hgo] at hk hsnug
    exact ⟨_, _, _, _, rfl, hk, by omega,
      ⟨(patched_edited _ _).ident, (patched_edited _ _).key, (patched_edited _ _).val⟩,
      childlist_edited _ _, hsnug⟩

/-! ### `SetChildInt` -/

/-- A tag that no child has: a child more. -/
theorem KeepsAll.setChild_new (h : KeepsAll n ms cs v e) {tag : UInt32} (htag : tag ≠ 0)
    (hnew : ∀ c ∈ n.childlist, c.tag ≠ tag) (i64 : UInt64) :
    once (n.setChild tag (.varint i64)) =
      n.insertNode (initNode tag (.varint i64) true 0 false) := by
  have hfind : n.findChildByTag tag = none := by
    rw [findChildByTag_eq h.tag, h.innerExpand]
    exact h.indexed.lookupChild_none hnew
  rw [setChild, hfind, insertChild, newNode_leaf htag, KnvNode.insertNode, if_neg h.tag,
    if_neg (by rw [h.isString]; decide)]
  simp only [bind, Except.bind, if_neg h.tag, h.isString]
  rfl

/-- `UpdateParentEvalueAndSetDirty` of a node whose value is out of date. -/
theorem childEdited_stale {n : KnvNode} (hval : n.val = .string []) (o : Int) :
    (childEdited n o).1 = (KnvNode.edited n o).1 := by
  have hv : (if 0 ≤ n.eval_sz then n.updateEvalSz o else (n, 0)).1.val = .string [] := by
    split
    · rw [updateEvalSz]
      split
      · exact hval
      · exact hval
    · exact hval
  rw [childEdited, KnvNode.edited]
  generalize (if 0 ≤ n.eval_sz then n.updateEvalSz o else (n, 0)) = q at hv
  obtain ⟨⟨d, metalist, childlist⟩, o'⟩ := q
  show (if d.subnode_dirty then _ else _) = _
  split
  · rename_i hd
    obtain ⟨ref, tag, val, key, child_num, ht, metas, subnode_dirty, rest⟩ := d
    replace hd : subnode_dirty = true := hd
    replace hv : val = .string [] := hv
    rw [hd, hv]
    rfl
  · rfl

/-- The last child is an integer with this tag: it gets the number. -/
theorem KeepsAll.setChild_last (htag : tag ≠ 0)
    (h : KeepsAll n ms (cs ++ [sized ⟨tag, .varint j⟩]) v e)
    (hval : n.val = .string []) {l : List KnvNode} {c : KnvNode} (hlist : n.childlist = l ++ [c])
    (hc : Stands c ⟨tag, .varint j⟩) (hnew : ∀ x ∈ l, x.tag ≠ tag) (i64 : UInt64) :
    ∃ n' offs e' c', once (n.setChild tag (.varint i64)) = .ok (n', offs) ∧
      KeepsAll n' ms (cs ++ [sized ⟨tag, .varint i64⟩])
        (v - (⟨tag, .varint j⟩ : PbField).size + (⟨tag, .varint i64⟩ : PbField).size) e' ∧
      Patched n n' ∧ n'.val = .string [] ∧ n'.childlist = l ++ [c'] ∧
      Stands c' ⟨tag, .varint i64⟩ ∧ (e = pbEvalStringLength n.tag v → e' = pbEvalStringLength n.tag
        (v - (⟨tag, .varint j⟩ : PbField).size + (⟨tag, .varint i64⟩ : PbField).size)) := by
  have hmem : c ∈ n.childlist := by
    rw [hlist]
    exact List.mem_append_right _ (List.mem_singleton_self c)
  have hfind : n.findChildByTag tag = some c := by
    have huniq := h.indexed.lookupChild_unique hmem (fun x hx he => ?_)
    · rw [findChildByTag_eq h.tag, h.innerExpand, ← huniq, hc.tag]
    · rw [hlist] at hx
      rcases List.mem_append.mp hx with hx | hx
      · exact absurd (he.trans hc.tag) (hnew x hx)
      · exact List.mem_singleton.mp hx
  have htype : c.val.type = .varint := by
    rw [hc.val]
    rfl
  have hstr : c.isString = false := by
    show decide (c.val.type = .string) = false
    rw [htype]
    rfl
  -- the child with the number
  obtain ⟨c', o, hset, hident, hst, ho⟩ : ∃ c' o, c.setIntValue i64 = (c', o) ∧ ident c' = ident c ∧
      Stands c' ⟨tag, .varint i64⟩ ∧ o = ((⟨tag, .varint i64⟩ : PbField).size : Int) -
        (⟨tag, .varint j⟩ : PbField).size := by
    rw [setIntValue, htype]
    refine ⟨_, _, rfl, rfl, ⟨hc.tag, rfl, rfl, ?_⟩, ?_⟩
    · show (pbEvalFieldLength c.tag (.varint i64) : Int) = _
      rw [hc.tag]
      rfl
    · show (pbEvalFieldLength c.tag (.varint i64) : Int) - c.eval_sz = _
      rw [hc.tag, hc.size]
      rfl
  have href : c'.ref = c.ref := congrArg Prod.fst hident
  have hrep : replaceRef c' n.childlist = l ++ [c'] := by
    have hnd := h.indexed.nodup
    rw [hlist, List.map_append, List.nodup_append] at hnd
    rw [hlist, replaceRef, List.map_append, List.map_singleton, if_pos href.symm]
    congr 1
    refine (List.map_congr_left fun x hx => if_neg fun he => ?_).trans (List.map_id l)
    exact hnd.2.2 x.ref (List.mem_map.mpr ⟨x, hx, rfl⟩) c.ref (List.mem_singleton_self _)
      (he.trans href)
  have hsame : SameIndex n { n with childlist := l ++ [c'] } := by
    refine ⟨rfl, rfl, Nat.le_refl _, ?_, rfl⟩
    show (l ++ [c']).map ident = n.childlist.map ident
    rw [hlist, List.map_append, List.map_append, List.map_singleton, List.map_singleton, hident]
  have hold := h.childlist
  rw [hlist] at hold
  obtain ⟨hl, -⟩ := forall₂_concat hold
  have hcs : List.Forall₂ Keeps (l ++ [c']) (cs ++ [sized ⟨tag, .varint i64⟩]) :=
    List.rel_append hl (.cons (hst.writes htag).keeps .nil)
  have hroom := h.taken_le
  have hone : ∀ f : PbField, taken [sized f] = f.size := fun f => List.sum_singleton
  rw [taken_append, taken_append, hone] at hroom
  have hk := h.edited (m := { n with childlist := l ++ [c'] }) ⟨rfl, rfl, rfl, rfl, rfl⟩
    (hsame.indexed h.indexed) ⟨h.metas.known, h.metas.complete⟩ h.metalist hcs h.key (o := o)
    (w := v - (⟨tag, .varint j⟩ : PbField).size + (⟨tag, .varint i64⟩ : PbField).size)
    (by omega) (by rw [taken_append, taken_append, hone]; omega)
  rw [← childEdited_stale (n := { n with childlist := l ++ [c'] }) hval] at hk
  have hcall : once (n.setChild tag (.varint i64)) =
      once (.ok (childEdited { n with childlist := l ++ [c'] } o)) := by
    rw [setChild, hfind, h.innerExpand]
    simp only [hstr, hset, hrep]
    rfl
  obtain ⟨sz, val_sz, he⟩ := edited_eq ({ n with childlist := l ++ [c'] } : KnvNode) o
  refine ⟨_, _, _, c', hcall, hk, ?_⟩
  rw [childEdited_stale (n := { n with childlist := l ++ [c'] }) hval, he]
  exact ⟨⟨rfl, rfl, .inr rfl⟩, rfl, rfl, hst, fun he => snug_edited he (by omega)⟩

end KeepsAll

/-! ## Where such nodes come from -/

theorem taken_sized (fs : List PbField) : taken (fs.map sized) = (messageBytes fs).length := by
  rw [length_messageBytes, taken, List.map_map]
  rfl

/-- A node that was built keeps what its fields need. -/
theorem KeepsAll.of_means {n : KnvNode} {tag : UInt32} {key : Option FieldVal} {ms : List PbField}
    {ts : List Tree} (h : Means n (.node tag key ms ts)) (hix : Indexed n) :
    KeepsAll n ((Tree.keyFields key ++ ms).map sized) ((ts.map Tree.field).map sized)
      (valLen key ms ts)
      (pbEvalStringLength tag (valLen key ms ts)) := by
  obtain ⟨htr, hch⟩ := means_node.mp h
  have hmap : ∀ fs : List PbField, (fs.map sized).map Prod.fst = fs := fun fs => by
    rw [List.map_map]
    exact List.map_id fs
  refine ⟨by rw [htr.tag]; exact htr.tag_ne, htr.isString, hix, htr.metas, ?_, ?_, ?_, htr.val_sz,
    htr.sz,
    ?_, by rw [htr.tag]⟩
  · rw [List.forall₂_map_right_iff]
    exact htr.metalist_writes.imp fun _ _ hw => hw.keeps
  · rw [List.map_map, List.forall₂_map_right_iff]
    exact hch.imp fun _ _ hm => hm.writes.keeps
  · rw [hmap]
    exact htr.keyFirst
  · rw [← List.map_append, taken_sized]
    exact Nat.le_refl _

theorem metasOk_expandFields {k : Bool} (fs : List (PbField × Nat)) : ∀ {n : KnvNode}, MetasOk n →
    MetasOk (fs.foldl (expandField k) n) := by
  induction fs with
  | nil => exact fun h => h
  | cons f fs ih =>
    intro n h
    rw [List.foldl_cons, expandField]
    split
    · exact ih (h.hangMeta _ _)
    · exact ih ⟨h.known, h.complete⟩

/-- A node that was received keeps what its fields took. -/
theorem keepsAll_of_fresh {n : KnvNode} {s : List UInt8} {k : KnvKey} {sz : Nat}
    {fs : List (PbField × Nat)} (h : Fresh n s k sz) (hfs : pbFields s = some (fs, true))
    (hkey : KeyFirst (n.innerExpand false false) ((fs.filter isMeta).map Prod.fst)) :
    KeepsAll (n.innerExpand false false) (fs.filter isMeta) (fs.filter (!isMeta ·)) s.length sz
      := by
  obtain ⟨hg, -⟩ := h.grown hfs
  obtain ⟨-, -, htaken, hall⟩ := pbFields_taken hfs
  have hsame := hg.sameHead
  have hval : (n.innerExpand false false).val = .string s :=
    (congrArg (fun x => x.2.2.1) hg.head).trans h.val
  have hmetas : MetasOk (n.innerExpand false false) := by
    rw [innerExpand_none h.child_num, expandTail, if_neg (by
      show ¬ (!n.isString) = true
      rw [h.isString]
      decide), if_neg (fun hc => Bool.false_ne_true hc.2)]
    have hstr : ({ n.initChildList (some 0) with child_has_key := false } : KnvNode).str = s := by
      show n.val.str = s
      rw [h.val]
      rfl
    rw [hstr, hfs]
    have hm := metasOk_expandFields (k := false) fs
      (n := { n.initChildList (some 0) with child_has_key := false })
      ⟨fun hne => absurd rfl hne, fun hne => absurd rfl hne⟩
    exact ⟨hm.known, hm.complete⟩
  refine ⟨by rw [hsame.tag]; exact h.tag, ?_, hg.indexed, hmetas, ?_, ?_, hkey, ?_, ?_, ?_, ?_⟩
  · show decide ((n.innerExpand false false).val.type = .string) = true
    rw [hval]
    rfl
  · exact forall₂_imp_of_mem hg.metalist fun m p hp hm =>
      hm.keeps (hall p (List.mem_of_mem_filter hp)).1
  · exact forall₂_imp_of_mem hg.childlist fun m p hp hm =>
      hm.keeps (hall p (List.mem_of_mem_filter hp)).1
  · rw [hsame.eval_val_sz, h.eval_val_sz]
  · rw [hsame.eval_sz, h.eval_sz]
  · rw [taken_append, taken_filter]
    exact htaken
  · rw [hsame.tag]
    exact h.le

end KnvNode

end MysqlProxy
