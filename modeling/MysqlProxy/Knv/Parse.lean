/-
  Reading a message that was written by a builder.

  A message of fields that all fit the wire is read back field by field, and each node remembers the
  size its field has when it is written again: `Grown` becomes `Hold`.  `read_message` is the case of
  a packet, metas and one child: `GetMeta` finds the LAST field with a tag, and the child is the one
  `FindChildByTag` returns, whether its bytes look like a message with a key (the list is scanned) or
  not (the index is asked).
-/
import MysqlProxy.Knv.Expand

namespace MysqlProxy

/-- The first matches in two related lists are related. -/
theorem forall₂_find? {α β : Type*} {R : α → β → Prop} {p : α → Bool} {q : β → Bool}
    (hpq : ∀ a b, R a b → p a = q b) {l : List α} {l' : List β} (h : List.Forall₂ R l l') :
    Option.Rel R (l.find? p) (l'.find? q) := by
  induction h with
  | nil => exact .none
  | @cons a b l l' hab _ ih =>
    rw [List.find?_cons, List.find?_cons, hpq a b hab]
    cases q b with
    | true => exact .some hab
    | false => exact ih

/-- Each element of one of two related lists has its partner in the other. -/
theorem forall₂_mem {α β : Type*} {R : α → β → Prop} {l : List α} {l' : List β}
    (h : List.Forall₂ R l l') {a : α} (ha : a ∈ l) : ∃ b ∈ l', R a b := by
  induction h with
  | nil => exact absurd ha List.not_mem_nil
  | @cons x y l l' hxy _ ih =>
    rcases List.mem_cons.mp ha with rfl | ha
    · exact ⟨y, List.mem_cons_self, hxy⟩
    · obtain ⟨b, hb, hab⟩ := ih ha
      exact ⟨b, List.mem_cons_of_mem y hb, hab⟩

/-- So are the lists of all matches. -/
theorem forall₂_filter {α β : Type*} {R : α → β → Prop} {p : α → Bool} {q : β → Bool}
    (hpq : ∀ a b, R a b → p a = q b) {l : List α} {l' : List β} (h : List.Forall₂ R l l') :
    List.Forall₂ R (l.filter p) (l'.filter q) :=
  List.rel_filter (fun a b hab => by
    show p a = true ↔ q b = true
    rw [hpq a b hab]) h

namespace KnvNode

/-- The last field with a tag. -/
def lastField (fs : List PbField) (t : Nat) : Option PbField :=
  fs.reverse.find? fun f => f.tag.toNat = t

/-! ## A canonical message -/

/-- A field with the size it has when it is written. -/
def sized (f : PbField) : PbField × Nat := (f, f.size)

theorem OfField.stands {k : Bool} {m : KnvNode} {f : PbField} (h : OfField k m (sized f)) :
    Stands m f := by
  obtain ⟨r, rfl⟩ := h
  exact (initNode_stands f (.inr rfl) k).with_ref r

theorem hold_of_ofField {k : Bool} {l : List KnvNode} {fs : List PbField}
    (h : List.Forall₂ (OfField k) l (fs.map sized)) : Hold l fs := by
  rw [List.forall₂_map_right_iff] at h
  exact h.imp fun _ _ hm => hm.stands

/-- The metas of a list of fields, and its children. -/
def metaFields (fs : List PbField) : List PbField := fs.filter fun f => f.tag.toNat ≤ UC_MAX_META_NUM

def childFields (fs : List PbField) : List PbField :=
  fs.filter fun f => !decide (f.tag.toNat ≤ UC_MAX_META_NUM)

theorem metaFields_cons {f : PbField} (h : f.tag.toNat ≤ UC_MAX_META_NUM) (fs : List PbField) :
    metaFields (f :: fs) = f :: metaFields fs := List.filter_cons_of_pos (decide_eq_true h)

theorem metaFields_le (fs : List PbField) : ∀ f ∈ metaFields fs, f.tag.toNat ≤ UC_MAX_META_NUM :=
  fun _ hf => of_decide_eq_true (List.mem_filter.mp hf).2

theorem childFields_gt (fs : List PbField) : ∀ f ∈ childFields fs, UC_MAX_META_NUM < f.tag.toNat := by
  intro f hf
  have := (List.mem_filter.mp hf).2
  rw [Bool.not_eq_true', decide_eq_false_iff_not] at this
  exact Nat.lt_of_not_le this

theorem metaFields_append {ms cs : List PbField} (hm : ∀ f ∈ ms, f.tag.toNat ≤ UC_MAX_META_NUM)
    (hc : ∀ f ∈ cs, UC_MAX_META_NUM < f.tag.toNat) : metaFields (ms ++ cs) = ms := by
  rw [metaFields, List.filter_append, List.filter_eq_self.mpr fun f hf => decide_eq_true (hm f hf),
    List.filter_eq_nil_iff.mpr fun f hf => by simpa using hc f hf, List.append_nil]

theorem childFields_append {ms cs : List PbField} (hm : ∀ f ∈ ms, f.tag.toNat ≤ UC_MAX_META_NUM)
    (hc : ∀ f ∈ cs, UC_MAX_META_NUM < f.tag.toNat) : childFields (ms ++ cs) = cs := by
  rw [childFields, List.filter_append, List.filter_eq_nil_iff.mpr fun f hf => by simpa using hm f hf,
    List.filter_eq_self.mpr fun f hf => by simpa using hc f hf, List.nil_append]

section Canonical

variable {k : Bool} {n n₀ : KnvNode} {fs : List PbField}

theorem Grown.hold_metalist (h : Grown k n n₀ (fs.map sized)) : Hold n.metalist (metaFields fs) := by
  have := h.metalist
  rw [List.filter_map] at this
  exact hold_of_ofField this

theorem Grown.ofField_childlist (h : Grown k n n₀ (fs.map sized)) :
    List.Forall₂ (OfField k) n.childlist ((childFields fs).map sized) := by
  have := h.childlist
  rw [List.filter_map] at this
  exact this

theorem Grown.hold_childlist (h : Grown k n n₀ (fs.map sized)) : Hold n.childlist (childFields fs) :=
  hold_of_ofField h.ofField_childlist

theorem Grown.lookupMeta_rel (h : Grown k n n₀ (fs.map sized)) (t : Nat) :
    Option.Rel Stands (n.lookupMeta t) (lastField (metaFields fs) t) := by
  rw [h.metas t]
  exact forall₂_find? (fun m f hm => by rw [hm.tag]) (List.forall₂_reverse_iff.mpr h.hold_metalist)

end Canonical

/-- A message that is not empty, expanded. -/
theorem innerExpand_message {n : KnvNode} {f : PbField} {fs : List PbField}
    (hnum : n.child_num = none) (hval : n.val = .string (messageBytes (f :: fs)))
    (hht : n.ht = KnvHt.clear) (hok : ∀ g ∈ f :: fs, FieldOk g.tag g.val)
    (hlen : (messageBytes (f :: fs)).length < 2 ^ 31) {p : Bool} (hp : ¬ (n.tag = 1 ∧ p = true))
    (k : Bool) : Grown k (n.innerExpand p k) n ((f :: fs).map sized) :=
  (innerExpand_grown hnum hval hht (pbFields_messageBytes hok hlen) hp k).1

/-! ## A whole message -/

theorem pbBegin_messageBytes {f : PbField} {fs : List PbField} (h : FieldOk f.tag f.val)
    (hlen : (messageBytes (f :: fs)).length < 2 ^ 31) :
    pbBegin (messageBytes (f :: fs)) = .ok (f, messageBytes fs) := by
  unfold pbBegin
  rw [if_neg (by omega), messageBytes_cons, pbDecodeTag_fieldBytes h]

theorem messageBytes_ne_nil (f : PbField) (fs : List PbField) : messageBytes (f :: fs) ≠ [] := by
  rw [← List.length_pos_iff, length_messageBytes]
  have := f.size_pos
  rw [List.map_cons, List.sum_cons]
  omega

/-- A string that begins with a field is not expanded yet. -/
theorem initNode_num {tag : UInt32} {s : List UInt8} {sz : Nat} {fs : List (PbField × Nat)}
    {eom : Bool} (h : pbFields s = some (fs, eom)) :
    (initNode tag (.string s) true sz false).child_num = none := by
  unfold pbFields at h
  cases hb : pbBegin s with
  | error e => rw [hb] at h; cases h
  | ok p =>
    have hne : s ≠ [] := by
      rintro rfl
      cases hb
    unfold initNode keyOfValue
    simp only [FieldVal.str, hb, if_true]
    rw [if_pos hne]
    rfl

theorem newFromMessage_init {msg : List UInt8} (hlen : msg.length < 2 ^ 31) {tag : UInt32}
    (htag : tag ≠ 0) : newFromMessage msg tag = .ok (initNode tag (.string msg) true 0 false) := by
  unfold newFromMessage newNode
  rw [Nat.mod_eq_of_lt (by omega), List.take_length]
  simp only [if_neg htag]
  rfl

/-- A message's value, unexpanded. -/
theorem newFromMessage_eq {f : PbField} {fs : List PbField} (h : FieldOk f.tag f.val)
    (hlen : (messageBytes (f :: fs)).length < 2 ^ 31) {tag : UInt32} (htag : tag ≠ 0) :
    ∃ n, newFromMessage (messageBytes (f :: fs)) tag = .ok n ∧ n.tag = tag ∧
      n.val = .string (messageBytes (f :: fs)) ∧ n.child_num = none ∧ n.ht = KnvHt.clear := by
  refine ⟨_, newFromMessage_init hlen htag, rfl, rfl, ?_, rfl⟩
  unfold initNode keyOfValue
  simp only [FieldVal.str, pbBegin_messageBytes h hlen]
  rw [if_pos trivial, if_pos (messageBytes_ne_nil f fs)]
  rfl

/-- **A message of metas and one child is read back**: every meta under its tag, the last one if
    there are several, and the child. -/
theorem read_message {f : PbField} {ms : List PbField}
    (hok : ∀ g ∈ ms ++ [f], FieldOk g.tag g.val)
    (hlen : (messageBytes (ms ++ [f])).length < 2 ^ 31)
    (hmeta : ∀ g ∈ ms, g.tag.toNat ≤ UC_MAX_META_NUM) (hchild : UC_MAX_META_NUM < f.tag.toNat)
    {tag : UInt32} (htag : tag ≠ 0) :
    ∃ n, newFromMessage (messageBytes (ms ++ [f])) tag = .ok n ∧
      (∀ t : UInt32, t.toNat ≤ UC_MAX_META_NUM →
        Option.Rel Stands (n.getMeta t) (lastField ms t.toNat)) ∧
      ∃ c, n.findChildByTag f.tag = some c ∧ Stands c f := by
  have hf : ∀ g ∈ [f], UC_MAX_META_NUM < g.tag.toNat := fun g hg => by
    rw [List.mem_singleton.mp hg]
    exact hchild
  have hmetas : metaFields (ms ++ [f]) = ms := metaFields_append hmeta hf
  have hchildren : childFields (ms ++ [f]) = [f] := childFields_append hmeta hf
  obtain ⟨g, gs, hg⟩ : ∃ g gs, ms ++ [f] = g :: gs := by
    cases ms with
    | nil => exact ⟨f, [], rfl⟩
    | cons g gs => exact ⟨g, gs ++ [f], rfl⟩
  have hok' := hok
  have hlen' := hlen
  rw [hg] at hok' hlen'
  obtain ⟨n, hn, hntag, hval, hnum, hht⟩ :=
    newFromMessage_eq (hok' g List.mem_cons_self) hlen' htag
  have hgrown := innerExpand_message hnum hval hht hok' hlen'
    (p := false) (fun h => Bool.false_ne_true h.2) false
  rw [← hg] at hn hgrown
  have hn0 : n.tag ≠ 0 := by rw [hntag]; exact htag
  refine ⟨n, hn, ?_, ?_⟩
  · intro t ht
    have hrel := hgrown.lookupMeta_rel t.toNat
    rw [hmetas] at hrel
    rw [getMeta_eq hn0 ht]
    exact hrel
  · -- there is only one child to be found
    have hhold := hgrown.hold_childlist
    rw [hchildren] at hhold
    obtain ⟨c, cs, hc, hcs, hlist⟩ := List.forall₂_cons_right_iff.mp hhold
    rw [List.forall₂_nil_right_iff.mp hcs] at hlist
    obtain ⟨c', hc'⟩ := hgrown.indexed.lookupChild_of_mem (c := c) (by rw [hlist]; exact List.mem_singleton_self c)
    have hmem := (hgrown.indexed.lookupChild_some hc').1
    rw [hlist, List.mem_singleton] at hmem
    rw [findChildByTag_eq hn0, ← hc.tag, hc', hmem]
    exact ⟨c, rfl, hc⟩

end KnvNode

end MysqlProxy
