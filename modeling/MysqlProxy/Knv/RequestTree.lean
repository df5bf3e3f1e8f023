/-
  The request that a tree makes for itself (`MakeRequestTree`).

  `MakeRequestTree(max_level)` walks `max_level + 1` levels down and asks for every child it sees: a
  child with children of its own becomes a request with children, every other one is asked for as a
  WHOLE.  The key of a child goes with its request only if the child is expanded: a child of the last
  level is not, so that it is asked for by its tag alone, and so are ALL its siblings with that tag.

  * `deepened l p n`: what the walk leaves of the data.
  * `Asked l d r`: what the request `r` that is made of `d` looks like.
  * `requestTree_spec`: every node that was read makes its request.
-/
import MysqlProxy.Knv.Reread

namespace MysqlProxy

namespace KnvNode

/-! ## `MakeRequestTree` -/

/-- `InnerInsertChild` with `update_parent`, of a child that is handed over. -/
def innerInsertChild (n c : KnvNode) : KnvNode := (edited (n.hangChild c) (evaluateSize c).1).1

/-- The request for a whole node. -/
def wholeRequest (n : KnvNode) : Option KnvNode :=
  -- a leaf with no key is converted to an int(1)
  if n.child_num = none ∨ n.metalist = [] then (newNode n.tag none (.varint 1)).toOption
  else (newTree n.tag (some n.key.getValue)).toOption

/-- The loop over the children, with `make` for a child: the children it leaves, and the request.
    `start` is what the request is before the first child comes. -/
def makeRequests (make : KnvNode → KnvNode × Option KnvNode) (start : Option KnvNode) :
    List KnvNode → Option KnvNode → List KnvNode × Option KnvNode
  | [], new_tr => ([], new_tr)
  | sub_tree :: l, new_tr =>
    match new_tr.or start with
    | none => (sub_tree :: l, none)
    | some new_tr =>
      match make sub_tree with
      | (sub_tree, none) => (sub_tree :: l, none)
      | (sub_tree, some sub_req) =>
        let (l, res) := makeRequests make start l (some (new_tr.innerInsertChild sub_req))
        (sub_tree :: l, res)

/-- `MakeRequestTree`, `levels` deep: the data it leaves, and the request or `NULL`.  `p` says whether
    the data has a parent with a key. -/
def requestTree : Nat → Bool → KnvNode → KnvNode × Option KnvNode
  | 0, _, n => (n, if n.tag = 0 then none else n.wholeRequest)
  | levels + 1, p, n =>
    if n.tag = 0 then (n, none)
    else
      let n := n.innerExpand p false
      if n.child_num.getD 0 = 0 then (n, n.wholeRequest)
      else
        let (childlist, new_tr) := makeRequests (requestTree levels (n.key.val ≠ []))
          (newTree n.tag (some n.key.getValue)).toOption n.childlist none
        ({ n with childlist := childlist }, new_tr)

/-- `MakeRequestTree` of a root; below 0 nothing is expanded any more. -/
def makeRequestTree (n : KnvNode) (max_level : Int) : KnvNode × Option KnvNode :=
  n.requestTree (max_level + 1).toNat false

/-! ### The pieces -/

/-- A key that was made from a value is made from its value again. -/
theorem init_getValue (v : FieldVal) : KnvKey.init (KnvKey.init v).getValue = KnvKey.init v := by
  cases v with
  | string s =>
    show KnvKey.init (.string (s.take (s.length % 2 ^ 16))) = ⟨.string, s.take (s.length % 2 ^ 16)⟩
    have hlen : (s.take (s.length % 2 ^ 16)).length = s.length % 2 ^ 16 := by
      rw [List.length_take]
      have := Nat.mod_le s.length (2 ^ 16)
      omega
    rw [KnvKey.init, hlen, Nat.mod_mod, List.take_take, Nat.min_self]
  | varint i => exact congrArg KnvKey.init (KeyOk.init (k := .varint i) trivial).2
  | fixed64 i => exact congrArg KnvKey.init (KeyOk.init (k := .fixed64 i) trivial).2
  | fixed32 i => exact congrArg KnvKey.init (KeyOk.init (k := .fixed32 i) trivial).2

/-- The key of a node that was read. -/
theorem key_of_twin {n n' : KnvNode} (h : Twin n n') : KnvKey.init n.key.getValue = n.key := by
  obtain ⟨f, r, k, _, rfl, _, _⟩ := h
  show KnvKey.init (initNode f.1.tag f.1.val true f.2 k).key.getValue =
    (initNode f.1.tag f.1.val true f.2 k).key
  rw [key_initNode_mode]
  cases k with
  | true => rfl
  | false =>
    rw [if_neg Bool.false_ne_true, keyOfValue]
    cases pbBegin f.1.val.str with
    | error e => rfl
    | ok q =>
      simp only
      split
      · exact init_getValue _
      · rfl

/-- The request asks for something. -/
def Asking (r : KnvNode) : Prop := ¬ (!r.isString && r.getIntVal = 0) = true

/-- A new tree, with a key or without. -/
theorem newTree_spec {tag : UInt32} (h0 : tag ≠ 0) (v : FieldVal) : ∃ r, newTree tag (some v) = .ok r ∧
    r.tag = tag ∧ r.key = KnvKey.init v ∧ r.isString = true ∧ r.child_num = some 0 ∧ r.childlist = [] ∧
    ∀ m ∈ r.metalist, m.tag = 1 := by
  rw [newTree, newNode, if_neg h0]
  by_cases hk : (KnvKey.init v).val = []
  · refine ⟨{ initNode tag (FieldVal.zero .string) true 0 false with key := KnvKey.init v }, ?_, rfl, rfl,
      rfl, rfl, rfl, fun m hm => absurd hm List.not_mem_nil⟩
    show (if (KnvKey.init v).val = [] then _ else _) = _
    rw [if_pos hk]
    rfl
  · -- the key becomes the first meta
    generalize hn : ({ initNode tag (FieldVal.zero .string) true 0 false with
      key := KnvKey.init v } : KnvNode) = n
    have hmeta : (1 : UInt32).toNat ≤ UC_MAX_META_NUM := by decide
    have hset : n.setMeta 1 (KnvKey.init v).getValue =
        .ok (edited (n.hangMeta (initNode 1 (KnvKey.init v).getValue true 0 true) true)
          (⟨1, (KnvKey.init v).getValue⟩ : PbField).size) := by
      refine setMeta_new (f := ⟨1, (KnvKey.init v).getValue⟩) ?_ ?_ ?_ hmeta ?_
      · rw [← hn]
        exact h0
      · rw [← hn]
        rfl
      · rw [← hn]
        rfl
      · rw [← hn, getMeta_eq h0 hmeta]
        rfl
    obtain ⟨sz, val_sz, he⟩ := edited_eq (n.hangMeta (initNode 1 (KnvKey.init v).getValue true 0 true)
      true) (⟨1, (KnvKey.init v).getValue⟩ : PbField).size
    refine ⟨(edited (n.hangMeta (initNode 1 (KnvKey.init v).getValue true 0 true) true)
      (⟨1, (KnvKey.init v).getValue⟩ : PbField).size).1, ?_, ?_⟩
    · rw [← hn] at hset ⊢
      show (if (KnvKey.init v).val = [] then _ else _) = _
      rw [if_neg hk]
      exact congrArg (Except.map Prod.fst) hset
    · rw [he, ← hn]
      refine ⟨rfl, rfl, rfl, rfl, rfl, fun m hm => ?_⟩
      rw [List.mem_singleton.mp hm]
      rfl

/-- The node `t`, with the requests `rs` behind its children. -/
structure Receives (t : KnvNode) (rs : List KnvNode) (t' : KnvNode) : Prop where
  tag : t'.tag = t.tag
  key : t'.key = t.key
  isString : t'.isString = t.isString
  metalist : t'.metalist = t.metalist
  child_num : t'.child_num = t.child_num.map (· + rs.length)
  childlist : ∃ ss, t'.childlist = t.childlist ++ ss ∧
    List.Forall₂ (fun r s => s = { r with ref := s.ref }) rs ss

theorem receives_nil (t : KnvNode) : Receives t [] t := by
  refine ⟨rfl, rfl, rfl, rfl, ?_, [], (List.append_nil _).symm, .nil⟩
  cases t.child_num with
  | none => rfl
  | some num => rfl

theorem Receives.cons {t c t' : KnvNode} {rs : List KnvNode} (hs : t.isString = true)
    (h : Receives (t.innerInsertChild c) rs t') : Receives t (c :: rs) t' := by
  obtain ⟨sz, val_sz, he⟩ := edited_eq (t.hangChild c) (evaluateSize c).1
  rw [innerInsertChild, he] at h
  obtain ⟨htag, hkey, hstr, hmeta, hnum, ss, hlist, hss⟩ := h
  refine ⟨htag, hkey, hstr.trans hs.symm, hmeta, ?_, { c with ref := t.next_ref } :: ss, ?_, .cons rfl hss⟩
  · rw [hnum]
    show (t.child_num.map (· + 1)).map (· + rs.length) = _
    rw [Option.map_map]
    refine congrArg (fun f => t.child_num.map f) (funext fun x => ?_)
    show x + 1 + rs.length = x + (rs.length + 1)
    omega
  · rw [hlist]
    exact List.append_assoc _ _ _

/-- The loop, when every child makes a request. -/
theorem makeRequests_spec {make : KnvNode → KnvNode × Option KnvNode} (start : Option KnvNode) :
    ∀ (l : List KnvNode) (t : KnvNode), t.isString = true → (∀ c ∈ l, (make c).2 ≠ none) →
    ∃ rs t', makeRequests make start l (some t) = (l.map fun c => (make c).1, some t') ∧
      List.Forall₂ (fun c r => (make c).2 = some r) l rs ∧ Receives t rs t' := by
  intro l
  induction l with
  | nil => exact fun t _ _ => ⟨[], t, rfl, .nil, receives_nil t⟩
  | cons c l ih =>
    intro t hs hall
    rw [makeRequests]
    have hc := hall c List.mem_cons_self
    generalize hq : make c = q at hc
    obtain ⟨c', res⟩ := q
    cases res with
    | none => exact absurd rfl hc
    | some r =>
      have hs' : (t.innerInsertChild r).isString = true := by
        obtain ⟨sz, val_sz, he⟩ := edited_eq (t.hangChild r) (evaluateSize r).1
        rw [innerInsertChild, he]
        rfl
      obtain ⟨rs, t', he, hrs, hrec⟩ := ih _ hs' fun x hx => hall x (List.mem_cons_of_mem _ hx)
      refine ⟨r :: rs, t', ?_, .cons (by rw [hq]) hrs, hrec.cons hs⟩
      simp only [Option.some_or, he, List.map_cons, hq]

/-- Two lists behind each other. -/
theorem forall₂_comp {α β γ : Type} {R : α → β → Prop} {S : β → γ → Prop} {T : α → γ → Prop}
    {as : List α} {bs : List β} {cs : List γ} (h : List.Forall₂ R as bs) (h' : List.Forall₂ S bs cs)
    (ht : ∀ a b c, R a b → S b c → T a c) : List.Forall₂ T as cs := by
  induction h generalizing cs with
  | nil =>
    cases h'
    exact .nil
  | cons hab _ ih =>
    cases h' with
    | cons hbc h' => exact .cons (ht _ _ _ hab hbc) (ih h')

/-! ### The request and the data -/

/-- A copy of a node as it came; the type of its key is not copied. -/
structure CopyOf (n out : KnvNode) : Prop where
  tag : out.tag = n.tag
  key : out.key.val = n.key.val
  val : out.val = n.val

/-- The data `l` levels of which are expanded. -/
def deepened : Nat → Bool → KnvNode → KnvNode
  | 0, _, n => n
  | l + 1, p, n =>
    let n := n.innerExpand p false
    { n with childlist := n.childlist.map (deepened l (n.key.val ≠ [])) }

/-- `l` levels are expanded, every index is right, and every node can be copied. -/
def Deep : Nat → KnvNode → Prop
  | 0, d => ∃ out, d.copyWithKey = some out ∧ CopyOf d out
  | l + 1, d => (∃ out, d.copyWithKey = some out ∧ CopyOf d out) ∧
      d.child_num = some d.childlist.length ∧ (d.childlist ≠ [] → Indexed d) ∧
      ∀ c ∈ d.childlist, Deep l c

/-- A child is asked for with its key: it has one, it is expanded, and there is something in it. -/
def ByKey (l : Nat) (d : KnvNode) : Prop :=
  d.key.val ≠ [] ∧ l ≠ 0 ∧ (d.childlist ≠ [] ∨ d.metalist ≠ [])

/-- Whom the request asks for, and how. -/
structure AskedHead (l : Nat) (d r : KnvNode) : Prop where
  tag : r.tag = d.tag
  asking : Asking r
  byKey : ByKey l d → r.key = d.key
  byTag : ¬ ByKey l d → r.key.val = []

/-- The request that `l` levels of `d` are asked for with. -/
def Asked : Nat → KnvNode → KnvNode → Prop
  | 0, d, r => AskedHead 0 d r ∧ r.child_num.getD 0 = 0
  | l + 1, d, r => AskedHead (l + 1) d r ∧
    if d.childlist = [] then r.child_num.getD 0 = 0
    else r.child_num.getD 0 ≠ 0 ∧ (∀ m ∈ r.metalist, m.tag = 1) ∧
      List.Forall₂ (Asked l) d.childlist r.childlist

theorem Asked.head {l : Nat} {d r : KnvNode} (h : Asked l d r) : AskedHead l d r := by
  cases l with
  | zero => exact h.1
  | succ l => exact h.1

theorem Deep.copied {l : Nat} {d : KnvNode} (h : Deep l d) :
    ∃ out, d.copyWithKey = some out ∧ CopyOf d out := by
  cases l with
  | zero => exact h
  | succ l => exact h.1

/-- Where a request hangs does not matter. -/
theorem Asked.with_ref {l : Nat} {d r : KnvNode} (h : Asked l d r) (i : Nat) :
    Asked l d { r with ref := i } := by
  cases l with
  | zero => exact ⟨⟨h.1.tag, h.1.asking, h.1.byKey, h.1.byTag⟩, h.2⟩
  | succ l => exact ⟨⟨h.1.tag, h.1.asking, h.1.byKey, h.1.byTag⟩, h.2⟩

theorem asking_of_isString {r : KnvNode} (h : r.isString = true) : Asking r := by
  rw [Asking, h]
  exact Bool.false_ne_true

/-- The request for a whole node. -/
theorem wholeRequest_spec {n : KnvNode} (h0 : n.tag ≠ 0) (hkey : KnvKey.init n.key.getValue = n.key)
    (hne : n.metalist ≠ [] → n.child_num ≠ none) : ∃ r, n.wholeRequest = some r ∧ r.tag = n.tag ∧ Asking r ∧
      r.child_num.getD 0 = 0 ∧ (n.metalist ≠ [] → r.key = n.key) ∧ (n.metalist = [] → r.key.val = []) := by
  by_cases hm : n.metalist = []
  · refine ⟨initNode n.tag (.varint 1) true 0 false, ?_, rfl, ?_, rfl, fun h => absurd hm h, fun _ => rfl⟩
    · rw [wholeRequest, if_pos (.inr hm), newNode, if_neg h0]
      rfl
    · show ¬ (!false && decide ((1 : UInt64) = 0)) = true
      decide
  · obtain ⟨r, hr, htag, hk, hs, hnum, _, _⟩ := newTree_spec h0 n.key.getValue
    refine ⟨r, ?_, htag, asking_of_isString hs, by rw [hnum]; rfl, fun _ => hk.trans hkey,
      fun h => absurd h hm⟩
    rw [wholeRequest, if_neg (not_or.mpr ⟨hne hm, hm⟩), hr]
    rfl

/-- What a node that was read becomes when it is expanded: the index is right, and the children are
    such nodes again. -/
theorem Twin.expanded {n : KnvNode} (h : Twin n n) (p : Bool)
    (hnum : (n.innerExpand p false).child_num.getD 0 ≠ 0) : Indexed (n.innerExpand p false) ∧
      ∀ c ∈ (n.innerExpand p false).childlist, Twin c c ∧ c.tag ≠ 0 ∧ c.metalist = [] := by
  obtain ⟨f, r, k₀, _, hn, _, _⟩ := h
  rw [innerExpand_initNode _ _ _ _ _ p false n hn] at hnum ⊢
  have hgrown : Grown false { n.initChildList (some 0) with child_has_key := false } n [] := by
    apply grown_nil
    case hht =>
      rw [hn]
      rfl
    all_goals rfl
  have hzero : ({ n.initChildList (some 0) with child_has_key := false } : KnvNode).child_num.getD 0 = 0 :=
    rfl
  generalize ({ n.initChildList (some 0) with child_has_key := false } : KnvNode) = b at *
  rw [expandTail] at hnum ⊢
  split at hnum
  · exact absurd hzero hnum
  · rename_i hs
    rw [if_neg hs]
    split at hnum
    · exact absurd hzero hnum
    · rename_i h1
      rw [if_neg h1]
      cases hf : pbFields b.str with
      | none =>
        rw [hf] at hnum
        exact absurd hzero hnum
      | some q =>
        obtain ⟨fs, eom⟩ := q
        rw [hf] at hnum
        cases eom with
        | false => exact absurd rfl hnum
        | true =>
          have hall := hgrown.foldl fs
          refine ⟨hall.indexed.congr rfl rfl rfl rfl rfl, fun c hc => ?_⟩
          obtain ⟨g, hg, i, rfl⟩ := forall₂_mem hall.childlist hc
          refine ⟨⟨g, i, false, false, rfl, rfl, .inl rfl⟩, ?_, rfl⟩
          have hmeta := (List.mem_filter.mp hg).2
          intro h0
          replace h0 : g.1.tag = 0 := h0
          rw [isMeta, h0] at hmeta
          revert hmeta
          decide

/-- What expanding leaves of a node that was read. -/
theorem metalist_of_twin {n n' : KnvNode} (h : Twin n n') : n.metalist = [] := by
  obtain ⟨f, r, k, _, rfl, _, _⟩ := h
  rfl

/-- A node that was read can be copied, expanded or not. -/
theorem Face.copied {n d : KnvNode} (h : Twin n n) (h0 : n.tag ≠ 0) (hface : Face n d) :
    ∃ out, d.copyWithKey = some out ∧ CopyOf d out := by
  have hval_sz : n.str = [] → n.eval_val_sz = 0 := by
    obtain ⟨f, r, k, _, rfl, _, _⟩ := h
    intro hs
    show ((f.1.val.str.length : Nat) : Int) = 0
    replace hs : f.1.val.str = [] := hs
    rw [hs]
    rfl
  have hdup : n.innerDuplicate true = some (initNode n.tag n.val true n.eval_sz.toNat true) := by
    rw [h.face.plain.innerDuplicate, if_neg]
    rintro ⟨⟨_, hs⟩, ht | hv⟩
    · exact h0 ht
    · exact hv (hval_sz hs)
  rw [hface.copyWithKey, KnvNode.copyWithKey, hdup, Option.map_some]
  refine ⟨_, rfl, ?_⟩
  split
  · refine ⟨hface.tag.symm, ?_, hface.val.symm⟩
    rw [hface.key]
  · refine ⟨hface.tag.symm, ?_, hface.val.symm⟩
    rename_i hk
    rw [hface.key, not_not.mp hk, key_initNode_mode]
    rfl

/-- The request is made of the key, and the key goes with it. -/
theorem AskedHead.of_key {l : Nat} {d r : KnvNode} (htag : r.tag = d.tag) (hask : Asking r)
    (hkey : r.key = d.key) (hb : d.key.val ≠ [] → ByKey l d) : AskedHead l d r := by
  refine ⟨htag, hask, fun _ => hkey, fun hn => ?_⟩
  rw [hkey]
  by_contra hne
  exact hn (hb hne)

theorem requestTree_zero {p : Bool} {n : KnvNode} (h : Twin n n) (h0 : n.tag ≠ 0) :
    (n.requestTree 0 p).1 = n ∧ ∃ r, (n.requestTree 0 p).2 = some r ∧ Asked 0 n r := by
  have hm := metalist_of_twin h
  obtain ⟨r, hr, htag, hask, hnum, _, hkey⟩ :=
    wholeRequest_spec h0 (key_of_twin h) fun hne => absurd hm hne
  refine ⟨rfl, r, ?_, ⟨htag, hask, fun hb => absurd rfl hb.2.1, fun _ => hkey hm⟩, hnum⟩
  rw [requestTree, if_neg h0, hr]

theorem deepened_succ (l : Nat) (p : Bool) (n : KnvNode) : deepened (l + 1) p n =
    { n.innerExpand p false with
      childlist := (n.innerExpand p false).childlist.map (deepened l (n.key.val ≠ [])) } := by
  rw [deepened, (sameFace_innerExpand n p false).2.2]

theorem Twin.face_deepened {n : KnvNode} (h : Twin n n) (l : Nat) (p : Bool) :
    Face n (deepened l p n) := by
  cases l with
  | zero => exact h.face
  | succ l =>
    rw [deepened_succ]
    exact (h.face.opened p false).with_list _

/-- The data that is left is expanded, and the request is made of it. -/
structure MakesRequest (l : Nat) (p : Bool) (n : KnvNode) : Prop where
  data : (n.requestTree l p).1 = deepened l p n
  deep : Deep l (deepened l p n)
  req : ∃ r, (n.requestTree l p).2 = some r ∧ Asked l (deepened l p n) r

/-- There is nothing to go into. -/
theorem makesRequest_childless {l : Nat} {p : Bool} {n : KnvNode} (h : Twin n n) (h0 : n.tag ≠ 0)
    (hnil : (n.innerExpand p false).childlist = []) : MakesRequest (l + 1) p n := by
  obtain ⟨_, htag', hkey'⟩ := sameFace_innerExpand n p false
  have hlisted := (h.children p false).1
  have hsame : deepened (l + 1) p n = n.innerExpand p false := by
    rw [deepened_succ, hnil, List.map_nil, ← hnil]
    cases n.innerExpand p false
    rfl
  have hface := h.face_deepened (l + 1) p
  have hnum : (n.innerExpand p false).child_num.getD 0 = 0 := by
    rw [hlisted.child_num, hnil]
    rfl
  have hinit : KnvKey.init (n.innerExpand p false).key.getValue = (n.innerExpand p false).key := by
    rw [hkey']
    exact key_of_twin h
  obtain ⟨r, hr, htag, hask, hnum', hkey, hnone⟩ := wholeRequest_spec (by rw [htag']; exact h0) hinit
    fun _ => innerExpand_num n p false
  have hreq : n.requestTree (l + 1) p = (n.innerExpand p false, some r) := by
    rw [requestTree, if_neg h0]
    simp only [if_pos hnum]
    rw [hr]
  refine ⟨by rw [hreq, hsame], ⟨Face.copied h h0 hface, ?_, ?_, ?_⟩, r, by rw [hreq], ?_⟩
  · rw [hsame]
    exact hlisted.child_num
  · exact fun hne => absurd (by rw [hsame]; exact hnil) hne
  · rw [hsame, hnil]
    exact fun c hc => absurd hc List.not_mem_nil
  · rw [hsame]
    refine ⟨⟨htag, hask, fun hb => ?_, fun hb => ?_⟩, ?_⟩
    · exact hkey (hb.2.2.resolve_left fun hne => hne hnil)
    · by_cases hm : (n.innerExpand p false).metalist = []
      · exact hnone hm
      · rw [hkey hm]
        by_contra hne
        exact hb ⟨hne, Nat.succ_ne_zero l, .inr hm⟩
    · rw [if_pos hnil]
      exact hnum'

/-- Every child makes a request. -/
theorem makesRequest_inner {l : Nat} {p : Bool} {n : KnvNode} (h : Twin n n) (h0 : n.tag ≠ 0)
    (hnil : (n.innerExpand p false).childlist ≠ [])
    (hsub : ∀ c ∈ (n.innerExpand p false).childlist, Twin c c ∧ MakesRequest l (n.key.val ≠ []) c) :
    MakesRequest (l + 1) p n := by
  obtain ⟨_, htag', hkey'⟩ := sameFace_innerExpand n p false
  have hlisted := (h.children p false).1
  have hface := h.face_deepened (l + 1) p
  have hlen : (n.innerExpand p false).childlist.length ≠ 0 :=
    fun h0 => hnil (List.length_eq_zero_iff.mp h0)
  have hnum : (n.innerExpand p false).child_num.getD 0 ≠ 0 := by
    rw [hlisted.child_num]
    exact hlen
  have hlist : (deepened (l + 1) p n).childlist =
      (n.innerExpand p false).childlist.map (deepened l (n.key.val ≠ [])) := by
    rw [deepened_succ]
  have hnil' : (deepened (l + 1) p n).childlist ≠ [] := by
    rw [hlist]
    exact fun hm => hnil (List.map_eq_nil_iff.mp hm)
  have hsame : SameIndex (n.innerExpand p false) (deepened (l + 1) p n) := by
    rw [deepened_succ]
    refine ⟨rfl, rfl, Nat.le_refl _, ?_, rfl⟩
    rw [List.map_map]
    exact List.map_congr_left fun c hc => ((hsub c hc).1.face_deepened l _).ident
  have hidx := hsame.indexed (h.expanded p hnum).1
  obtain ⟨t, ht, htt, htk, hts, htn, htc, htm⟩ := @newTree_spec (n.innerExpand p false).tag
    (by rw [htag']; exact h0) n.key.getValue
  obtain ⟨rs, t', he, hrs, hrec⟩ := @makeRequests_spec (requestTree l (n.key.val ≠ [])) (some t)
    (n.innerExpand p false).childlist t hts fun c hc hnone => by
      obtain ⟨r, hr, _⟩ := (hsub c hc).2.req
      rw [hr] at hnone
      cases hnone
  have hmap : ((n.innerExpand p false).childlist.map fun c =>
      (c.requestTree l (n.key.val ≠ [])).1) =
      (n.innerExpand p false).childlist.map (deepened l (n.key.val ≠ [])) :=
    List.map_congr_left fun c hc => (hsub c hc).2.data
  -- the first child makes the tree
  have hstart : makeRequests (requestTree l (n.key.val ≠ [])) (some t)
      (n.innerExpand p false).childlist none = makeRequests (requestTree l (n.key.val ≠ []))
      (some t) (n.innerExpand p false).childlist (some t) := by
    obtain ⟨c, cs, hcs⟩ := List.exists_cons_of_ne_nil hnil
    rw [hcs]
    rfl
  have hreq : n.requestTree (l + 1) p = (deepened (l + 1) p n, some t') := by
    rw [requestTree, if_neg h0]
    simp only [if_neg hnum]
    rw [hkey', ht]
    simp only [Except.toOption, hstart, he]
    rw [hmap, deepened_succ]
  refine ⟨by rw [hreq], ⟨Face.copied h h0 hface, hidx.child_num, fun _ => hidx, ?_⟩, t', by rw [hreq],
    AskedHead.of_key ?_ ?_ ?_ ?_, ?_⟩
  · rw [hlist]
    intro c hc
    obtain ⟨c₀, hc₀, rfl⟩ := List.mem_map.mp hc
    exact (hsub c₀ hc₀).2.deep
  · exact hrec.tag.trans (htt.trans (htag'.trans hface.tag.symm))
  · exact asking_of_isString (hrec.isString.trans hts)
  · exact hrec.key.trans (htk.trans ((key_of_twin h).trans hface.key.symm))
  · exact fun hne => ⟨hne, Nat.succ_ne_zero l, .inl hnil'⟩
  · rw [if_neg hnil', hlist]
    obtain ⟨ss, hss, hforall⟩ := hrec.childlist
    refine ⟨?_, ?_, ?_⟩
    · rw [hrec.child_num, htn]
      show 0 + rs.length ≠ 0
      have := hrs.length_eq
      omega
    · rw [hrec.metalist]
      exact htm
    · rw [hss, htc, List.nil_append, List.forall₂_map_left_iff]
      refine forall₂_comp (((List.forall₂_and_left _ _).mpr ⟨fun c hc => hc, hrs⟩)) hforall ?_
      rintro c r s ⟨hc, hr⟩ hs
      obtain ⟨r', hr', ha⟩ := (hsub c hc).2.req
      rw [hr] at hr'
      cases hr'
      rw [hs]
      exact ha.with_ref _

/-- **Every node that was read makes its request.** -/
theorem requestTree_spec (l : Nat) : ∀ (p : Bool) {n : KnvNode}, Twin n n → n.tag ≠ 0 →
    MakesRequest l p n := by
  induction l with
  | zero =>
    intro p n h h0
    obtain ⟨hdata, hr⟩ := requestTree_zero (p := p) h h0
    exact ⟨hdata, Face.copied h h0 h.face, hr⟩
  | succ l ih =>
    intro p n h h0
    by_cases hnil : (n.innerExpand p false).childlist = []
    · exact makesRequest_childless h h0 hnil
    · refine makesRequest_inner h h0 hnil fun c hc => ?_
      obtain ⟨_, hkids⟩ := h.expanded p (by
        rw [(h.children p false).1.child_num]
        exact fun h0 => hnil (List.length_eq_zero_iff.mp h0))
      obtain ⟨htwin, htag, _⟩ := hkids c hc
      exact ⟨htwin, ih _ htwin htag⟩

end KnvNode

end MysqlProxy
