/-
  A tree that is asked for by its own request.

  The data has been expanded when its request was made, so that `GetSubTree` changes nothing in it
  (`Made.settles`).  A sub-request is answered by each child it is matched with, and what they answer
  hangs in `out` in this order (`answer_iff`).

  * `Mirror l d out`: `out` holds every child of every visited node of `d` as often as `d` does.
  * `Alone`, `Distinct`: on every level, no child that is asked for without a key shares its tag, and no
    two that are asked for with a key share tag and key.
  * `selectsItself_iff`: where the keys are distinct, a tree is its own selection if and only if those
    that are asked for without a key are alone.
-/
import MysqlProxy.Knv.RequestTree

namespace MysqlProxy

namespace KnvNode

/-! ## The selection -/

/-- `out` holds every child of the `l` levels of `d` as often as `d` does, in some order. -/
def Mirror : Nat → KnvNode → KnvNode → Prop
  | 0, d, out => CopyOf d out
  | l + 1, d, out =>
    if d.childlist = [] then CopyOf d out
    else out.tag = d.tag ∧ out.key.val = d.key.val ∧
      ∃ os : List KnvNode, os.Perm out.childlist ∧ List.Forall₂ (Mirror l) d.childlist os

/-- A child that is asked for without a key is the only one with its tag. -/
def TagsAlone (l : Nat) (d : KnvNode) : Prop :=
  ∀ c ∈ d.childlist, ¬ ByKey l c → ∀ c' ∈ d.childlist, c'.tag = c.tag → c'.ref = c.ref

/-- Children that are asked for with a key differ in tag or key. -/
def KeysDistinct (l : Nat) (d : KnvNode) : Prop :=
  ∀ c ∈ d.childlist, ByKey l c → ∀ c' ∈ d.childlist, ByKey l c' → c'.tag = c.tag →
    c'.key.val = c.key.val → c'.ref = c.ref

def Alone : Nat → KnvNode → Prop
  | 0, _ => True
  | l + 1, d => TagsAlone l d ∧ ∀ c ∈ d.childlist, Alone l c

def Distinct : Nat → KnvNode → Prop
  | 0, _ => True
  | l + 1, d => KeysDistinct l d ∧ ∀ c ∈ d.childlist, Distinct l c

instance (l : Nat) (d : KnvNode) : Decidable (ByKey l d) :=
  inferInstanceAs (Decidable (_ ∧ _ ∧ _))

instance (l : Nat) (d : KnvNode) : Decidable (TagsAlone l d) :=
  inferInstanceAs (Decidable (∀ c ∈ _, _))

instance (l : Nat) (d : KnvNode) : Decidable (KeysDistinct l d) :=
  inferInstanceAs (Decidable (∀ c ∈ _, _))

instance decidableAlone : (l : Nat) → (d : KnvNode) → Decidable (Alone l d)
  | 0, _ => isTrue trivial
  | l + 1, d =>
    have := decidableAlone l
    inferInstanceAs (Decidable (TagsAlone l d ∧ ∀ c ∈ d.childlist, Alone l c))

instance decidableDistinct : (l : Nat) → (d : KnvNode) → Decidable (Distinct l d)
  | 0, _ => isTrue trivial
  | l + 1, d =>
    have := decidableDistinct l
    inferInstanceAs (Decidable (KeysDistinct l d ∧ ∀ c ∈ d.childlist, Distinct l c))

/-- The request that the tree makes for itself is answered, nothing is missing, and what it gets is the
    tree. -/
def SelectsItself (n : KnvNode) (L : Nat) : Prop :=
  ∃ req out, (n.makeRequestTree L).2 = some req ∧
    (n.makeRequestTree L).1.getSubTree req false = ((n.makeRequestTree L).1, .ok (some out, none)) ∧
    Mirror (L + 1) (n.makeRequestTree L).1 out

theorem Mirror.head {l : Nat} {d out : KnvNode} (h : Mirror l d out) :
    out.tag = d.tag ∧ out.key.val = d.key.val := by
  cases l with
  | zero => exact ⟨CopyOf.tag h, CopyOf.key h⟩
  | succ l =>
    rw [Mirror] at h
    split at h
    · exact ⟨h.tag, h.key⟩
    · exact ⟨h.1, h.2.1⟩

theorem CopyOf.with_ref {d out : KnvNode} (h : CopyOf d out) (i : Nat) :
    CopyOf d { out with ref := i } := ⟨h.tag, h.key, h.val⟩

/-- Where a tree hangs does not matter. -/
theorem Mirror.with_ref {l : Nat} {d out : KnvNode} (h : Mirror l d out) (i : Nat) :
    Mirror l d { out with ref := i } := by
  cases l with
  | zero => exact CopyOf.with_ref h i
  | succ l =>
    rw [Mirror] at h ⊢
    split at h
    · rw [if_pos ‹_›]
      exact h.with_ref i
    · rw [if_neg ‹_›]
      exact h

theorem Mirror.of_ref {l : Nat} {d out : KnvNode} {i : Nat} (h : Mirror l d { out with ref := i }) :
    Mirror l d out := by
  have h' := h.with_ref out.ref
  cases out
  exact h'

/-! ## The answer to a request -/

/-- A request that was made: it goes down `l` levels at most, and asks for no meta but the key. -/
def Made : Nat → KnvNode → Prop
  | 0, r => Asking r ∧ r.child_num.getD 0 = 0
  | l + 1, r => Asking r ∧ (r.child_num.getD 0 = 0 ∨
      (∀ m ∈ r.metalist, m.tag = 1) ∧ r.childlist ≠ [] ∧ ∀ s ∈ r.childlist, Made l s)

theorem Asked.made {l : Nat} : ∀ {d r : KnvNode}, Asked l d r → Made l r := by
  induction l with
  | zero => exact fun h => ⟨h.1.asking, h.2⟩
  | succ l ih =>
    intro d r h
    refine ⟨h.1.asking, ?_⟩
    have h2 := h.2
    split at h2
    · exact .inl h2
    · rename_i hnil
      obtain ⟨_, hmeta, hkids⟩ := h2
      refine .inr ⟨hmeta, fun hr => ?_, fun s hs => ?_⟩
      · rw [hr, List.forall₂_nil_right_iff] at hkids
        exact hnil hkids
      · obtain ⟨c, _, ha⟩ := forall₂_mem hkids.flip hs
        exact ih ha

theorem requestMeta_key {data : KnvNode} {ms : List KnvNode} (h : ∀ m ∈ ms, m.tag = 1)
    (out : Option KnvNode) : ms.foldlM (requestMeta data) out = .ok out := by
  induction ms with
  | nil => rfl
  | cons m ms ih =>
    rw [List.foldlM_cons, requestMeta, if_neg fun hc => hc.1 (h m List.mem_cons_self)]
    exact ih fun x hx => h x (List.mem_cons_of_mem _ hx)

section Answer

variable {r d : KnvNode} (p : Bool)

/-- A request without children takes the whole node. -/
theorem answer_whole (hask : Asking r) (hnum : r.child_num.getD 0 = 0) :
    innerGetSubTree false r p d = match d.copyWithKey with
      | none => (d, .error (-2))
      | some out => (d, .ok (some out, none)) := by
  obtain ⟨r, ms, cs⟩ := r
  rw [innerGetSubTree]
  simp only
  rw [if_neg hask]
  exact if_pos hnum

/-- A request for children finds none. -/
theorem answer_childless (hask : Asking r) (hnum : r.child_num.getD 0 ≠ 0)
    (hd : d.child_num = some 0) : innerGetSubTree false r p d = match r.copyWithKey with
      | none => (d, .error (-3))
      | some empty => (d, .ok (none, some empty)) := by
  have hexp : ∀ k, d.innerExpand p k = d := innerExpand_expanded (fun h => by
    rw [h] at hd
    cases hd) p
  obtain ⟨r, ms, cs⟩ := r
  rw [innerGetSubTree]
  simp only
  rw [if_neg hask, if_neg hnum, hexp]
  exact if_pos (congrArg (Option.getD · 0) hd)

/-- A request for children is answered by the loop. -/
theorem answer_inner (hask : Asking r) (hnum : r.child_num.getD 0 ≠ 0)
    (hmeta : ∀ m ∈ r.metalist, m.tag = 1) (hd : d.child_num.getD 0 ≠ 0) :
    innerGetSubTree false r p d = match subRequests false r r.childlist ⟨d, none, none⟩ with
      | .error (code, data) => (data, .error code)
      | .ok st => (st.data, .ok (st.out.map closed, st.empty.map closed)) := by
  have hexp : ∀ k, d.innerExpand p k = d := innerExpand_expanded (fun h => by
    rw [h] at hd
    exact hd rfl) p
  have hout := @requestMeta_key d r.metalist hmeta none
  obtain ⟨r, ms, cs⟩ := r
  rw [innerGetSubTree]
  simp only
  rw [if_neg hask, if_neg hnum, hexp, if_neg hd]
  replace hout : ms.foldlM (requestMeta d) none = .ok none := hout
  generalize ms.foldlM (requestMeta d) none = q at hout ⊢
  subst hout
  rfl

end Answer

/-! ### Whom a sub-request is matched with -/

theorem Indexed.keyless {d : KnvNode} (h : Indexed d) (hflag : d.child_has_key = false) :
    ∀ c ∈ d.childlist, c.key.val = [] := by
  intro c hc
  by_contra hk
  rw [h.child_has_key c hc hk] at hflag
  cases hflag

/-- Without a key: all children with the tag. -/
theorem Indexed.matchRefs_byTag {d s : KnvNode} (h : Indexed d) (hs : s.key.val = []) :
    (d.matchRefs s).Perm ((d.childlist.filter fun c => c.tag = s.tag).map fun c => c.ref) := by
  rw [matchRefs, if_neg (not_not_intro hs)]
  cases hflag : d.child_has_key with
  | true => exact List.Perm.refl _
  | false =>
    rw [← filter_childView h.nodup]
    refine h.ht.chain_perm h.nodup (fun r hr => ?_) s.tag
    obtain ⟨c, hc, rfl⟩ := List.mem_map.mp hr
    rw [childView_of_mem h.nodup hc]
    exact h.keyless hflag c hc

/-- With a key: a child with this tag and this key. -/
theorem Indexed.matchRefs_byKey {d s : KnvNode} (h : Indexed d) (hs : s.key.val ≠ []) {r : Nat}
    (hr : r ∈ d.matchRefs s) : d.matchRefs s = [r] ∧
      ∃ c ∈ d.childlist, c.ref = r ∧ c.tag = s.tag ∧ c.key.val = s.key.val := by
  rw [matchRefs, if_pos hs] at hr ⊢
  have hget := Option.mem_toList.mp hr
  obtain ⟨hmem, hview⟩ := h.ht.get_some _ hget
  obtain ⟨c, hc, rfl⟩ := List.mem_map.mp hmem
  rw [childView_of_mem h.nodup hc, Prod.mk.injEq] at hview
  exact ⟨congrArg Option.toList hget, c, hc, rfl, hview⟩

theorem Indexed.matchRefs_mem {d s : KnvNode} (h : Indexed d) {r : Nat} (hr : r ∈ d.matchRefs s) :
    ∃ c ∈ d.childlist, c.ref = r := by
  by_cases hs : s.key.val = []
  · obtain ⟨c, hc, rfl⟩ := List.mem_map.mp ((h.matchRefs_byTag hs).mem_iff.mp hr)
    exact ⟨c, List.mem_of_mem_filter hc, rfl⟩
  · obtain ⟨_, c, hc, href, _⟩ := h.matchRefs_byKey hs hr
    exact ⟨c, hc, href⟩

/-! ### The data stays as it is -/

/-- The children stay as they are, and none is passed over in silence. -/
def Settles (d : KnvNode) (get : KnvNode → SubTrees) : Prop :=
  ∀ c ∈ d.childlist, (get c).1 = c ∧ (get c).2 ≠ .ok (none, none)

/-- A loop ends with the data as it was, with a tree in the making if it had anything to do, and with
    something missing if something was. -/
inductive Settled (d : KnvNode) (busy missing : Prop) : Except (Int × KnvNode) Found → Prop
  | error (code : Int) : Settled d busy missing (.error (code, d))
  | ok {out empty : Option KnvNode} (h : busy → out ≠ none ∨ empty ≠ none)
      (hmissing : missing → empty ≠ none) : Settled d busy missing (.ok ⟨d, out, empty⟩)

theorem replaceRef_self {c : KnvNode} {l : List KnvNode} (hnd : (l.map fun x => x.ref).Nodup)
    (hc : c ∈ l) : replaceRef c l = l := by
  rw [replaceRef]
  refine (List.map_congr_left fun x hx => ?_).trans (List.map_id l)
  split
  · exact (List.inj_on_of_nodup_map hnd hx hc ‹_›).symm
  · rfl

theorem collected_none {from_ : KnvNode} {tree o : Option KnvNode} :
    collected from_ tree o = none ↔ tree = none ∧ o = none := by
  cases o with
  | none => exact (and_iff_left rfl).symm
  | some o => exact iff_of_false (Option.some_ne_none _) fun h => Option.some_ne_none _ h.2

section Loops

variable {d : KnvNode} (req : KnvNode)

theorem visit_settled (hnd : (d.childlist.map fun x => x.ref).Nodup) {get : KnvNode → SubTrees} (hget : Settles d get) {c : KnvNode}
    (hc : c ∈ d.childlist) (out empty : Option KnvNode) :
    visit false req get ⟨d, out, empty⟩ c.ref = match (get c).2 with
      | .error _ => .error (-2, d)
      | .ok (o, e) => .ok ⟨d, collected d out o, collected req empty e⟩ := by
  have hsame : ({ d with childlist := replaceRef c d.childlist } : KnvNode) = d := by
    rw [replaceRef_self hnd hc]
    cases d
    rfl
  rw [visit]
  simp only [findRef_of_mem hnd hc, (hget c hc).1, hsame]
  rfl

theorem settled_visits (hnd : (d.childlist.map fun x => x.ref).Nodup) {get : KnvNode → SubTrees}
    (hget : Settles d get) (refs : List Nat)
    (hrefs : ∀ r ∈ refs, ∃ c ∈ d.childlist, c.ref = r) : ∀ (out empty : Option KnvNode),
    Settled d (refs ≠ [] ∨ out ≠ none ∨ empty ≠ none) (empty ≠ none)
      (refs.foldlM (visit false req get) ⟨d, out, empty⟩) := by
  induction refs with
  | nil => exact fun out empty => .ok (fun h => h.resolve_left fun hne => hne rfl) id
  | cons r refs ih =>
    intro out empty
    obtain ⟨c, hc, rfl⟩ := hrefs _ List.mem_cons_self
    rw [List.foldlM_cons, visit_settled req hnd hget hc]
    have hsome := (hget c hc).2
    generalize (get c).2 = q at hsome ⊢
    cases q with
    | error code => exact .error _
    | ok oe =>
      obtain ⟨o, e⟩ := oe
      have hst : collected d out o ≠ none ∨ collected req empty e ≠ none := by
        rw [Ne, collected_none, Ne, collected_none]
        by_contra hboth
        obtain ⟨h1, h2⟩ := not_or.mp hboth
        exact hsome (by rw [(not_not.mp h1).2, (not_not.mp h2).2])
      have hrest := ih (fun r hr => hrefs r (List.mem_cons_of_mem _ hr)) (collected d out o)
        (collected req empty e)
      show Settled _ _ _ (refs.foldlM (visit false req get)
        ⟨d, collected d out o, collected req empty e⟩)
      generalize refs.foldlM (visit false req get) ⟨d, collected d out o, collected req empty e⟩ = q
        at hrest ⊢
      cases hrest with
      | error code => exact .error code
      | ok h hmissing =>
        exact .ok (fun _ => h (.inr hst)) fun he => hmissing fun hc => he (collected_none.mp hc).1

theorem settled_subRequests (h : Indexed d) (l : List KnvNode)
    (hget : ∀ s ∈ l, Settles d (innerGetSubTree false s (d.key.val ≠ []))) :
    ∀ (out empty : Option KnvNode), Settled d (l ≠ [] ∨ out ≠ none ∨ empty ≠ none) (empty ≠ none)
      (subRequests false req l ⟨d, out, empty⟩) := by
  induction l with
  | nil =>
    intro out empty
    rw [subRequests]
    exact .ok (fun h => h.resolve_left fun hne => hne rfl) id
  | cons s l ih =>
    intro out empty
    rw [subRequests]
    simp only
    have hfirst : Settled d True (empty ≠ none) (if d.matchRefs s = [] then missed false req s ⟨d, out, empty⟩
        else (d.matchRefs s).foldlM (visit false req (innerGetSubTree false s (d.key.val ≠ [])))
          ⟨d, out, empty⟩) := by
      split
      · rw [missed, if_neg Bool.false_ne_true]
        cases s.innerDuplicate true with
        | none => exact .error _
        | some c => exact .ok (fun _ => .inr (Option.some_ne_none _)) fun _ => Option.some_ne_none _
      · rename_i hne
        have hv := settled_visits req h.nodup (hget s List.mem_cons_self) (d.matchRefs s)
          (fun r hr => h.matchRefs_mem hr) out empty
        generalize (d.matchRefs s).foldlM (visit false req (innerGetSubTree false s (d.key.val ≠ [])))
          ⟨d, out, empty⟩ = q at hv ⊢
        cases hv with
        | error code => exact .error code
        | ok h hmissing => exact .ok (fun _ => h (.inl hne)) hmissing
    generalize (if d.matchRefs s = [] then missed false req s ⟨d, out, empty⟩
      else (d.matchRefs s).foldlM (visit false req (innerGetSubTree false s (d.key.val ≠ [])))
        ⟨d, out, empty⟩) = q at hfirst ⊢
    cases hfirst with
    | error code => exact .error code
    | @ok out' empty' hst hmissing =>
      have hrest := ih (fun x hx => hget x (List.mem_cons_of_mem _ hx)) out' empty'
      show Settled _ _ _ (subRequests false req l ⟨d, out', empty'⟩)
      generalize subRequests false req l ⟨d, out', empty'⟩ = q at hrest ⊢
      cases hrest with
      | error code => exact .error code
      | ok h hmissing' => exact .ok (fun _ => h (.inr (hst trivial))) fun he => hmissing' (hmissing he)

/-! ### What hangs in `out` -/

/-- A tree that was found is hung into `out`. -/
def hang (d : KnvNode) (out : Option KnvNode) (o : KnvNode) : Option KnvNode := collected d out (some o)

/-- The trees with which a sub-request is answered, one for each child. -/
def Answered (d s : KnvNode) (os : List KnvNode) : Prop :=
  os ≠ [] ∧ List.Forall₂ (fun r o => ∃ c ∈ d.childlist, c.ref = r ∧
    (innerGetSubTree false s (d.key.val ≠ []) c).2 = .ok (some o, none)) (d.matchRefs s) os

theorem visits_iff (hnd : (d.childlist.map fun x => x.ref).Nodup) {get : KnvNode → SubTrees}
    (hget : Settles d get) (refs : List Nat) (hrefs : ∀ r ∈ refs, ∃ c ∈ d.childlist, c.ref = r) :
    ∀ (out out' : Option KnvNode),
    refs.foldlM (visit false req get) ⟨d, out, none⟩ = .ok ⟨d, out', none⟩ ↔
      ∃ os, List.Forall₂ (fun r o => ∃ c ∈ d.childlist, c.ref = r ∧ (get c).2 = .ok (some o, none)) refs
        os ∧ out' = os.foldl (hang d) out := by
  induction refs with
  | nil =>
    intro out out'
    rw [List.foldlM_nil]
    constructor
    · intro h
      cases h
      exact ⟨[], .nil, rfl⟩
    · rintro ⟨os, hos, rfl⟩
      cases hos
      rfl
  | cons r refs ih =>
    intro out out'
    obtain ⟨c, hc, rfl⟩ := hrefs _ List.mem_cons_self
    have hrefs' := fun r hr => hrefs r (List.mem_cons_of_mem c.ref hr)
    rw [List.foldlM_cons, visit_settled req hnd hget hc]
    constructor
    · intro h
      have hsome := (hget c hc).2
      generalize hq : (get c).2 = q at hsome h
      cases q with
      | error code => cases h
      | ok oe =>
        obtain ⟨o, e⟩ := oe
        replace h : refs.foldlM (visit false req get) ⟨d, collected d out o, collected req none e⟩ =
          .ok ⟨d, out', none⟩ := h
        have hrest := settled_visits req hnd hget refs hrefs' (collected d out o)
          (collected req none e)
        rw [h] at hrest
        cases hrest with
        | ok _ hmissing =>
          cases e with
          | some e => exact absurd rfl (hmissing (Option.some_ne_none _))
          | none =>
            cases o with
            | none => exact absurd rfl hsome
            | some o =>
              obtain ⟨os, hos, rfl⟩ := (ih hrefs' _ _).mp h
              exact ⟨o :: os, .cons ⟨c, hc, rfl, hq⟩ hos, rfl⟩
    · rintro ⟨os, hos, rfl⟩
      cases hos with
      | @cons _ o _ os ho hos =>
        obtain ⟨c', hc', href, ho⟩ := ho
        rw [List.inj_on_of_nodup_map hnd hc' hc href] at ho
        rw [ho]
        exact (ih hrefs' (hang d out o) _).mpr ⟨os, hos, rfl⟩

theorem subRequests_iff (h : Indexed d) (l : List KnvNode)
    (hget : ∀ s ∈ l, Settles d (innerGetSubTree false s (d.key.val ≠ []))) :
    ∀ (out out' : Option KnvNode), subRequests false req l ⟨d, out, none⟩ = .ok ⟨d, out', none⟩ ↔
      ∃ oss, List.Forall₂ (Answered d) l oss ∧ out' = oss.flatten.foldl (hang d) out := by
  induction l with
  | nil =>
    intro out out'
    rw [subRequests]
    constructor
    · intro h
      cases h
      exact ⟨[], .nil, rfl⟩
    · rintro ⟨oss, hoss, rfl⟩
      cases hoss
      rfl
  | cons s l ih =>
    intro out out'
    have hget' := fun x hx => hget x (List.mem_cons_of_mem s hx)
    have hvisits := visits_iff req h.nodup (hget s List.mem_cons_self) (d.matchRefs s)
      fun r hr => h.matchRefs_mem hr
    rw [subRequests]
    simp only
    constructor
    · intro hrun
      by_cases hne : d.matchRefs s = []
      · -- something is missing, and remains so
        rw [if_pos hne, missed, if_neg Bool.false_ne_true] at hrun
        cases hdup : s.innerDuplicate true with
        | none =>
          rw [hdup] at hrun
          cases hrun
        | some c =>
          rw [hdup] at hrun
          replace hrun : subRequests false req l ⟨d, out, some (req.dupEmptyNode.insertQuiet c)⟩ =
            .ok ⟨d, out', none⟩ := hrun
          have hrest := settled_subRequests req h l hget' out (some (req.dupEmptyNode.insertQuiet c))
          rw [hrun] at hrest
          cases hrest with
          | ok _ hmissing => exact absurd rfl (hmissing (Option.some_ne_none _))
      · rw [if_neg hne] at hrun
        have hfirst := settled_visits req h.nodup (hget s List.mem_cons_self) (d.matchRefs s)
          (fun r hr => h.matchRefs_mem hr) out none
        generalize hq : (d.matchRefs s).foldlM (visit false req
          (innerGetSubTree false s (d.key.val ≠ []))) ⟨d, out, none⟩ = q at hfirst hrun
        cases hfirst with
        | error code => cases hrun
        | @ok out₁ empty₁ _ _ =>
          replace hrun : subRequests false req l ⟨d, out₁, empty₁⟩ = _ := hrun
          have hrest := settled_subRequests req h l hget' out₁ empty₁
          rw [hrun] at hrest
          cases hrest with
          | ok _ hmissing =>
            have hnone : empty₁ = none := by
              by_contra hc
              exact hmissing hc rfl
            subst hnone
            obtain ⟨os, hos, rfl⟩ := (hvisits _ _).mp hq
            obtain ⟨oss, hoss, rfl⟩ := (ih hget' _ _).mp hrun
            refine ⟨os :: oss, .cons ⟨fun hnil => hne ?_, hos⟩ hoss, ?_⟩
            · rw [hnil] at hos
              exact List.forall₂_nil_right_iff.mp hos
            · rw [List.flatten_cons, List.foldl_append]
    · rintro ⟨oss, hoss, rfl⟩
      cases hoss with
      | @cons _ os _ oss hos hoss =>
        have hne : d.matchRefs s ≠ [] := fun hnil => hos.1 (by
          have := hos.2
          rw [hnil] at this
          exact List.forall₂_nil_left_iff.mp this)
        rw [if_neg hne, (hvisits out _).mpr ⟨os, hos.2, rfl⟩, List.flatten_cons, List.foldl_append]
        exact (ih hget' _ _).mpr ⟨oss, hoss, rfl⟩

end Loops

theorem Deep.indexed {l : Nat} {d : KnvNode} (h : Deep (l + 1) d) (hne : d.childlist ≠ []) : Indexed d :=
  h.2.2.1 hne

/-- **A request that was made** leaves the data as it is, and is answered by `out` or `empty`. -/
theorem Made.settles (l : Nat) : ∀ {r d : KnvNode} (p : Bool), Made l r → Deep l d →
    (innerGetSubTree false r p d).1 = d ∧ (innerGetSubTree false r p d).2 ≠ .ok (none, none) := by
  have hwhole : ∀ {l : Nat} {r d : KnvNode} (p : Bool), Asking r → r.child_num.getD 0 = 0 → Deep l d →
      (innerGetSubTree false r p d).1 = d ∧ (innerGetSubTree false r p d).2 ≠ .ok (none, none) := by
    intro l r d p hask hnum hd
    obtain ⟨out, hout, _⟩ := hd.copied
    rw [answer_whole p hask hnum, hout]
    exact ⟨rfl, nofun⟩
  induction l with
  | zero => exact fun p hr hd => hwhole p hr.1 hr.2 hd
  | succ l ih =>
    intro r d p hr hd
    by_cases hnum : r.child_num.getD 0 = 0
    · exact hwhole p hr.1 hnum hd
    obtain ⟨hmeta, hne, hkids⟩ := hr.2.resolve_left hnum
    by_cases hnil : d.childlist = []
    · have hd0 : d.child_num = some 0 := by
        rw [hd.2.1, hnil]
        rfl
      rw [answer_childless p hr.1 hnum hd0]
      cases r.copyWithKey with
      | none => exact ⟨rfl, nofun⟩
      | some empty => exact ⟨rfl, nofun⟩
    · have hd0 : d.child_num.getD 0 ≠ 0 := by
        rw [hd.2.1]
        exact fun h0 => hnil (List.length_eq_zero_iff.mp h0)
      rw [answer_inner p hr.1 hnum hmeta hd0]
      have hloop := settled_subRequests r (hd.indexed hnil) r.childlist
        (fun s hs c hc => ih _ (hkids s hs) (hd.2.2.2 c hc)) none none
      generalize subRequests false r r.childlist ⟨d, none, none⟩ = q at hloop
      cases hloop with
      | error code => exact ⟨rfl, nofun⟩
      | @ok out empty h _ =>
        refine ⟨rfl, fun hboth => ?_⟩
        rw [Except.ok.injEq, Prod.mk.injEq, Option.map_eq_none_iff, Option.map_eq_none_iff] at hboth
        exact (h (.inl hne)).elim (fun h => h hboth.1) fun h => h hboth.2

theorem hang_some {d : KnvNode} (os : List KnvNode) : ∀ t : KnvNode, ∃ t', os.foldl (hang d) (some t) =
    some t' ∧ t'.tag = t.tag ∧ t'.key = t.key ∧ ∃ ss, t'.childlist = t.childlist ++ ss ∧
      List.Forall₂ (fun o s => s = { o with ref := s.ref }) os ss := by
  induction os with
  | nil => exact fun t => ⟨t, rfl, rfl, rfl, [], (List.append_nil _).symm, .nil⟩
  | cons o os ih =>
    intro t
    obtain ⟨t', ht', htag, hkey, ss, hlist, hss⟩ := ih (t.insertQuiet o)
    refine ⟨t', ht', htag, hkey, { o with ref := t.next_ref } :: ss, ?_, .cons rfl hss⟩
    rw [hlist]
    exact List.append_assoc _ _ _

/-- The tree that grows out of `DupEmptyNode`. -/
theorem hang_none {d : KnvNode} {os : List KnvNode} (hne : os ≠ []) : ∃ t, os.foldl (hang d) none =
    some t ∧ t.tag = d.tag ∧ t.key = d.key ∧
      List.Forall₂ (fun o s => s = { o with ref := s.ref }) os t.childlist := by
  obtain ⟨o, os, rfl⟩ := List.exists_cons_of_ne_nil hne
  obtain ⟨t, ht, htag, hkey, ss, hlist, hss⟩ := hang_some (d := d) os (d.dupEmptyNode.insertQuiet o)
  refine ⟨t, ht, htag, hkey, ?_⟩
  rw [hlist]
  exact .cons rfl hss

/-- **How a request for children is answered**, when nothing is missing. -/
theorem answer_iff {l : Nat} {r d : KnvNode} (p : Bool) (hr : Made (l + 1) r) (hd : Deep (l + 1) d)
    (hnum : r.child_num.getD 0 ≠ 0) (hne : d.childlist ≠ []) (out : KnvNode) :
    (innerGetSubTree false r p d).2 = .ok (some out, none) ↔
      ∃ oss t, List.Forall₂ (Answered d) r.childlist oss ∧ oss.flatten.foldl (hang d) none = some t ∧
        out = closed t := by
  obtain ⟨hmeta, hrne, hkids⟩ := hr.2.resolve_left hnum
  have hd0 : d.child_num.getD 0 ≠ 0 := by
    rw [hd.2.1]
    exact fun h0 => hne (List.length_eq_zero_iff.mp h0)
  have hget : ∀ s ∈ r.childlist, Settles d (innerGetSubTree false s (d.key.val ≠ [])) :=
    fun s hs c hc => Made.settles l _ (hkids s hs) (hd.2.2.2 c hc)
  have hiff := subRequests_iff r (hd.indexed hne) r.childlist hget none
  have hloop := settled_subRequests r (hd.indexed hne) r.childlist hget none none
  rw [answer_inner p hr.1 hnum hmeta hd0]
  generalize subRequests false r r.childlist ⟨d, none, none⟩ = q at hiff hloop
  cases hloop with
  | error code =>
    refine iff_of_false nofun ?_
    rintro ⟨oss, t, hoss, ht, _⟩
    exact absurd ((hiff (some t)).mpr ⟨oss, hoss, ht.symm⟩) nofun
  | @ok out' empty' _ _ =>
    constructor
    · intro h
      rw [Except.ok.injEq, Prod.mk.injEq, Option.map_eq_none_iff, Option.map_eq_some_iff] at h
      obtain ⟨⟨t, rfl, hout⟩, rfl⟩ := h
      obtain ⟨oss, hoss, ht⟩ := (hiff (some t)).mp rfl
      exact ⟨oss, t, hoss, ht.symm, hout.symm⟩
    · rintro ⟨oss, t, hoss, ht, rfl⟩
      have h := (hiff (some t)).mpr ⟨oss, hoss, ht.symm⟩
      rw [Except.ok.injEq, Found.mk.injEq] at h
      obtain ⟨_, rfl, rfl⟩ := h
      rfl

/-! ## A tree and its own request -/

theorem Asked.leaf {l : Nat} {d r : KnvNode} (h : Asked (l + 1) d r) (hnil : d.childlist = []) :
    r.child_num.getD 0 = 0 := by
  have h2 := h.2
  rw [if_pos hnil] at h2
  exact h2

theorem Asked.inner {l : Nat} {d r : KnvNode} (h : Asked (l + 1) d r) (hne : d.childlist ≠ []) :
    r.child_num.getD 0 ≠ 0 ∧ List.Forall₂ (Asked l) d.childlist r.childlist := by
  have h2 := h.2
  rw [if_neg hne] at h2
  exact ⟨h2.1, h2.2.2⟩

/-- The whole node is taken. -/
theorem Asked.whole {l : Nat} {d r : KnvNode} (p : Bool) (h : Asked l d r) (hd : Deep l d)
    (hnum : r.child_num.getD 0 = 0) : ∃ out, CopyOf d out ∧
      (innerGetSubTree false r p d).2 = .ok (some out, none) := by
  obtain ⟨out, hout, hcopy⟩ := hd.copied
  refine ⟨out, hcopy, ?_⟩
  rw [answer_whole p h.head.asking hnum, hout]

theorem answered_flatten {d : KnvNode} {rs : List KnvNode} {oss : List (List KnvNode)}
    (h : List.Forall₂ (Answered d) rs oss) (hne : rs ≠ []) : oss.flatten ≠ [] := by
  cases h with
  | nil => exact absurd rfl hne
  | cons hos _ =>
    rw [List.flatten_cons]
    exact fun hnil => hos.1 (List.append_eq_nil_iff.mp hnil).1

/-- What a request gets has the tag and the key of the data. -/
theorem Asked.answer_head {l : Nat} {d r out : KnvNode} (p : Bool) (h : Asked l d r) (hd : Deep l d)
    (hout : (innerGetSubTree false r p d).2 = .ok (some out, none)) :
    out.tag = d.tag ∧ out.key.val = d.key.val := by
  by_cases hnum : r.child_num.getD 0 = 0
  · obtain ⟨out', hcopy, hout'⟩ := h.whole p hd hnum
    rw [hout'] at hout
    cases hout
    exact ⟨hcopy.tag, hcopy.key⟩
  · cases l with
    | zero => exact absurd h.2 hnum
    | succ l =>
      have hne : d.childlist ≠ [] := fun hnil => hnum (h.leaf hnil)
      obtain ⟨oss, t, hoss, ht, rfl⟩ := (answer_iff p h.made hd hnum hne out).mp hout
      have hrs : r.childlist ≠ [] := fun hc => hne (by
        have hkids := (h.inner hne).2
        rw [hc] at hkids
        exact List.forall₂_nil_right_iff.mp hkids)
      have hfl := answered_flatten hoss hrs
      obtain ⟨t', ht', htag, hkey, _⟩ := hang_none (d := d) hfl
      rw [ht] at ht'
      cases ht'
      exact ⟨htag, congrArg KnvKey.val hkey⟩

/-- Tag and key tell the children apart. -/
theorem unique_child {l : Nat} {d : KnvNode} (ha : TagsAlone l d) (hd : KeysDistinct l d)
    (hnd : (d.childlist.map fun x => x.ref).Nodup) {c c' : KnvNode} (hc : c ∈ d.childlist)
    (hc' : c' ∈ d.childlist) (htag : c'.tag = c.tag) (hkey : c'.key.val = c.key.val) : c' = c := by
  refine List.inj_on_of_nodup_map hnd hc' hc ?_
  by_cases hb : ByKey l c
  · by_cases hb' : ByKey l c'
    · exact hd c hc hb c' hc' hb' htag hkey
    · exact (ha c' hc' hb' c hc htag.symm).symm
  · exact ha c hc hb c' hc' htag

theorem eq_singleton {α : Type} {l : List α} {a : α} (hnd : l.Nodup) (ha : a ∈ l)
    (hall : ∀ x ∈ l, x = a) : l = [a] := by
  cases l with
  | nil => cases ha
  | cons x l =>
    obtain ⟨hx, _⟩ := List.nodup_cons.mp hnd
    rw [hall x List.mem_cons_self] at hx ⊢
    congr
    refine List.eq_nil_iff_forall_not_mem.mpr fun y hy => hx ?_
    rw [← hall y (List.mem_cons_of_mem _ hy)]
    exact hy

/-- Then a sub-request is matched with the child it was made of, and with no other. -/
theorem matchRefs_self {l : Nat} {d c s : KnvNode} (hi : Indexed d) (ha : TagsAlone l d)
    (hd : KeysDistinct l d) (hc : c ∈ d.childlist) (hs : Asked l c s) : d.matchRefs s = [c.ref] := by
  by_cases hb : ByKey l c
  · have hkey := hs.head.byKey hb
    have hne : s.key.val ≠ [] := by
      rw [hkey]
      exact hb.1
    obtain ⟨r, hr⟩ := hi.ht.get_of_mem _ (List.mem_map.mpr ⟨c, hc, rfl⟩)
    rw [childView_of_mem hi.nodup hc] at hr
    have hmem : r ∈ d.matchRefs s := by
      rw [matchRefs, if_pos hne, hs.head.tag, hkey, hr]
      exact List.mem_singleton.mpr rfl
    obtain ⟨hsingle, c', hc', rfl, htag, hkey'⟩ := hi.matchRefs_byKey hne hmem
    rw [hsingle, unique_child ha hd hi.nodup hc hc' (htag.trans hs.head.tag)
      (hkey'.trans (congrArg KnvKey.val hkey))]
  · have hperm := hi.matchRefs_byTag (hs.head.byTag hb)
    refine eq_singleton (hperm.nodup_iff.mpr ((List.filter_sublist.map _).nodup hi.nodup))
      (hperm.mem_iff.mpr ?_) fun r hr => ?_
    · exact List.mem_map.mpr ⟨c, List.mem_filter.mpr ⟨hc, decide_eq_true hs.head.tag.symm⟩, rfl⟩
    · obtain ⟨c', hc', rfl⟩ := List.mem_map.mp (hperm.mem_iff.mp hr)
      obtain ⟨hmem, htag⟩ := List.mem_filter.mp hc'
      exact ha c hc hb c' hmem ((of_decide_eq_true htag).trans hs.head.tag)

/-- One answer for each pair. -/
theorem forall₂_choose {α β γ : Type} {R : α → β → Prop} {S : β → γ → Prop} {T : α → γ → Prop}
    {as : List α} {bs : List β} (h : List.Forall₂ R as bs)
    (hex : ∀ a ∈ as, ∀ b, R a b → ∃ c, S b c ∧ T a c) :
    ∃ cs, List.Forall₂ S bs cs ∧ List.Forall₂ T as cs := by
  induction h with
  | nil => exact ⟨[], .nil, .nil⟩
  | @cons a b as bs hab _ ih =>
    obtain ⟨c, hs, ht⟩ := hex a List.mem_cons_self b hab
    obtain ⟨cs, hss, hts⟩ := ih fun a ha => hex a (List.mem_cons_of_mem _ ha)
    exact ⟨c :: cs, .cons hs hss, .cons ht hts⟩

/-- **A tree whose children can be told apart** gets itself. -/
theorem Asked.mirror (l : Nat) : ∀ {d r : KnvNode} (p : Bool), Asked l d r → Deep l d → Alone l d →
    Distinct l d → ∃ out, (innerGetSubTree false r p d).2 = .ok (some out, none) ∧ Mirror l d out := by
  induction l with
  | zero =>
    intro d r p h hd _ _
    obtain ⟨out, hcopy, hout⟩ := h.whole p hd h.2
    exact ⟨out, hout, hcopy⟩
  | succ l ih =>
    intro d r p h hd ha hk
    by_cases hnil : d.childlist = []
    · obtain ⟨out, hcopy, hout⟩ := h.whole p hd (h.leaf hnil)
      refine ⟨out, hout, ?_⟩
      rw [Mirror, if_pos hnil]
      exact hcopy
    · obtain ⟨hnum, hkids⟩ := h.inner hnil
      have hi := hd.indexed hnil
      obtain ⟨os, hos, hmirror⟩ := forall₂_choose (S := fun s o => Answered d s [o]) (T := Mirror l) hkids
        fun c hc s hs => by
          obtain ⟨o, ho, hm⟩ := ih (d.key.val ≠ []) hs (hd.2.2.2 c hc) (ha.2 c hc) (hk.2 c hc)
          refine ⟨o, ⟨List.cons_ne_nil _ _, ?_⟩, hm⟩
          rw [matchRefs_self hi ha.1 hk.1 hc hs]
          exact .cons ⟨c, hc, rfl, ho⟩ .nil
      have hne : os ≠ [] := fun hc => hnil (by
        rw [hc] at hmirror
        exact List.forall₂_nil_right_iff.mp hmirror)
      obtain ⟨t, ht, htag, hkey, hss⟩ := hang_none (d := d) hne
      refine ⟨closed t, (answer_iff p h.made hd hnum hnil _).mpr ⟨os.map fun o => [o], t, ?_, ?_, rfl⟩, ?_⟩
      · rw [List.forall₂_map_right_iff]
        exact hos
      · rw [← List.flatMap_def, List.flatMap_singleton']
        exact ht
      · rw [Mirror, if_neg hnil]
        refine ⟨htag, congrArg KnvKey.val hkey, t.childlist, List.Perm.refl _, ?_⟩
        refine forall₂_comp hmirror hss fun c o o' hm ho => ?_
        rw [ho]
        exact hm.with_ref _

/-- As many lists as elements: each has one. -/
theorem length_eq_one {α : Type} {oss : List (List α)} (hne : ∀ os ∈ oss, os ≠ [])
    (hlen : oss.flatten.length = oss.length) : ∀ os ∈ oss, os.length = 1 := by
  have hpos : ∀ {oss : List (List α)}, (∀ os ∈ oss, os ≠ []) → oss.length ≤ oss.flatten.length := by
    intro oss
    induction oss with
    | nil => exact fun _ => Nat.le_refl 0
    | cons os oss ih =>
      intro hne
      have hrest := ih fun x hx => hne x (List.mem_cons_of_mem _ hx)
      have hos := List.length_pos_of_ne_nil (hne os List.mem_cons_self)
      rw [List.length_cons, List.flatten_cons, List.length_append]
      omega
  induction oss with
  | nil => exact fun os hos => absurd hos List.not_mem_nil
  | cons os oss ih =>
    have hne' := fun x hx => hne x (List.mem_cons_of_mem os hx)
    have hrest := hpos hne'
    have hos := List.length_pos_of_ne_nil (hne os List.mem_cons_self)
    rw [List.length_cons, List.flatten_cons, List.length_append] at hlen
    intro x hx
    rcases List.mem_cons.mp hx with rfl | hx
    · omega
    · exact ih hne' (by omega) x hx

/-- Where each sub-request has one answer, the tags are alone. -/
theorem tagsAlone_of_matchRefs {l : Nat} {d : KnvNode} {rs : List KnvNode} (hi : Indexed d)
    (hkids : List.Forall₂ (Asked l) d.childlist rs) (hone : ∀ s ∈ rs, (d.matchRefs s).length = 1) :
    TagsAlone l d := by
  intro c hc hb c' hc' htag
  obtain ⟨s, hs, ha⟩ := forall₂_mem hkids hc
  have hperm := hi.matchRefs_byTag (ha.head.byTag hb)
  obtain ⟨r, hr⟩ := List.length_eq_one_iff.mp (hone s hs)
  have hmem : ∀ x ∈ d.childlist, x.tag = c.tag → x.ref = r := by
    intro x hx htag
    have hin : x.ref ∈ d.matchRefs s := hperm.mem_iff.mpr (List.mem_map.mpr
      ⟨x, List.mem_filter.mpr ⟨hx, decide_eq_true (htag.trans ha.head.tag.symm)⟩, rfl⟩)
    rw [hr] at hin
    exact List.mem_singleton.mp hin
  exact (hmem c' hc' htag).trans (hmem c hc rfl).symm

/-- **A tree that gets itself**: its tags are alone, if its keys are distinct. -/
theorem Asked.alone (l : Nat) : ∀ {d r out : KnvNode} (p : Bool), Asked l d r → Deep l d →
    Distinct l d → (innerGetSubTree false r p d).2 = .ok (some out, none) → Mirror l d out →
    Alone l d := by
  induction l with
  | zero => exact fun _ _ _ _ _ _ => trivial
  | succ l ih =>
    intro d r out p h hd hk hout hm
    by_cases hnil : d.childlist = []
    · have hnone : ∀ c, c ∉ d.childlist := List.eq_nil_iff_forall_not_mem.mp hnil
      exact ⟨fun c hc => absurd hc (hnone c), fun c hc => absurd hc (hnone c)⟩
    obtain ⟨hnum, hkids⟩ := h.inner hnil
    have hi := hd.indexed hnil
    obtain ⟨oss, t, hoss, ht, rfl⟩ := (answer_iff p h.made hd hnum hnil out).mp hout
    rw [Mirror, if_neg hnil] at hm
    obtain ⟨_, _, os, hperm, hmirror⟩ := hm
    replace hperm : os.Perm t.childlist := hperm
    have hrs : r.childlist ≠ [] := fun hc => hnil (by
      rw [hc] at hkids
      exact List.forall₂_nil_right_iff.mp hkids)
    obtain ⟨t', ht', _, _, hss⟩ := hang_none (d := d) (answered_flatten hoss hrs)
    rw [ht] at ht'
    cases ht'
    -- as many answers as children
    have hone : ∀ os ∈ oss, os.length = 1 := by
      refine length_eq_one (fun os hos => ?_) ?_
      · obtain ⟨s, _, ha⟩ := forall₂_mem hoss.flip hos
        exact ha.1
      · rw [hss.length_eq, ← hperm.length_eq, ← hmirror.length_eq, hkids.length_eq, hoss.length_eq]
    have htags : TagsAlone l d := by
      refine tagsAlone_of_matchRefs hi hkids fun s hs => ?_
      obtain ⟨os, hos, ha⟩ := forall₂_mem hoss hs
      rw [ha.2.length_eq, hone os hos]
    refine ⟨htags, fun c hc => ?_⟩
    -- the child that answered with the mirror of `c` is `c`
    obtain ⟨o', ho', hm⟩ := forall₂_mem hmirror hc
    obtain ⟨o, ho, heq⟩ := forall₂_mem hss.flip (hperm.mem_iff.mp ho')
    rw [heq] at hm
    replace hm := hm.of_ref
    obtain ⟨os', hos', hmem⟩ := List.mem_flatten.mp ho
    obtain ⟨s, hs, hans⟩ := forall₂_mem hoss.flip hos'
    obtain ⟨c₁, hc₁, ha₁⟩ := forall₂_mem hkids.flip hs
    obtain ⟨ref, href, c₂, hc₂, hr, ho⟩ := forall₂_mem hans.2.flip hmem
    rw [matchRefs_self hi htags hk.1 hc₁ ha₁, List.mem_singleton] at href
    have hsame : c₂ = c₁ := List.inj_on_of_nodup_map hi.nodup hc₂ hc₁ (hr.trans href)
    rw [hsame] at ho
    obtain ⟨htag, hkey⟩ := ha₁.answer_head _ (hd.2.2.2 c₁ hc₁) ho
    obtain ⟨htag', hkey'⟩ := hm.head
    have hself : c₁ = c := unique_child htags hk.1 hi.nodup hc hc₁ (htag.symm.trans htag')
      (hkey.symm.trans hkey')
    rw [hself] at ha₁ ho
    exact ih _ ha₁ (hd.2.2.2 c hc) (hk.2 c hc) ho hm

/-- A root meets the request that was made of it. -/
theorem Asked.getSubTree {l : Nat} {d r : KnvNode} (h : Asked l d r) (h0 : d.tag ≠ 0) :
    d.getSubTree r false = innerGetSubTree false r false d := by
  rw [KnvNode.getSubTree, if_neg (by rw [h.head.tag]; exact h0), if_neg]
  rintro (ht | ⟨hne, hk⟩)
  · exact ht h.head.tag.symm
  · by_cases hb : ByKey l d
    · exact hk (h.head.byKey hb).symm
    · exact hne (h.head.byTag hb)

/-- **`MakeRequestTree` selects its own tree**, where keys are distinct: if and only if the children that
    are asked for without a key are alone with their tags. -/
theorem selectsItself_iff {data : List UInt8} {n : KnvNode} (h : newFromData data = .ok n) (L : Nat)
    (hd : Distinct (L + 1) (deepened (L + 1) false n)) :
    SelectsItself n L ↔ n.tag ≠ 0 ∧ Alone (L + 1) (deepened (L + 1) false n) := by
  have hlevels : n.makeRequestTree L = n.requestTree (L + 1) false := rfl
  rw [SelectsItself, hlevels]
  by_cases h0 : n.tag = 0
  · refine iff_of_false ?_ fun hc => hc.1 h0
    rintro ⟨req, out, hreq, _⟩
    rw [requestTree, if_pos h0] at hreq
    cases hreq
  · obtain ⟨hdata, hdeep, req, hreq, hasked⟩ := requestTree_spec (L + 1) false (newFromData_twin h) h0
    have h0' : (deepened (L + 1) false n).tag ≠ 0 := by
      rw [((newFromData_twin h).face_deepened (L + 1) false).tag]
      exact h0
    rw [hdata, hreq]
    constructor
    · rintro ⟨req', out, hreq', hget, hm⟩
      cases hreq'
      rw [hasked.getSubTree h0'] at hget
      exact ⟨h0, hasked.alone (L + 1) false hdeep hd (congrArg Prod.snd hget) hm⟩
    · rintro ⟨_, ha⟩
      obtain ⟨out, hout, hm⟩ := hasked.mirror (L + 1) false hdeep ha hd
      refine ⟨req, out, rfl, ?_, hm⟩
      rw [hasked.getSubTree h0']
      exact Prod.ext (hasked.made.settles (L + 1) false hdeep).1 hout

/-- Two children with the same tag and different keys. -/
def keyedPair : List UInt8 := [0x5a, 12, 0x62, 4, 8, 7, 0x60, 1, 0x62, 4, 8, 6, 0x60, 1]

theorem selectsItself_keyedPair : ∃ n, newFromData keyedPair = .ok n ∧ SelectsItself n 1 :=
  ⟨_, rfl, (@selectsItself_iff keyedPair _ rfl 1 (by decide)).mpr (by decide)⟩

/-- **A repeated child is asked for twice**, and each time both are given: `out` has four. -/
theorem repeated_child_doubled : ∃ n, newFromData [0x5a, 4, 0x60, 1, 0x60, 2] = .ok n ∧
    ¬ SelectsItself n 0 := by
  obtain ⟨n, hn, hfour, htwo⟩ : ∃ n, newFromData [0x5a, 4, 0x60, 1, 0x60, 2] = .ok n ∧
      ((n.makeRequestTree (0 : Nat)).2.map fun req =>
        ((n.makeRequestTree (0 : Nat)).1.getSubTree req false).2.toOption.map fun q =>
          q.1.map fun out => out.childlist.length) = some (some (some 4)) ∧
      (n.makeRequestTree (0 : Nat)).1.childlist.length = 2 :=
    ⟨_, rfl, by decide +kernel, by decide +kernel⟩
  refine ⟨n, hn, ?_⟩
  rintro ⟨req, out, hreq, hget, hm⟩
  rw [hreq, Option.map_some, hget] at hfour
  replace hfour : some (some (some out.childlist.length)) = some (some (some 4)) := hfour
  rw [Option.some.injEq, Option.some.injEq, Option.some.injEq] at hfour
  rw [Mirror, if_neg fun hnil => by rw [hnil] at htwo; cases htwo] at hm
  obtain ⟨_, _, os, hperm, hall⟩ := hm
  have hlen := hall.length_eq
  rw [hperm.length_eq, hfour, htwo] at hlen
  cases hlen

end KnvNode

end MysqlProxy
