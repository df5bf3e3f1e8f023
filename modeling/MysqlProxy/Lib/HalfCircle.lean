/-
  Lists that are linked both ways, with the last element at the `prev` of the first.

  Over arbitrary `next` and `prev`, with `0` for the null link,

      TailLinked next prev first l   a chain from `first`; `prev first` is its last element
      HalfCircle next prev first l   besides, the `prev` of every other element is the one before

  are all the shape there is.  The first is what joining two lists by their ends needs and keeps
  (`TailLinked.append`).  The second is kept when an element is put at the end, or in front, or
  taken out: the first one, the last one, or one between two others (`HalfCircle.concat`, `cons`,
  `tail`, `remove_last`, `remove_inner`).  Nothing in this module names the proxy.
-/
import MysqlProxy.Lib.Chain

namespace MysqlProxy

open Function (update update_self update_of_ne)

/-! ## Going back -/

/-- The `prev` of each element is the one before it; that of the first is `p`. -/
def Backs (prev : Nat → Nat) : Nat → List Nat → Prop
  | _, [] => True
  | p, x :: l => prev x = p ∧ Backs prev x l

/-- The last element of a list, or `p` if it has none. -/
def lastFrom (p : Nat) (l : List Nat) : Nat := l.getLast?.getD p

@[simp] theorem lastFrom_nil (p : Nat) : lastFrom p [] = p := rfl

@[simp] theorem lastFrom_concat (p : Nat) (l : List Nat) (x : Nat) : lastFrom p (l ++ [x]) = x := by
  rw [lastFrom, List.getLast?_concat, Option.getD_some]

theorem lastFrom_cons (p x : Nat) (l : List Nat) : lastFrom p (x :: l) = lastFrom x l := by
  rw [lastFrom, lastFrom, List.getLast?_cons]
  rfl

theorem lastFrom_append {p : Nat} {l₁ l₂ : List Nat} :
    lastFrom p (l₁ ++ l₂) = lastFrom (lastFrom p l₁) l₂ := by
  induction l₁ generalizing p with
  | nil => rfl
  | cons x l₁ ih => rw [List.cons_append, lastFrom_cons, lastFrom_cons, ih]

theorem lastFrom_of_ne {l : List Nat} (h : l ≠ []) {p q : Nat} : lastFrom p l = lastFrom q l := by
  rw [lastFrom, lastFrom, List.getLast?_eq_some_getLast h]
  rfl

theorem lastFrom_mem (p : Nat) {l : List Nat} (h : l ≠ []) : lastFrom p l ∈ l := by
  rw [lastFrom, List.getLast?_eq_some_getLast h]
  exact List.getLast_mem h

namespace Backs

variable {prev prev' : Nat → Nat} {p : Nat} {l l₁ l₂ : List Nat}

theorem frame (h : Backs prev p l) (hag : ∀ x ∈ l, prev' x = prev x) : Backs prev' p l := by
  induction l generalizing p with
  | nil => trivial
  | cons x l ih =>
    refine ⟨(hag x List.mem_cons_self).trans h.1, ih h.2 fun y hy => ?_⟩
    exact hag y (List.mem_cons_of_mem x hy)

theorem append_iff :
    Backs prev p (l₁ ++ l₂) ↔ Backs prev p l₁ ∧ Backs prev (lastFrom p l₁) l₂ := by
  induction l₁ generalizing p with
  | nil => exact (and_iff_right trivial).symm
  | cons x l₁ ih => rw [List.cons_append, Backs, Backs, ih, and_assoc, lastFrom_cons]

end Backs

/-! ## Elements that are in one list only -/

/-- How often an element is in lists that have none twice. -/
theorem count_le_one {l : List Nat} (h : l.Nodup) (x : Nat) : l.count x ≤ 1 :=
  List.nodup_iff_count_le_one.mp h x

theorem not_mem_of_count {x : Nat} {a b : List Nat} (h : a.count x + b.count x ≤ 1) (hx : x ∈ a) :
    x ∉ b := fun hxb => by
  have ha := List.count_pos_iff.mpr hx
  have hb := List.count_pos_iff.mpr hxb
  omega

/-! ## Linking -/

/-- An element outside a list does not matter to it. -/
theorem update_off {f : Nat → Nat} {x v : Nat} {l : List Nat} (hx : x ∉ l) :
    ∀ y ∈ l, update f x v y = f y := fun _ hy => update_of_ne (ne_of_mem_of_not_mem hy hx) v f

/-- An element of a list matters to that list only. -/
theorem update_inside {f : Nat → Nat} {x v : Nat} {l : List Nat} (hx : x ∈ l) :
    ∀ y ∉ l, update f x v y = f y :=
  fun _ hy => update_of_ne (ne_of_mem_of_not_mem hx hy).symm v f

/-- **Linking**: a path goes on with a chain when its last element is linked to it. -/
theorem Path.join {next : Nat → Nat} {p r q : Nat} {l l₂ : List Nat} (h : Path next p l r)
    (hne : l ≠ []) (hnodup : l.Nodup) (h₂ : Chain next q l₂) (hdis : l.Disjoint l₂) :
    Chain (update next (lastFrom 0 l) q) p (l ++ l₂) := by
  obtain ⟨init, last, rfl⟩ := (List.eq_nil_or_concat' l).resolve_left hne
  have hmem : last ∈ init ++ [last] := List.mem_append_right _ (List.mem_singleton_self last)
  have hinit : last ∉ init := fun hin =>
    (List.nodup_append.mp hnodup).2.2 last hin last (List.mem_singleton_self last) rfl
  rw [lastFrom_concat, List.append_assoc]
  refine Path.append (h.initial.frame (update_off hinit)) ⟨rfl, h.ne_zero last hmem, ?_⟩
  rw [update_self]
  exact h₂.frame (update_off (hdis hmem))

theorem Chain.eq_zero_iff {next : Nat → Nat} {p : Nat} {l : List Nat} (h : Chain next p l) :
    p = 0 ↔ l = [] := by
  cases l with
  | nil => exact iff_of_true h rfl
  | cons x l => exact iff_of_false (h.1 ▸ h.2.1) (List.cons_ne_nil x l)

/-! ## The last element at the first -/

/-- A chain; the `prev` of its first element is its last. -/
structure TailLinked (next prev : Nat → Nat) (first : Nat) (l : List Nat) : Prop where
  chain : Chain next first l
  last : l ≠ [] → prev first = lastFrom 0 l

namespace TailLinked

variable {next prev next' prev' : Nat → Nat} {first : Nat} {l : List Nat}

theorem empty (next prev : Nat → Nat) : TailLinked next prev 0 [] := ⟨rfl, fun h => absurd rfl h⟩

theorem first_mem (h : TailLinked next prev first l) (hne : l ≠ []) : first ∈ l := by
  cases l with
  | nil => exact absurd rfl hne
  | cons x l => exact h.chain.1 ▸ List.mem_cons_self

/-- Only the links of the elements are read. -/
theorem frame (h : TailLinked next prev first l) (hnext : ∀ x ∈ l, next' x = next x)
    (hprev : ∀ x ∈ l, prev' x = prev x) : TailLinked next' prev' first l :=
  ⟨h.chain.frame hnext, fun hne => (hprev first (h.first_mem hne)).trans (h.last hne)⟩

/-- **Joining two lists**: the last element of one is linked to the other, and its first element
    takes over the last element. -/
theorem append {n m : Nat} {l₁ l₂ : List Nat} (h₁ : TailLinked next prev n l₁)
    (h₂ : TailLinked next prev m l₂) (hne : l₁ ≠ []) (hdis : l₁.Disjoint l₂) :
    TailLinked (update next (prev n) m) (if m ≠ 0 then update prev n (prev m) else prev) n
      (l₁ ++ l₂) := by
  rw [h₁.last hne]
  refine ⟨Path.join h₁.chain hne h₁.chain.nodup h₂.chain hdis, fun _ => ?_⟩
  by_cases hm : m = 0
  · have hnil := h₂.chain.eq_zero_iff.mp hm
    rw [if_neg (not_not.mpr hm), hnil, List.append_nil]
    exact h₁.last hne
  · have hl₂ := mt h₂.chain.eq_zero_iff.mpr hm
    rw [if_pos hm, update_self, h₂.last hl₂, lastFrom_append, lastFrom_of_ne hl₂]

end TailLinked

/-! ## Every element at the one behind it -/

/-- A chain; the `prev` of its first element is its last, that of every other the one before. -/
structure HalfCircle (next prev : Nat → Nat) (first : Nat) (l : List Nat) : Prop where
  chain : Chain next first l
  back : Backs prev (lastFrom 0 l) l

namespace HalfCircle

variable {next prev next' prev' : Nat → Nat} {first : Nat} {l : List Nat}

theorem empty (next prev : Nat → Nat) : HalfCircle next prev 0 [] := ⟨rfl, trivial⟩

theorem frame (h : HalfCircle next prev first l) (hnext : ∀ x ∈ l, next' x = next x)
    (hprev : ∀ x ∈ l, prev' x = prev x) : HalfCircle next' prev' first l :=
  ⟨h.chain.frame hnext, h.back.frame hprev⟩

theorem tailLinked (h : HalfCircle next prev first l) : TailLinked next prev first l := by
  refine ⟨h.chain, fun hne => ?_⟩
  cases l with
  | nil => exact absurd rfl hne
  | cons x l => exact h.chain.1 ▸ h.back.1

/-- **An element at the end.** -/
theorem concat (h : HalfCircle next prev first l) (hne : l ≠ []) {o : Nat} (ho0 : o ≠ 0)
    (ho : o ∉ l) :
    HalfCircle (update (update next o 0) (prev first) o)
      (update (update prev o (prev first)) first o) first (l ++ [o]) := by
  have hnodup := h.chain.nodup
  have hlast := h.tailLinked.last hne
  have hself : Chain (update next o 0) o [o] := ⟨rfl, ho0, update_self ..⟩
  refine ⟨?_, ?_⟩
  · rw [hlast]
    exact Path.join (h.chain.frame (update_off ho)) hne hnodup hself
      (List.disjoint_singleton.mpr ho)
  · obtain ⟨x, l, rfl⟩ := List.exists_cons_of_ne_nil hne
    obtain rfl := h.chain.1
    have hfirst : first ∉ l := (List.nodup_cons.mp hnodup).1
    have hother : o ∉ l := fun hmem => ho (List.mem_cons_of_mem _ hmem)
    have hof : o ≠ first := (ne_of_mem_of_not_mem List.mem_cons_self ho).symm
    rw [lastFrom_concat, List.cons_append, Backs, Backs.append_iff, update_self]
    refine ⟨rfl, h.back.2.frame fun y hy => ?_, ?_, trivial⟩
    · rw [update_off hfirst y hy, update_off hother y hy]
    · rw [update_of_ne hof, update_self, hlast, lastFrom_cons]

/-- **An element in front.** -/
theorem cons (h : HalfCircle next prev first l) (hne : l ≠ []) {o : Nat} (ho0 : o ≠ 0)
    (ho : o ∉ l) :
    HalfCircle (update next o first) (update (update prev o (prev first)) first o) o (o :: l) := by
  have hlast := h.tailLinked.last hne
  refine ⟨⟨rfl, ho0, ?_⟩, ?_⟩
  · rw [update_self]
    exact h.chain.frame (update_off ho)
  · obtain ⟨x, l, rfl⟩ := List.exists_cons_of_ne_nil hne
    obtain rfl := h.chain.1
    have hfirst : first ∉ l := (List.nodup_cons.mp h.chain.nodup).1
    have hother : o ∉ l := fun hmem => ho (List.mem_cons_of_mem _ hmem)
    have hof : o ≠ first := (ne_of_mem_of_not_mem List.mem_cons_self ho).symm
    rw [lastFrom_cons, Backs, Backs, update_self, lastFrom_of_ne hne (q := 0)]
    refine ⟨?_, rfl, h.back.2.frame fun y hy => ?_⟩
    · rw [update_of_ne hof, update_self, hlast]
    · rw [update_off hfirst y hy, update_off hother y hy]

/-- The only element. -/
theorem singleton (next prev : Nat → Nat) {o : Nat} (ho0 : o ≠ 0) :
    HalfCircle (update next o 0) (update prev o o) o [o] :=
  ⟨⟨rfl, ho0, update_self ..⟩, update_self .., trivial⟩

/-- **Without the first element**, which hands over the last. -/
theorem tail (h : HalfCircle next prev first (first :: l)) (hne : l ≠ []) :
    HalfCircle next (update prev (next first) (prev first)) (next first) l := by
  obtain ⟨y, l, rfl⟩ := List.exists_cons_of_ne_nil hne
  have hy : next first = y := h.chain.2.2.1
  have hfree : y ∉ l := (List.nodup_cons.mp (List.nodup_cons.mp h.chain.nodup).2).1
  have hlast := h.tailLinked.last (List.cons_ne_nil first _)
  rw [lastFrom_cons, lastFrom_of_ne hne] at hlast
  refine ⟨h.chain.2.2, ?_⟩
  rw [hy, Backs, update_self, ← hlast]
  exact ⟨rfl, h.back.2.2.frame (update_off hfree)⟩

/-- **Without an element further behind**: the one before is linked to the one behind, which is
    linked back; if there is none, the first element gets a new last one. -/
theorem remove {l₁ l₂ : List Nat} {obj : Nat} (h : HalfCircle next prev first (l₁ ++ obj :: l₂))
    (hne : l₁ ≠ []) :
    HalfCircle (update next (prev obj) (next obj))
      (if next obj ≠ 0 then update prev (next obj) (prev obj) else update prev first (prev obj))
      first (l₁ ++ l₂) := by
  have hnodup := h.chain.nodup
  have hback := Backs.append_iff.mp h.back
  have hbehind : Chain next (next obj) l₂ := h.chain.suffix.2.2
  have hprev : prev obj = lastFrom 0 l₁ := hback.2.1.trans (lastFrom_of_ne hne)
  rw [List.nodup_append] at hnodup
  refine ⟨?_, ?_⟩
  · rw [hprev]
    refine Path.join (Path.initial h.chain) hne hnodup.1 hbehind fun y h₁ h₂ => ?_
    exact hnodup.2.2 y h₁ y (List.mem_cons_of_mem _ h₂) rfl
  cases l₂ with
  | nil =>
    have hzero : next obj = 0 := hbehind
    obtain ⟨x, l₁, rfl⟩ := List.exists_cons_of_ne_nil hne
    obtain rfl := h.chain.1
    rw [if_neg (not_not.mpr hzero), List.append_nil, Backs, update_self]
    exact ⟨hprev, hback.1.2.frame (update_off (List.nodup_cons.mp hnodup.1).1)⟩
  | cons y l₂ =>
    obtain ⟨hy, hy0, -⟩ := hbehind
    have hmem : y ∈ obj :: y :: l₂ := List.mem_cons_of_mem _ List.mem_cons_self
    have hfree : y ∉ l₂ := (List.nodup_cons.mp (List.nodup_cons.mp hnodup.2.1).2).1
    have hlast : lastFrom 0 (l₁ ++ y :: l₂) = lastFrom 0 (l₁ ++ obj :: y :: l₂) := by
      rw [lastFrom_append, lastFrom_append, lastFrom_cons, lastFrom_cons, lastFrom_cons]
    rw [if_pos (hy ▸ hy0), hy, Backs.append_iff, Backs, update_self, hlast]
    refine ⟨hback.1.frame (update_off fun h₁ => hnodup.2.2 y h₁ y hmem rfl), ?_,
      hback.2.2.2.frame (update_off hfree)⟩
    exact hprev.trans (lastFrom_of_ne hne)

end HalfCircle

end MysqlProxy
