/-
  Resources that are kept in a queue or held by one user each.

  A resource is opened, goes from a user to the queue and from the queue to another user, and is
  closed in the end.  `OneOwner`: at any time an open resource is at one place.

  * The four things that may happen to a resource keep it: `take`, `opens`, `give`, `closes`.
  * `card_lt`: who finds the queue empty, and holds nothing, makes one more user than there are
    resources.  So a resource that is opened only then never makes them more than the users.
-/
import Mathlib.Data.Finset.Card
import Mathlib.Data.Fintype.Card

namespace MysqlProxy

variable {R T : Type}

/-- An open resource is in the queue, or one user holds it. -/
structure OneOwner (queue : List R) (opened : Finset R) (held : T → Option R) : Prop where
  nodup : queue.Nodup
  apart : ∀ t r, held t = some r → r ∉ queue
  alone : ∀ t t' r, held t = some r → held t' = some r → t' = t
  all : ∀ r, r ∈ opened ↔ r ∈ queue ∨ ∃ t, held t = some r

namespace OneOwner

variable {queue : List R} {opened : Finset R} {held held' : T → Option R} {r : R} {t : T}

/-- Nobody holds anything. -/
theorem start [DecidableEq R] (hnodup : queue.Nodup) : OneOwner queue queue.toFinset fun _ : T => none :=
  ⟨hnodup, nofun, nofun, fun r => by simp⟩

theorem held_mem (h : OneOwner queue opened held) (ht : held t = some r) : r ∈ opened :=
  (h.all r).mpr (.inr ⟨t, ht⟩)

/-- The first of the queue is taken. -/
theorem take (h : OneOwner (r :: queue) opened held) (ht : held t = none) (hself : held' t = some r)
    (hother : ∀ t', t' ≠ t → held' t' = held t') : OneOwner queue opened held' := by
  have hfirst := List.nodup_cons.mp h.nodup
  refine ⟨hfirst.2, fun t' r' hr' => ?_, fun t' t'' r' h' h'' => ?_, fun r' => ?_⟩
  · by_cases htt : t' = t
    · rw [htt, hself] at hr'
      obtain rfl := Option.some.inj hr'
      exact hfirst.1
    · rw [hother t' htt] at hr'
      exact fun hmem => h.apart t' r' hr' (List.mem_cons_of_mem r hmem)
  · -- who held it before had not the first of the queue
    have hne : ∀ u, u ≠ t → held' u ≠ some r := fun u hu he =>
      h.apart u r (hother u hu ▸ he) List.mem_cons_self
    by_cases htt : t' = t
    · rw [htt, hself] at h'
      obtain rfl := Option.some.inj h'
      by_contra hno
      exact hne t'' (htt ▸ hno) h''
    · by_cases htt' : t'' = t
      · rw [htt', hself] at h''
        obtain rfl := Option.some.inj h''
        exact absurd h' (hne t' htt)
      · rw [hother t' htt] at h'
        rw [hother t'' htt'] at h''
        exact h.alone t' t'' r' h' h''
  · rw [h.all r', List.mem_cons]
    constructor
    · rintro ((rfl | hmem) | ⟨u, hu⟩)
      · exact .inr ⟨t, hself⟩
      · exact .inl hmem
      · have hut : u ≠ t := by
          rintro rfl
          rw [ht] at hu
          cases hu
        exact .inr ⟨u, (hother u hut).trans hu⟩
    · rintro (hmem | ⟨u, hu⟩)
      · exact .inl (.inr hmem)
      · by_cases hut : u = t
        · rw [hut, hself] at hu
          exact .inl (.inl (Option.some.inj hu).symm)
        · exact .inr ⟨u, hother u hut ▸ hu⟩

/-- A new resource has its user at once. -/
theorem opens [DecidableEq R] (h : OneOwner queue opened held) (hnew : r ∉ opened) (ht : held t = none)
    (hself : held' t = some r) (hother : ∀ t', t' ≠ t → held' t' = held t') :
    OneOwner queue (insert r opened) held' := by
  have hqueue : r ∉ queue := fun hmem => hnew ((h.all r).mpr (.inl hmem))
  -- as if it had been put in front of the queue
  have hfront : OneOwner (r :: queue) (insert r opened) held := by
    refine ⟨List.nodup_cons.mpr ⟨hqueue, h.nodup⟩, fun u r' hu hmem => ?_, h.alone, fun r' => ?_⟩
    · rcases List.mem_cons.mp hmem with rfl | hmem
      · exact hnew (h.held_mem hu)
      · exact h.apart u r' hu hmem
    · rw [Finset.mem_insert, h.all r', List.mem_cons, or_assoc]
  exact hfront.take ht hself hother

/-- A user gives back what it holds. -/
theorem give (h : OneOwner queue opened held) (ht : held t = some r) (hself : held' t = none)
    (hother : ∀ t', t' ≠ t → held' t' = held t') : OneOwner (queue ++ [r]) opened held' := by
  have hold : ∀ u r', held' u = some r' → u ≠ t ∧ held u = some r' := by
    intro u r' hu
    have hut : u ≠ t := by
      rintro rfl
      rw [hself] at hu
      cases hu
    exact ⟨hut, hother u hut ▸ hu⟩
  refine ⟨?_, fun u r' hu hmem => ?_, fun u u' r' hu hu' => ?_, fun r' => ?_⟩
  · rw [List.nodup_append]
    refine ⟨h.nodup, List.nodup_singleton r, ?_⟩
    rintro a ha b hb rfl
    rw [List.mem_singleton] at hb
    subst hb
    exact h.apart t a ht ha
  · obtain ⟨hut, hu⟩ := hold u r' hu
    rcases List.mem_append.mp hmem with hmem | hmem
    · exact h.apart u r' hu hmem
    · rw [List.mem_singleton] at hmem
      subst hmem
      exact hut (h.alone t u r' ht hu)
  · exact h.alone u u' r' (hold u r' hu).2 (hold u' r' hu').2
  · rw [h.all r', List.mem_append, List.mem_singleton]
    constructor
    · rintro (hmem | ⟨u, hu⟩)
      · exact .inl (.inl hmem)
      · by_cases hut : u = t
        · rw [hut, ht] at hu
          exact .inl (.inr (Option.some.inj hu).symm)
        · exact .inr ⟨u, (hother u hut).trans hu⟩
    · rintro ((hmem | rfl) | ⟨u, hu⟩)
      · exact .inl hmem
      · exact .inr ⟨t, ht⟩
      · exact .inr ⟨u, (hold u r' hu).2⟩

/-- A user closes what it holds. -/
theorem closes [DecidableEq R] (h : OneOwner queue opened held) (ht : held t = some r) (hself : held' t = none)
    (hother : ∀ t', t' ≠ t → held' t' = held t') : OneOwner queue (opened.erase r) held' := by
  have hgive := h.give ht hself hother
  refine ⟨h.nodup, fun u r' hu hmem => ?_, hgive.alone, fun r' => ?_⟩
  · exact hgive.apart u r' hu (List.mem_append_left [r] hmem)
  · rw [Finset.mem_erase, hgive.all r', List.mem_append, List.mem_singleton]
    constructor
    · rintro ⟨hne, (hmem | hr) | hu⟩
      · exact .inl hmem
      · exact absurd hr hne
      · exact .inr hu
    · rintro (hmem | ⟨u, hu⟩)
      · refine ⟨?_, .inl (.inl hmem)⟩
        rintro rfl
        exact h.apart t r' ht hmem
      · refine ⟨?_, .inr ⟨u, hu⟩⟩
        rintro rfl
        exact hgive.apart u r' hu (List.mem_append_right queue List.mem_cons_self)

section Count

variable [Fintype T]

/-- The users that hold something. -/
def holders (held : T → Option R) : Finset T := Finset.univ.filter fun t => (held t).isSome

/-- With an empty queue there is a user for each resource. -/
theorem card_holders (h : OneOwner [] opened held) : opened.card = (holders held).card := by
  refine (Finset.card_bij (fun t ht => (held t).get (Finset.mem_filter.mp ht).2)
    (fun t ht => ?_) (fun t ht t' ht' heq => ?_) fun r hr => ?_).symm
  · exact h.held_mem (Option.some_get (Finset.mem_filter.mp ht).2).symm
  · have h' := (Option.some_get (Finset.mem_filter.mp ht').2).symm
    rw [← heq] at h'
    exact h.alone t' t _ h' (Option.some_get (Finset.mem_filter.mp ht).2).symm
  · obtain hmem | ⟨t, ht⟩ := (h.all r).mp hr
    · cases hmem
    · refine ⟨t, Finset.mem_filter.mpr ⟨Finset.mem_univ t, by rw [ht]; rfl⟩, ?_⟩
      exact Option.get_of_eq_some _ ht

/-- **Who finds the queue empty** is one user more than there are resources, even with those that wait
    for one. -/
theorem card_lt (h : OneOwner [] opened held) {waiting : T → Prop} [DecidablePred waiting]
    (hwaiting : ∀ u, waiting u → held u = none) (ht : held t = none) (hno : ¬ waiting t) :
    opened.card + (Finset.univ.filter waiting).card < Fintype.card T := by
  classical
  have hdisjoint : Disjoint (holders held) (Finset.univ.filter waiting) := by
    refine Finset.disjoint_left.mpr fun u hu hw => ?_
    have hnone := hwaiting u (Finset.mem_filter.mp hw).2
    have hsome := (Finset.mem_filter.mp hu).2
    rw [hnone] at hsome
    cases hsome
  rw [h.card_holders, ← Finset.card_union_of_disjoint hdisjoint, ← Finset.card_univ]
  refine Finset.card_lt_card ⟨Finset.subset_univ _, fun hsub => ?_⟩
  rcases Finset.mem_union.mp (hsub (Finset.mem_univ t)) with hmem | hmem
  · have hsome := (Finset.mem_filter.mp hmem).2
    rw [ht] at hsome
    cases hsome
  · exact hno (Finset.mem_filter.mp hmem).2

end Count

end OneOwner

end MysqlProxy
