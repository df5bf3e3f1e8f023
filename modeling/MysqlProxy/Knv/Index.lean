/-
  The index of the children under edits.

  `Indexed n` says that the table of `n` holds the children of `n`, each in the bucket of its tag and
  its key.  The edits of the list take the table along: a child that is inserted is put in front of its
  bucket, a child that is removed leaves its bucket.
-/
import MysqlProxy.Knv.Tree

namespace MysqlProxy

namespace KnvNode

/-- `Indexed` is about the list and the table, and about nothing else. -/
theorem Indexed.congr {n n' : KnvNode} (h : Indexed n) (hnum : n'.child_num = n.child_num)
    (hlist : n'.childlist = n.childlist) (hkey : n'.child_has_key = n.child_has_key)
    (hnext : n'.next_ref = n.next_ref) (hht : n'.ht = n.ht) : Indexed n' where
  child_num := by rw [hnum, hlist, h.child_num]
  child_has_key := by rw [hlist, hkey]; exact h.child_has_key
  refs := by rw [hlist, hnext]; exact h.refs
  nodup := by rw [hlist]; exact h.nodup
  ht := by
    have hview : n'.childView = n.childView := by
      funext r
      exact childView_congr (by rw [hlist])
    rw [hview, hlist, hht]
    exact h.ht

theorem Indexed.edited {n : KnvNode} (h : Indexed n) (offset : Int) :
    Indexed (edited n offset).1 := by
  obtain ⟨sz, val_sz, he⟩ := edited_eq n offset
  rw [he]
  exact h.congr rfl rfl rfl rfl rfl

theorem findRef_filter {l : List KnvNode} {p : KnvNode → Bool} {c : KnvNode}
    (hnd : (l.map fun x => x.ref).Nodup) (hc : c ∈ l.filter p) :
    findRef (l.filter p) c.ref = findRef l c.ref := by
  have hnd' : ((l.filter p).map fun x => x.ref).Nodup := hnd.sublist (List.filter_sublist.map _)
  rw [findRef_of_mem hnd' hc, findRef_of_mem hnd (List.mem_of_mem_filter hc)]

/-- The refs of the other children. -/
theorem map_ref_filter {l : List KnvNode} {c : KnvNode} (hnd : (l.map fun x => x.ref).Nodup) :
    (l.filter fun x => x.ref ≠ c.ref).map (fun x => x.ref) = (l.map fun x => x.ref).erase c.ref := by
  rw [hnd.erase_eq_filter, List.filter_map]
  congr 1
  apply List.filter_congr
  intro x _
  rw [Function.comp_apply, Bool.eq_iff_iff, decide_eq_true_iff, bne_iff_ne]

/-- **A child less.** -/
theorem Indexed.removeChild {n c : KnvNode} (h : Indexed n) (hc : c ∈ n.childlist) :
    Indexed (MysqlProxy.removeChild n c.ref) ∧ (MysqlProxy.removeChild n c.ref).tag = n.tag ∧
      (MysqlProxy.removeChild n c.ref).childlist = n.childlist.filter fun x => x.ref ≠ c.ref := by
  obtain ⟨ht, hht, hholds⟩ := h.ht.remove _ (List.mem_map.mpr ⟨c, hc, rfl⟩)
  rw [MysqlProxy.removeChild, findRef_of_mem h.nodup hc, hht]
  simp only [Option.getD_some]
  generalize hn : ({ n with
      ht := ht
      childlist := n.childlist.filter fun x => x.ref ≠ c.ref
      child_num := n.child_num.map (· - 1) } : KnvNode) = n₁
  have hlist : n₁.childlist = n.childlist.filter fun x => x.ref ≠ c.ref := by rw [← hn]
  have hrefs : n₁.childlist.map (fun x => x.ref) = (n.childlist.map fun x => x.ref).erase c.ref := by
    rw [hlist]
    exact map_ref_filter h.nodup
  have hix : Indexed n₁ := by
    refine { child_num := ?_, child_has_key := ?_, refs := ?_, nodup := ?_, ht := ?_ }
    · have hlen := congrArg List.length hrefs
      rw [List.length_map, List.length_erase_of_mem (List.mem_map.mpr ⟨c, hc, rfl⟩),
        List.length_map] at hlen
      rw [hlen, ← hn]
      show n.child_num.map (· - 1) = _
      rw [h.child_num]
      rfl
    · intro x hx hne
      rw [hlist] at hx
      rw [← hn]
      exact h.child_has_key x (List.mem_of_mem_filter hx) hne
    · intro x hx
      rw [hlist] at hx
      rw [← hn]
      exact h.refs x (List.mem_of_mem_filter hx)
    · rw [hrefs]
      exact h.nodup.erase _
    · have hht₁ : n₁.ht = ht := by rw [← hn]
      rw [hrefs, hht₁]
      -- the other pointers lead to the same nodes
      refine hholds.congr _ fun r hr => ?_
      rw [← hrefs] at hr
      obtain ⟨x, hx, rfl⟩ := List.mem_map.mp hr
      rw [hlist] at hx
      exact childView_congr (by rw [hlist, findRef_filter h.nodup hx])
  refine ⟨hix.edited _, ?_, ?_⟩
  · obtain ⟨sz, val_sz, he⟩ := edited_eq n₁ (-(evaluateSize c).1)
    rw [he, ← hn]
  · obtain ⟨sz, val_sz, he⟩ := edited_eq n₁ (-(evaluateSize c).1)
    rw [he, ← hlist]

end KnvNode

end MysqlProxy
