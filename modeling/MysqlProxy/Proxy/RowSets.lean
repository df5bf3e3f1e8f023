/-
  Which set a row of a result goes to.

  The comment in front of `PackResult` says

      each set contains up to 10000 rows of data:  set_0, row 0-9999, set_1, row 10000-19999, ...

  A set is opened in front of a row if there is none, under the name of `r / 10000`.  It is closed
  BEHIND a row whose number is a multiple of `10000`.  So row `10000` still goes to the first set, which
  has 10001 rows then, and row `r` goes to set `(r - 1) / 10000` (`setOf`).

  * `setsBy f n rows` are the sets `0 .. n-1`, with row `r` in set `f r`.
  * `packResult_sets`: the tree of a result is that of `packedSets`, which are the sets by `setOf`.
  * `packedSets_shape_iff`: they have the documented shape up to 10000 rows, and then only.
-/
import MysqlProxy.Proxy.PackResult

namespace MysqlProxy

/-- The rows of set `i`, with their names. -/
def setRows (f : Nat → Nat) (rows : List Row) (i : Nat) : List (List UInt8 × Row) :=
  (rows.zipIdx.filter fun c => f c.2 = i).map fun c => (rowName c.2, c.1)

/-- The sets `0 .. n-1`, row `r` being in set `f r`. -/
def setsBy (f : Nat → Nat) (n : Nat) (rows : List Row) : List RowSet :=
  (List.range n).map fun i => ⟨setName i, setRows f rows i⟩

/-- The set that row `r` goes to. -/
def setOf (r : Nat) : Nat := (r - 1) / max_row_num_for_each_set

theorem setOf_eq (r : Nat) : setOf r = (r - 1) / 10000 := rfl

/-- The number of sets of `n` rows. -/
def setCount (n : Nat) : Nat := if n = 0 then 0 else setOf (n - 1) + 1

def packedSets (rows : List Row) : List RowSet := setsBy setOf (setCount rows.length) rows

/-- The documented shape: row `r` is in the set that is named for `r / 10000`, no set has more than
    10000 rows, and all but the last have as many. -/
structure SetShape (rows : List Row) (sets : List RowSet) : Prop where
  placed : ∀ r, (hr : r < rows.length) → ∃ set ∈ sets,
    set.name = setName (r / max_row_num_for_each_set) ∧ (rowName r, rows[r]) ∈ set.rows
  most : ∀ set ∈ sets, set.rows.length ≤ max_row_num_for_each_set
  full : ∀ set ∈ sets.dropLast, set.rows.length = max_row_num_for_each_set

/-! ## One more row -/

section Snoc

variable {f : Nat → Nat} {n i : Nat} {rows : List Row} {row : Row}

theorem setRows_append (f : Nat → Nat) (rows : List Row) (row : Row) (i : Nat) :
    setRows f (rows ++ [row]) i =
      setRows f rows i ++ if f rows.length = i then [(rowName rows.length, row)] else [] := by
  unfold setRows
  rw [List.zipIdx_append, List.filter_append, List.map_append]
  congr 1
  by_cases h : f rows.length = i
  · simp [h]
  · simp [h]

theorem setRows_append_of_ne (h : f rows.length ≠ i) :
    setRows f (rows ++ [row]) i = setRows f rows i := by
  rw [setRows_append, if_neg h, List.append_nil]

theorem setsBy_succ (f : Nat → Nat) (n : Nat) (rows : List Row) :
    setsBy f (n + 1) rows = setsBy f n rows ++ [⟨setName n, setRows f rows n⟩] := by
  unfold setsBy
  rw [List.range_succ, List.map_append]
  rfl

/-- A row leaves the sets before its own alone. -/
theorem setsBy_append_of_le (h : n ≤ f rows.length) :
    setsBy f n (rows ++ [row]) = setsBy f n rows := by
  unfold setsBy
  refine List.map_congr_left fun i hi => ?_
  rw [setRows_append_of_ne (by have := List.mem_range.mp hi; omega)]

/-- A set that no row goes to. -/
theorem setRows_eq_nil (h : ∀ r, r < rows.length → f r ≠ i) : setRows f rows i = [] := by
  unfold setRows
  rw [List.map_eq_nil_iff, List.filter_eq_nil_iff]
  intro c hc
  have := List.snd_lt_of_mem_zipIdx hc
  simpa using h c.2 (by omega)

end Snoc

/-- What every round of the loop keeps: the sets are those by `setOf`, and a set is open unless the
    next row goes to a new one. -/
structure SetsPacked (done : List Row) (s : PackState) (sets : List RowSet) : Prop where
  next : s.r = done.length
  closed : s.settree = none ↔ s.r = 0 ∨ setOf s.r ≠ setOf (s.r - 1)
  sets : sets = packedSets done

/-- A row. -/
theorem SetsPacked.added {done : List Row} {s s' : PackState} {sets sets' : List RowSet} {row : Row}
    (h : SetsPacked done s sets) (hadd : Added s sets row s' sets') :
    SetsPacked (done ++ [row]) s' sets' := by
  have hmax : max_row_num_for_each_set = 10000 := rfl
  obtain ⟨hnext, hclosed, hsets⟩ := h
  refine ⟨by rw [hadd.next, hnext, List.length_append]; rfl, ?_, ?_⟩
  · rw [hadd.closed, hadd.next, setOf_eq, setOf_eq, hmax]
    omega
  · have hlen : (done ++ [row]).length = done.length + 1 := by rw [List.length_append]; rfl
    have hcount : setCount (done ++ [row]).length = setOf done.length + 1 := by
      rw [hlen, setCount, if_neg (Nat.succ_ne_zero _), Nat.add_sub_cancel]
    have hnew : packedSets (done ++ [row]) = setsBy setOf (setOf done.length) done ++
        [⟨setName (setOf done.length), setRows setOf done (setOf done.length) ++
          [(rowName done.length, row)]⟩] := by
      rw [packedSets, hcount, setsBy_succ, setsBy_append_of_le (Nat.le_refl _), setRows_append,
        if_pos rfl]
    rw [hnew]
    rcases hadd.sets with ⟨hopen, l, set, hl, rfl⟩ | ⟨hnone, rfl⟩
    · -- the last set goes on
      have hpos : done.length ≠ 0 ∧ setOf done.length = setOf (done.length - 1) := by
        rw [Ne, hclosed, hnext, not_or, not_not] at hopen
        exact hopen
      have hold : packedSets done = setsBy setOf (setOf done.length) done ++
          [⟨setName (setOf done.length), setRows setOf done (setOf done.length)⟩] := by
        rw [packedSets, setCount, if_neg hpos.1, setsBy_succ, ← hpos.2]
      rw [hsets, hold] at hl
      obtain ⟨rfl, hset⟩ := List.append_inj' hl rfl
      obtain rfl := (List.cons.inj hset).1
      rw [hnext]
    · -- a new set
      rw [hclosed, hnext] at hnone
      have hcount' : setCount done.length = setOf done.length ∧
          setOf done.length = done.length / max_row_num_for_each_set := by
        rw [setOf_eq, setOf_eq] at hnone
        rw [setCount, setOf_eq, setOf_eq, hmax]
        split <;> omega
      have hempty : setRows setOf done (setOf done.length) = [] := by
        refine setRows_eq_nil fun r hr => ?_
        rw [setOf_eq, setOf_eq] at hnone ⊢
        omega
      rw [hempty, hsets, packedSets, hcount'.1, hnext, ← hcount'.2]
      rfl

/-- The tree of a result is that of its sets. -/
def IsResultTree (tree : KnvNode) (res : MysqlRes) (reqkey : List UInt8) (time : UInt64)
    (sets : List RowSet) : Prop :=
  ∃ ts, KnvNode.Means tree (.node 1 (treeKey (keyBytes reqkey)) (resultMetas res time)
    (fieldsTree res.fields :: ts)) ∧ ts.map Tree.field = sets.map (fun s => s.tree.field)

/-- **The sets of a packed result.** -/
theorem packResult_sets (res : MysqlRes) (hF : 11 + res.fields.length ≤ 2 ^ 32)
    (reqkey : List UInt8) (time : UInt64) : ∃ tree, packResult res reqkey time = some tree ∧
      IsResultTree tree res reqkey time (packedSets res.rows) := by
  obtain ⟨tree, s, sets, hpack, htree, -, hq⟩ := packResult_run (Q := SetsPacked)
    (fun hq hadd => hq.added hadd) (fun _ => ⟨rfl, by simp, rfl⟩) res hF reqkey time
  rw [hq.sets] at htree
  exact ⟨tree, hpack, htree⟩

/-! ## The shape of the sets -/

/-- The first set takes the rows `0 .. 10000`. -/
theorem length_setRows_zero {rows : List Row} (h : max_row_num_for_each_set < rows.length) :
    max_row_num_for_each_set < (setRows setOf rows 0).length := by
  have hmax : max_row_num_for_each_set = 10000 := rfl
  have hsplit : rows = rows.take (max_row_num_for_each_set + 1) ++
    rows.drop (max_row_num_for_each_set + 1) := (List.take_append_drop _ rows).symm
  have htake : (rows.take (max_row_num_for_each_set + 1)).length = max_row_num_for_each_set + 1 := by
    rw [List.length_take]
    omega
  have hfirst : ((rows.take (max_row_num_for_each_set + 1)).zipIdx.filter fun c => setOf c.2 = 0) =
      (rows.take (max_row_num_for_each_set + 1)).zipIdx := by
    rw [List.filter_eq_self]
    intro c hc
    have := List.snd_lt_of_mem_zipIdx hc
    have h0 : setOf c.2 = 0 := by
      rw [setOf_eq]
      omega
    simpa using h0
  unfold setRows
  rw [hsplit, List.zipIdx_append, List.filter_append, hfirst, List.length_map, List.length_append,
    List.length_zipIdx, htake]
  omega

/-- Up to 10001 rows there is one set. -/
theorem packedSets_one {rows : List Row} (h : rows.length ≤ max_row_num_for_each_set + 1) :
    packedSets rows = [] ∧ rows = [] ∨
      packedSets rows = [⟨setName 0, rows.zipIdx.map fun c => (rowName c.2, c.1)⟩] := by
  have hmax : max_row_num_for_each_set = 10000 := rfl
  by_cases h0 : rows = []
  · subst h0
    exact .inl ⟨rfl, rfl⟩
  · have hpos := List.length_pos_iff.mpr h0
    have hcount : setCount rows.length = 1 := by
      rw [setCount, if_neg (by omega), setOf_eq]
      omega
    have hall : (rows.zipIdx.filter fun c => setOf c.2 = 0) = rows.zipIdx := by
      rw [List.filter_eq_self]
      intro c hc
      have := List.snd_lt_of_mem_zipIdx hc
      have h0 : setOf c.2 = 0 := by
        rw [setOf_eq]
        omega
      simpa using h0
    right
    rw [packedSets, hcount]
    show [(⟨setName 0, setRows setOf rows 0⟩ : RowSet)] = _
    rw [setRows, hall]

theorem packedSets_shape {rows : List Row} (h : rows.length ≤ max_row_num_for_each_set) :
    SetShape rows (packedSets rows) := by
  have hmax : max_row_num_for_each_set = 10000 := rfl
  rcases packedSets_one (Nat.le_succ_of_le h) with ⟨hsets, rfl⟩ | hsets
  · rw [hsets]
    exact ⟨fun r hr => absurd hr (Nat.not_lt_zero r), nofun, nofun⟩
  · rw [hsets]
    refine ⟨fun r hr => ⟨_, List.mem_singleton_self _, ?_, ?_⟩, ?_, nofun⟩
    · rw [hmax, Nat.div_eq_of_lt (by omega)]
    · exact List.mem_map.mpr ⟨(rows[r], r), List.mem_zipIdx_iff_getElem?.mpr (by simp [hr]), rfl⟩
    · intro set hset
      rw [List.mem_singleton.mp hset, List.length_map, List.length_zipIdx]
      exact h

theorem packedSets_not_shape {rows : List Row} (h : max_row_num_for_each_set < rows.length) :
    ¬ SetShape rows (packedSets rows) := by
  intro hshape
  have hmem : (⟨setName 0, setRows setOf rows 0⟩ : RowSet) ∈ packedSets rows := by
    refine List.mem_map.mpr ⟨0, List.mem_range.mpr ?_, rfl⟩
    unfold setCount
    rw [if_neg (by omega)]
    omega
  exact absurd (hshape.most _ hmem) (Nat.not_le.mpr (length_setRows_zero h))

/-- **Row sets keep their documented shape** exactly when there are no more than 10000 rows: in the
    tree of `PackResult`, which is that of `packedSets`. -/
theorem packResult_shape_iff (res : MysqlRes) (hF : 11 + res.fields.length ≤ 2 ^ 32)
    (reqkey : List UInt8) (time : UInt64) : ∃ tree, packResult res reqkey time = some tree ∧
      IsResultTree tree res reqkey time (packedSets res.rows) ∧
      (SetShape res.rows (packedSets res.rows) ↔ res.rows.length ≤ max_row_num_for_each_set) := by
  obtain ⟨tree, hpack, htree⟩ := packResult_sets res hF reqkey time
  refine ⟨tree, hpack, htree, fun hshape => ?_, packedSets_shape⟩
  by_contra h
  exact packedSets_not_shape (Nat.not_le.mp h) hshape

/-- A column and `n` rows of `NULL`. -/
def nullRows (n : Nat) : MysqlRes where
  fields := [[97]]
  rows := List.replicate n [none]
  width row h := by rw [List.eq_of_mem_replicate h]; rfl

theorem packResult_shape_two : ∃ tree, packResult (nullRows 2) [107] 0 = some tree ∧
    IsResultTree tree (nullRows 2) [107] 0 (packedSets (nullRows 2).rows) ∧
    (SetShape (nullRows 2).rows (packedSets (nullRows 2).rows) ↔
      (nullRows 2).rows.length ≤ max_row_num_for_each_set) :=
  packResult_shape_iff (nullRows 2) (by decide) [107] 0

/-- **The defect.**  Of 10001 rows all are in the first set; there is no set 1 for row `10000`. -/
theorem first_set_overfull : ∃ tree, packResult (nullRows 10001) [107] 0 = some tree ∧
    IsResultTree tree (nullRows 10001) [107] 0 (packedSets (nullRows 10001).rows) ∧
    (packedSets (nullRows 10001).rows).map (fun s => (s.name, s.rows.length)) =
      [(setName 0, 10001)] ∧
    ¬ SetShape (nullRows 10001).rows (packedSets (nullRows 10001).rows) := by
  have hlen : (nullRows 10001).rows.length = 10001 := List.length_replicate
  have hmax : max_row_num_for_each_set = 10000 := rfl
  obtain ⟨tree, hpack, htree⟩ := packResult_sets (nullRows 10001) (by decide) [107] 0
  refine ⟨tree, hpack, htree, ?_, packedSets_not_shape (by omega)⟩
  rcases @packedSets_one (nullRows 10001).rows (by omega) with ⟨-, h0⟩ | hsets
  · rw [h0] at hlen
    cases hlen
  · rw [hsets, List.map_singleton, List.length_map, List.length_zipIdx, hlen]

end MysqlProxy
