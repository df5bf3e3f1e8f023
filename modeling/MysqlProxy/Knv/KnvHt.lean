/-
  The hash index of a KNV node (`KnvHt` in `knv/knv_node.h`, `knv/knv_node.cc`).

  The table holds pointers to nodes, chained in buckets through the nodes' `ht_next`; a bitmap says
  which buckets have been written to.  A bucket whose bit is clear holds whatever was in the memory
  before, so no operation reads it.

  Modelling choices.
  * The table is generic in the pointers `α`.  What it reads THROUGH a pointer is the node's tag and
    key, and this is the argument `view`.
  * A bucket is the list of the pointers chained in it.  The next level's bitmap is allocated with
    the table, so only its bits are kept.
-/
import MysqlProxy.Lib.Mem
import Mathlib.Data.List.Find
import Mathlib.Data.List.Perm.Basic

namespace MysqlProxy

def KNV_DEFAULT_HT_SIZE : Nat := 32

/-- The last up to three bytes of a key: the first of them is shifted furthest. -/
def keyHashTail : Nat → List UInt8 → Nat
  | t, [] => t
  | t, b :: k => keyHashTail ((t + b.toNat * 2 ^ (8 * k.length)) % 2 ^ 32) k

/-- The sum of `get_keyhash`: a word of the key at a time. -/
def keyHashSum : Nat → List UInt8 → Nat
  | t, a :: b :: c :: d :: k => keyHashSum ((t + leNat [a, b, c, d]) % 2 ^ 32) k
  | t, k => keyHashTail t k

/-- `get_keyhash`; `t&(sz-1)` is `t%sz`, because `sz` is a power of 2. -/
def getKeyhash (t : UInt32) (k : List UInt8) (sz : Nat) : Nat := keyHashSum t.toNat k % sz

/-- The index: `nr` nodes in `sz` buckets. -/
structure KnvHt (α : Type) where
  nr : Nat
  sz : Nat
  bm : Nat → Bool
  ht : Nat → List α

namespace KnvHt

variable {α : Type} (view : α → UInt32 × List UInt8)

/-- A new or cleared table.  The buckets are not initialised. -/
def clear : KnvHt α where
  nr := 0
  sz := KNV_DEFAULT_HT_SIZE
  bm := fun _ => false
  ht := fun _ => []

/-- The bucket a node belongs to. -/
def bucket (c : α) (sz : Nat) : Nat := getKeyhash (view c).1 (view c).2 sz

/-- `get`: the first match in the bucket. -/
def get (h : KnvHt α) (tag : UInt32) (k : List UInt8) : Option α :=
  let hi := getKeyhash tag k h.sz
  if h.bm hi then (h.ht hi).find? fun c => decide (view c = (tag, k)) else none

/-- Put a node in front of its bucket, which is a new list if the bit was clear. -/
def link (h : KnvHt α) (c : α) : KnvHt α :=
  let hi := bucket view c h.sz
  { h with
    nr := h.nr + 1
    bm := fun i => if i = hi then true else h.bm i
    ht := fun i => if i = hi then (if h.bm hi then c :: h.ht hi else [c]) else h.ht i }

/-- The levels 32, 256, 8192. -/
def nextLevel (sz : Nat) : Nat := if sz < 256 then 256 else 8192

/-- `increase`: bucket by bucket into a larger table. -/
def increase (h : KnvHt α) : KnvHt α :=
  if 8192 ≤ h.sz then h
  else
    let nodes := (List.range h.sz).flatMap fun i => if h.bm i then h.ht i else []
    nodes.foldl (link view) { clear with sz := nextLevel h.sz }

def put (h : KnvHt α) (c : α) : KnvHt α :=
  link view (if h.sz < h.nr + 1 then increase view h else h) c

/-- `remove(node)`: the pointer leaves its bucket; `none` if it is not there. -/
def remove [DecidableEq α] (h : KnvHt α) (c : α) : Option (KnvHt α) :=
  let hi := bucket view c h.sz
  if h.bm hi ∧ c ∈ h.ht hi then
    some { h with
      nr := h.nr - 1
      ht := fun i => if i = hi then (h.ht hi).erase c else h.ht i }
  else none

/-! ## What the index holds -/

/-- All the nodes in the table, bucket by bucket. -/
def nodes (h : KnvHt α) : List α := (List.range h.sz).flatMap fun i => if h.bm i then h.ht i else []

/-- The table is an index of the list `l`: each node of the list is in the bucket of its tag and
    key, and nothing else is in the table. -/
structure Holds (h : KnvHt α) (l : List α) : Prop where
  sz_pos : 0 < h.sz
  placed : ∀ i c, h.bm i = true → c ∈ h.ht i → bucket view c h.sz = i
  perm : h.nodes.Perm l

theorem bucket_lt (c : α) {sz : Nat} (h : 0 < sz) : bucket view c sz < sz := Nat.mod_lt _ h

theorem mem_nodes {h : KnvHt α} {c : α} : c ∈ h.nodes ↔ ∃ i, i < h.sz ∧ h.bm i = true ∧ c ∈ h.ht i := by
  unfold nodes
  rw [List.mem_flatMap]
  constructor
  · rintro ⟨i, hi, hc⟩
    split at hc
    · exact ⟨i, List.mem_range.mp hi, ‹_›, hc⟩
    · exact absurd hc List.not_mem_nil
  · rintro ⟨i, hi, hbm, hc⟩
    exact ⟨i, List.mem_range.mpr hi, by rw [if_pos hbm]; exact hc⟩

/-- One bucket gets a node more: so does the whole. -/
theorem flatMap_insert {is : List Nat} {f g : Nat → List α} {j : Nat} {c : α} (hnd : is.Nodup)
    (hj : j ∈ is) (hg : g j = c :: f j) (hother : ∀ i, i ≠ j → g i = f i) :
    (is.flatMap g).Perm (c :: is.flatMap f) := by
  induction is with
  | nil => exact absurd hj List.not_mem_nil
  | cons i is ih =>
    have hnd' := List.nodup_cons.mp hnd
    rw [List.flatMap_cons, List.flatMap_cons]
    by_cases hij : i = j
    · subst hij
      have hrest : is.flatMap g = is.flatMap f :=
        List.flatMap_congr fun x hx => hother x fun he => hnd'.1 (he ▸ hx)
      rw [hg, hrest]
      exact List.Perm.refl _
    · have hmem : j ∈ is := (List.mem_cons.mp hj).resolve_left fun he => hij he.symm
      rw [hother i hij]
      exact ((ih hnd'.2 hmem).append_left (f i)).trans List.perm_middle

theorem holds_clear : Holds view (clear : KnvHt α) [] where
  sz_pos := Nat.zero_lt_succ 31
  placed := fun _ _ h => absurd h Bool.false_ne_true
  perm := by
    unfold nodes
    rw [List.perm_nil, List.flatMap_eq_nil_iff]
    intro i _
    rfl

theorem Holds.link {h : KnvHt α} {l : List α} (hh : Holds view h l) (c : α) :
    Holds view (h.link view c) (c :: l) where
  sz_pos := hh.sz_pos
  placed := by
    intro i x hbm hx
    show bucket view x h.sz = i
    by_cases hi : i = bucket view c h.sz
    · have hx' : x ∈ if h.bm (bucket view c h.sz) then c :: h.ht (bucket view c h.sz) else [c] := by
        simpa only [KnvHt.link, if_pos hi] using hx
      split at hx'
      · rcases List.mem_cons.mp hx' with hx' | hx'
        · rw [hx', hi]
        · rw [hh.placed _ x ‹_› hx', hi]
      · rw [List.mem_singleton.mp hx', hi]
    · have hx' : x ∈ h.ht i := by simpa only [KnvHt.link, if_neg hi] using hx
      have hbm' : h.bm i = true := by simpa only [KnvHt.link, if_neg hi] using hbm
      exact hh.placed i x hbm' hx'
  perm := by
    refine (flatMap_insert List.nodup_range (List.mem_range.mpr (bucket_lt view c hh.sz_pos)) ?_ ?_).trans
      (hh.perm.cons c)
    · simp only [KnvHt.link, if_true]
      split <;> rfl
    · intro i hi
      simp only [KnvHt.link, if_neg hi]

theorem Holds.foldl_link {h : KnvHt α} {l : List α} (hh : Holds view h l) (cs : List α) :
    Holds view (cs.foldl (KnvHt.link view) h) (cs.reverse ++ l) := by
  induction cs generalizing h l with
  | nil => exact hh
  | cons c cs ih =>
    have := ih (hh.link view c)
    rw [List.reverse_cons, List.append_assoc]
    exact this

theorem Holds.of_perm {h : KnvHt α} {l l' : List α} (hh : Holds view h l) (hp : l.Perm l') :
    Holds view h l' := ⟨hh.sz_pos, hh.placed, hh.perm.trans hp⟩

theorem nextLevel_pos (sz : Nat) : 0 < nextLevel sz := by
  unfold nextLevel
  split <;> decide

theorem Holds.increase {h : KnvHt α} {l : List α} (hh : Holds view h l) :
    Holds view (h.increase view) l := by
  rw [KnvHt.increase]
  split
  · exact hh
  · have hempty : Holds view ({ clear with sz := nextLevel h.sz } : KnvHt α) [] :=
      { sz_pos := nextLevel_pos h.sz
        placed := fun _ _ h => absurd h Bool.false_ne_true
        perm := by
          unfold nodes
          rw [List.perm_nil, List.flatMap_eq_nil_iff]
          intro i _
          rfl }
    refine (hempty.foldl_link view _).of_perm view ?_
    rw [List.append_nil]
    exact (List.reverse_perm _).trans hh.perm

/-- **`put` adds a node.** -/
theorem Holds.put {h : KnvHt α} {l : List α} (hh : Holds view h l) (c : α) :
    Holds view (h.put view c) (c :: l) := by
  rw [KnvHt.put]
  split
  · exact (hh.increase view).link view c
  · exact hh.link view c

/-- The table only looks through the pointers it holds. -/
theorem Holds.congr {view' : α → UInt32 × List UInt8} {h : KnvHt α} {l : List α}
    (hh : Holds view h l) (hv : ∀ c ∈ l, view' c = view c) : Holds view' h l where
  sz_pos := hh.sz_pos
  placed := by
    intro i c hbm hc
    by_cases hi : i < h.sz
    · have hmem : c ∈ l := hh.perm.mem_iff.mp (mem_nodes.mpr ⟨i, hi, hbm, hc⟩)
      rw [← hh.placed i c hbm hc, bucket, bucket, hv c hmem]
    · have := hh.placed i c hbm hc
      have := bucket_lt view c hh.sz_pos
      omega
  perm := hh.perm

theorem Holds.get_congr {view' : α → UInt32 × List UInt8} {h : KnvHt α} {l : List α}
    (hh : Holds view h l) (hv : ∀ c ∈ l, view' c = view c) {tag : UInt32} {k : List UInt8} :
    h.get view' tag k = h.get view tag k := by
  rw [KnvHt.get, KnvHt.get]
  split
  · rename_i hbm
    refine List.find?_congr fun c hc => ?_
    rw [hv c (hh.perm.mem_iff.mp (mem_nodes.mpr ⟨_, Nat.mod_lt _ hh.sz_pos, hbm, hc⟩))]
  · rfl

/-- **`get` finds a node with the tag and the key** -/
theorem Holds.get_some {h : KnvHt α} {l : List α} (hh : Holds view h l) {tag : UInt32}
    {k : List UInt8} {c : α} (hget : h.get view tag k = some c) : c ∈ l ∧ view c = (tag, k) := by
  rw [KnvHt.get] at hget
  split at hget
  · rename_i hbm
    have hview := List.find?_some hget
    refine ⟨?_, of_decide_eq_true hview⟩
    exact hh.perm.mem_iff.mp
      (mem_nodes.mpr ⟨_, Nat.mod_lt _ hh.sz_pos, hbm, List.mem_of_find?_eq_some hget⟩)
  · cases hget

/-- whenever there is one. -/
theorem Holds.get_of_mem {h : KnvHt α} {l : List α} (hh : Holds view h l) {c : α} (hc : c ∈ l) :
    ∃ c', h.get view (view c).1 (view c).2 = some c' := by
  obtain ⟨i, _, hbm, hmem⟩ := mem_nodes.mp (hh.perm.mem_iff.mpr hc)
  have hi : getKeyhash (view c).1 (view c).2 h.sz = i := hh.placed i c hbm hmem
  rw [KnvHt.get]
  simp only [hi, if_pos hbm]
  rw [← Option.isSome_iff_exists, List.find?_isSome]
  exact ⟨c, hmem, by simp⟩

/-- **`remove` takes a node out.** -/
theorem Holds.remove [DecidableEq α] {h : KnvHt α} {l : List α} (hh : Holds view h l) {c : α}
    (hc : c ∈ l) : ∃ h', h.remove view c = some h' ∧ Holds view h' (l.erase c) := by
  obtain ⟨i, hlt, hbm, hmem⟩ := mem_nodes.mp (hh.perm.mem_iff.mpr hc)
  have hi : bucket view c h.sz = i := hh.placed i c hbm hmem
  refine ⟨_, by rw [KnvHt.remove, hi, if_pos ⟨hbm, hmem⟩], ?_⟩
  refine { sz_pos := hh.sz_pos, placed := ?_, perm := ?_ }
  · intro j x hj hx
    replace hx : x ∈ if j = i then (h.ht i).erase c else h.ht j := hx
    by_cases hji : j = i
    · rw [if_pos hji] at hx
      rw [hji]
      exact hh.placed i x hbm (List.mem_of_mem_erase hx)
    · rw [if_neg hji] at hx
      exact hh.placed j x hj hx
  · -- putting the node back gives the old table
    have hback := flatMap_insert (g := fun j => if j = i then c :: (h.ht i).erase c else
        if h.bm j then h.ht j else []) (f := fun j => if h.bm j then (if j = i then
        (h.ht i).erase c else h.ht j) else []) (c := c) List.nodup_range
      (List.mem_range.mpr hlt) (by simp only [if_true, if_pos hbm]) (by
        intro j hj
        simp only [if_neg hj])
    have hsame : ((List.range h.sz).flatMap fun j => if j = i then c :: (h.ht i).erase c else
        if h.bm j then h.ht j else []).Perm h.nodes := by
      unfold nodes
      refine List.Perm.flatMap_left _ fun j _ => ?_
      by_cases hj : j = i
      · subst hj
        rw [if_pos rfl, if_pos hbm]
        exact (List.perm_cons_erase hmem).symm
      · rw [if_neg hj]
    have hcons : (c :: KnvHt.nodes { h with
        nr := h.nr - 1
        ht := fun j => if j = i then (h.ht i).erase c else h.ht j }).Perm l :=
      hback.symm.trans (hsame.trans hh.perm)
    exact (List.perm_cons c).mp (hcons.trans (List.perm_cons_erase hc))

end KnvHt

end MysqlProxy
