/-
  The hash index as it lies in memory (`KnvHt` in `knv/knv_node.cc`).

  A bucket is a pointer, a chain runs through the nodes' own `ht_next`, and the bitmap is bytes.  The
  buckets of a new table are not initialised.

  * `exec` is one call; it is `none` when the call reads a bucket that was never written to, or
    follows a chain for more than `fuel` nodes.
  * `Shows s T`: the memory shows the table `T` of `KnvHt.lean`, chain for list.
  * `multimap`: along every run of calls on distinct nodes no call is `none`, and each answers as a
    multimap does.

  Modelling choices.
  * A pointer to a node is a `Nat`, `NULL` is `0`.  What the index reads and writes of a node is its
    tag, its key and `ht_next`.
  * Whether `UcMemManager::Alloc` has memory is an argument of `put`.
  * `nr` counts objects in memory and is a `Nat`.
-/
import MysqlProxy.Knv.KnvHt
import MysqlProxy.Lib.Chain
import MysqlProxy.Lib.Run
import Mathlib.Data.Nat.Bitwise

namespace MysqlProxy

/-- What the index reads and writes of a node. -/
structure HtNode where
  tag : UInt32
  key : List UInt8
  ht_next : Nat

/-- The nodes, and the table.  A bucket is `none` until it is written to. -/
structure HtState where
  node : Nat → HtNode
  nr : Nat
  sz : Nat
  bm : Nat → UInt8
  ht : Nat → Option Nat

/-- `HtPos`: the place that holds a pointer to a node. -/
inductive HtPos where
  | bucket (hi : Nat)
  | ht_next (c : Nat)
  deriving DecidableEq, Repr

/-- `GET_BIT` -/
def getBit (bm : Nat → UInt8) (bit : Nat) : Bool :=
  bm (bit / 8) &&& (1 <<< UInt8.ofNat (bit % 8)) ≠ 0

/-- `SET_BIT` -/
def setBit (bm : Nat → UInt8) (bit : Nat) : Nat → UInt8 :=
  Function.update bm (bit / 8) (bm (bit / 8) ||| (1 <<< UInt8.ofNat (bit % 8)))

namespace HtState

/-- The tag and the key of a node. -/
def view (s : HtState) (c : Nat) : UInt32 × List UInt8 := ((s.node c).tag, (s.node c).key)

def next (s : HtState) (c : Nat) : Nat := (s.node c).ht_next

/-- A new table: its bits are cleared, its buckets are not. -/
def newTable (node : Nat → HtNode) (sz : Nat) : HtState where
  node := node
  nr := 0
  sz := sz
  bm := fun _ => 0
  ht := fun _ => none

/-- The index without nodes. -/
def init (node : Nat → HtNode) : HtState := newTable node KNV_DEFAULT_HT_SIZE

/-- `c->ht_next = v` -/
def setNext (s : HtState) (c v : Nat) : HtState :=
  { s with node := Function.update s.node c { s.node c with ht_next := v } }

/-- `*pos = v` -/
def store (s : HtState) (pos : HtPos) (v : Nat) : HtState :=
  match pos with
  | .bucket hi => { s with ht := Function.update s.ht hi (some v) }
  | .ht_next c => s.setNext c v

/-- Follow a chain to the first node that is wanted, and to the place that points to it. -/
def walk (s : HtState) (wanted : Nat → Bool) : Nat → HtPos → Nat → Option (Option (Nat × HtPos))
  | 0, _, c => if c = 0 then some none else none
  | fuel + 1, pos, c =>
    if c = 0 then some none
    else if wanted c then some (some (c, pos))
    else walk s wanted fuel (.ht_next c) (s.next c)

/-- The chain of a bucket, unless its bit is clear. -/
def walkBucket (s : HtState) (wanted : Nat → Bool) (fuel hi : Nat) :
    Option (Option (Nat × HtPos)) :=
  if getBit s.bm hi then (s.ht hi).bind (s.walk wanted fuel (.bucket hi)) else some none

/-- `IsMatch` -/
def isMatch (s : HtState) (tag : UInt32) (k : List UInt8) (c : Nat) : Bool :=
  decide (s.view c = (tag, k))

/-- `get` with a position. -/
def getPos (fuel : Nat) (s : HtState) (tag : UInt32) (k : List UInt8) :
    Option (Option (Nat × HtPos)) :=
  s.walkBucket (s.isMatch tag k) fuel (getKeyhash tag k s.sz)

/-- `get` -/
def get (fuel : Nat) (s : HtState) (tag : UInt32) (k : List UInt8) : Option (Option Nat) :=
  (s.getPos fuel tag k).map (·.map Prod.fst)

/-- Put a node in front of its bucket, which starts with it if the bit was clear. -/
def link (s : HtState) (n : Nat) : Option HtState :=
  let hi := getKeyhash (s.node n).tag (s.node n).key s.sz
  if getBit s.bm hi then
    (s.ht hi).map fun hc =>
      { s.setNext n hc with ht := Function.update s.ht hi (some n), nr := s.nr + 1 }
  else
    some { s.setNext n 0 with
      bm := setBit s.bm hi
      ht := Function.update s.ht hi (some n)
      nr := s.nr + 1 }

/-- Move a chain of the old table; `hnext` is read before the node is linked again. -/
def moveChain : Nat → HtState → Nat → Option HtState
  | 0, s, c => if c = 0 then some s else none
  | fuel + 1, s, c =>
    if c = 0 then some s
    else
      let hnext := s.next c
      (s.link c).bind fun s' => moveChain fuel s' hnext

/-- Move a bucket of the table `old`. -/
def moveBucket (fuel : Nat) (old s : HtState) (i : Nat) : Option HtState :=
  if getBit old.bm i then (old.ht i).bind (moveChain fuel s) else some s

/-- `increase` -/
def increase (fuel : Nat) (alloc : Bool) (s : HtState) : Option (Except String HtState) :=
  if 8192 ≤ s.sz then some (.ok s)
  else if alloc then
    let new_sz := KnvHt.nextLevel s.sz
    ((List.range s.sz).foldlM (moveBucket fuel s) (newTable s.node new_sz)).map .ok
  else some (.error "UcMemManager::Alloc failed")

def put (fuel : Nat) (alloc : Bool) (s : HtState) (n : Nat) : Option (Except String HtState) :=
  if s.sz < s.nr + 1 then
    (s.increase fuel alloc).bind fun
      | .error errorstr => some (.error errorstr)
      | .ok s' => (s'.link n).map .ok
  else (s.link n).map .ok

/-- `remove(node, pos)` -/
def removePos (s : HtState) (node : Nat) (pos : HtPos) : HtState :=
  { s.store pos (s.next node) with nr := s.nr - 1 }

/-- `remove(node)`: what `prev` points to, or the bucket without a `prev`, is the place that points
    to the node. -/
def remove (fuel : Nat) (s : HtState) (node : Nat) : Option (Except String HtState) :=
  let hi := getKeyhash (s.node node).tag (s.node node).key s.sz
  (s.walkBucket (fun c => decide (c = node)) fuel hi).map fun
    | some (c, pos) => .ok (s.removePos c pos)
    | none => .error "tag/key not found in ht"

end HtState

/-! ## Calls -/

/-- A call.  `removeGot` is a `get` with a position followed by `remove(node, pos)`; `edit` is
    whatever is done to a node elsewhere. -/
inductive HtCall where
  | put (n : Nat) (alloc : Bool)
  | get (tag : UInt32) (k : List UInt8)
  | remove (n : Nat)
  | removeGot (tag : UInt32) (k : List UInt8)
  | edit (n : Nat) (v : HtNode)

/-- What a call returns. -/
inductive HtAnswer where
  | done
  | failed (errorstr : String)
  | found (c : Option Nat)
  deriving DecidableEq

namespace HtState

def answer (s : HtState) : Except String HtState → HtState × HtAnswer
  | .ok s' => (s', .done)
  | .error errorstr => (s, .failed errorstr)

/-- One call. -/
def exec (fuel : Nat) (s : HtState) : HtCall → Option (HtState × HtAnswer)
  | .put n alloc => (s.put fuel alloc n).map s.answer
  | .get tag k => (s.get fuel tag k).map fun c => (s, .found c)
  | .remove n => (s.remove fuel n).map s.answer
  | .removeGot tag k =>
    (s.getPos fuel tag k).map fun
      | none => (s, .found none)
      | some (c, pos) => (s.removePos c pos, .found (some c))
  | .edit n v => some ({ s with node := Function.update s.node n v }, .done)

end HtState

/-- Only nodes that are not stored are put, or edited. -/
def HtCall.Allowed (l : List Nat) : HtCall → Prop
  | .put n _ => n ≠ 0 ∧ n ∉ l
  | .edit n _ => n ∉ l
  | _ => True

/-- The nodes that are stored after the call. -/
def HtCall.stored (l : List Nat) : HtCall → HtAnswer → List Nat
  | .put n _, .done => n :: l
  | .remove n, .done => l.erase n
  | .removeGot _ _, .found (some c) => l.erase c
  | _, _ => l

/-- Some stored node has the tag and the key, and `x` is one of them, or none has. -/
def Finds (view : Nat → UInt32 × List UInt8) (l : List Nat) (tag : UInt32) (k : List UInt8) :
    Option Nat → Prop
  | some c => c ∈ l ∧ view c = (tag, k)
  | none => ∀ c ∈ l, view c ≠ (tag, k)

/-- The answer of a multimap that stores the nodes `l`. -/
def HtCall.Answers (view : Nat → UInt32 × List UInt8) (l : List Nat) : HtCall → HtAnswer → Prop
  | .put _ alloc, a => a = .done ∨ alloc = false ∧ a = .failed "UcMemManager::Alloc failed"
  | .get tag k, a => ∃ x, a = .found x ∧ Finds view l tag k x
  | .remove n, a => if n ∈ l then a = .done else a = .failed "tag/key not found in ht"
  | .removeGot tag k, a => ∃ x, a = .found x ∧ Finds view l tag k x
  | .edit _ _, a => a = .done

/-! ## Bits -/

theorem toNat_one_shiftLeft (bit : Nat) : (1 <<< UInt8.ofNat (bit % 8)).toNat = 2 ^ (bit % 8) := by
  have h8 : bit % 8 < 8 := Nat.mod_lt _ (by decide)
  have hpow : 2 ^ (bit % 8) < 2 ^ 8 := Nat.pow_lt_pow_right (by decide) h8
  have hmod : bit % 8 % 256 % 8 = bit % 8 := by omega
  rw [UInt8.toNat_shiftLeft, UInt8.toNat_ofNat', Nat.shiftLeft_eq]
  show 1 * 2 ^ (bit % 8 % 256 % 8) % 2 ^ 8 = 2 ^ (bit % 8)
  rw [hmod, Nat.one_mul, Nat.mod_eq_of_lt hpow]

theorem getBit_eq (bm : Nat → UInt8) (bit : Nat) :
    getBit bm bit = (bm (bit / 8)).toNat.testBit (bit % 8) := by
  rw [getBit, Bool.eq_iff_iff, decide_eq_true_iff, ne_eq, ← UInt8.toNat_inj, UInt8.toNat_and,
    toNat_one_shiftLeft, Nat.and_two_pow]
  cases (bm (bit / 8)).toNat.testBit (bit % 8) with
  | false => simp
  | true => simp

theorem getBit_setBit (bm : Nat → UInt8) (i j : Nat) :
    getBit (setBit bm i) j = if j = i then true else getBit bm j := by
  rw [getBit_eq, getBit_eq, setBit]
  by_cases hword : j / 8 = i / 8
  · rw [hword, Function.update_self, UInt8.toNat_or, toNat_one_shiftLeft, Nat.testBit_or,
      Nat.testBit_two_pow]
    by_cases hij : j = i
    · rw [if_pos hij, hij]
      simp
    · have hne : i % 8 ≠ j % 8 := by omega
      rw [if_neg hij, decide_eq_false hne, Bool.or_false]
  · have hij : j ≠ i := fun he => hword (by rw [he])
    rw [if_neg hij, Function.update_of_ne hword]

theorem getBit_zero (bit : Nat) : getBit (fun _ => 0) bit = false := by
  rw [getBit_eq]
  exact Nat.zero_testBit _

/-! ## Chains of nodes -/

/-- The place that points to what comes after the nodes `l`. -/
def placeAfter : HtPos → List Nat → HtPos
  | pos, [] => pos
  | _, c :: l => placeAfter (.ht_next c) l

theorem placeAfter_concat (pos : HtPos) (l : List Nat) (y : Nat) :
    placeAfter pos (l ++ [y]) = .ht_next y := by
  induction l generalizing pos with
  | nil => rfl
  | cons c l ih => exact ih (.ht_next c)

namespace HtState

variable {s s' : HtState} {fuel : Nat}

theorem node_setNext_self (s : HtState) (c v : Nat) :
    (s.setNext c v).node c = { s.node c with ht_next := v } := Function.update_self ..

theorem node_setNext_ne (s : HtState) {x c : Nat} (v : Nat) (hx : x ≠ c) :
    (s.setNext c v).node x = s.node x := Function.update_of_ne hx ..

theorem view_setNext (s : HtState) (c v : Nat) : (s.setNext c v).view = s.view := by
  funext x
  by_cases hx : x = c
  · rw [view, view, hx, node_setNext_self]
  · rw [view, view, node_setNext_ne s v hx]

theorem next_setNext (s : HtState) (c v : Nat) :
    (s.setNext c v).next = Function.update s.next c v := by
  funext x
  by_cases hx : x = c
  · rw [next, hx, node_setNext_self, Function.update_self]
  · rw [next, node_setNext_ne s v hx, Function.update_of_ne hx, next]

/-- **A chain is searched in its order.** -/
theorem walk_chain {wanted : Nat → Bool} {pos : HtPos} {c : Nat} {l : List Nat}
    (h : Chain s.next c l) (hlen : l.length < fuel) :
    s.walk wanted fuel pos c =
      some ((l.find? wanted).map fun x => (x, placeAfter pos (l.takeWhile fun y => !wanted y))) := by
  induction l generalizing fuel pos c with
  | nil =>
    cases fuel with
    | zero => exact absurd hlen (Nat.not_lt_zero _)
    | succ fuel =>
      rw [walk, if_pos (show c = 0 from h)]
      rfl
  | cons x l ih =>
    obtain ⟨rfl, h0, hrest⟩ := h
    cases fuel with
    | zero => exact absurd hlen (Nat.not_lt_zero _)
    | succ fuel =>
      rw [walk, if_neg h0]
      cases hx : wanted c with
      | true =>
        rw [if_pos rfl, List.find?_cons_of_pos hx]
        simp only [List.takeWhile_cons, hx]
        rfl
      | false =>
        rw [if_neg Bool.false_ne_true, List.find?_cons_of_neg (by rw [hx]; exact Bool.false_ne_true),
          ih hrest (Nat.lt_of_succ_lt_succ hlen)]
        simp only [List.takeWhile_cons, hx]
        rfl

/-- Storing the link of `x` in the place that points to it takes it out of the chain. -/
theorem chain_store {hi p x : Nat} {l₁ l₂ : List Nat} (hp : s.ht hi = some p)
    (h : Chain s.next p (l₁ ++ x :: l₂)) :
    ∃ p', (s.store (placeAfter (.bucket hi) l₁) (s.next x)).ht hi = some p' ∧
      Chain (s.store (placeAfter (.bucket hi) l₁) (s.next x)).next p' (l₁ ++ l₂) := by
  rcases List.eq_nil_or_concat l₁ with rfl | ⟨l₀, y, rfl⟩
  · exact ⟨s.next x, Function.update_self .., h.2.2⟩
  · rw [List.concat_eq_append] at h ⊢
    rw [placeAfter_concat]
    refine ⟨p, hp, ?_⟩
    have hnd : (l₀ ++ [y] ++ x :: l₂).Nodup := h.nodup
    have hy : y ∉ l₀ ∧ y ∉ l₂ := by
      simp only [List.append_assoc, List.singleton_append, List.nodup_append, List.nodup_cons,
        List.mem_cons, not_or] at hnd
      exact ⟨fun hm => hnd.2.2 y hm y (.inl rfl) rfl, hnd.2.1.1.2⟩
    rw [List.append_assoc, List.singleton_append] at h ⊢
    have hframe : ∀ z, z ≠ y → (s.setNext y (s.next x)).next z = s.next z := by
      intro z hz
      rw [next_setNext, Function.update_of_ne hz]
    have hfirst : Path s.next p l₀ y := Path.initial h
    have hrest : Chain s.next y (y :: x :: l₂) := h.suffix
    refine (hfirst.frame fun z hz => hframe z fun he => hy.1 (he ▸ hz)).append ?_
    refine ⟨rfl, hrest.2.1, ?_⟩
    show Chain (s.setNext y (s.next x)).next _ l₂
    rw [next_setNext, Function.update_self, ← next_setNext]
    exact Chain.frame hrest.2.2.2.2 fun z hz => hframe z fun he => hy.2 (he ▸ hz)

/-- **The memory shows the table `T`**: each bucket whose bit is set starts the chain of its nodes,
    and no other bucket has been written to. -/
structure Shows (s : HtState) (T : KnvHt Nat) : Prop where
  nr : s.nr = T.nr
  sz : s.sz = T.sz
  bit : ∀ i, getBit s.bm i = T.bm i
  chain : ∀ i, T.bm i = true → ∃ p, s.ht i = some p ∧ Chain s.next p (T.ht i)
  blank : ∀ i, T.bm i = false → s.ht i = none

variable {T : KnvHt Nat} {l : List Nat}

theorem mem_of_bucket {view : Nat → UInt32 × List UInt8} (hh : T.Holds view l) {i c : Nat}
    (hbm : T.bm i = true) (hc : c ∈ T.ht i) : c ∈ l := by
  have hi : i < T.sz := by
    rw [← hh.placed i c hbm hc]
    exact KnvHt.bucket_lt view c hh.sz_pos
  exact hh.perm.mem_iff.mp (KnvHt.mem_nodes.mpr ⟨i, hi, hbm, hc⟩)

/-- No chain is longer than the list of nodes. -/
theorem Shows.length_le {view : Nat → UInt32 × List UInt8} (hs : s.Shows T) (hh : T.Holds view l)
    {i : Nat} (hbm : T.bm i = true) : (T.ht i).length ≤ l.length := by
  obtain ⟨p, -, hc⟩ := hs.chain i hbm
  exact (List.subperm_of_subset hc.nodup fun c hc => mem_of_bucket hh hbm hc).length_le

/-- **A bucket is searched.** -/
theorem Shows.walkBucket {view : Nat → UInt32 × List UInt8} (hs : s.Shows T) (hh : T.Holds view l)
    (hfuel : l.length < fuel) (wanted : Nat → Bool) (hi : Nat) :
    s.walkBucket wanted fuel hi = some (if T.bm hi then ((T.ht hi).find? wanted).map fun x =>
      (x, placeAfter (.bucket hi) ((T.ht hi).takeWhile fun y => !wanted y)) else none) := by
  rw [HtState.walkBucket, hs.bit]
  cases hbm : T.bm hi with
  | false => rfl
  | true =>
    obtain ⟨p, hp, hc⟩ := hs.chain hi hbm
    rw [if_pos rfl, if_pos rfl, hp, Option.bind_some,
      walk_chain hc (Nat.lt_of_le_of_lt (hs.length_le hh hbm) hfuel)]

theorem Shows.get (hs : s.Shows T) (hh : T.Holds s.view l) (hfuel : l.length < fuel) (tag : UInt32)
    (k : List UInt8) : s.get fuel tag k = some (T.get s.view tag k) := by
  rw [HtState.get, getPos, hs.walkBucket hh hfuel, hs.sz, KnvHt.get, Option.map_some]
  cases T.bm (getKeyhash tag k T.sz) with
  | false => rfl
  | true =>
    rw [if_pos rfl, if_pos rfl, Option.map_map]
    exact congrArg some Option.map_id'

/-! ## Putting -/

theorem next_node {s s' : HtState} (h : s'.node = s.node) : s'.next = s.next := by
  funext x
  rw [next, h, next]

/-- **A node is linked.** -/
theorem Shows.link (hs : s.Shows T) (hh : T.Holds s.view l) {n : Nat} (h0 : n ≠ 0) (hn : n ∉ l) :
    ∃ s', s.link n = some s' ∧ s'.Shows (T.link s.view n) ∧ s'.view = s.view ∧
      ∀ c, c ≠ n → s'.next c = s.next c := by
  obtain ⟨hi, hhi⟩ : ∃ hi, hi = getKeyhash (s.node n).tag (s.node n).key T.sz := ⟨_, rfl⟩
  have hbucket : KnvHt.bucket s.view n T.sz = hi := hhi.symm
  have hother : ∀ v, ∀ c, c ≠ n → (s.setNext n v).next c = s.next c := by
    intro v c hc
    rw [next_setNext, Function.update_of_ne hc]
  have hframe : ∀ v i, T.bm i = true → ∀ p, Chain s.next p (T.ht i) →
      Chain (s.setNext n v).next p (T.ht i) := fun v i hbm p hc =>
    hc.frame fun c hc => hother v c fun he => hn (he ▸ mem_of_bucket hh hbm hc)
  have hblank : ∀ i, (T.link s.view n).bm i = false →
      Function.update s.ht hi (some n) i = none := by
    intro i hbi
    simp only [KnvHt.link, hbucket] at hbi
    by_cases hij : i = hi
    · rw [if_pos hij] at hbi
      cases hbi
    · rw [if_neg hij] at hbi
      rw [Function.update_of_ne hij, hs.blank i hbi]
  rw [HtState.link, hs.sz, ← hhi, hs.bit]
  cases hbm : T.bm hi with
  | true =>
    obtain ⟨p, hp, hc⟩ := hs.chain hi hbm
    refine ⟨{ s.setNext n p with ht := Function.update s.ht hi (some n), nr := s.nr + 1 },
      by rw [if_pos rfl, hp]; rfl, ⟨?_, ?_, ?_, ?_, ?_⟩, view_setNext s n p, hother p⟩
    · exact congrArg (· + 1) hs.nr
    · exact hs.sz
    · intro i
      show getBit s.bm i = if i = KnvHt.bucket s.view n T.sz then true else T.bm i
      rw [hs.bit, hbucket]
      split
      next he => rw [he, hbm]
      next => rfl
    · intro i hbi
      simp only [KnvHt.link, hbucket] at hbi ⊢
      by_cases hij : i = hi
      · rw [if_pos hij, if_pos hbm, hij]
        refine ⟨n, Function.update_self .., rfl, h0, ?_⟩
        show Chain (s.setNext n p).next ((s.setNext n p).next n) (T.ht hi)
        rw [next_setNext, Function.update_self, ← next_setNext]
        exact hframe p hi hbm p hc
      · rw [if_neg hij] at hbi ⊢
        obtain ⟨q, hq, hcq⟩ := hs.chain i hbi
        exact ⟨q, (Function.update_of_ne hij ..).trans hq, hframe p i hbi q hcq⟩
    · exact hblank
  | false =>
    refine ⟨_, if_neg Bool.false_ne_true, ⟨?_, ?_, ?_, ?_, ?_⟩, view_setNext s n 0, hother 0⟩
    · exact congrArg (· + 1) hs.nr
    · exact hs.sz
    · intro i
      show getBit (setBit s.bm hi) i = if i = KnvHt.bucket s.view n T.sz then true else T.bm i
      rw [getBit_setBit, hs.bit, hbucket]
    · intro i hbi
      simp only [KnvHt.link, hbucket] at hbi ⊢
      by_cases hij : i = hi
      · rw [if_pos hij, if_neg (by rw [hbm]; exact Bool.false_ne_true), hij]
        refine ⟨n, Function.update_self .., rfl, h0, ?_⟩
        show (s.setNext n 0).next n = 0
        rw [next_setNext, Function.update_self]
      · rw [if_neg hij] at hbi ⊢
        obtain ⟨q, hq, hcq⟩ := hs.chain i hbi
        exact ⟨q, (Function.update_of_ne hij ..).trans hq, hframe 0 i hbi q hcq⟩
    · exact hblank

/-- **A chain is moved.** -/
theorem Shows.moveChain {rest : List Nat} {c : Nat} (hs : s.Shows T) (hh : T.Holds s.view l)
    (hc : Chain s.next c rest) (hlen : rest.length < fuel) (hdis : ∀ x ∈ rest, x ∉ l) :
    ∃ s', HtState.moveChain fuel s c = some s' ∧
      s'.Shows (rest.foldl (KnvHt.link s.view) T) ∧ s'.view = s.view ∧
      ∀ x, x ∉ rest → s'.next x = s.next x := by
  induction rest generalizing fuel s T l c with
  | nil =>
    refine ⟨s, ?_, hs, rfl, fun _ _ => rfl⟩
    cases fuel <;> exact if_pos hc
  | cons x rest ih =>
    have hnd := List.nodup_cons.mp hc.nodup
    obtain ⟨rfl, h0, hrest⟩ := hc
    cases fuel with
    | zero => exact absurd hlen (Nat.not_lt_zero _)
    | succ fuel =>
      obtain ⟨s₁, hlink, hs₁, hview, hnext⟩ := hs.link hh h0 (hdis c List.mem_cons_self)
      have hne : ∀ y ∈ rest, y ≠ c := fun y hy he => hnd.1 (he ▸ hy)
      have hh₁ := hh.link s.view c
      rw [← hview] at hh₁ hs₁
      obtain ⟨s', hmove, hs', hview', hnext'⟩ := ih hs₁ hh₁
        (hrest.frame fun y hy => hnext y (hne y hy)) (Nat.lt_of_succ_lt_succ hlen) (by
          intro y hy hmem
          rcases List.mem_cons.mp hmem with he | hmem
          · exact hne y hy he
          · exact hdis y (List.mem_cons_of_mem c hy) hmem)
      refine ⟨s', ?_, ?_, hview'.trans hview, fun y hy => ?_⟩
      · rw [HtState.moveChain, if_neg h0]
        show (s.link c).bind _ = _
        rw [hlink, Option.bind_some, hmove]
      · rw [hview] at hs'
        exact hs'
      · rw [List.mem_cons, not_or] at hy
        rw [hnext' y hy.2, hnext y hy.1]

/-- **Buckets are moved one after the other.** -/
theorem Shows.moveBuckets {old : HtState} {O : KnvHt Nat} {is : List Nat}
    (hold : ∀ i, getBit old.bm i = O.bm i)
    (hch : ∀ i ∈ is, O.bm i = true → ∃ p, old.ht i = some p ∧ Chain s.next p (O.ht i))
    (hlen : ∀ i ∈ is, O.bm i = true → (O.ht i).length < fuel)
    (hnd : ((is.flatMap fun i => if O.bm i then O.ht i else []) ++ l).Nodup)
    (hs : s.Shows T) (hh : T.Holds s.view l) :
    ∃ s', is.foldlM (moveBucket fuel old) s = some s' ∧
      s'.Shows ((is.flatMap fun i => if O.bm i then O.ht i else []).foldl (KnvHt.link s.view) T) ∧
      s'.view = s.view := by
  induction is generalizing s T l with
  | nil => exact ⟨s, rfl, hs, rfl⟩
  | cons i is ih =>
    rw [List.flatMap_cons, List.append_assoc] at hnd
    rw [List.foldlM_cons, moveBucket, hold, List.flatMap_cons, List.foldl_append]
    cases hbm : O.bm i with
    | false =>
      rw [if_neg (by rw [hbm]; exact Bool.false_ne_true), List.nil_append] at hnd
      exact ih (fun j hj => hch j (List.mem_cons_of_mem i hj))
        (fun j hj => hlen j (List.mem_cons_of_mem i hj)) hnd hs hh
    | true =>
      rw [if_pos hbm] at hnd
      obtain ⟨p, hp, hc⟩ := hch i List.mem_cons_self hbm
      obtain ⟨hndi, hndr, hdis⟩ := List.nodup_append'.mp hnd
      obtain ⟨s₁, hmove, hs₁, hview, hnext⟩ := hs.moveChain hh hc (hlen i List.mem_cons_self hbm)
        fun x hx hl => hdis hx (List.mem_append_right _ hl)
      have hh₁ := hh.foldl_link s.view (O.ht i)
      rw [← hview] at hh₁ hs₁
      have hnd₁ : ((is.flatMap fun i => if O.bm i then O.ht i else []) ++
          ((O.ht i).reverse ++ l)).Nodup := by
        rw [← List.append_assoc]
        refine (List.Perm.nodup_iff ?_).mp hnd
        rw [← List.append_assoc]
        exact (List.perm_append_comm.trans ((List.reverse_perm _).symm.append_left _)).append_right l
      obtain ⟨s', hrest, hs', hview'⟩ := ih (fun j hj hbj => by
        obtain ⟨q, hq, hcq⟩ := hch j (List.mem_cons_of_mem i hj) hbj
        refine ⟨q, hq, hcq.frame fun x hx => hnext x fun hxi => ?_⟩
        refine hdis hxi (List.mem_append_left _ (List.mem_flatMap.mpr ⟨j, hj, ?_⟩))
        rw [if_pos hbj]
        exact hx) (fun j hj => hlen j (List.mem_cons_of_mem i hj)) hnd₁ hs₁ hh₁
      refine ⟨s', ?_, ?_, hview'.trans hview⟩
      · rw [if_pos rfl, hp, Option.bind_some, hmove]
        exact hrest
      · rw [hview] at hs'
        exact hs'

/-- **Growth loses no node.** -/
theorem Shows.increase (hs : s.Shows T) (hh : T.Holds s.view l) (hl : l.Nodup)
    (hfuel : l.length < fuel) (alloc : Bool) :
    (∃ s', s.increase fuel alloc = some (.ok s') ∧ s'.Shows (T.increase s.view) ∧
        s'.view = s.view) ∨
      alloc = false ∧ s.increase fuel alloc = some (.error "UcMemManager::Alloc failed") := by
  rw [HtState.increase, hs.sz, KnvHt.increase]
  by_cases hbig : 8192 ≤ T.sz
  · rw [if_pos hbig, if_pos hbig]
    exact .inl ⟨s, rfl, hs, rfl⟩
  rw [if_neg hbig, if_neg hbig]
  cases alloc with
  | false => exact .inr ⟨rfl, rfl⟩
  | true =>
    refine .inl ?_
    obtain ⟨E, hE⟩ : ∃ E, E = newTable s.node (KnvHt.nextLevel T.sz) := ⟨_, rfl⟩
    have hempty : E.Shows { KnvHt.clear with sz := KnvHt.nextLevel T.sz } := by
      subst hE
      exact
        { nr := rfl
          sz := rfl
          bit := getBit_zero
          chain := fun _ h => absurd h Bool.false_ne_true
          blank := fun _ _ => rfl }
    have hview : E.view = s.view := by rw [hE]; rfl
    have hnext : E.next = s.next := by rw [hE]; rfl
    have hnone : ({ KnvHt.clear with sz := KnvHt.nextLevel T.sz } : KnvHt Nat).Holds s.view [] :=
      { sz_pos := KnvHt.nextLevel_pos T.sz
        placed := fun _ _ h => absurd h Bool.false_ne_true
        perm := by
          unfold KnvHt.nodes
          rw [List.perm_nil, List.flatMap_eq_nil_iff]
          intro i _
          rfl }
    rw [← hview] at hnone
    obtain ⟨s', hmove, hs', hview'⟩ := hempty.moveBuckets hs.bit
      (fun i (_ : i ∈ List.range T.sz) => by rw [hnext]; exact hs.chain i)
      (fun i _ hi => Nat.lt_of_le_of_lt (hs.length_le hh hi) hfuel)
      (by rw [List.append_nil]; exact hh.perm.nodup_iff.mpr hl) hnone
    rw [hview] at hs'
    refine ⟨s', ?_, hs', hview'.trans hview⟩
    rw [if_pos rfl]
    show ((List.range T.sz).foldlM (moveBucket fuel s) _).map _ = _
    rw [← hE, hmove]
    rfl

/-- **`put` adds the node**, or there is no memory. -/
theorem Shows.put (hs : s.Shows T) (hh : T.Holds s.view l) (hl : l.Nodup) (hfuel : l.length < fuel)
    (alloc : Bool) {n : Nat} (h0 : n ≠ 0) (hn : n ∉ l) :
    (∃ s', s.put fuel alloc n = some (.ok s') ∧ s'.Shows (T.put s.view n) ∧ s'.view = s.view) ∨
      alloc = false ∧ s.put fuel alloc n = some (.error "UcMemManager::Alloc failed") := by
  rw [HtState.put, KnvHt.put, hs.sz, hs.nr]
  by_cases hfull : T.sz < T.nr + 1
  · rw [if_pos hfull, if_pos hfull]
    rcases hs.increase hh hl hfuel alloc with ⟨s₁, hinc, hs₁, hview⟩ | ⟨halloc, hinc⟩
    · have hh₁ := hh.increase s.view
      rw [← hview] at hh₁ hs₁
      obtain ⟨s', hlink, hs', hview', -⟩ := hs₁.link hh₁ h0 hn
      rw [hview] at hs'
      refine .inl ⟨s', ?_, hs', hview'.trans hview⟩
      rw [hinc, Option.bind_some]
      show (s₁.link n).map _ = _
      rw [hlink]
      rfl
    · refine .inr ⟨halloc, ?_⟩
      rw [hinc]
      rfl
  · rw [if_neg hfull, if_neg hfull]
    obtain ⟨s', hlink, hs', hview, -⟩ := hs.link hh h0 hn
    refine .inl ⟨s', ?_, hs', hview⟩
    rw [hlink]
    rfl

/-! ## Removing -/

/-- **A node is taken out of its bucket.** -/
theorem Shows.removePos (hs : s.Shows T) (hh : T.Holds s.view l) {hi c : Nat} {l₁ l₂ : List Nat}
    (hbm : T.bm hi = true) (hht : T.ht hi = l₁ ++ c :: l₂) (hbucket : KnvHt.bucket s.view c T.sz = hi) :
    ∃ T', T.remove s.view c = some T' ∧
      (s.removePos c (placeAfter (.bucket hi) l₁)).Shows T' ∧
      (s.removePos c (placeAfter (.bucket hi) l₁)).view = s.view := by
  obtain ⟨p, hp, hc⟩ := hs.chain hi hbm
  rw [hht] at hc
  have hmem : c ∈ T.ht hi := by
    rw [hht]
    exact List.mem_append_right _ List.mem_cons_self
  have hc₁ : c ∉ l₁ := by
    intro hm
    exact (List.nodup_append'.mp hc.nodup).2.2 hm List.mem_cons_self
  have herase : (T.ht hi).erase c = l₁ ++ l₂ := by
    rw [hht, List.erase_append_right _ hc₁, List.erase_cons_head]
  obtain ⟨p', hp', hc'⟩ := chain_store hp hc
  have hplace : placeAfter (.bucket hi) l₁ = .bucket hi ∨
      ∃ y ∈ l₁, placeAfter (.bucket hi) l₁ = .ht_next y := by
    rcases List.eq_nil_or_concat l₁ with rfl | ⟨l₀, y, rfl⟩
    · exact .inl rfl
    · rw [List.concat_eq_append]
      exact .inr ⟨y, List.mem_append_right _ List.mem_cons_self, placeAfter_concat _ _ _⟩
  refine ⟨_, by rw [KnvHt.remove, hbucket, if_pos ⟨hbm, hmem⟩], ⟨?_, ?_, ?_, ?_, ?_⟩, ?_⟩
  · exact congrArg (· - 1) hs.nr
  · rcases hplace with he | ⟨y, -, he⟩ <;> rw [HtState.removePos, he] <;> exact hs.sz
  · rcases hplace with he | ⟨y, -, he⟩ <;> rw [HtState.removePos, he] <;> exact hs.bit
  · intro i hbi
    show ∃ q, (s.store _ _).ht i = some q ∧ Chain (s.store _ _).next q
      (if i = hi then (T.ht hi).erase c else T.ht i)
    by_cases hij : i = hi
    · rw [if_pos hij, hij, herase]
      exact ⟨p', hp', hc'⟩
    · obtain ⟨q, hq, hcq⟩ := hs.chain i hbi
      rw [if_neg hij]
      rcases hplace with he | ⟨y, hy, he⟩
      · rw [he]
        exact ⟨q, (Function.update_of_ne hij ..).trans hq, hcq⟩
      · rw [he]
        refine ⟨q, hq, hcq.frame fun x hx => ?_⟩
        -- a node is in one bucket only
        have hne : x ≠ y := by
          rintro rfl
          have hx' : x ∈ T.ht hi := by
            rw [hht]
            exact List.mem_append_left _ hy
          exact hij ((hh.placed i x hbi hx).symm.trans (hh.placed hi x hbm hx'))
        show (s.setNext y (s.next c)).next x = s.next x
        rw [next_setNext, Function.update_of_ne hne]
  · intro i hbi
    have hij : i ≠ hi := by
      rintro rfl
      rw [hbm] at hbi
      cases hbi
    rcases hplace with he | ⟨y, -, he⟩
    · rw [HtState.removePos, he]
      exact (Function.update_of_ne hij ..).trans (hs.blank i hbi)
    · rw [HtState.removePos, he]
      exact hs.blank i hbi
  · rcases hplace with he | ⟨y, -, he⟩
    · rw [HtState.removePos, he]
      rfl
    · rw [HtState.removePos, he]
      exact view_setNext s y _

/-- The first node that is wanted, and the place that points to it. -/
theorem Shows.walkBucket_some {view : Nat → UInt32 × List UInt8} {wanted : Nat → Bool} {hi c : Nat}
    {pos : HtPos} (hs : s.Shows T) (hh : T.Holds view l) (hfuel : l.length < fuel)
    (hw : s.walkBucket wanted fuel hi = some (some (c, pos))) : T.bm hi = true ∧ wanted c = true ∧
      ∃ l₁ l₂, T.ht hi = l₁ ++ c :: l₂ ∧ pos = placeAfter (.bucket hi) l₁ := by
  rw [hs.walkBucket hh hfuel] at hw
  cases hbm : T.bm hi with
  | false =>
    rw [hbm] at hw
    cases hw
  | true =>
    rw [hbm, if_pos rfl] at hw
    obtain ⟨x, hx, he⟩ := Option.map_eq_some_iff.mp (Option.some.inj hw)
    obtain ⟨rfl, rfl⟩ := Prod.mk.inj he
    obtain ⟨hwx, l₁, l₂, hsplit, hl₁⟩ := List.find?_eq_some_iff_append.mp hx
    refine ⟨rfl, hwx, l₁, l₂, hsplit, ?_⟩
    rw [hsplit, List.takeWhile_append_of_pos hl₁, List.takeWhile_cons_of_neg (by rw [hwx]; decide),
      List.append_nil]

/-- **A node that is not stored is not found.** -/
theorem Shows.walkBucket_none {view : Nat → UInt32 × List UInt8} {wanted : Nat → Bool} {hi : Nat}
    (hs : s.Shows T) (hh : T.Holds view l) (hfuel : l.length < fuel)
    (hw : ∀ c ∈ l, wanted c = false) : s.walkBucket wanted fuel hi = some none := by
  rw [hs.walkBucket hh hfuel]
  cases hbm : T.bm hi with
  | false => rfl
  | true =>
    have hnone : (T.ht hi).find? wanted = none := List.find?_eq_none.mpr fun c hc => by
      rw [hw c (mem_of_bucket hh hbm hc)]
      exact Bool.false_ne_true
    rw [if_pos rfl, hnone]
    rfl

end HtState

/-! ## Runs -/

theorem KnvHt.nr_foldl_link {α : Type} (view : α → UInt32 × List UInt8) (cs : List α)
    (h : KnvHt α) : (cs.foldl (KnvHt.link view) h).nr = h.nr + cs.length ∧
      (cs.foldl (KnvHt.link view) h).sz = h.sz := by
  induction cs generalizing h with
  | nil => exact ⟨rfl, rfl⟩
  | cons c cs ih =>
    obtain ⟨hnr, hsz⟩ := ih (h.link view c)
    refine ⟨?_, hsz⟩
    rw [List.foldl_cons, hnr, List.length_cons]
    show h.nr + 1 + cs.length = h.nr + (cs.length + 1)
    omega

/-- `ht_levels`, and the size of a new table. -/
def htSizes : List Nat := [32, 256, 8192]

theorem KnvHt.Holds.increase_nr {α : Type} {view : α → UInt32 × List UInt8} {h : KnvHt α}
    {l : List α} (hh : h.Holds view l) (hnr : h.nr = l.length) (hsz : h.sz ∈ htSizes) :
    (h.increase view).nr = l.length ∧ (h.increase view).sz ∈ htSizes := by
  rw [KnvHt.increase]
  split
  · exact ⟨hnr, hsz⟩
  · obtain ⟨hn, hs⟩ := KnvHt.nr_foldl_link view h.nodes { clear with sz := nextLevel h.sz }
    refine ⟨?_, ?_⟩
    · refine hn.trans ?_
      rw [hh.perm.length_eq]
      exact Nat.zero_add _
    · show (h.nodes.foldl (KnvHt.link view) { clear with sz := nextLevel h.sz }).sz ∈ htSizes
      rw [hs]
      show nextLevel h.sz ∈ htSizes
      rw [nextLevel]
      split <;> decide

/-- The memory shows a table of the nodes `l`. -/
structure HtState.Stores (s : HtState) (T : KnvHt Nat) (l : List Nat) : Prop where
  shows : s.Shows T
  holds : T.Holds s.view l
  nodup : l.Nodup
  nr : T.nr = l.length
  sz : T.sz ∈ htSizes

namespace HtState

variable {s s' : HtState} {T : KnvHt Nat} {l : List Nat} {fuel n : Nat}

theorem stores_init (node : Nat → HtNode) : (init node).Stores KnvHt.clear [] where
  shows :=
    { nr := rfl
      sz := rfl
      bit := getBit_zero
      chain := fun _ h => absurd h Bool.false_ne_true
      blank := fun _ _ => rfl }
  holds := KnvHt.holds_clear _
  nodup := List.nodup_nil
  nr := rfl
  sz := by decide

theorem Stores.put (h : s.Stores T l) (hfuel : l.length < fuel) (alloc : Bool) (h0 : n ≠ 0)
    (hn : n ∉ l) : (∃ s' T', s.put fuel alloc n = some (.ok s') ∧ s'.Stores T' (n :: l)) ∨
      alloc = false ∧ s.put fuel alloc n = some (.error "UcMemManager::Alloc failed") := by
  refine (h.shows.put h.holds h.nodup hfuel alloc h0 hn).imp_left ?_
  rintro ⟨s', hput, hs', hview⟩
  refine ⟨s', _, hput, hs', ?_, List.nodup_cons.mpr ⟨hn, h.nodup⟩, ?_, ?_⟩
  · rw [hview]
    exact h.holds.put s.view n
  all_goals
    obtain ⟨hnr, hsz⟩ := h.holds.increase_nr h.nr h.sz
    rw [KnvHt.put]
    split
  · exact congrArg (· + 1) hnr
  · exact congrArg (· + 1) h.nr
  · exact hsz
  · exact h.sz

/-- **A node that was found is removed.** -/
theorem Stores.removePos (h : s.Stores T l) {wanted : Nat → Bool} {hi c : Nat} {pos : HtPos}
    (hfuel : l.length < fuel) (hw : s.walkBucket wanted fuel hi = some (some (c, pos))) :
    c ∈ l ∧ wanted c = true ∧ ∃ T', (s.removePos c pos).Stores T' (l.erase c) := by
  obtain ⟨hbm, hwc, l₁, l₂, hht, rfl⟩ := h.shows.walkBucket_some h.holds hfuel hw
  have hc : c ∈ T.ht hi := by
    rw [hht]
    exact List.mem_append_right _ List.mem_cons_self
  have hmem := mem_of_bucket h.holds hbm hc
  obtain ⟨T', hrem, hs', hview⟩ := h.shows.removePos h.holds hbm hht (h.holds.placed hi c hbm hc)
  obtain ⟨T'', hrem', hh'⟩ := h.holds.remove s.view hmem
  obtain rfl : T' = T'' := Option.some.inj (hrem.symm.trans hrem')
  have hfields : T'.nr = T.nr - 1 ∧ T'.sz = T.sz := by
    rw [KnvHt.remove] at hrem
    split at hrem
    · cases hrem
      exact ⟨rfl, rfl⟩
    · cases hrem
  refine ⟨hmem, hwc, T', hs', ?_, h.nodup.erase c, ?_, ?_⟩
  · rw [hview]
    exact hh'
  · rw [hfields.1, h.nr, List.length_erase_of_mem hmem]
  · rw [hfields.2]
    exact h.sz

theorem Stores.remove (h : s.Stores T l) (hfuel : l.length < fuel) (n : Nat) :
    (n ∈ l → ∃ s' T', s.remove fuel n = some (.ok s') ∧ s'.Stores T' (l.erase n)) ∧
      (n ∉ l → s.remove fuel n = some (.error "tag/key not found in ht")) := by
  rw [HtState.remove]
  constructor
  · intro hn
    obtain ⟨i, -, hbm, hmem⟩ := KnvHt.mem_nodes.mp (h.holds.perm.mem_iff.mpr hn)
    have hi : getKeyhash (s.node n).tag (s.node n).key s.sz = i := by
      rw [h.shows.sz]
      exact h.holds.placed i n hbm hmem
    have hw := h.shows.walkBucket h.holds hfuel (fun c => decide (c = n)) i
    have hfind : ((T.ht i).find? fun c => decide (c = n)).isSome := by
      rw [List.find?_isSome]
      exact ⟨n, hmem, decide_eq_true rfl⟩
    obtain ⟨c, hc⟩ := Option.isSome_iff_exists.mp hfind
    rw [hbm, if_pos rfl, hc, Option.map_some] at hw
    obtain ⟨-, hcn, T', hT'⟩ := h.removePos hfuel hw
    obtain rfl : c = n := of_decide_eq_true hcn
    refine ⟨_, T', ?_, hT'⟩
    simp only [hi, hw]
    rfl
  · intro hn
    have hw : s.walkBucket (fun c => decide (c = n)) fuel
        (getKeyhash (s.node n).tag (s.node n).key s.sz) = some none :=
      h.shows.walkBucket_none h.holds hfuel fun c hc => decide_eq_false fun he => hn (he ▸ hc)
    rw [hw]
    rfl

/-- **A node with the tag and the key is found**, if there is one. -/
theorem Stores.getPos (h : s.Stores T l) (hfuel : l.length < fuel) (tag : UInt32) (k : List UInt8) :
    (∃ c pos T', s.getPos fuel tag k = some (some (c, pos)) ∧ c ∈ l ∧ s.view c = (tag, k) ∧
        (s.removePos c pos).Stores T' (l.erase c)) ∨
      s.getPos fuel tag k = some none ∧ ∀ c ∈ l, s.view c ≠ (tag, k) := by
  have hget := h.shows.get h.holds hfuel tag k
  rw [HtState.get] at hget
  cases hw : s.getPos fuel tag k with
  | none =>
    rw [hw] at hget
    cases hget
  | some r =>
    rw [hw] at hget
    cases r with
    | none =>
      refine .inr ⟨rfl, fun c hc he => ?_⟩
      obtain ⟨c', hc'⟩ := h.holds.get_of_mem s.view hc
      rw [he] at hc'
      rw [hc'] at hget
      cases hget
    | some r =>
      obtain ⟨c, pos⟩ := r
      obtain ⟨hc, hmatch, T', hT'⟩ := h.removePos hfuel hw
      exact .inl ⟨c, pos, T', rfl, hc, of_decide_eq_true hmatch, hT'⟩

theorem Stores.edit (h : s.Stores T l) (hn : n ∉ l) (v : HtNode) :
    Stores { s with node := Function.update s.node n v } T l := by
  have hne : ∀ c ∈ l, c ≠ n := fun c hc he => hn (he ▸ hc)
  have hnode : ∀ c ∈ l, Function.update s.node n v c = s.node c := fun c hc =>
    Function.update_of_ne (hne c hc) ..
  refine ⟨⟨h.shows.nr, h.shows.sz, h.shows.bit, fun i hbm => ?_, h.shows.blank⟩, ?_, h.nodup, h.nr,
    h.sz⟩
  · obtain ⟨p, hp, hc⟩ := h.shows.chain i hbm
    refine ⟨p, hp, hc.frame fun x hx => ?_⟩
    exact congrArg HtNode.ht_next (hnode x (mem_of_bucket h.holds hbm hx))
  · refine h.holds.congr s.view fun c hc => ?_
    show ((Function.update s.node n v c).tag, (Function.update s.node n v c).key) = s.view c
    rw [hnode c hc]
    rfl

/-- **One call.** -/
theorem Stores.exec (h : s.Stores T l) (hfuel : l.length < fuel) {call : HtCall}
    (hal : call.Allowed l) : ∃ s' a T', s.exec fuel call = some (s', a) ∧
      call.Answers s.view l a ∧ s'.Stores T' (call.stored l a) := by
  cases call with
  | put n alloc =>
    rcases h.put hfuel alloc hal.1 hal.2 with ⟨s', T', hput, hs'⟩ | ⟨halloc, hput⟩
    · exact ⟨s', .done, T', by rw [HtState.exec, hput]; rfl, .inl rfl, hs'⟩
    · exact ⟨s, _, T, by rw [HtState.exec, hput]; rfl, .inr ⟨halloc, rfl⟩, h⟩
  | get tag k =>
    refine ⟨s, .found (T.get s.view tag k), T, ?_, ⟨_, rfl, ?_⟩, h⟩
    · rw [HtState.exec, h.shows.get h.holds hfuel]
      rfl
    · cases hget : T.get s.view tag k with
      | some c => exact h.holds.get_some s.view hget
      | none =>
        intro c hc he
        obtain ⟨c', hc'⟩ := h.holds.get_of_mem s.view hc
        rw [he, hget] at hc'
        cases hc'
  | remove n =>
    obtain ⟨hin, hout⟩ := h.remove hfuel n
    by_cases hn : n ∈ l
    · obtain ⟨s', T', hrem, hs'⟩ := hin hn
      exact ⟨s', .done, T', by rw [HtState.exec, hrem]; rfl,
        by rw [HtCall.Answers, if_pos hn], hs'⟩
    · exact ⟨s, .failed "tag/key not found in ht", T, by rw [HtState.exec, hout hn]; rfl,
        by rw [HtCall.Answers, if_neg hn], h⟩
  | removeGot tag k =>
    rcases h.getPos hfuel tag k with ⟨c, pos, T', hget, hc, hview, hT'⟩ | ⟨hget, hnone⟩
    · exact ⟨_, .found (some c), T', by rw [HtState.exec, hget]; rfl, ⟨_, rfl, hc, hview⟩, hT'⟩
    · exact ⟨s, .found none, T, by rw [HtState.exec, hget]; rfl, ⟨_, rfl, hnone⟩, h⟩
  | edit n v => exact ⟨_, .done, T, rfl, rfl, h.edit hal v⟩

end HtState

/-- The table is exactly the nodes `l`: whatever is in a bucket whose bit is set, chain by chain. -/
def HtState.Contains (s : HtState) (l : List Nat) : Prop :=
  ∃ ch : Nat → List Nat,
    (∀ i < s.sz, if getBit s.bm i then ∃ p, s.ht i = some p ∧ Chain s.next p (ch i)
      else ch i = []) ∧
    ((List.range s.sz).flatMap ch).Perm l

theorem HtState.Stores.contains {s : HtState} {T : KnvHt Nat} {l : List Nat} (h : s.Stores T l) :
    s.Contains l := by
  refine ⟨fun i => if T.bm i then T.ht i else [], fun i _ => ?_, ?_⟩
  · rw [h.shows.bit]
    cases hbm : T.bm i with
    | true =>
      show ∃ p, s.ht i = some p ∧ Chain s.next p (if T.bm i then T.ht i else [])
      rw [if_pos hbm]
      exact h.shows.chain i hbm
    | false =>
      show (if T.bm i then T.ht i else []) = []
      rw [hbm]
      rfl
  · rw [h.shows.sz]
    exact h.holds.perm

/-- A call with fuel enough, and the nodes that are stored afterwards. -/
def HtStep (p p' : HtState × List Nat) : Prop :=
  ∃ fuel call a, p.2.length < fuel ∧ call.Allowed p.2 ∧ p.1.exec fuel call = some (p'.1, a) ∧
    p'.2 = call.stored p.2 a

theorem stores_run {node : Nat → HtNode} {p : HtState × List Nat}
    (hrun : Relation.ReflTransGen HtStep (HtState.init node, []) p) : ∃ T, p.1.Stores T p.2 := by
  refine run_invariant (I := fun p : HtState × List Nat => ∃ T, p.1.Stores T p.2) hrun
    ⟨_, HtState.stores_init node⟩ ?_
  rintro ⟨s, l⟩ ⟨s', l'⟩ ⟨T, h⟩ ⟨fuel, call, a, hfuel, hal, hexec, hl⟩
  obtain ⟨s₁, a₁, T', hexec', -, hs'⟩ := h.exec hfuel hal
  obtain ⟨rfl, rfl⟩ := Prod.mk.inj (Option.some.inj (hexec'.symm.trans hexec))
  obtain rfl : l' = call.stored l a₁ := hl
  exact ⟨T', hs'⟩

/-- **The index is a multimap.**  Whatever was called before, it contains exactly the nodes that are
    stored, `nr` is their number, the buckets that have been written to are those whose bit is set,
    and every call returns, without reading another one, what a multimap would. -/
theorem multimap {node : Nat → HtNode} {s : HtState} {l : List Nat}
    (hrun : Relation.ReflTransGen HtStep (HtState.init node, []) (s, l)) :
    s.nr = l.length ∧ s.sz ∈ htSizes ∧ s.Contains l ∧
      (∀ i, getBit s.bm i = (s.ht i).isSome) ∧
      ∀ fuel (call : HtCall), l.length < fuel → call.Allowed l →
        ∃ s' a, s.exec fuel call = some (s', a) ∧ call.Answers s.view l a := by
  obtain ⟨T, h⟩ := stores_run hrun
  refine ⟨h.shows.nr.trans h.nr, h.shows.sz ▸ h.sz, h.contains, fun i => ?_,
    fun fuel call hfuel hal => ?_⟩
  · rw [h.shows.bit]
    cases hbm : T.bm i with
    | true =>
      obtain ⟨p, hp, -⟩ := h.shows.chain i hbm
      rw [hp]
      rfl
    | false =>
      rw [h.shows.blank i hbm]
      rfl
  · obtain ⟨s', a, -, hexec, ha, -⟩ := h.exec hfuel hal
    exact ⟨s', a, hexec, ha⟩

/-- Any nodes can be stored. -/
theorem stores_all (node : Nat → HtNode) {l : List Nat} (hnd : l.Nodup) (h0 : 0 ∉ l) :
    ∃ s, Relation.ReflTransGen HtStep (HtState.init node, []) (s, l) := by
  induction l with
  | nil => exact ⟨_, .refl⟩
  | cons n l ih =>
    obtain ⟨hn, hnd⟩ := List.nodup_cons.mp hnd
    obtain ⟨hn0, h0⟩ := not_or.mp (mt List.mem_cons.mpr h0)
    obtain ⟨s, hrun⟩ := ih hnd h0
    obtain ⟨T, h⟩ := stores_run hrun
    have hal : (HtCall.put n true).Allowed l := ⟨Ne.symm hn0, hn⟩
    obtain ⟨s', a, -, hexec, ha, -⟩ := h.exec (Nat.lt_succ_self _) hal
    obtain rfl : a = .done := ha.resolve_right fun hf => absurd hf.1 (by decide)
    exact ⟨s', hrun.tail ⟨_, .put n true, .done, Nat.lt_succ_self _, hal, hexec, rfl⟩⟩

/-- After 300 nodes, three of each tag, the table has grown twice. -/
theorem multimap_grown : ∃ s, Relation.ReflTransGen HtStep
    (HtState.init fun n => ⟨UInt32.ofNat (n / 3), [], 0⟩, []) (s, List.range' 1 300) ∧ s.nr = 300 ∧
      s.Contains (List.range' 1 300) := by
  obtain ⟨s, hrun⟩ := stores_all (fun n => ⟨UInt32.ofNat (n / 3), [], 0⟩) (l := List.range' 1 300)
    List.nodup_range' (by
      rw [List.mem_range']
      omega)
  obtain ⟨hnr, -, hall, -⟩ := multimap hrun
  exact ⟨s, hrun, hnr.trans List.length_range', hall⟩

end MysqlProxy
