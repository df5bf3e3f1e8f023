/-
  The cache index (`ht/multi_hash_table.h`, `ht/multi_hash_table.cc`).

  A key may live in one node of each ROW: row `i` has `auRowsNodeNum[i]` nodes and the key's node
  there is `hash mod auRowsNodeNum[i]`.  A node holds the hash, an access time, the key and the
  position of the value in the block store (`LinkTable`); it is empty when that position is `0`.
  Rows are tried from row `0` to `ddwMaxUsedRow`.

  `SetData` may EVICT: the oldest node on the search path when the block store is more than 95%
  full or the path has no empty node, and, when the block store refuses the value, the oldest of
  up to a hundred nodes met from `ddwEraseIterator` on.

  Modelling choices.
  * The rows are one flat byte array, `ht`; a `MhtNode *` is the index of the node, whose address
    is that index times `ddwHashNodeSize`.  Nodes are read and written field by field, at the
    offsets of `MhtNode`, so a key that is too long runs into the next node as it does in C.
  * `time(NULL)` is an argument (`now`).
  * `lt.EraseData` returns `0` on every initialised table, so the branches for its failure are
    absent, as are those for a failing mutex and for null pointers.
  * Loops that the C code does not bound carry fuel that is more than enough; `none` means that
    the C loop would not end.
-/
import MysqlProxy.Lib.Mem
import MysqlProxy.Ht.LinkTable
import Mathlib.Data.Nat.Sqrt

namespace MysqlProxy

/-! ## Layout -/

def HASH_MAX_ROW : Nat := 100
def HASH_MAX_KEY_LENGTH : Nat := 10240
def HASH_MAX_DATA_LENGTH : Nat := 100 * 1024 * 1024

/-- `sizeof(MhtNode)`: hash, access time, one word of bit fields; the key follows. -/
def sizeofMhtNode : Nat := 16

/-- `sizeof(MhtHeader)`. -/
def sizeofMhtHeader : Nat := 6 * 8 + 2 * (HASH_MAX_ROW * 8) + 2 * 8 + 1024 * 1024

/-- `MhtHeader`, the nodes, the block store and the hash function. -/
structure MultiHashTable where
  ddwHashNodeNum : Nat
  ddwHashNodeSize : Nat
  ddwRowNum : Nat
  /-- Nodes of each row. -/
  auRowsNodeNum : Nat → Nat
  /-- Index of the first node of each row. -/
  auRowsStartNode : Nat → Nat
  ddwMaxUsedRow : Nat
  ddwEraseIterator : Nat
  cUseAccessSeq : Bool
  ht : Mem
  lt : LinkTable
  hashfunc : List UInt8 → UInt32

/-- The failures of the `MultiHashTable` functions. -/
inductive MhtError where
  /-- An argument is out of range. -/
  | badArgument
  /-- `InitFromBuffer`: `LinkTable::Init` failed. -/
  | linkTableInit (e : LtError)
  /-- `GetData`: the key of the node changed under the reader. -/
  | keyChanged
  /-- `GetData`: `LinkTable::GetData` failed; its code is passed on. -/
  | linkTableGet (e : LtError)
  /-- `SetData`: no empty node on the search path, and no eviction allowed. -/
  | hashOutOfSpace
  /-- `SetData`: no empty node and no oldest node on the search path. -/
  | noOldest
  /-- `SetData`: `LinkTable::SetData` failed, not for lack of space. -/
  | linkTableSet (e : LtError)
  /-- `SetData`: no room in the block store, and no eviction allowed. -/
  | linkOutOfSpace
  /-- `SetData`: no room in the block store and no node left to evict. -/
  | noMoreNode
  deriving DecidableEq, Repr

/-- The value the failing function returns. -/
def MhtError.code : MhtError → Int
  | .badArgument => -1
  | .linkTableInit _ => -2
  | .keyChanged => -3
  | .linkTableGet e => e.code
  | .hashOutOfSpace => -5
  | .noOldest => -6
  | .linkTableSet _ => -8
  | .linkOutOfSpace => -9
  | .noMoreNode => -11

/-- The text it leaves in `errmsg`. -/
def MhtError.errmsg : MhtError → String
  | .badArgument => "Bad argument"
  | .linkTableInit e => s!"LinkTable Init failed (ret={e.code}): {e.errmsg}"
  | .keyChanged => "Key changed while trying to read, maybe r/w conflicted"
  | .linkTableGet e => "LinkTable GetData failed: " ++ e.errmsg
  | .hashOutOfSpace => "Error: Hash table out of space"
  | .noOldest => "Bug: could not find an oldest hash node for erasing."
  | .linkTableSet e => "Link table set data failed: " ++ e.errmsg
  | .linkOutOfSpace => "Error: Link table out of space"
  | .noMoreNode => "Error: no more index node to be replaced"

theorem MhtError.code_neg (e : MhtError) : e.code < 0 := by
  cases e with
  | linkTableGet e => exact e.code_neg
  | _ => simp [MhtError.code]

/-- `DefaultHashFunc`, in wrapping 32-bit arithmetic. -/
def defaultHashFunc (key : List UInt8) : UInt32 :=
  key.foldl (fun h b => h * 131 + b.toUInt32) 0

/-! ## The geometry of the rows -/

/-- `ceil(sqrt(n))`. -/
def ceilSqrt (n : Nat) : Nat := if n.sqrt * n.sqrt = n then n.sqrt else n.sqrt + 1

/-- The trial division of `MaxPrime`: where its counter `k` stops.  The first argument bounds the
    rounds. -/
def trialDivision (n sqr : Nat) : Nat → Nat → Nat
  | 0, k => k
  | r + 1, k => if k ≤ sqr then if n % k = 0 then k else trialDivision n sqr r (k + 1) else k

/-- `MaxPrime`: the largest "prime" below its argument.  The test divides up to and including
    `ceil(sqrt(n))`, so it rejects `2` and accepts `1`. -/
def maxPrime : Nat → Nat
  | 0 => 0
  | n + 1 =>
    if trialDivision n (ceilSqrt n) (ceilSqrt n) 2 = ceilSqrt n + 1 then n else maxPrime n

/-- Rows `3, 4, ..` of `CalcNodeNumForEachRow`, each smaller than the one before. -/
def tailRows : Nat → Nat → List Nat
  | 0, _ => []
  | r + 1, j => maxPrime j :: tailRows r (maxPrime j)

/-- `CalcNodeNumForEachRow`: the node number of each row. -/
def calcNodeNumForEachRow (ddwRowNum ddwMaxNodeNum : Nat) : List Nat :=
  let r0 := maxPrime (if ddwRowNum = 1 then ddwMaxNodeNum else ddwMaxNodeNum * 70 % 2 ^ 64 / 100)
  if ddwRowNum = 1 then [r0]
  else
    let left1 := ddwMaxNodeNum - r0
    let r1 := maxPrime (if ddwRowNum = 2 then left1 else left1 * 10 % 2 ^ 64 / 100)
    if ddwRowNum = 2 then [r0, r1]
    else
      let left2 := left1 - r1
      let r2 := maxPrime (if ddwRowNum = 3 then left2 else left2 * 5 % 2 ^ 64 / 100)
      if ddwRowNum = 3 then [r0, r1, r2]
      else r0 :: r1 :: r2 :: tailRows (ddwRowNum - 3) ((left2 - r2) / (ddwRowNum - 3))

namespace MultiHashTable

def evaluateHashNodeSize (ddwMaxKeyLen : Nat) : Nat := ddwMaxKeyLen + sizeofMhtNode

def nodeNumRatio2MemSizeRatio (ddwNodeSize ddwBlockSize ddwIndexRatio : Nat) : Nat :=
  ddwIndexRatio * ddwNodeSize / ddwBlockSize

def evaluateHashNodeNum (ddwMemsize ddwHashNodeSize ddwHashMemRatio : Nat) : Nat :=
  let ddwDataMemSize := ddwMemsize * 100 % 2 ^ 64 / (100 + ddwHashMemRatio)
  sub64 ddwMemsize ddwDataMemSize / ddwHashNodeSize

/-- `LinkTable::EvalBlockCount`. -/
def evalBlockCount (uBuffSize uBlockSize : Nat) : Nat :=
  sub64 uBuffSize sizeofLinkTableHead / uBlockSize

/-- `InitFromBuffer` on a buffer whose bytes are all zero. -/
def initFromBuffer (ddwBufferSize wMaxKeyLen wRowNum dwIndexRatio ddwBlockSize : Nat)
    (hashFunc : List UInt8 → UInt32) (bUseAccessSeq : Bool) : Except MhtError MultiHashTable :=
  if ddwBufferSize < 1024 * 1024 * 2 ∨ wMaxKeyLen < 1 ∨ wMaxKeyLen > HASH_MAX_KEY_LENGTH ∨
      wRowNum < 1 ∨ wRowNum > HASH_MAX_ROW ∨ dwIndexRatio < 1 ∨ dwIndexRatio > 1000 ∨
      ddwBlockSize < 32 ∨ ddwBlockSize > 8192 then .error .badArgument
  else
    let ddwNodeSize := evaluateHashNodeSize wMaxKeyLen
    let ddwMemRatio := nodeNumRatio2MemSizeRatio ddwNodeSize ddwBlockSize dwIndexRatio
    let rows := calcNodeNumForEachRow wRowNum
      (evaluateHashNodeNum ddwBufferSize ddwNodeSize ddwMemRatio)
    let ddwDataSize := sub64 (sub64 ddwBufferSize sizeofMhtHeader) (rows.sum * ddwNodeSize)
    let ddwBlockCount := evalBlockCount ddwDataSize ddwBlockSize
    match LinkTable.init ddwDataSize ddwBlockCount ddwBlockSize with
    | .error e => .error (.linkTableInit e)
    | .ok lt => .ok
      { ddwHashNodeNum := rows.sum
        ddwHashNodeSize := ddwNodeSize
        ddwRowNum := wRowNum
        auRowsNodeNum := fun i => rows.getD i 0
        auRowsStartNode := fun i => (rows.take i).sum
        ddwMaxUsedRow := 0
        ddwEraseIterator := 0
        cUseAccessSeq := bUseAccessSeq
        ht := fun _ => 0
        lt := lt
        hashfunc := hashFunc }

/-- `GetMaxKeyLen`. -/
def getMaxKeyLen (t : MultiHashTable) : Nat := t.ddwHashNodeSize - sizeofMhtNode

/-! ## Nodes -/

/-- `HT_GET_AT`: the address of a node. -/
def addr (t : MultiHashTable) (p : Nat) : Nat := t.ddwHashNodeSize * p

def nodeHashKey (t : MultiHashTable) (p : Nat) : Nat := leNat (t.ht.read (t.addr p) 4)

/-- `dwAccessTime`, or `dwAccessSeq` in the same place. -/
def nodeAccessTime (t : MultiHashTable) (p : Nat) : Nat := leNat (t.ht.read (t.addr p + 4) 4)

def nodeLtPos (t : MultiHashTable) (p : Nat) : Nat := leNat (t.ht.read (t.addr p + 8) 6)

def nodeKeyLen (t : MultiHashTable) (p : Nat) : Nat := leNat (t.ht.read (t.addr p + 14) 1)

/-- The first `n` bytes of `acKey`. -/
def nodeKey (t : MultiHashTable) (p n : Nat) : List UInt8 := t.ht.read (t.addr p + 16) n

/-- Write `l` at offset `off` of a node. -/
def writeNode (t : MultiHashTable) (p off : Nat) (l : List UInt8) : MultiHashTable :=
  { t with ht := t.ht.write (t.addr p + off) l }

def setHashKey (t : MultiHashTable) (p v : Nat) : MultiHashTable := t.writeNode p 0 (leBytes 4 v)
def setAccessTime (t : MultiHashTable) (p v : Nat) : MultiHashTable := t.writeNode p 4 (leBytes 4 v)
def setLtPos (t : MultiHashTable) (p v : Nat) : MultiHashTable := t.writeNode p 8 (leBytes 6 v)
def setKeyLen (t : MultiHashTable) (p v : Nat) : MultiHashTable := t.writeNode p 14 (leBytes 1 v)
def setKey (t : MultiHashTable) (p : Nat) (key : List UInt8) : MultiHashTable :=
  t.writeNode p 16 key

/-- `memset(pNode, 0, sizeof(*pNode))`: the key bytes stay. -/
def wipeNode (t : MultiHashTable) (p : Nat) : MultiHashTable :=
  t.writeNode p 0 (List.replicate sizeofMhtNode 0)

/-- `is_hnode_empty`. -/
def isHnodeEmpty (t : MultiHashTable) (p : Nat) : Bool := t.nodeLtPos p = 0

/-- `hnode_cmp(..) == 0`.  The length goes through an `uint8_t` parameter, so its low byte is
    compared, and as many bytes of the key. -/
def hnodeCmp (t : MultiHashTable) (pKey : List UInt8) (p : Nat) : Bool :=
  pKey.length % 256 = t.nodeKeyLen p ∧
    pKey.take (pKey.length % 256) = t.nodeKey p (pKey.length % 256)

/-- Give up the value of a node and the node: `lt.EraseData`, then `memset`. -/
def eraseNode (t : MultiHashTable) (p : Nat) : MultiHashTable :=
  { t with lt := t.lt.eraseData (t.nodeLtPos p) }.wipeNode p

/-! ## Searching -/

/-- What `Search` returns: the node of the key, and through its pointers the first empty node
    with its row and the oldest other node on the path. -/
structure Found where
  node : Option Nat := none
  emptyNode : Option Nat := none
  emptyRow : Nat := 0
  oldestNode : Option Nat := none

/-- The loop of `Search`: `i` is the row, `pRow` its first node, the first argument what is left
    of `i<=ddwMaxRow`. -/
def searchLoop (t : MultiHashTable) (pKey : List UInt8) (dwHashKey : Nat) :
    Nat → Nat → Nat → Found → Found
  | 0, i, pRow, r =>
    -- if no empty is found, return an empty after max row
    if r.emptyNode = none ∧ i < t.ddwRowNum then
      { r with emptyNode := some (pRow + dwHashKey % t.auRowsNodeNum i), emptyRow := i }
    else r
  | n + 1, i, pRow, r =>
    let pNode := pRow + dwHashKey % t.auRowsNodeNum i
    if t.isHnodeEmpty pNode then
      searchLoop t pKey dwHashKey n (i + 1) (pRow + t.auRowsNodeNum i)
        (if r.emptyNode = none then { r with emptyNode := some pNode, emptyRow := i } else r)
    else if dwHashKey = t.nodeHashKey pNode ∧ t.hnodeCmp pKey pNode then
      { r with node := some pNode }
    else
      searchLoop t pKey dwHashKey n (i + 1) (pRow + t.auRowsNodeNum i)
        (if r.oldestNode.all fun o => t.nodeAccessTime o > t.nodeAccessTime pNode then
          { r with oldestNode := some pNode } else r)

/-- `Search`; it also repairs a `ddwMaxUsedRow` that is out of range. -/
def search (t : MultiHashTable) (pKey : List UInt8) (dwHashKey : Nat) : Found × MultiHashTable :=
  let t' := if t.ddwMaxUsedRow ≥ t.ddwRowNum then { t with ddwMaxUsedRow := t.ddwRowNum - 1 } else t
  (searchLoop t' pKey dwHashKey (t'.ddwMaxUsedRow + 1) 0 0 {}, t')

/-! ## Reading -/

/-- Note a read in a node: the time, or one more in the sequence. -/
def touch (t : MultiHashTable) (now p : Nat) : MultiHashTable :=
  t.setAccessTime p (if t.cUseAccessSeq then t.nodeAccessTime p + 1 else now)

/-- What `GetData` returns: its result, the previous access time stored through
    `pdwLastAccessTime`, the table. -/
structure GetOutcome where
  result : Except MhtError (List UInt8)
  lastAccessTime : Option Nat
  table : MultiHashTable

/-- `GetData` with a buffer of `iDataLen` bytes.  A missing key is a value of length `0`. -/
def getData (t : MultiHashTable) (now : Nat) (pKey : List UInt8) (iDataLen : Nat)
    (bUpdateAccessTime : Bool) : GetOutcome :=
  if pKey = [] ∨ iDataLen < 1 then ⟨.error .badArgument, none, t⟩
  else
    let (r, t0) := t.search pKey (t.hashfunc pKey).toNat
    match r.node with
    | none => ⟨.ok [], none, t0⟩
    | some pDataNode =>
      let lastAccessTime := some (t0.nodeAccessTime pDataNode)
      let t1 := if bUpdateAccessTime then t0.touch now pDataNode else t0
      -- conflict detection: if key is changed, it must have been replaced by the write process
      if t1.hnodeCmp pKey pDataNode then
        match t1.lt.getData (t1.nodeLtPos pDataNode) iDataLen with
        | .error e => ⟨.error (.linkTableGet e), lastAccessTime, t1⟩
        | .ok data => ⟨.ok data, lastAccessTime, t1⟩
      else ⟨.error .keyChanged, lastAccessTime, t1⟩

/-! ## Evicting and writing -/

/-- The loop of `SearchAndEraseOldestOne`: where the iterator stops, and the oldest node it met.
    `none` when it does not stop. -/
def eraseScan (t : MultiHashTable) (pDataNode : Nat) :
    Nat → Nat → Nat → Option Nat → Nat → Option (Nat × Option Nat)
  | 0, _, _, _, _ => none
  | fuel + 1, it, cnt, oldest, oldesttime =>
    if cnt ≥ 100 then some (it, oldest)
    else
      let candidate := it ≠ pDataNode ∧ ¬ t.isHnodeEmpty it
      let older := candidate ∧ t.nodeAccessTime it < oldesttime
      let oldest' := if older then some it else oldest
      let oldesttime' := if older then t.nodeAccessTime it else oldesttime
      let it' := if it + 1 ≥ t.ddwHashNodeNum then 0 else it + 1
      -- we have searched through the whole ht
      if it' = t.ddwEraseIterator then some (it', oldest')
      else eraseScan t pDataNode fuel it' (if candidate then cnt + 1 else cnt) oldest' oldesttime'

/-- `SearchAndEraseOldestOne`.  In a hundred turns the loop counts a hundred nodes or none. -/
def searchAndEraseOldestOne (t : MultiHashTable) (pDataNode : Nat) :
    Option (Except MhtError Unit × MultiHashTable) :=
  let it := if t.ddwEraseIterator ≥ t.ddwHashNodeNum then 0 else t.ddwEraseIterator
  match t.eraseScan pDataNode (100 * t.ddwHashNodeNum + 1) it 0 none (2 ^ 32 - 1) with
  | none => none
  | some (it', none) => some (.error .noMoreNode, { t with ddwEraseIterator := it' })
  | some (it', some oldest) => some (.ok (), { t with ddwEraseIterator := it' }.eraseNode oldest)

/-- Where `SetData` is going to store: the node, whether it is a new one (`pEmptyNode` is not
    `NULL`) and in which row, and the oldest node still available for eviction. -/
structure Place where
  pDataNode : Nat
  isNew : Bool
  emptyrow : Nat
  pOldestNode : Option Nat

/-- Erase condition 1 of `SetData`: if data used space exceeds 95%, erase the oldest node in the
    search path. -/
def eraseOldestOnPath (t : MultiHashTable) (r : Found) (bRemoveOldIfNoSpace : Bool) :
    Found × MultiHashTable :=
  match r.oldestNode with
  | some pOldestNode =>
    if bRemoveOldIfNoSpace ∧ t.lt.getUsage > 95 then
      ((if r.emptyNode = none then
          { r with emptyNode := some pOldestNode, emptyRow := 0, oldestNode := none }
        else { r with oldestNode := none }), t.eraseNode pOldestNode)
    else (r, t)
  | none => (r, t)

/-- `SetData` up to its write loop: search, erase conditions 1 and 2, the choice of the node. -/
def place (t : MultiHashTable) (pKey : List UInt8) (bRemoveOldIfNoSpace : Bool) :
    Except MhtError Place × MultiHashTable :=
  let (r0, t0) := t.search pKey (t.hashfunc pKey).toNat
  let (r, t1) := t0.eraseOldestOnPath r0 bRemoveOldIfNoSpace
  match r.node with
  | some pDataNode => (.ok ⟨pDataNode, false, r.emptyRow, r.oldestNode⟩, t1)
  | none =>
    match r.emptyNode with
    | some pEmptyNode => (.ok ⟨pEmptyNode, true, r.emptyRow, r.oldestNode⟩, t1)
    | none =>
      if ¬ bRemoveOldIfNoSpace then (.error .hashOutOfSpace, t1)
      else
        -- erase condition 2: if index node is out of space, erase oldest in the search path
        match r.oldestNode with
        | none => (.error .noOldest, t1)
        | some pOldestNode => (.ok ⟨pOldestNode, true, 0, none⟩, t1.eraseNode pOldestNode)

/-- The write loop of `SetData`; the result is `ddwLtPos`.  The first argument bounds the rounds;
    every round but the last evicts a node. -/
def storeLoop (data : List UInt8) (bRemoveOldIfNoSpace : Bool) (pDataNode : Nat) :
    Nat → Option Nat → MultiHashTable → Option (Except MhtError Nat × MultiHashTable)
  | 0, _, _ => none
  | fuel + 1, pOldestNode, t =>
    let ddwLtPos := t.nodeLtPos pDataNode
    match t.lt.setData ddwLtPos data with
    | (.ok pos, lt) => some (.ok pos, { t with lt := lt })
    | (.error e, lt) =>
      let t1 := { t with lt := lt }
      if e.code ≠ -100 then some (.error (.linkTableSet e), t1)
      else if ¬ bRemoveOldIfNoSpace then some (.error .linkOutOfSpace, t1)
      else
        match pOldestNode with
        -- `ret` is the `0` of `EraseData` now, and `continue` goes to the test `ret<0`
        | some pOldestNode => some (.ok ddwLtPos, t1.eraseNode pOldestNode)
        | none =>
          match t1.searchAndEraseOldestOne pDataNode with
          | none => none
          | some (.error e, t2) => some (.error e, t2)
          | some (.ok _, t2) => storeLoop data bRemoveOldIfNoSpace pDataNode fuel none t2

/-- The tail of `SetData`: the position, and for a new node everything else. -/
def commit (t : MultiHashTable) (now : Nat) (pKey : List UInt8) (w : Place) (ddwLtPos : Nat) :
    MultiHashTable :=
  let t1 := t.setLtPos w.pDataNode ddwLtPos
  if w.isNew then
    let t2 := (((t1.setHashKey w.pDataNode (t.hashfunc pKey).toNat).setAccessTime w.pDataNode
      (if t.cUseAccessSeq then 0 else now)).setKeyLen w.pDataNode pKey.length).setKey
      w.pDataNode pKey
    { t2 with ddwMaxUsedRow := max t.ddwMaxUsedRow w.emptyrow }
  else t1

/-- `SetData`. -/
def setData (t : MultiHashTable) (now : Nat) (pKey data : List UInt8)
    (bRemoveOldIfNoSpace : Bool) : Option (Except MhtError Unit × MultiHashTable) :=
  if pKey = [] then some (.error .badArgument, t)
  else
    match t.place pKey bRemoveOldIfNoSpace with
    | (.error e, t1) => some (.error e, t1)
    | (.ok w, t1) =>
      match storeLoop data bRemoveOldIfNoSpace w.pDataNode (t1.ddwHashNodeNum + 1) w.pOldestNode
          t1 with
      | none => none
      | some (.error e, t2) => some (.error e, t2)
      | some (.ok ddwLtPos, t2) => some (.ok (), t2.commit now pKey w ddwLtPos)

/-- `EraseData`: `1` when the key was there, `0` when not. -/
def eraseData (t : MultiHashTable) (pKey : List UInt8) : Except MhtError Int × MultiHashTable :=
  if pKey = [] then (.error .badArgument, t)
  else
    let (r, t0) := t.search pKey (t.hashfunc pKey).toNat
    match r.node with
    | some pDataNode => (.ok 1, t0.eraseNode pDataNode)
    | none => (.ok 0, t0)

/-- `EraseBadNode`: wipe the node of a key without giving up its value. -/
def eraseBadNode (t : MultiHashTable) (pKey : List UInt8) : Except MhtError Int × MultiHashTable :=
  if pKey = [] then (.error .badArgument, t)
  else
    let (r, t0) := t.search pKey (t.hashfunc pKey).toNat
    match r.node with
    | some pDataNode => (.ok 1, t0.wipeNode pDataNode)
    | none => (.ok 0, t0)

/-! ## Iterating -/

/-- The loop of `Next`: the first non-empty node from `it` on, below `ddwMaxUsedNode`. -/
def nextLoop (t : MultiHashTable) : Nat → Nat → Option Nat
  | 0, _ => none
  | n + 1, it => if t.isHnodeEmpty it then nextLoop t n (it + 1) else some it

/-- `Next`.  `none` is `End()`, which is `-1`: the node after it is node `0`. -/
def next (t : MultiHashTable) (it : Option Nat) : Option Nat :=
  let ddwMaxUsedNode :=
    if t.ddwMaxUsedRow < t.ddwRowNum then
      min (t.auRowsStartNode t.ddwMaxUsedRow + t.auRowsNodeNum t.ddwMaxUsedRow) t.ddwHashNodeNum
    else t.ddwHashNodeNum
  let first := match it with
    | none => 0
    | some it => it + 1
  t.nextLoop (ddwMaxUsedNode - first) first

/-- `MhtData`, filled by `Get`. -/
structure MhtData where
  access_time : Nat
  key : List UInt8
  data : List UInt8

/-- The failures of `Get`: `-21` wipes the node, every other failure is `-2`. -/
inductive IterError where
  | wiped (e : LtError)
  | readFailed (e : LtError)

/-- `Get` at an iterator. -/
def get (t : MultiHashTable) (it : Nat) : Except IterError MhtData × MultiHashTable :=
  match t.lt.getData (t.nodeLtPos it) HASH_MAX_DATA_LENGTH with
  | .ok data => (.ok ⟨t.nodeAccessTime it, t.nodeKey it (t.nodeKeyLen it), data⟩, t)
  | .error e =>
    if e.code = -21 ∨ e.code = -22 then (.error (.wiped e), t.wipeNode it)
    else (.error (.readFailed e), t)

end MultiHashTable

end MysqlProxy
