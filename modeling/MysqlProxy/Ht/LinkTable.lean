/-
  The block store of the shared cache (`ht/link_table.h`, `ht/link_table.cc`).

  A value is cut into pieces of `BLOCK_DATA_LEN()` bytes; each piece lives in one fixed-size
  block and the blocks of a value are linked through `ddwNext`, last link `0`.  The handle of a
  value is the position of its first block; position `0` is the null handle.  Block `0` is a
  sentinel and position `ddwAllBlockCount` exists but is never handed out, so the usable
  positions are `1 .. ddwAllBlockCount - 1`.

  Space comes from two places (`getEmptyBlock`): the FREE LIST, threaded through `ddwNext` from
  `ddwFirstFreePos`, and, when the list does not hold enough blocks, a SEQUENTIAL SCAN from
  `ddwLastEmpty`.  The scan does not look at the list, so it may take blocks that are still on
  it.  A chain that is given up is not freed but parked in the recycle ring `addwRecyclePool`
  (`recycleBlock`), and the chain it pushes out of its slot is the one that is freed.

  Modelling choices.
  * The block array is a function of the position; a block is its two bit fields and its bytes.
  * `errmsg` and the return code travel together in `LtError`; the state is returned on the
    error paths as well, because some of them have already written to it.
  * `header==NULL` / `blocks==NULL` (an object that was never initialised) and null data
    pointers have no counterpart: a `LinkTable` here is an initialised one.
  * `EMPTY_RECYCLE_ON_OUT_OF_SPACE` is not defined in the source, so its branches are absent.
-/
import MysqlProxy.Lib.Machine
import MysqlProxy.Lib.Chain
import Mathlib.Order.Interval.Finset.Nat

namespace MysqlProxy

/-! ## The shared-memory layout -/

/-- `MAX_BLOCK_COUNT`: the longest chain a value may need. -/
def MAX_BLOCK_COUNT : Nat := 25 * 1024

/-- `LT_MAX_RECYCLE_POOL_SIZE`: the slots of the recycle ring. -/
def LT_MAX_RECYCLE_POOL_SIZE : Nat := 256 * 1024 / 8

/-- `LT_DEF_RECYCLE_POOL_SIZE`: how many of them a new table uses. -/
def LT_DEF_RECYCLE_POOL_SIZE : Nat := 100

/-- `sizeof(LinkTableHead)`: six words, the ring size with its padding, the ring, the reserved
    area, the user data with its length. -/
def sizeofLinkTableHead : Nat := 6 * 8 + 8 + 256 * 1024 + 256 * 1024 + 512 * 1024

/-- `LtBlock`: a 48-bit link, a 16-bit length (the block is empty when it is `0`), the data. -/
structure LtBlock where
  ddwNext : Nat
  ddwLengthInBlock : Nat
  bufData : List UInt8
  deriving DecidableEq, Repr

/-- `LinkTableHead` followed by the blocks. -/
structure LinkTable where
  ddwAllBlockCount : Nat
  ddwFreeBlockCount : Nat
  ddwBlockSize : Nat
  /-- Where the next sequential scan starts. -/
  ddwLastEmpty : Nat
  /-- Head of the free list. -/
  ddwFirstFreePos : Nat
  /-- The ring slot that the next `recycleBlock` fills. -/
  ddwRecycleIndex : Nat
  dwRecyclePoolSize : Nat
  addwRecyclePool : Nat → Nat
  blocks : Nat → LtBlock

/-- The failures of the `LinkTable` functions, one constructor for each `return` of a negative
    code. -/
inductive LtError where
  /-- `Init`: the buffer is smaller than `EvalBufferSize`. -/
  | notEnoughBuffer
  /-- `FreeBlock`: the start position is `0` or past the end. -/
  | startInsane (pos : Nat)
  /-- `FreeBlock`: a link of the chain points past the end. -/
  | linkInsane (pos : Nat)
  /-- `FreeBlock`: the chain is longer than `MAX_BLOCK_COUNT + 1` blocks. -/
  | tooManyBlocks (pos : Nat)
  /-- `GetEmptyBlock`: `Not enough space`. -/
  | notEnoughSpace
  /-- `GetData`: the buffer is smaller than one block. -/
  | badArgument
  /-- `GetData`: a link of the chain points past the end. -/
  | positionInsane
  /-- `GetData`: the buffer is full before the chain ends. -/
  | notEnoughSpaceForData
  /-- `GetData`: the `int` sum in the buffer check has wrapped and the copy leaves the caller's
      buffer.  Undefined behaviour in the source; the model stops here. -/
  | outOfBuffer
  /-- `SetData`: the value needs more than `MAX_BLOCK_COUNT` blocks. -/
  | dataTooLarge
  /-- `SetData`: a link of the allocated chain points past the end. -/
  | nextPositionBad
  /-- `SetData`: the allocated chain ended before the data did (the branch marked `bug`). -/
  | blocksNotEnough (iCount iDataLen : Nat) (ddwBlockSize : Nat)
  /-- `SetRecyclePoolSize`: the size is out of range. -/
  | invalidArgument
  deriving DecidableEq, Repr

/-- The value the failing function returns. -/
def LtError.code : LtError → Int
  | .notEnoughBuffer => -1
  | .startInsane _ => -2
  | .linkInsane _ => -3
  | .tooManyBlocks _ => -4
  | .notEnoughSpace => -100
  | .badArgument => -1
  | .positionInsane => -21
  | .notEnoughSpaceForData => -22
  | .outOfBuffer => -22
  | .dataTooLarge => -2
  | .nextPositionBad => -8
  | .blocksNotEnough _ _ _ => -9
  | .invalidArgument => -1

/-- The text it leaves in `errmsg`. -/
def LtError.errmsg : LtError → String
  | .notEnoughBuffer => "Bad argument: not enough buffer size"
  | .startInsane pos => s!"Position {pos} gone insane"
  | .linkInsane pos => s!"Position {pos} gone insane"
  | .tooManyBlocks pos => s!"Too many blocks at {pos}"
  | .notEnoughSpace => "Not enough space"
  | .badArgument => "Bad argument"
  | .positionInsane => "Position gone insane"
  | .notEnoughSpaceForData => "Not enough space for data"
  | .outOfBuffer => ""
  | .dataTooLarge => s!"Data too large to fit in max of {MAX_BLOCK_COUNT} blocks"
  | .nextPositionBad => "Next position is bad"
  | .blocksNotEnough iCount iDataLen bs =>
    s!"Allocated blocks({iCount}) not enough for data(len={iDataLen}, bs={bs})"
  | .invalidArgument => "Invalid argument"

/-- The `int` a `LinkTable` function returns: `0`, or the negative code of its failure. -/
def retCode {α : Type} : Except LtError α → Int
  | .ok _ => 0
  | .error e => e.code

theorem LtError.code_neg (e : LtError) : e.code < 0 := by
  cases e <;> simp [LtError.code]

namespace LinkTable

/-- `BLOCK_DATA_LEN()`: the header of a block is one 64-bit word. -/
def BLOCK_DATA_LEN (t : LinkTable) : Nat := t.ddwBlockSize - 8

/-- The link of a block, `LT_ELE_AT(b)->ddwNext`. -/
def next (t : LinkTable) (b : Nat) : Nat := (t.blocks b).ddwNext

/-- The length field of a block, `LT_ELE_AT(b)->ddwLengthInBlock`. -/
def len (t : LinkTable) (b : Nat) : Nat := (t.blocks b).ddwLengthInBlock

/-- Write one block. -/
def setBlock (t : LinkTable) (b : Nat) (v : LtBlock) : LinkTable :=
  { t with blocks := Function.update t.blocks b v }

/-- `LT_ELE_AT(b)->ddwNext = n`, a 48-bit field. -/
def setNext (t : LinkTable) (b n : Nat) : LinkTable :=
  t.setBlock b { t.blocks b with ddwNext := n % 2 ^ 48 }

/-- The block `memset` leaves behind. -/
def zeroBlock (t : LinkTable) : LtBlock := ⟨0, 0, List.replicate t.BLOCK_DATA_LEN 0⟩

/-! ## Initialisation -/

/-- `EvalBufferSize`, in 64-bit arithmetic. -/
def evalBufferSize (uBlockCount uBlockSize : Nat) : Nat :=
  (sizeofLinkTableHead + uBlockCount * uBlockSize) % 2 ^ 64

/-- `Init` on a buffer whose bytes are all zero. -/
def init (ddwBufferSize ddwBlockCount ddwBlockSize : Nat) : Except LtError LinkTable :=
  if ddwBufferSize < evalBufferSize ddwBlockCount ddwBlockSize then .error .notEnoughBuffer
  else .ok
    { ddwAllBlockCount := dec64 ddwBlockCount
      ddwFreeBlockCount := dec64 ddwBlockCount
      ddwBlockSize := ddwBlockSize
      ddwLastEmpty := 1
      ddwFirstFreePos := 0
      ddwRecycleIndex := 0
      dwRecyclePoolSize := LT_DEF_RECYCLE_POOL_SIZE
      addwRecyclePool := fun _ => 0
      blocks := fun _ => ⟨0, 0, List.replicate (ddwBlockSize - 8) 0⟩ }

/-! ## Freeing and recycling -/

/-- Put one block on the free list: clear it, link it in front, count it. -/
def pushFree (t : LinkTable) (b : Nat) : LinkTable :=
  { t.setBlock b { t.zeroBlock with ddwNext := t.ddwFirstFreePos % 2 ^ 48 } with
    ddwFirstFreePos := b
    ddwFreeBlockCount := inc64 t.ddwFreeBlockCount }

/-- The loop of `FreeBlock`.  The first argument is what is left of `iCount<=MAX_BLOCK_COUNT`;
    `start` only goes into the error text. -/
def freeLoop (start : Nat) : Nat → Nat → LinkTable → Except LtError Unit × LinkTable
  | 0, ddwNextPos, t => (if ddwNextPos = 0 then .ok () else .error (.tooManyBlocks start), t)
  | n + 1, ddwNextPos, t =>
    if ddwNextPos = 0 then (.ok (), t)
    else if ddwNextPos ≥ t.ddwAllBlockCount then (.error (.linkInsane start), t)
    else freeLoop start n (t.next ddwNextPos) (t.pushFree ddwNextPos)

/-- `FreeBlock`: put a whole chain on the free list. -/
def freeBlock (t : LinkTable) (ddwStartPos : Nat) : Except LtError Unit × LinkTable :=
  if ddwStartPos = 0 ∨ ddwStartPos ≥ t.ddwAllBlockCount then (.error (.startInsane ddwStartPos), t)
  else freeLoop ddwStartPos (MAX_BLOCK_COUNT + 1) ddwStartPos t

/-- `RecycleBlock`: park a chain in the ring and free the chain that was in its slot.  A failure
    of `FreeBlock` is only reported, so the result is always `0`. -/
def recycleBlock (t : LinkTable) (ddwStartPos : Nat) : LinkTable :=
  let ddwIdx := if t.ddwRecycleIndex ≥ t.dwRecyclePoolSize then 0 else t.ddwRecycleIndex
  let ddwOldPos := t.addwRecyclePool ddwIdx
  let t' := { t with
    addwRecyclePool := Function.update t.addwRecyclePool ddwIdx ddwStartPos
    ddwRecycleIndex := (ddwIdx + 1) % t.dwRecyclePoolSize }
  if ddwOldPos ≠ 0 then (t'.freeBlock ddwOldPos).2 else t'

/-- One round of `EmptyRecyclePool`. -/
def emptySlot (t : LinkTable) (i : Nat) : LinkTable :=
  if t.addwRecyclePool i ≠ 0 then
    let t' := (t.freeBlock (t.addwRecyclePool i)).2
    { t' with addwRecyclePool := Function.update t'.addwRecyclePool i 0 }
  else t

/-- `EmptyRecyclePool`: free every parked chain. -/
def emptyRecyclePool (t : LinkTable) : LinkTable :=
  { (List.range t.dwRecyclePoolSize).foldl emptySlot t with ddwRecycleIndex := 0 }

/-! ## Allocation -/

/-- The walk along the free list in `GetEmptyBlock`.  The first argument is `iCount - i`; the
    result is the link behind the last block taken, or `none` when the list comes short. -/
def takeFree : Nat → Nat → LinkTable → Option Nat × LinkTable
  | 0, ddwCurPos, t => (some ddwCurPos, t)
  | n + 1, ddwCurPos, t =>
    if 0 < ddwCurPos ∧ ddwCurPos < t.ddwAllBlockCount ∧ t.len ddwCurPos = 0 then
      takeFree n (t.next ddwCurPos) (if n = 0 then t.setNext ddwCurPos 0 else t)
    else (none, t)

/-- The state of the sequential scan of `GetEmptyBlock`. -/
structure Scan where
  /-- `iCount - i`: blocks still wanted. -/
  left : Nat
  ddwCurPos : Nat
  ddwStartPos : Nat
  table : LinkTable

/-- `ddwCurPos++`, wrapping past the last usable position to `1`. -/
def nextPos (t : LinkTable) (p : Nat) : Nat := if p + 1 ≥ t.ddwAllBlockCount then 1 else p + 1

/-- One round of the scan: an empty block is linked in front of those found so far. -/
def scanStep (s : Scan) : Scan :=
  if s.table.len s.ddwCurPos = 0 then
    { left := s.left - 1
      ddwCurPos := s.table.nextPos s.ddwCurPos
      ddwStartPos := s.ddwCurPos
      table := s.table.setNext s.ddwCurPos s.ddwStartPos }
  else { s with ddwCurPos := s.table.nextPos s.ddwCurPos }

/-- The scan loop; the first argument is what is left of `j<(int)ddwAllBlockCount`. -/
def scanLoop : Nat → Scan → Scan
  | 0, s => s
  | j + 1, s => if s.left = 0 then s else scanLoop j (scanStep s)

/-- `GetEmptyBlock`: a chain of `iCount` empty blocks, from the free list if it holds enough of
    them, else by the scan. -/
def getEmptyBlock (t : LinkTable) (iCount : Nat) : Except LtError Nat × LinkTable :=
  if iCount > MAX_BLOCK_COUNT ∨ (iCount : Int) > int32 t.ddwFreeBlockCount then
    (.error .notEnoughSpace, t)
  else
    match takeFree iCount t.ddwFirstFreePos t with
    | (some ddwCurPos, t') => (.ok t.ddwFirstFreePos, { t' with ddwFirstFreePos := ddwCurPos })
    | (none, t') =>
      let s := scanLoop (int32 t'.ddwAllBlockCount).toNat
        { left := iCount, ddwCurPos := t'.ddwLastEmpty, ddwStartPos := 0, table := t' }
      if s.left ≠ 0 then (.error .notEnoughSpace, s.table)
      else (.ok s.ddwStartPos, { s.table with ddwLastEmpty := s.ddwCurPos })

/-! ## Reading -/

/-- How many bytes `GetData` copies out of block `b`. -/
def copyLen (t : LinkTable) (b : Nat) : Nat :=
  if t.next b ≠ 0 then t.BLOCK_DATA_LEN % 2 ^ 16
  else if t.len b > t.BLOCK_DATA_LEN then t.BLOCK_DATA_LEN % 2 ^ 16
  else t.len b

/-- The loop of `GetData`: `out` holds the `iDataLen` bytes copied so far, `iBufLen` is the size
    of the caller's buffer.  Every round but the last copies a full block, so after `iBufLen`
    rounds, which is the fuel, the buffer is full. -/
def getLoop (t : LinkTable) (iBufLen : Nat) : Nat → Nat → List UInt8 → Except LtError (List UInt8)
  | 0, ddwNextPos, out =>
    if ddwNextPos = 0 then .ok out
    else if ddwNextPos ≥ t.ddwAllBlockCount then .error .positionInsane
    else .error .notEnoughSpaceForData
  | n + 1, ddwNextPos, out =>
    if ddwNextPos = 0 then .ok out
    else if ddwNextPos ≥ t.ddwAllBlockCount then .error .positionInsane
    else if int32 (out.length + t.BLOCK_DATA_LEN) > iBufLen then .error .notEnoughSpaceForData
    else if out.length + t.copyLen ddwNextPos > iBufLen then .error .outOfBuffer
    else
      getLoop t iBufLen n (t.next ddwNextPos)
        (out ++ (t.blocks ddwNextPos).bufData.take (t.copyLen ddwNextPos))

/-- `GetData`: the bytes of the chain at `ddwPos`, for a buffer of `iBufLen` bytes. -/
def getData (t : LinkTable) (ddwPos iBufLen : Nat) : Except LtError (List UInt8) :=
  if iBufLen < t.BLOCK_DATA_LEN then .error .badArgument
  else getLoop t iBufLen iBufLen ddwPos []

/-! ## Writing -/

/-- `iCount`: the number of blocks that `n` bytes need. -/
def blockCount (t : LinkTable) (n : Nat) : Nat :=
  (n + t.BLOCK_DATA_LEN - 1) / t.BLOCK_DATA_LEN

/-- Copy one piece of the data into a block and count the block as used. -/
def fillBlock (t : LinkTable) (b : Nat) (piece : List UInt8) : LinkTable :=
  { t.setBlock b { t.blocks b with
      ddwLengthInBlock := piece.length % 2 ^ 16
      bufData := piece ++ (t.blocks b).bufData.drop piece.length } with
    ddwFreeBlockCount := dec64 t.ddwFreeBlockCount }

/-- Where the fill loop of `SetData` stopped. -/
structure Fill where
  ddwCurPos : Nat
  ddwNextPos : Nat
  /-- The bytes not stored yet, `iLeftLen` of them. -/
  rest : List UInt8
  table : LinkTable

/-- The fill loop of `SetData`.  Every round stores at least one byte, so the length of the data
    is enough fuel. -/
def fillLoop : Nat → Fill → Except LtError Unit × Fill
  | 0, f => (.ok (), f)
  | n + 1, f =>
    if f.ddwNextPos = 0 ∨ f.rest = [] then (.ok (), f)
    else if f.ddwNextPos ≥ f.table.ddwAllBlockCount then
      (.error .nextPositionBad, { f with ddwCurPos := f.ddwNextPos })
    else
      let piece := f.rest.take f.table.BLOCK_DATA_LEN
      let t' := f.table.fillBlock f.ddwNextPos piece
      fillLoop n
        { ddwCurPos := f.ddwNextPos
          ddwNextPos := t'.next f.ddwNextPos
          rest := f.rest.drop f.table.BLOCK_DATA_LEN
          table := t' }

/-- `SetData`: store `data` in fresh blocks and give up the chain at `ddwPos`.  On success the
    new handle is returned. -/
def setData (t : LinkTable) (ddwPos : Nat) (data : List UInt8) : Except LtError Nat × LinkTable :=
  let iCount := t.blockCount data.length
  if iCount > MAX_BLOCK_COUNT then (.error .dataTooLarge, t)
  else
    match t.getEmptyBlock iCount with
    | (.error e, t1) => (.error e, t1)
    | (.ok ddwStartPos, t1) =>
      match fillLoop data.length
          { ddwCurPos := 0, ddwNextPos := ddwStartPos, rest := data, table := t1 } with
      | (.error e, f) => (.error e, f.table)
      | (.ok (), f) =>
        if f.rest ≠ [] then
          (.error (.blocksNotEnough iCount data.length t.ddwBlockSize), f.table)
        else
          let t2 := (f.table.setNext f.ddwCurPos 0).setNext 0 f.ddwNextPos
          (.ok ddwStartPos, if ddwPos ≠ 0 then t2.recycleBlock ddwPos else t2)

/-- `EraseData`: give up the chain at `ddwPos`. -/
def eraseData (t : LinkTable) (ddwPos : Nat) : LinkTable := t.recycleBlock ddwPos

/-- `SetRecyclePoolSize`: empty the ring and change its size. -/
def setRecyclePoolSize (t : LinkTable) (sz : Int) : Except LtError Unit × LinkTable :=
  if sz < 1 ∨ sz > LT_MAX_RECYCLE_POOL_SIZE then (.error .invalidArgument, t)
  else (.ok (), { t.emptyRecyclePool with dwRecyclePoolSize := sz.toNat })

/-- `GetUsage`: the used share of the blocks, in per cent. -/
def getUsage (t : LinkTable) : Int :=
  int32 (100 - ((t.ddwFreeBlockCount * 100 % 2 ^ 64 / t.ddwAllBlockCount : Nat) : Int))

end LinkTable

end MysqlProxy
