/-
  The KNV protocol (`knv/protocol.h`, `knv/protocol.cc`): objects, and how they are decoded.

  A packet is a tree with the tag `KNV_PKG_TAG`: one HEADER, and BODIES.  It comes as a KNV packet,
  which is the tree itself, or as an OIDB packet

      STX, length of the header, length of the body, header, body, ETX

  whose body is either all the bodies with their tags (KNV style) or the value of one body.

  Modelling choices.
  * An object is a tree with pointers to the header and to the current body, and what it knows of
    the header (`HeaderInfo`).  A pointer is a `ref`; an object without a tree is `none`.
  * The body that an object points to is a child of its tree.
  * A `retmsg` of length 0 that was read is still a pointer.
-/
import MysqlProxy.Knv.TreeRun
import MysqlProxy.Lib.Machine

namespace MysqlProxy

def KNV_PKG_TAG : UInt32 := 0xdb3

def KNV_PKG_HDR_TAG : UInt32 := 0xbad

def KNV_PKG_BDY_TAG : UInt32 := 0xdad

def KNV_PKG_PART_TAG_BASE : Nat := 0x1ee

def KNV_PKG_HDR_CMD_TAG : UInt32 := 2

def KNV_PKG_HDR_SUBCMD_TAG : UInt32 := 3

def KNV_PKG_HDR_SEQ_TAG : UInt32 := 4

def KNV_PKG_HDR_RET_TAG : UInt32 := 7

def KNV_PKG_HDR_ERR_TAG : UInt32 := 8

def KNV_PKG_HDR_RSP_ADDR : UInt32 := 2001

def KNV_PKG_HDR_ALLOW_SPLIT : UInt32 := 2002

def KNV_PKG_HDR_MAX_PKG_SIZE : UInt32 := 2003

def KNV_PKG_HDR_TOTAL_SPLIT_COUNT : UInt32 := 2004

def KNV_PKG_HDR_CURR_SPLIT_INDEX : UInt32 := 2005

def STX_IPV6_PB : UInt8 := 0x28

def ETX_IPV6_PB : UInt8 := 0x29

/-- `STX_KNV_BDY`: how a body with its tag begins. -/
def STX_KNV_BDY : List UInt8 := [0xea, 0xda]

namespace KnvNode

/-- Hang a new child into the list, in front, and into the index. -/
def hangChildFront (n c : KnvNode) : KnvNode :=
  let c := { c with ref := n.next_ref }
  let n := { n with
    childlist := c :: n.childlist
    child_has_key := n.child_has_key || c.key.val ≠ []
    child_num := n.child_num.map (· + 1)
    next_ref := n.next_ref + 1 }
  { n with ht := n.ht.put n.childView c.ref }

/-- `InsertChild` of a node that was made before, in front. -/
def insertFront (n c : KnvNode) : Except KnvError (KnvNode × List Int) :=
  if n.tag = 0 then .error ⟨-2, "invalid node"⟩
  else if !n.isString then .error ⟨-3, "leaf cannot have child"⟩
  else
    let (n, offset) := edited ((n.innerExpand false false).hangChildFront c) (evaluateSize c).1
    .ok (n, [offset])

/-- An edit of the child with a given `ref`, and the patches above it. -/
def editChild (f : KnvNode → Except KnvError (KnvNode × List Int)) (r : Nat) (n : KnvNode) :
    Except KnvError KnvNode :=
  match findRef n.childlist r with
  | none => .error ⟨0, "no such node"⟩
  | some c => (f c).map fun p =>
    (parentRounds { n with childlist := replaceRef p.1 n.childlist }
      (p.2.map fun offset => (offset, true))).1

/-- The value of a `KNV_VARINT`. -/
def varint? (m : Option KnvNode) : Option UInt64 :=
  m.bind fun m => match m.val with
    | .varint i64 => some i64
    | _ => none

/-- The value of a `KNV_STRING`. -/
def string? (m : Option KnvNode) : Option (List UInt8) :=
  m.bind fun m => match m.val with
    | .string s => some s
    | _ => none

end KnvNode

open KnvNode

/-- What an object knows of its header.  `rspaddr` is empty if there is none. -/
structure HeaderInfo where
  cmd : UInt32
  subcmd : UInt32
  seq : UInt64
  retcode : UInt32
  retmsg : Option (List UInt8)
  rspaddr : List UInt8
  allow_split : Bool
  max_pkg_sz : UInt16
  total_split_count : UInt8
  curr_split_index : UInt8

/-- `INIT_HEADER_INFO`. -/
def HeaderInfo.empty : HeaderInfo := ⟨0, 0, 0, 0, none, [], false, 0, 0, 0⟩

/-- `InitHeaderInfo`.  An address is a `sockaddr_in` or a `sockaddr_in6`. -/
def initHeaderInfo (header : KnvNode) : HeaderInfo where
  cmd := ((varint? (header.getMeta KNV_PKG_HDR_CMD_TAG)).getD 0).toUInt32
  subcmd := ((varint? (header.getMeta KNV_PKG_HDR_SUBCMD_TAG)).getD 0).toUInt32
  retcode := ((varint? (header.getMeta KNV_PKG_HDR_RET_TAG)).getD 0).toUInt32
  retmsg := string? (header.getMeta KNV_PKG_HDR_ERR_TAG)
  seq := (varint? (header.getMeta KNV_PKG_HDR_SEQ_TAG)).getD 0
  rspaddr :=
    match string? (header.findChildByTag KNV_PKG_HDR_RSP_ADDR) with
    | some s => if s.length = 16 ∨ s.length = 28 then s else []
    | none => []
  allow_split := (varint? (header.findChildByTag KNV_PKG_HDR_ALLOW_SPLIT)).getD 0 ≠ 0
  max_pkg_sz := ((varint? (header.findChildByTag KNV_PKG_HDR_MAX_PKG_SIZE)).getD 0).toUInt16
  total_split_count :=
    ((varint? (header.findChildByTag KNV_PKG_HDR_TOTAL_SPLIT_COUNT)).getD 0).toUInt8
  curr_split_index :=
    ((varint? (header.findChildByTag KNV_PKG_HDR_CURR_SPLIT_INDEX)).getD 0).toUInt8

/-- An object that has a tree. -/
structure KnvProtocol where
  tree : KnvNode
  header : Nat
  body : Option Nat
  info : HeaderInfo

namespace KnvProtocol

def isValid (P : KnvProtocol) : Bool := P.tree.tag = KNV_PKG_TAG

def getHeader (P : KnvProtocol) : Option KnvNode := findRef P.tree.childlist P.header

def getBody (P : KnvProtocol) : Option KnvNode := P.body.bind (findRef P.tree.childlist)

/-- What `GetFirstRequest` and `GetNextRequest` walk over. -/
def bodies (P : KnvProtocol) : List KnvNode :=
  (P.tree.innerExpand false false).childlist.filter fun b => b.tag = KNV_PKG_BDY_TAG

end KnvProtocol

/-! ## Decoding -/

/-- `FindFirstBody`. -/
def findFirstBody (l : List KnvNode) : Option KnvNode := l.find? fun b => b.tag = KNV_PKG_BDY_TAG

/-- `InitProtocol` of a tree whose header is not known yet: a tree without a header is dropped.  The
    test of the tag in front of it is always passed. -/
def initProtocol (tree : KnvNode) : Option KnvProtocol :=
  let tree := tree.innerExpand false false
  (tree.findChildByTag KNV_PKG_HDR_TAG).map fun header =>
    ⟨tree, header.ref, (findFirstBody tree.childlist).map fun b => b.ref, initHeaderInfo header⟩

/-- `htonl`. -/
def be32 (n : Nat) : List UInt8 := (leBytes 4 n).reverse

/-- `ntohl` of the four bytes at `i`. -/
def readBe32 (buf : List UInt8) (i : Nat) : Nat := leNat ((buf.drop i).take 4).reverse

/-- The body of an OIDB packet as a collection of bodies: it is the tree, and the header is inserted in
    front.  `body` stays `NULL`. -/
def initCollection (header : KnvNode) (content : List UInt8) : Except String KnvProtocol :=
  let tree := initNode KNV_PKG_TAG (.string content) true 0 false
  match tree.insertFront header with
  | .error e => .error ("Insert header to knv tree failed: " ++ e.errmsg)
  | .ok (tree', _) =>
    .ok ⟨tree', (tree.innerExpand false false).next_ref, none, initHeaderInfo header⟩

/-- The body of an OIDB packet as the value of one body. -/
def initCompat (header : KnvNode) (content : List UInt8) : Except String KnvProtocol :=
  let body := initNode KNV_PKG_BDY_TAG (.string content) true 0 false
  let tree := initNode KNV_PKG_TAG (.string []) true 0 false
  match tree.insertNode header with
  | .error e => .error ("Insert header to knv tree failed: " ++ e.errmsg)
  | .ok (tree₁, _) =>
    match tree₁.insertNode body with
    | .error e => .error ("Insert body to knv tree failed: " ++ e.errmsg)
    | .ok (tree₂, _) => .ok ⟨tree₂, tree.next_ref, some tree₁.next_ref, initHeaderInfo header⟩

/-- `InitFromOidbPkg` and `InitProtocol` behind it.  `total_len` is an `int`; an index in front of the
    buffer finds no `ETX`. -/
def initFromOidbPkg (buf : List UInt8) : Except String KnvProtocol :=
  if buf.length < 10 then .error "Bad OidbIpv6 packet: insufficient length"
  else
    let hlen := readBe32 buf 1
    let blen := readBe32 buf 5
    let total_len := int32 ((hlen + blen + 10 : Nat) : Int)
    if (buf.length : Int) < total_len then .error "Bad OidbIpv6 packet: insufficient length"
    else if total_len ≤ 0 ∨ buf[(total_len - 1).toNat]? ≠ some ETX_IPV6_PB then
      .error "Bad OidbIpv6 packet: ETX token missing"
    else
      let header := initNode KNV_PKG_HDR_TAG (.string ((buf.drop 9).take hlen)) true 0 false
      let content := (buf.drop (9 + hlen)).take blen
      if (buf.drop (9 + hlen)).take 2 = STX_KNV_BDY then initCollection header content
      else initCompat header content

/-- The object that is constructed from a buffer. -/
def KnvProtocol.decode (buf : List UInt8) : Option KnvProtocol :=
  if buf.head? = some STX_IPV6_PB then (initFromOidbPkg buf).toOption
  else (newFromData buf).toOption.bind initProtocol

end MysqlProxy
