/-
  The proxy and its clients.

  A client and the thread that serves it (`Worker`) share a connection.  The threads share the cache,
  and nothing keeps them apart between the reading of an entry and the writing of another: a request
  is served in the steps that `Task` tells, and the steps of different threads come in any order.

      client                                  thread                              cache
      SendRequest      -- upstream -->        ParsePacket, Decrypt                Read
                                              mysql_query, PackResult
                                                                                  Write
      ParsePacket      <-- downstream --      SendResponse
      ProcessResponse

  * `Peer` is a connection with its two ends, `Peer.exec` what may happen there.
  * `System` is the server with all of them.  An entry of the cache may also go away (`evict`): writing
    makes room, and other processes write as well.

  Modelling choices.
  * `recv` may cut the bytes anywhere.  `send` sends all of them, or fails.
  * The cache is a map (`ProxyState`); reading and writing an entry are steps.
  * A packet that the server cannot handle throws an exception, and that ends the process.
-/
import MysqlProxy.Proxy.Client
import MysqlProxy.Proxy.KeyFile
import MysqlProxy.Proxy.ProcessRequest
import MysqlProxy.Proxy.ResultHandle

namespace MysqlProxy

open KnvNode

/-! ## The server -/

/-- What the server works with: `ecb_crypt`, the configuration, `mapAppKeys` and the database. -/
structure ProxyEnv where
  ecb : Ecb
  cfg : ServerConfig
  keys : List (List UInt8 × List UInt8)
  db : List UInt8 → DbAnswer

/-- A number as an `unsigned int`. -/
def uint32 (n : Int) : UInt32 := UInt32.ofNat (n % 2 ^ 32).toNat

/-- The packet that `SendResponse` sends. -/
def responsePacket (ecb : Ecb) (appkey : List UInt8) (stRequest : ProxyPacket) (errornum : Int)
    (content : List UInt8) : ProxyPacket :=
  if errornum = 0 then
    let encrypted := encrypt ecb appkey content
    if encrypted = [] ∧ content ≠ [] then
      { stRequest with errnum := 2, content := textBytes "Encryption failed" }
    else { stRequest with errnum := 0, content := encrypted }
  else { stRequest with errnum := uint32 errornum, content := content }

/-- How far a thread is with its request. -/
inductive Task where
  | dispatched
  /-- There is no entry for the statement. -/
  | missed (reqstr : List UInt8)
  /-- The answer of the database is in a tree. -/
  | packed (tree : KnvNode)
  /-- `SendResponse` comes next. -/
  | ready (errornum : Int) (content : List UInt8)

/-- A thread: what `ParsePacket` left (nothing after an exception), and the packets it has found; the
    first one is being served. -/
structure Thread where
  reqstr : Option (List UInt8)
  packets : List ProxyPacket
  task : Task

/-- The cache, and whether the process runs. -/
structure Server where
  store : ProxyState
  running : Bool

namespace ProxyEnv

variable (env : ProxyEnv)

/-- The key of the thread's request, empty if the application is not registered. -/
def appkey (stRequest : ProxyPacket) : List UInt8 := (mapAppKeys env.keys stRequest.appname).getD []

/-- `ProcessRequest` from the decrypted statement up to `Read`, which may fail although there is an
    entry. -/
def readCache (store : ProxyState) (reqstr : List UInt8) (time : UInt64) (readable : Bool) :
    ProxyState × Task :=
  if reqstr = [] then (store, .ready 1 (textBytes "Unauthorized request"))
  else if !isRead (skipSpaces reqstr) then
    (store, .ready 1 (textBytes "statement not starting with SELECT/SHOW/DESC is not supperted."))
  else
    let store := { store with served := reqstr :: store.served }
    match if readable then store.read env.cfg (cacheKey env.cfg reqstr) time else none with
    | some tree => (store, .ready 0 tree.getStrVal)
    | none => (store, .missed reqstr)

/-- `ParsePacket` behind `NewFromMessage`, and `ProcessRequest` up to `Read`. -/
def beginRequest (store : ProxyState) (stRequest : ProxyPacket) (time : UInt64) (readable : Bool) :
    ProxyState × Task :=
  match mapAppKeys env.keys stRequest.appname with
  | none => (store, .ready 1 (textBytes "Unregistered appname " ++ stRequest.appname))
  | some appkey => env.readCache store (serverDecrypt env.ecb appkey stRequest.content) time readable

/-- The loop of `ProcessRequest`. -/
def fetch (reqstr : List UInt8) (time : UInt64) (attempts : Nat → Attempt) : Task :=
  match fetchLoop env.db (queryText reqstr) (getReqHashKey env.cfg (skipSpaces reqstr)) time attempts
      max_try_num with
  | .refused errnum content => .ready errnum content
  | .packed tree => .packed tree

end ProxyEnv

/-! ## A connection -/

/-- A connection: the client, the bytes on the way, and the thread. -/
structure Peer where
  mysql : Mysql
  /-- The latest call: its statement, and what `SendRequest` has put into the packet. -/
  status : Status
  sql : List UInt8
  request : ProxyPacket
  rspstr : List UInt8
  upstream : List UInt8
  thread : Thread
  downstream : List UInt8

inductive PeerEvent where
  | query (sql : List UInt8) (sending : Sending)
  | recv (addr n : Nat)
  /-- `recv_in_time` returns a negative value, with this text for `errno`, or 0. -/
  | recvEnds (err : Option String)
  | threadRecv (addr n : Nat)
  | crash
  | beginRequest (time : UInt64) (readable : Bool)
  | fetch (time : UInt64) (attempts : Nat → Attempt)
  /-- `TryLockShm` and `Write`; `written` says whether they succeed. -/
  | store (written : Bool)
  | send

namespace Peer

/-- The latest call fails. -/
def failed (p : Peer) (e : ClientError) (iRet : Int) : Peer :=
  { p with mysql := { p.mysql with error := some e }, status := .returned iRet }

/-- What `SendRequest` puts into the packet. -/
def requestPacket (ecb : Ecb) (m : Mysql) (sql : List UInt8) : ProxyPacket :=
  ⟨cString m.appname, m.sequence, 0, encrypt ecb m.appkey sql⟩

/-- `mysql_proxy_real_query` up to `recv_in_time`. -/
def startQuery (ecb : Ecb) (p : Peer) (sql : List UInt8) (sending : Sending) : Peer :=
  let m := p.mysql
  let p := { p with
    mysql := { m with sequence := m.sequence + 1 }
    sql := sql
    request := requestPacket ecb m sql
    rspstr := [] }
  match sendRequest m.appname m.sequence (encrypt ecb m.appkey sql), sending with
  | .error e, _ => p.failed (.serializeFailed e.errmsg) (-1 - 100)
  | .ok _, .failed err => p.failed (.serverGone err) (-1 - 100)
  | .ok bytes, sending =>
    { p with
      mysql := { p.mysql with current_query_context := none }
      status := .waiting
      upstream := match sending with
        | .sent => p.upstream ++ bytes
        | _ => p.upstream }

/-- The rest of a round of `mysql_proxy_real_query`, after `ParsePacket`. -/
def parsed (ecb : Ecb) (p : Peer) : RspParse → Peer
  | .more reqstr => { p with rspstr := reqstr }
  | .threw => { p with status := .threw }
  | .response stPacket =>
    let (iRet, m) := processResponse ecb p.mysql stPacket
    { p with mysql := m, status := .returned (if 0 < iRet then 0 else iRet - 200) }

/-- The thread's answer goes out; if there is none, the client gets nothing. -/
def respond (ecb : Ecb) (p : Peer) (appkey : List UInt8) (stRequest : ProxyPacket)
    (packets : List ProxyPacket) (errornum : Int) (content : List UInt8) : Peer :=
  let thread := { p.thread with packets := packets, task := .dispatched }
  match packPacket (responsePacket ecb appkey stRequest errornum content) with
  | .error _ => { p with thread := thread }
  | .ok bytes => { p with thread := thread, downstream := p.downstream ++ bytes }

/-- What happens next on a connection, if it can. -/
def exec (env : ProxyEnv) (server : Server) (p : Peer) : PeerEvent → Option (Server × Peer)
  | .query sql sending =>
    if p.status = .waiting ∨ p.status = .threw then none
    else some (server, p.startQuery env.ecb sql sending)
  | .recv addr n =>
    let rspstr := p.rspstr ++ p.downstream.take n
    if p.status = .waiting ∧ 0 < n ∧ n ≤ Conn.RECV_BUFFER_SIZE ∧ n ≤ p.downstream.length ∧
        addr + rspstr.length ≤ Conn.USER_SPACE_END then
      some (server, { p with downstream := p.downstream.drop n }.parsed env.ecb
        (parseResponse addr rspstr))
    else none
  | .recvEnds err =>
    if p.status = .waiting then
      let e := match err with
        | some err => .serverGone err
        | none => if p.mysql.timeout_ms ≠ 0 then .recvTimeout else .peerShutdown
      some (server, p.failed e (-300))
    else none
  | .threadRecv addr n =>
    match p.thread.reqstr, p.thread.packets with
    | some reqstr, [] =>
      let reqstr := reqstr ++ p.upstream.take n
      if server.running = true ∧ 0 < n ∧ n ≤ Conn.RECV_BUFFER_SIZE ∧ n ≤ p.upstream.length ∧
          addr + reqstr.length ≤ Conn.USER_SPACE_END then
        let parse := parsePacket addr reqstr
        let thread : Thread := ⟨parse.residue, parse.dispatched, .dispatched⟩
        some (server, { p with upstream := p.upstream.drop n, thread := thread })
      else none
    | _, _ => none
  | .crash =>
    match p.thread.reqstr, p.thread.packets with
    | none, [] => some ({ server with running := false }, p)
    | _, _ => none
  | .beginRequest time readable =>
    match p.thread.packets, p.thread.task with
    | stRequest :: _, .dispatched =>
      if server.running = true then
        let (store, task) := env.beginRequest server.store stRequest time readable
        some ({ server with store := store }, { p with thread := { p.thread with task := task } })
      else none
    | _, _ => none
  | .fetch time attempts =>
    match p.thread.task with
    | .missed reqstr =>
      if server.running = true then
        some (server, { p with thread := { p.thread with task := env.fetch reqstr time attempts } })
      else none
    | _ => none
  | .store written =>
    match p.thread.task with
    | .packed tree =>
      if server.running = true then
        some ({ server with store := if written then server.store.write tree else server.store },
          { p with thread := { p.thread with task := .ready 0 tree.getStrVal } })
      else none
    | _ => none
  | .send =>
    match p.thread.packets, p.thread.task with
    | stRequest :: packets, .ready errornum content =>
      if server.running = true then
        some (server, p.respond env.ecb (env.appkey stRequest) stRequest packets errornum content)
      else none
    | _, _ => none

/-- Nothing of an earlier call is under way. -/
def Quiet (p : Peer) : Prop :=
  p.upstream = [] ∧ p.thread.reqstr = some [] ∧ p.thread.packets = [] ∧ p.downstream = []

instance (p : Peer) : Decidable p.Quiet := inferInstanceAs (Decidable (_ ∧ _ ∧ _ ∧ _))

/-- `mysql_proxy_store_result`: the handle, or an error. -/
def storeResult (m : Mysql) : Except (Int × List UInt8) (ResultHandle × Mysql) :=
  match m.current_query_context with
  | some datatree => .ok (⟨⟨datatree, none⟩, none⟩, { m with current_query_context := none })
  | none => .error (2051, text "No record data available")

/-- `mysql_proxy_connect`, with the thread that `accept` made. -/
def connected (m : Mysql) : Peer where
  mysql := { m with sequence := 1 }
  status := .idle
  sql := []
  request := ⟨[], 0, 0, []⟩
  rspstr := []
  upstream := []
  thread := ⟨some [], [], .dispatched⟩
  downstream := []

end Peer

/-! ## The system -/

/-- The server and its clients. -/
structure System (ι : Type*) where
  server : Server
  peers : ι → Peer

inductive SystemEvent (ι : Type*) where
  | peer (i : ι) (e : PeerEvent)
  | evict (key : List UInt8)

namespace System

variable {ι : Type*} [DecidableEq ι]

/-- What happens next, if it can. -/
def exec (env : ProxyEnv) (s : System ι) : SystemEvent ι → Option (System ι)
  | .peer i e =>
    ((s.peers i).exec env s.server e).map fun r => ⟨r.1, Function.update s.peers i r.2⟩
  | .evict key =>
    let store := { s.server.store with cache := Function.update s.server.store.cache key none }
    some { s with server := { s.server with store := store } }

/-- A step that meets `allowed`. -/
def Step (env : ProxyEnv) (allowed : System ι → SystemEvent ι → Prop) (s s' : System ι) : Prop :=
  ∃ e, allowed s e ∧ s.exec env e = some s'

/-- A server that has just started, and the clients that are going to use it. -/
def started (clients : ι → Mysql) : System ι :=
  ⟨⟨ProxyState.init, true⟩, fun i => Peer.connected (clients i)⟩

end System

end MysqlProxy
