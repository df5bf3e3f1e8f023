/-
  A connection of the client (`mysql_proxy_real_query` in `mysql_proxy_api.cpp`).

  `mysql_proxy_real_query` sends a request, and then appends to `rspstr` what `recv` returns until
  `ParsePacket` finds a packet.  The first packet it finds is the answer: nobody compares its
  sequence number with that of the request, and nothing is left over for the next call.

  * `parseResponse` is `ParsePacket`, `processResponse` is `ProcessResponse`.
  * A `Conn` is both directions of the connection, with the call that is going on.  `Conn.exec` is
    what may happen next: a call, an answer of the server, a `recv`, a `recv` that times out.

  If a call times out and the answer comes later, the next call takes it for its own
  (`late_answer_not_agrees`).  In a run in which every call starts with nothing under way, each call
  that returns `0` has the server's answer to its own request (`run_agrees`).

  Modelling choices.
  * The requests under way are packets, because the server dispatches exactly what was sent
    (`worker_requests`); the answers under way are bytes, which `recv` may cut anywhere.
  * What the server answers to the `i`-th call is a parameter: `answer i`.
  * Buffers are in user space, below `2^47`.
-/
import MysqlProxy.Proxy.Crypt
import MysqlProxy.Proxy.Requests
import MysqlProxy.Lib.Run

namespace MysqlProxy

open KnvNode

/-! ## Errors -/

def CR_SERVER_GONE_ERROR : Int := 2006

def CR_MALFORMED_PACKET : Int := 2027

/-- The errors of a query. -/
inductive ClientError where
  | serializeFailed (errmsg : String)
  | serverGone (err : String)
  | serverError (errnum : UInt32) (content : List UInt8)
  | decryptFailed (content : List UInt8)
  | recvTimeout
  | peerShutdown
  deriving DecidableEq, Repr

/-- The bytes of a text. -/
def text (s : String) : List UInt8 := s.toUTF8.data.toList

/-- The digits `sprintf` writes for `"%02X"`; a negative `char` has eight of them. -/
def hexDigits (b : UInt8) : List UInt8 :=
  let digit (n : Nat) : UInt8 := UInt8.ofNat (if n < 10 then 48 + n else 55 + n)
  let low := [digit (b.toNat / 16), digit (b.toNat % 16)]
  if b.toNat < 128 then low else List.replicate 6 70 ++ low

/-- `StrToHex`.  Each `sprintf` starts two bytes behind the one before, so two digits of it stay. -/
def strToHex (content : List UInt8) : List UInt8 := content.flatMap fun b => (hexDigits b).take 2

namespace ClientError

/-- The value of `mysql->errnum`. -/
def errnum : ClientError → Int
  | .serializeFailed _ => CR_OUT_OF_MEMORY
  | .serverError errnum _ => int32 errnum.toNat
  | .decryptFailed _ => CR_MALFORMED_PACKET
  | .serverGone _ | .recvTimeout | .peerShutdown => CR_SERVER_GONE_ERROR

/-- What `snprintf` is asked to print. -/
def message : ClientError → List UInt8
  | .serializeFailed errmsg => text ("KnvNode::Serialize() failed: " ++ errmsg ++ "\n")
  | .serverGone err => text ("Server gone away, errno:" ++ err)
  | .serverError _ content => text "Server response with error msg: " ++ cString content ++ text ".\n"
  | .decryptFailed content =>
    text ("Decrypt rsp failed, rsp(length=" ++ toString content.length ++ "):") ++
      strToHex (if 20 < content.length then content.take 20 ++ text ".." else content) ++ text ".\n"
  | .recvTimeout => text "Recv response timeout"
  | .peerShutdown => text "Peer has shutdown"

/-- The text in `mysql->errmsg`, which is 1024 bytes long. -/
def errmsg (e : ClientError) : List UInt8 := e.message.take 1023

end ClientError

/-! ## The handle -/

/-- `MYSQL`, as far as a query goes. -/
structure Mysql where
  appname : List UInt8
  appname_le : appname.length ≤ 128
  appkey : List UInt8
  sequence : UInt64
  timeout_ms : Int
  current_query_context : Option KnvNode
  /-- `errnum` and `errmsg`. -/
  error : Option ClientError

/-- The limit for a response that is not there yet. -/
def MAX_RESPONSE_PACKET_LENGTH : Nat := 1024 * 1024 * 500

/-- How `ParsePacket` of the client ends. -/
inductive RspParse where
  | more (reqstr : List UInt8)
  | response (stPacket : ProxyPacket)
  | threw
  deriving DecidableEq

/-- The loop of `ParsePacket`, as in the server, up to the first message that can be read. -/
def parseResponseLoop : Nat → Nat → List UInt8 → RspParse
  | 0, _, rest => .more rest
  | n + 1, packet, rest =>
    if rest.length ≤ PACKET_HEADER_LENGTH then .more rest
    else if !startsPacket rest then parseResponseLoop n (packet + 1) (rest.drop 1)
    else if packet + rest.length < (packet + packlen rest) % 2 ^ 64 then
      if MAX_RESPONSE_PACKET_LENGTH < packlen rest then
        parseResponseLoop n (packet + 1) (rest.drop 1)
      else .more rest
    else if packlen rest < PACKET_HEADER_LENGTH ∨ 2 ^ 64 ≤ packet + packlen rest then .threw
    else
      match readPacket ((rest.take (packlen rest)).drop PACKET_HEADER_LENGTH) with
      | .error _ => parseResponseLoop n (packet + packlen rest) (rest.drop (packlen rest))
      | .ok stPacket => .response stPacket

/-- `ParsePacket` of the client, on the string at the address `base`. -/
def parseResponse (base : Nat) (rspstr : List UInt8) : RspParse :=
  parseResponseLoop (rspstr.length + 1) base rspstr

/-- The tree for the content of a packet; `NULL` if there is none. -/
def contextOf (ecb : Ecb) (appkey content : List UInt8) : Option KnvNode :=
  (newFromMessage (decrypt ecb appkey content) 1).toOption

/-- `ProcessResponse`: what it returns, and the handle. -/
def processResponse (ecb : Ecb) (m : Mysql) (stResponse : ProxyPacket) : Int × Mysql :=
  if stResponse.errnum ≠ 0 then
    (-1, { m with error := some (.serverError stResponse.errnum stResponse.content) })
  else if (decrypt ecb m.appkey stResponse.content).length = 0 then
    (-2, { m with error := some (.decryptFailed stResponse.content) })
  else (1, { m with current_query_context := contextOf ecb m.appkey stResponse.content })

/-! ## What the client finds in a buffer -/

/-- A response that is not complete yet, and within the limit, is waited for. -/
theorem parseResponse_part {base : Nat} {q f msg : List UInt8} (h : q ++ f = frame msg) (hf : f ≠ [])
    (hmax : (frame msg).length ≤ MAX_RESPONSE_PACKET_LENGTH) (hbase : base + q.length ≤ 2 ^ 47) :
    parseResponse base q = .more q := by
  have h16 : PACKET_HEADER_LENGTH = 16 := rfl
  have hlim : MAX_RESPONSE_PACKET_LENGTH = 524288000 := rfl
  have hlen : q.length + f.length = 16 + msg.length := by
    rw [← length_frame, ← h, List.length_append]
  have hpos := List.length_pos_iff.mpr hf
  rw [length_frame] at hmax
  unfold parseResponse
  rw [parseResponseLoop]
  by_cases hshort : q.length ≤ PACKET_HEADER_LENGTH
  · rw [if_pos hshort]
  · have htl : q ++ f = frame msg ++ [] := by rw [h, List.append_nil]
    obtain ⟨htok, hpack⟩ := frame_header htl (by omega) (by omega)
    rw [if_neg hshort, htok, if_neg (by decide), hpack, Nat.mod_eq_of_lt (by omega),
      if_pos (by omega), if_neg (by omega)]

/-- A response that is complete is read. -/
theorem parseResponse_frame {base : Nat} {p : ProxyPacket}
    (hmax : (frame p.message).length ≤ MAX_RESPONSE_PACKET_LENGTH) (hbase : base ≤ 2 ^ 47) :
    parseResponse base (frame p.message) = .response p := by
  have h16 : PACKET_HEADER_LENGTH = 16 := rfl
  have hlim : MAX_RESPONSE_PACKET_LENGTH = 524288000 := rfl
  have hlen := length_frame p.message
  have hpos := List.length_pos_iff.mpr p.message_ne_nil
  have hself : frame p.message ++ [] = frame p.message ++ [] := rfl
  obtain ⟨htok, hpack⟩ := frame_header hself (by omega) (by omega)
  have hmsg : (frame p.message).drop PACKET_HEADER_LENGTH = p.message :=
    List.drop_left' (length_packetHeader _)
  unfold parseResponse
  rw [parseResponseLoop, if_neg (by omega), htok, if_neg (by decide), hpack,
    Nat.mod_eq_of_lt (by omega), if_neg (by omega), if_neg (by omega), ← hlen, List.take_length, hmsg,
    readPacket_message (by omega)]

/-! ## The connection -/

/-- The latest call. -/
inductive Status where
  | idle
  | waiting
  | returned (iRet : Int)
  | threw
  deriving DecidableEq

/-- A connection and its client. -/
structure Conn where
  mysql : Mysql
  /-- The calls so far; the latest one is number `calls`. -/
  calls : Nat
  status : Status
  /-- What `SendRequest` has put into the packet of the latest call. -/
  request : ProxyPacket
  rspstr : List UInt8
  /-- The packet that `ProcessResponse` has been called with. -/
  source : Option ProxyPacket
  /-- The requests the server has not answered yet, each with the number of its call. -/
  requests : List (Nat × ProxyPacket)
  /-- What the server has sent and the client has not received. -/
  responses : List UInt8

/-- What `send_in_time` does. -/
inductive Sending where
  | sent
  /-- It returns 0, and the caller takes this for success. -/
  | timedOut
  | failed (err : String)

inductive Event where
  | query (sql : List UInt8) (sending : Sending)
  | serve
  | recv (addr n : Nat)
  /-- `recv_in_time` returns a negative value, with this text for `errno`, or 0. -/
  | recvEnds (err : Option String)

namespace Conn

/-- The end of user space. -/
def USER_SPACE_END : Nat := 2 ^ 47

/-- `sizeof(buffer)`. -/
def RECV_BUFFER_SIZE : Nat := 65536

/-- The latest call fails. -/
def failed (s : Conn) (e : ClientError) (iRet : Int) : Conn :=
  { s with mysql := { s.mysql with error := some e }, status := .returned iRet }

section Exec

variable (ecb : Ecb) (answer : Nat → UInt32 × List UInt8)

/-- The server's answer to the request `r` of call `i`: `SendResponse` copies the other fields. -/
def respond (i : Nat) (r : ProxyPacket) : ProxyPacket :=
  { r with errnum := (answer i).1, content := (answer i).2 }

/-- A call up to `recv_in_time`. -/
def startQuery (s : Conn) (sql : List UInt8) (sending : Sending) : Conn :=
  let m := s.mysql
  let content := encrypt ecb m.appkey sql
  let request : ProxyPacket := ⟨cString m.appname, m.sequence, 0, content⟩
  let s := { s with
    mysql := { m with sequence := m.sequence + 1 }
    calls := s.calls + 1
    request := request
    rspstr := []
    source := none }
  match sendRequest m.appname m.sequence content, sending with
  | .error e, _ => s.failed (.serializeFailed e.errmsg) (-1 - 100)
  | .ok _, .failed err => s.failed (.serverGone err) (-1 - 100)
  | .ok _, sending =>
    { s with
      mysql := { s.mysql with current_query_context := none }
      status := .waiting
      requests := match sending with
        | .sent => s.requests ++ [(s.calls, request)]
        | _ => s.requests }

/-- The rest of a round, after `ParsePacket`. -/
def parsed (s : Conn) : RspParse → Conn
  | .more reqstr => { s with rspstr := reqstr }
  | .threw => { s with status := .threw }
  | .response stPacket =>
    let (iRet, m) := processResponse ecb s.mysql stPacket
    { s with
      mysql := m
      source := some stPacket
      status := .returned (if 0 < iRet then 0 else iRet - 200) }

/-- What happens next, if it can. -/
def exec (s : Conn) : Event → Option Conn
  | .query sql sending =>
    if s.status = .waiting ∨ s.status = .threw then none else some (s.startQuery ecb sql sending)
  | .serve =>
    match s.requests with
    | [] => none
    | (i, r) :: requests =>
      match packPacket (respond answer i r) with
      | .error _ => some { s with requests := requests }
      | .ok bytes => some { s with requests := requests, responses := s.responses ++ bytes }
  | .recv addr n =>
    let rspstr := s.rspstr ++ s.responses.take n
    if s.status = .waiting ∧ 0 < n ∧ n ≤ RECV_BUFFER_SIZE ∧ n ≤ s.responses.length ∧
        addr + rspstr.length ≤ USER_SPACE_END then
      some ({ s with responses := s.responses.drop n }.parsed ecb (parseResponse addr rspstr))
    else none
  | .recvEnds err =>
    if s.status = .waiting then
      let e := match err with
        | some err => .serverGone err
        | none => if s.mysql.timeout_ms ≠ 0 then .recvTimeout else .peerShutdown
      some (s.failed e (-300))
    else none

/-- A step that meets `allowed`. -/
def Step (allowed : Conn → Event → Prop) (s s' : Conn) : Prop :=
  ∃ e, allowed s e ∧ s.exec ecb answer e = some s'

/-- **Agreement**: if the latest call has returned 0, its result was built from the server's answer
    to its own request. -/
def Agrees (s : Conn) : Prop :=
  s.status = .returned 0 → s.source = some (respond answer s.calls s.request) ∧
    s.mysql.current_query_context =
      contextOf ecb s.mysql.appkey (respond answer s.calls s.request).content

/-- A call starts when nothing is under way, and no answer is longer than the limit. -/
def InTime (s : Conn) : Event → Prop
  | .query _ _ => s.requests = [] ∧ s.responses = []
  | .serve => ∀ q ∈ s.requests.head?,
    (frame (respond answer q.1 q.2).message).length ≤ MAX_RESPONSE_PACKET_LENGTH
  | _ => True

end Exec

/-- A new connection. -/
def connected (m : Mysql) : Conn where
  mysql := { m with sequence := 1 }
  calls := 0
  status := .idle
  request := ⟨[], 0, 0, []⟩
  rspstr := []
  source := none
  requests := []
  responses := []

/-! ## Agreement -/

section Agreement

variable {ecb : Ecb} {answer : Nat → UInt32 × List UInt8} {s s' : Conn}

/-- What is under way while a call waits: only its own request, or the answer to it. -/
inductive Underway (answer : Nat → UInt32 × List UInt8) (s : Conn) : Prop where
  | unsent (hreq : s.requests = []) (hstr : s.rspstr = []) (hrsp : s.responses = [])
  | asked (hreq : s.requests = [(s.calls, s.request)]) (hstr : s.rspstr = [])
      (hrsp : s.responses = [])
  | answered (hreq : s.requests = []) (hrsp : s.responses ≠ [])
      (hbytes : s.rspstr ++ s.responses = frame (respond answer s.calls s.request).message)
      (hmax : (frame (respond answer s.calls s.request).message).length ≤
        MAX_RESPONSE_PACKET_LENGTH)

/-- The invariant of a connection whose calls are in time. -/
structure Inv (ecb : Ecb) (answer : Nat → UInt32 × List UInt8) (s : Conn) : Prop where
  appname_lt : s.request.appname.length < 2 ^ 16
  agrees : s.Agrees ecb answer
  underway : s.status = .waiting → s.Underway answer

/-- A call that waits or has failed has no result to agree on. -/
theorem agrees_of_status {st : Status} (h : s.status = st) (hne : st ≠ .returned 0) :
    s.Agrees ecb answer := fun h0 => absurd (h.symm.trans h0) hne

theorem cString_length_le (buf : List UInt8) : (cString buf).length ≤ buf.length :=
  (List.takeWhile_sublist _).length_le

/-- A call fails at once, or waits with its request under way. -/
theorem startQuery_inv (hreq : s.requests = []) (hrsp : s.responses = []) (sql : List UInt8)
    (sending : Sending) : (s.startQuery ecb sql sending).Inv ecb answer := by
  have hname : (cString s.mysql.appname).length < 2 ^ 16 := by
    have h₁ := cString_length_le s.mysql.appname
    have h₂ := s.mysql.appname_le
    omega
  obtain ⟨bytes, hsend⟩ : ∃ bytes, sendRequest s.mysql.appname s.mysql.sequence
      (encrypt ecb s.mysql.appkey sql) = .ok bytes := ⟨_, packPacket_eq hname⟩
  unfold startQuery
  simp only [hsend]
  cases sending with
  | failed err =>
    have hst : Status.returned (-1 - 100) ≠ .returned 0 := by decide
    exact ⟨hname, agrees_of_status rfl hst, fun h => by cases h⟩
  | timedOut => exact ⟨hname, agrees_of_status rfl Status.noConfusion, fun _ => .unsent hreq rfl hrsp⟩
  | sent =>
    refine ⟨hname, agrees_of_status rfl Status.noConfusion, fun _ => .asked ?_ rfl hrsp⟩
    show s.requests ++ _ = _
    rw [hreq]
    rfl

/-- The server answers: if a call waits, it is its own request that is answered. -/
theorem serve_inv (h : s.Inv ecb answer) (hin : s.InTime answer .serve)
    (heq : s.exec ecb answer .serve = some s') : s'.Inv ecb answer := by
  unfold exec at heq
  cases hq : s.requests with
  | nil => simp [hq] at heq
  | cons q requests =>
    obtain ⟨i, r⟩ := q
    simp only [hq] at heq
    have hkeep : s'.status = s.status ∧ s'.request = s.request ∧ s'.calls = s.calls ∧
        s'.source = s.source ∧ s'.mysql = s.mysql := by
      cases hp : packPacket (respond answer i r) <;> simp only [hp] at heq <;> cases heq <;>
        exact ⟨rfl, rfl, rfl, rfl, rfl⟩
    obtain ⟨hst, hr, hc, hso, hm⟩ := hkeep
    refine ⟨hr ▸ h.appname_lt, ?_, ?_⟩
    · have := h.agrees
      unfold Agrees at this ⊢
      rw [hst, hr, hc, hso, hm]
      exact this
    · intro hwait
      rw [hst] at hwait
      cases h.underway hwait with
      | unsent hreq => rw [hreq] at hq; cases hq
      | answered hreq => rw [hreq] at hq; cases hq
      | asked hreq hstr hrsp =>
        have hmine : i = s.calls ∧ r = s.request ∧ requests = [] := by
          rw [hreq] at hq
          cases hq
          exact ⟨rfl, rfl, rfl⟩
        obtain ⟨rfl, rfl, rfl⟩ := hmine
        have hname : (respond answer s.calls s.request).appname.length < 2 ^ 16 := h.appname_lt
        rw [packPacket_eq hname] at heq
        cases heq
        have hlim := hin (s.calls, s.request) (by rw [hq]; rfl)
        refine .answered rfl ?_ ?_ hlim
        · show s.responses ++ frame _ ≠ []
          intro hnil
          have := congrArg List.length hnil
          rw [List.length_append, length_frame] at this
          simp at this
        · show s.rspstr ++ (s.responses ++ frame _) = frame _
          rw [hstr, hrsp]
          rfl

/-- `ProcessResponse` returns 1 only with the tree of the packet it was given. -/
theorem processResponse_cases (ecb : Ecb) (m : Mysql) (p : ProxyPacket) :
    (processResponse ecb m p).1 < 0 ∨ processResponse ecb m p =
      (1, { m with current_query_context := contextOf ecb m.appkey p.content }) := by
  unfold processResponse
  by_cases herr : p.errnum ≠ 0
  · rw [if_pos herr]
    exact .inl (show (-1 : Int) < 0 by decide)
  · rw [if_neg herr]
    by_cases hlen : (decrypt ecb m.appkey p.content).length = 0
    · rw [if_pos hlen]
      exact .inl (show (-2 : Int) < 0 by decide)
    · rw [if_neg hlen]
      exact .inr rfl

/-- The packet of the call's own answer ends the call in agreement. -/
theorem parsed_response_agrees (s : Conn) :
    (s.parsed ecb (.response (respond answer s.calls s.request))).Agrees ecb answer := by
  unfold parsed
  rcases processResponse_cases ecb s.mysql (respond answer s.calls s.request) with hneg | hone
  · refine agrees_of_status rfl ?_
    show Status.returned (if 0 < (processResponse ecb s.mysql _).1 then 0 else _) ≠ _
    rw [if_neg (by omega)]
    intro h0
    have := Status.returned.inj h0
    omega
  · simp only [hone]
    exact fun _ => ⟨rfl, rfl⟩

/-- A `recv` brings a part of the call's own answer, or the rest of it. -/
theorem recv_inv {addr n : Nat} (h : s.Inv ecb answer)
    (heq : s.exec ecb answer (.recv addr n) = some s') : s'.Inv ecb answer := by
  simp only [exec] at heq
  split at heq
  case isFalse => cases heq
  case isTrue hcan =>
    obtain ⟨hwait, hn, -, hle, haddr⟩ := hcan
    cases heq
    have hsome : s.responses ≠ [] := by
      intro hnil
      rw [hnil] at hle
      exact absurd (Nat.lt_of_lt_of_le hn hle) (Nat.lt_irrefl 0)
    cases h.underway hwait with
    | unsent _ _ hrsp => exact absurd hrsp hsome
    | asked _ _ hrsp => exact absurd hrsp hsome
    | answered hreq _ hbytes hmax =>
      have hcut : (s.rspstr ++ s.responses.take n) ++ s.responses.drop n =
          frame (respond answer s.calls s.request).message := by
        rw [List.append_assoc, List.take_append_drop]
        exact hbytes
      by_cases hrest : s.responses.drop n = []
      · rw [hrest, List.append_nil] at hcut
        rw [hcut, parseResponse_frame hmax (Nat.le_trans (Nat.le_add_right _ _) haddr)]
        generalize hs₁ : ({ s with responses := s.responses.drop n } : Conn) = s₁
        have hr₁ : respond answer s.calls s.request = respond answer s₁.calls s₁.request := by
          rw [← hs₁]
        rw [hr₁]
        refine ⟨?_, parsed_response_agrees s₁, ?_⟩
        · show s₁.request.appname.length < 2 ^ 16
          rw [← hs₁]
          exact h.appname_lt
        · intro hw
          cases hw
      · rw [parseResponse_part hcut hrest hmax haddr]
        exact ⟨h.appname_lt, agrees_of_status hwait Status.noConfusion,
          fun _ => .answered hreq hrest hcut hmax⟩

/-- A call that gives up has no result. -/
theorem recvEnds_inv {err : Option String} (h : s.Inv ecb answer)
    (heq : s.exec ecb answer (.recvEnds err) = some s') : s'.Inv ecb answer := by
  simp only [exec] at heq
  split at heq
  · cases heq
    have hst : Status.returned (-300) ≠ .returned 0 := by decide
    exact ⟨h.appname_lt, agrees_of_status rfl hst, fun hw => by cases hw⟩
  · cases heq

/-- Every step that is in time keeps the invariant. -/
theorem step_inv (h : s.Inv ecb answer) (hs : Step ecb answer (InTime answer) s s') :
    s'.Inv ecb answer := by
  obtain ⟨e, hin, heq⟩ := hs
  cases e with
  | query sql sending =>
    simp only [exec] at heq
    split at heq
    · cases heq
    · cases heq
      exact startQuery_inv hin.1 hin.2 sql sending
  | serve => exact serve_inv h hin heq
  | recv addr n => exact recv_inv h heq
  | recvEnds err => exact recvEnds_inv h heq

/-- **Agreement.**  In every run in which each call starts with nothing under way and no answer is
    longer than the limit, each call that returns 0 has the server's answer to its own request,
    with whatever delays, cuts and time-outs. -/
theorem run_agrees {m : Mysql}
    (hrun : Relation.ReflTransGen (Step ecb answer (InTime answer)) (connected m) s) :
    s.Agrees ecb answer := by
  have hinit : (connected m).Inv ecb answer :=
    ⟨Nat.two_pow_pos 16, agrees_of_status rfl Status.noConfusion, fun h => by cases h⟩
  exact (run_invariant hrun hinit step_inv).agrees

end Agreement

/-! ## Two runs -/

/-- The DES key of the password "a". -/
def sampleKey : List UInt8 := [194, 1, 1, 1, 1, 1, 1, 1]

/-- DES with this key, on the blocks of the statements "desc t" and "desc u" and of two answers. -/
def sampleEcb : Ecb := Ecb.ofTable
  [([6, 0, 0, 0, 100, 101, 115, 99], [236, 82, 205, 52, 25, 181, 201, 125]),
    ([32, 116, 32, 32, 32, 32, 32, 32], [19, 63, 123, 128, 3, 156, 177, 185]),
    ([32, 117, 32, 32, 32, 32, 32, 32], [247, 45, 6, 130, 57, 239, 171, 252]),
    ([2, 0, 0, 0, 16, 1, 32, 32], [12, 185, 207, 178, 243, 4, 144, 215]),
    ([2, 0, 0, 0, 16, 2, 32, 32], [152, 179, 172, 78, 39, 168, 95, 223])] sampleKey

def descT : List UInt8 := [100, 101, 115, 99, 32, 116]

def descU : List UInt8 := [100, 101, 115, 99, 32, 117]

/-- The server's answer to "desc t" is a message with the field 2 set to 1; to "desc u", to 2. -/
def sampleAnswer (i : Nat) : UInt32 × List UInt8 :=
  (0, if i = 1 then [12, 185, 207, 178, 243, 4, 144, 215] else [152, 179, 172, 78, 39, 168, 95, 223])

def sampleMysql : Mysql where
  appname := [97, 0]
  appname_le := by decide
  appkey := sampleKey
  sequence := 0
  timeout_ms := 100
  current_query_context := none
  error := none

instance (answer : Nat → UInt32 × List UInt8) (s : Conn) (e : Event) :
    Decidable (s.InTime answer e) :=
  match e with
  | .query _ _ => inferInstanceAs (Decidable (s.requests = [] ∧ s.responses = []))
  | .serve => inferInstanceAs (Decidable (∀ q ∈ s.requests.head?, _))
  | .recv _ _ | .recvEnds _ => inferInstanceAs (Decidable True)

/-- One call after the other, the first answer cut in two. -/
theorem run_agrees_two_calls : ∃ s : Conn, s.calls = 2 ∧ s.status = .returned 0 ∧
    s.mysql.current_query_context.map getStrVal = some [16, 2] ∧ s.Agrees sampleEcb sampleAnswer := by
  let events : List Event := [.query descT .sent, .serve, .recv 4096 5, .recv 4096 28,
    .query descU .sent, .serve, .recv 4096 33]
  have hend : ((execs (exec sampleEcb sampleAnswer) (InTime sampleAnswer) events
      (connected sampleMysql)).map fun s => (s.calls, s.status,
        s.mysql.current_query_context.map getStrVal)) = some (2, .returned 0, some [16, 2]) := by
    decide +kernel
  obtain ⟨s, hs, hval⟩ := Option.map_eq_some_iff.mp hend
  obtain ⟨hcalls, hstatus, hctx⟩ : s.calls = 2 ∧ s.status = .returned 0 ∧
      s.mysql.current_query_context.map getStrVal = some [16, 2] := by
    simpa using hval
  exact ⟨s, hcalls, hstatus, hctx, run_agrees (execs_run hs)⟩

/-- **The defect.**  The first call times out, and the second one takes its answer. -/
theorem late_answer_not_agrees : ∃ s : Conn,
    Relation.ReflTransGen (Step sampleEcb sampleAnswer fun _ _ => True) (connected sampleMysql) s ∧
      s.status = .returned 0 ∧ s.request.sequence = 2 ∧
      s.source = some (respond sampleAnswer 1 ⟨[97], 1, 0, encrypt sampleEcb sampleKey descT⟩) ∧
      s.mysql.current_query_context.map getStrVal = some [16, 1] ∧
      ¬ s.Agrees sampleEcb sampleAnswer := by
  let events : List Event := [.query descT .sent, .recvEnds none, .query descU .sent, .serve,
    .recv 4096 33]
  have hend : ((execs (exec sampleEcb sampleAnswer) (fun _ _ => True) events
      (connected sampleMysql)).map fun s => (s.status, s.request.sequence, s.source,
        s.mysql.current_query_context.map getStrVal)) =
      some (.returned 0, 2,
        some (respond sampleAnswer 1 ⟨[97], 1, 0, encrypt sampleEcb sampleKey descT⟩),
        some [16, 1]) := by
    decide +kernel
  obtain ⟨s, hs, hval⟩ := Option.map_eq_some_iff.mp hend
  obtain ⟨hstatus, hseq, hsource, hctx⟩ : s.status = .returned 0 ∧ s.request.sequence = 2 ∧
      s.source = some (respond sampleAnswer 1 ⟨[97], 1, 0, encrypt sampleEcb sampleKey descT⟩) ∧
      s.mysql.current_query_context.map getStrVal = some [16, 1] := by
    simpa using hval
  refine ⟨s, execs_run hs, hstatus, hseq, hsource, hctx, fun h => ?_⟩
  -- the packet it was built from has the sequence number 1, its own answer would have 2
  have hown := (h hstatus).1
  rw [hsource] at hown
  have : (1 : UInt64) = s.request.sequence := congrArg ProxyPacket.sequence (Option.some.inj hown)
  rw [hseq] at this
  exact absurd this (by decide)

end Conn

end MysqlProxy
