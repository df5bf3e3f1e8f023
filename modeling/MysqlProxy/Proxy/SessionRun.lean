/-
  What the clients of a proxy get.

  The bytes of a connection are at any time those of ONE message, cut somewhere: the request on its way
  to the thread, or the response on its way back.  `Stage` says which, and what is known of it.  In a
  run in which every call starts with nothing under way (`Allowed`), every step keeps the stages, and
  every entry of the cache the packed answer to a statement that was served (`System.Inv`), although
  other threads read and write the cache in between.

  * `run_outcome`: a call that has returned has the answer of the database to its own statement, cell
    for cell and column for column, or the refusal of its own statement by the server, or an error of
    the connection.
  * `call_completes`: a call whose request was sent can always be completed, whatever the other clients
    are about, and it returns 0 if the database has a result.

  What is asked of the statements is `Workload`: no two of them share a cache key, the database has an
  answer or an error for each, and the results and error texts fit the packets.
-/
import MysqlProxy.Proxy.CryptBlocks
import MysqlProxy.Proxy.Session

namespace MysqlProxy

open KnvNode

/-! ## Statements -/

/-- A number that an `int` holds. -/
def IsInt (n : Int) : Prop := -2 ^ 31 ≤ n ∧ n < 2 ^ 31

/-- An error number and a text of MySQL, which is at most 512 bytes long. -/
def ErrorOk (err : Int) (msg : String) : Prop := IsInt err ∧ (textBytes msg).length ≤ 512

def AttemptOk : Attempt → Prop
  | .noConnection msg => (textBytes msg).length ≤ 512
  | .lost _ err _ msg => ErrorOk err msg
  | .answered => True

/-- A result that fits a response. -/
structure Fits (res : MysqlRes) : Prop where
  fields_pos : 1 ≤ res.fields.length
  fields_le : 11 + res.fields.length ≤ 2 ^ 29
  size : ∀ reqkey time tree, packResult res reqkey time = some tree →
    (evaluateSize tree).1 + 512 ≤ MAX_RESPONSE_PACKET_LENGTH

/-- What the database may answer. -/
def AnswerOk : DbAnswer → Prop
  | .result res _ => Fits res
  | .error _ err _ msg => ErrorOk err msg
  | .nothing => False

/-- The statements that are asked. -/
structure Workload (env : ProxyEnv) (Q : List UInt8 → Prop) : Prop where
  apart : ∀ a b, Q a → Q b → cacheKey env.cfg a = cacheKey env.cfg b → skipSpaces a = skipSpaces b
  answer : ∀ a, Q a → AnswerOk (env.db (queryText a))
  length : ∀ a, Q a → a.length < 2 ^ 31 - 16

/-! ## Refusals -/

/-- Why a statement is refused, with the number and the text of the response. -/
inductive Refusal (env : ProxyEnv) (appname sql : List UInt8) : Int → List UInt8 → Prop where
  | unregistered (h : mapAppKeys env.keys appname = none) :
      Refusal env appname sql 1 (textBytes "Unregistered appname " ++ appname)
  | unauthorized (h : sql = []) : Refusal env appname sql 1 (textBytes "Unauthorized request")
  | unsupported (h : isRead (skipSpaces sql) = false) : Refusal env appname sql 1
      (textBytes "statement not starting with SELECT/SHOW/DESC is not supperted.")
  | failed {time : UInt64} {attempts : Nat → Attempt} {errnum : Int} {content : List UInt8}
      (hok : ∀ n, AttemptOk (attempts n))
      (h : fetchLoop env.db (queryText sql) (getReqHashKey env.cfg (skipSpaces sql)) time attempts
        max_try_num = .refused errnum content) : Refusal env appname sql errnum content

/-- A number that is not 0, and a text that fits the response. -/
def Reported (errnum : Int) (content : List UInt8) : Prop :=
  errnum ≠ 0 ∧ IsInt errnum ∧ content.length ≤ 1024

section Loop

variable {db : List UInt8 → DbAnswer} {text : List UInt8}

theorem reported_refused {e : QueryError} (hne : e.err ≠ 0) (hok : ErrorOk e.err e.msg) :
    match e.refused with
    | .refused errnum content => Reported errnum content
    | .packed _ => True := by
  refine ⟨hne, hok.1, ?_⟩
  have htext : ∀ s t : String, textBytes (s ++ t) = textBytes s ++ textBytes t := by
    intro s t
    rw [textBytes, String.toList_append, List.map_append]
    rfl
  have hmsg := hok.2
  rw [htext, List.length_append]
  split
  · have : (textBytes "mysql_query failed: ").length = 20 := by decide
    omega
  · have : (textBytes "mysql_store_result failed: ").length = 27 := by decide
    omega

theorem tryOnce_reported (hdb : AnswerOk (db text)) (key : List UInt8) (time : UInt64) {a : Attempt}
    (ha : AttemptOk a) :
    match tryOnce db text key time a with
    | .ok (.refused errnum content) => Reported errnum content
    | .ok (.packed _) => True
    | .error e => e.err ≠ 0 ∧ ErrorOk e.err e.msg := by
  cases a with
  | noConnection msg => exact ⟨by decide, ⟨by decide, by decide⟩, Nat.le_trans ha (by decide)⟩
  | lost iRet err ne msg => exact ⟨ne, ha⟩
  | answered =>
    cases hans : db text with
    | error iRet err ne msg =>
      rw [hans] at hdb
      simpa only [tryOnce, hans] using ⟨ne, hdb⟩
    | nothing =>
      rw [hans] at hdb
      exact hdb.elim
    | result res columns =>
      cases hpack : packResult res key time with
      | none =>
        simp only [tryOnce, hans, hpack]
        exact ⟨by decide, ⟨by decide, by decide⟩, by decide⟩
      | some tree => simp only [tryOnce, hans, hpack]

/-- **A refusal has a number and a short text.** -/
theorem fetchLoop_reported (hdb : AnswerOk (db text)) (key : List UInt8) (time : UInt64)
    {attempts : Nat → Attempt} (hok : ∀ n, AttemptOk (attempts n)) (n : Nat) {errnum : Int}
    {content : List UInt8} (h : fetchLoop db text key time attempts n = .refused errnum content) :
    Reported errnum content := by
  induction n with
  | zero =>
    have htry := tryOnce_reported hdb key time (hok 0)
    rw [fetchLoop] at h
    cases hr : tryOnce db text key time (attempts 0) with
    | ok fetched =>
      simp only [hr] at h htry
      subst h
      exact htry
    | error e =>
      simp only [hr] at h htry
      have := reported_refused htry.1 htry.2
      rw [h] at this
      exact this
  | succ n ih =>
    have htry := tryOnce_reported hdb key time (hok (n + 1))
    rw [fetchLoop] at h
    cases hr : tryOnce db text key time (attempts (n + 1)) with
    | ok fetched =>
      simp only [hr] at h htry
      subst h
      exact htry
    | error e =>
      simp only [hr] at h htry
      split at h
      · exact ih h
      · have := reported_refused htry.1 htry.2
        rw [h] at this
        exact this

end Loop

theorem Refusal.reported {env : ProxyEnv} {appname sql : List UInt8} {errnum : Int}
    {content : List UInt8} (h : Refusal env appname sql errnum content)
    (hdb : AnswerOk (env.db (queryText sql))) (hname : appname.length ≤ 128) :
    Reported errnum content := by
  cases h with
  | unregistered _ =>
    refine ⟨by decide, ⟨by decide, by decide⟩, ?_⟩
    have : (textBytes "Unregistered appname ").length = 21 := by decide
    rw [List.length_append]
    omega
  | unauthorized _ => exact ⟨by decide, ⟨by decide, by decide⟩, by decide⟩
  | unsupported _ => exact ⟨by decide, ⟨by decide, by decide⟩, by decide⟩
  | failed hok h => exact fetchLoop_reported hdb _ _ hok _ h

/-! ## Answers -/

/-- The content of a packed answer. -/
theorem packResult_content {res : MysqlRes} (columns : 11 + res.fields.length ≤ 2 ^ 32)
    {reqkey : List UInt8} {time : UInt64} {tree : KnvNode}
    (hpack : packResult res reqkey time = some tree) :
    tree.getStrVal ≠ [] ∧ (tree.getStrVal.length : Int) ≤ (evaluateSize tree).1 := by
  obtain ⟨tree', sets, hpack', ⟨ts, hmeans, _⟩, _⟩ := packResult_packed res columns reqkey time
  obtain rfl : tree = tree' := Option.some.inj (hpack.symm.trans hpack')
  generalize treeKey (keyBytes reqkey) = key at hmeans
  have hmem : (fieldsTree res.fields).field ∈
      nodeFields key (resultMetas res time) (fieldsTree res.fields :: ts) :=
    mem_nodeFields.mpr (.inr (.inr ⟨_, List.mem_cons_self, rfl⟩))
  rw [getStrVal_means hmeans (List.ne_nil_of_mem hmem), size_means hmeans]
  constructor
  · intro hnil
    have hle := size_le_of_mem hmem
    have hpos := (fieldsTree res.fields).field.size_pos
    rw [hnil] at hle
    exact absurd (Nat.lt_of_lt_of_le hpos hle) (Nat.lt_irrefl 0)
  · exact_mod_cast length_value_le 1 key (resultMetas res time) (fieldsTree res.fields :: ts)

/-- A result as the client's handle of the context shows it. -/
def Shown (env : ProxyEnv) (sql : List UInt8) (m : Mysql) : Prop :=
  ∃ res columns, env.db (queryText sql) = .result res columns ∧
    ∃ h m', Peer.storeResult m = .ok (h, m') ∧
      ∀ calls, answers ResultHandle.exec h calls = answers (Position.exec res) ⟨0, none⟩ calls

theorem length_encrypt_le {ecb : Ecb} {cipher : BlockCipher} (h : ecb.Applies cipher)
    (key content : List UInt8) (hlen : content.length < 2 ^ 31 - 16) :
    (encrypt ecb key content).length ≤ content.length + 11 ∧ encrypt ecb key content ≠ [] := by
  obtain ⟨⟨spaces, hsp, hdvd, henc⟩, _⟩ := encrypt_roundTrip h key content hlen
  have hsrc : (leBytes 4 content.length ++ content ++ List.replicate spaces 32).length =
      4 + content.length + spaces := by
    rw [List.length_append, List.length_append, length_leBytes, List.length_replicate]
  have hout := length_onBlocks (by decide) (fun b hb => cipher.length_block .encrypt key b hb)
    (l := leBytes 4 content.length ++ content ++ List.replicate spaces 32) (by rw [hsrc]; exact hdvd)
  rw [henc]
  constructor
  · omega
  · intro hnil
    rw [hnil, hsrc, List.length_nil] at hout
    omega

/-- **What the client finds in the response with a packed answer.** -/
theorem shown_of_answer {env : ProxyEnv} {cipher : BlockCipher} (hcipher : env.ecb.Applies cipher)
    {sql content : List UInt8} (hdb : AnswerOk (env.db (queryText sql)))
    (h : ProxyState.PackedAnswer env.cfg env.db sql content) :
    content ≠ [] ∧ (content.length : Int) + 512 ≤ MAX_RESPONSE_PACKET_LENGTH ∧
      ∀ m : Mysql, ∃ context, contextOf env.ecb m.appkey (encrypt env.ecb m.appkey content) =
        some context ∧ Shown env sql { m with current_query_context := some context } := by
  obtain ⟨res, columns, time, tree, hans, hpack, rfl⟩ := h
  rw [hans] at hdb
  have hfits : Fits res := hdb
  have hmax : (MAX_RESPONSE_PACKET_LENGTH : Int) = 524288000 := rfl
  have hsize := hfits.size _ _ _ hpack
  obtain ⟨hne, hle⟩ := packResult_content columns hpack
  refine ⟨hne, by omega, fun m => ?_⟩
  obtain ⟨tree', hpack', hread⟩ := resultHandle_answers res hfits.fields_pos hfits.fields_le
    (getReqHashKey env.cfg (skipSpaces sql)) time
  obtain rfl : tree = tree' := Option.some.inj (hpack.symm.trans hpack')
  obtain ⟨datatree, hnew, hall⟩ := hread (by omega)
  have hdec := (encrypt_roundTrip hcipher m.appkey tree.getStrVal (by omega)).2.2
  refine ⟨datatree, ?_, res, columns, hans, ⟨⟨datatree, none⟩, none⟩, _, rfl, hall⟩
  rw [contextOf, hdec, hnew]
  rfl

/-! ## Responses -/

namespace Peer

/-- What the thread makes of a request: an answer, or a refusal. -/
inductive Verdict (env : ProxyEnv) (p : Peer) : Int → List UInt8 → Prop where
  | answer {content : List UInt8}
      (hkey : mapAppKeys env.keys p.request.appname = some p.mysql.appkey)
      (h : ProxyState.PackedAnswer env.cfg env.db p.sql content) : Verdict env p 0 content
  | refusal {errnum : Int} {content : List UInt8} (h : Refusal env p.request.appname p.sql errnum content) :
      Verdict env p errnum content

/-- How a call may have ended. -/
inductive Outcome (env : ProxyEnv) (p : Peer) : Status → Prop where
  | idle : Outcome env p .idle
  | waiting : Outcome env p .waiting
  | answered (hkey : mapAppKeys env.keys p.request.appname = some p.mysql.appkey)
      (h : Shown env p.sql p.mysql) : Outcome env p (.returned 0)
  | refused {errnum : Int} {content : List UInt8}
      (h : Refusal env p.request.appname p.sql errnum content)
      (herr : p.mysql.error = some (.serverError (uint32 errnum) content)) :
      Outcome env p (.returned (-201))
  | lost {iRet : Int} {e : ClientError} (hRet : iRet = -101 ∨ iRet = -300)
      (herr : p.mysql.error = some e)
      (he : e = .recvTimeout ∨ e = .peerShutdown ∨ ∃ err, e = .serverGone err) :
      Outcome env p (.returned iRet)

end Peer

theorem uint32_ne_zero {n : Int} (hne : n ≠ 0) (hn : IsInt n) : uint32 n ≠ 0 := by
  intro h
  have hnat := congrArg UInt32.toNat h
  rw [uint32, UInt32.toNat_ofNat', UInt32.toNat_zero] at hnat
  have := hn.1
  have := hn.2
  omega

theorem ProxyPacket.length_message_le (p : ProxyPacket) :
    p.message.length ≤ p.appname.length + p.content.length + 80 := by
  have hname := size_le 1 (.string p.appname)
  have hseq := size_le 2 (.varint p.sequence)
  have herr := size_le 3 (.varint p.errnum.toUInt64)
  have hcontent := size_le 11 (.string p.content)
  have h0 : (FieldVal.varint p.sequence).str.length = 0 ∧
      (FieldVal.varint p.errnum.toUInt64).str.length = 0 := ⟨rfl, rfl⟩
  rw [ProxyPacket.message, length_messageBytes, ProxyPacket.fields, ProxyPacket.metas]
  have hn : (FieldVal.string p.appname).str.length = p.appname.length := rfl
  have hc : (FieldVal.string p.content).str.length = p.content.length := rfl
  split
  · simp only [List.nil_append, List.map_append, List.map_cons, List.map_nil, List.sum_append,
      List.sum_cons, List.sum_nil]
    omega
  · simp only [List.map_append, List.map_cons, List.map_nil, List.sum_append, List.sum_cons,
      List.sum_nil]
    omega

/-- What a call returns for the error number of the response. -/
def resultOf (errnum : Int) : Int := if errnum = 0 then 0 else -201

section Response

variable {env : ProxyEnv} {cipher : BlockCipher} {p : Peer} {errnum : Int} {content : List UInt8}

/-- **A response fits the client's limit**, -/
theorem Peer.Verdict.length_le (hcipher : env.ecb.Applies cipher)
    (hdb : AnswerOk (env.db (queryText p.sql))) (hname : p.request.appname.length ≤ 128)
    (h : p.Verdict env errnum content) (key : List UInt8) :
    (frame (responsePacket env.ecb key p.request errnum content).message).length ≤
      MAX_RESPONSE_PACKET_LENGTH := by
  have hmax : MAX_RESPONSE_PACKET_LENGTH = 524288000 := rfl
  have hle := ProxyPacket.length_message_le (responsePacket env.ecb key p.request errnum content)
  rw [length_frame]
  cases h with
  | answer hkey h =>
    obtain ⟨hne, hlen, _⟩ := shown_of_answer hcipher hdb h
    obtain ⟨henc, hsome⟩ := length_encrypt_le hcipher key content (by omega)
    have hp : responsePacket env.ecb key p.request 0 content =
        { p.request with errnum := 0, content := encrypt env.ecb key content } := by
      rw [responsePacket, if_pos rfl]
      exact if_neg fun h => hsome h.1
    have happ : (responsePacket env.ecb key p.request 0 content).appname = p.request.appname := by
      rw [hp]
    have hcontent : (responsePacket env.ecb key p.request 0 content).content.length ≤
        content.length + 11 := by
      rw [hp]
      exact henc
    rw [happ] at hle
    omega
  | refusal h =>
    have hrep := h.reported hdb hname
    have hp : responsePacket env.ecb key p.request errnum content =
        { p.request with errnum := uint32 errnum, content := content } := by
      rw [responsePacket, if_neg hrep.1]
    have happ : (responsePacket env.ecb key p.request errnum content).appname =
        p.request.appname := by rw [hp]
    have hcontent : (responsePacket env.ecb key p.request errnum content).content = content := by
      rw [hp]
    have hlen := hrep.2.2
    rw [happ, hcontent] at hle
    omega

/-- **and the client makes of it what the thread has said.** -/
theorem Peer.Verdict.parsed (hcipher : env.ecb.Applies cipher)
    (hdb : AnswerOk (env.db (queryText p.sql))) (hname : p.request.appname.length ≤ 128)
    (h : p.Verdict env errnum content) :
    ∃ m iRet, p.parsed env.ecb (.response (responsePacket env.ecb (env.appkey p.request) p.request
        errnum content)) = { p with mysql := m, status := .returned iRet } ∧
      m.appname = p.mysql.appname ∧ m.appkey = p.mysql.appkey ∧
      ({ p with mysql := m, status := .returned iRet } : Peer).Outcome env (.returned iRet) ∧
      iRet = resultOf errnum := by
  unfold Peer.parsed
  cases h with
  | answer hkey h =>
    obtain ⟨hne, hlen, hshown⟩ := shown_of_answer hcipher hdb h
    have hmax : (MAX_RESPONSE_PACKET_LENGTH : Int) = 524288000 := rfl
    obtain ⟨_, hsome⟩ := length_encrypt_le hcipher p.mysql.appkey content (by omega)
    have hk : env.appkey p.request = p.mysql.appkey := by rw [ProxyEnv.appkey, hkey]; rfl
    have hp : responsePacket env.ecb (env.appkey p.request) p.request 0 content =
        { p.request with errnum := 0, content := encrypt env.ecb p.mysql.appkey content } := by
      rw [responsePacket, if_pos rfl, hk]
      exact if_neg fun h => hsome h.1
    have hdec := (encrypt_roundTrip hcipher p.mysql.appkey content (by omega)).2.2
    obtain ⟨context, hctx, hsh⟩ := hshown p.mysql
    have hres : processResponse env.ecb p.mysql (responsePacket env.ecb (env.appkey p.request)
        p.request 0 content) = (1, { p.mysql with current_query_context := some context }) := by
      rw [hp, processResponse, if_neg (not_not_intro rfl)]
      simp only [hdec]
      rw [if_neg (fun h0 => hne (List.length_eq_zero_iff.mp h0)), hctx]
    simp only [hres]
    exact ⟨_, _, rfl, rfl, rfl, .answered hkey hsh, rfl⟩
  | refusal h =>
    have hrep := h.reported hdb hname
    have hp : responsePacket env.ecb (env.appkey p.request) p.request errnum content =
        { p.request with errnum := uint32 errnum, content := content } := by
      rw [responsePacket, if_neg hrep.1]
    have hres : processResponse env.ecb p.mysql (responsePacket env.ecb (env.appkey p.request)
        p.request errnum content) =
        (-1, { p.mysql with error := some (.serverError (uint32 errnum) content) }) := by
      rw [hp, processResponse, if_pos (uint32_ne_zero hrep.1 hrep.2.1)]
    simp only [hres]
    exact ⟨_, _, rfl, rfl, rfl, .refused h rfl, (if_neg hrep.1).symm⟩

end Response

/-! ## The stages of a message -/

namespace Peer

/-- The request of the latest call. -/
structure Asked (env : ProxyEnv) (Q : List UInt8 → Prop) (p : Peer) : Prop where
  sql : Q p.sql
  appname : p.request.appname = cString p.mysql.appname
  errnum : p.request.errnum = 0
  content : p.request.content = encrypt env.ecb p.mysql.appkey p.sql
  size : (frame p.request.message).length ≤ MAX_REQUEST_PACKET_LENGTH

/-- What is known of the request that is being served. -/
inductive TaskOk (env : ProxyEnv) (served : List (List UInt8)) (p : Peer) : Task → Prop where
  | dispatched : TaskOk env served p .dispatched
  | missed (hkey : mapAppKeys env.keys p.request.appname = some p.mysql.appkey)
      (hserved : p.sql ∈ served) : TaskOk env served p (.missed p.sql)
  | packed {tree : KnvNode} (hkey : mapAppKeys env.keys p.request.appname = some p.mysql.appkey)
      (hserved : p.sql ∈ served) {res : MysqlRes} {columns : 11 + res.fields.length ≤ 2 ^ 32}
      {time : UInt64} (hdb : env.db (queryText p.sql) = .result res columns)
      (hpack : packResult res (getReqHashKey env.cfg (skipSpaces p.sql)) time = some tree) :
      TaskOk env served p (.packed tree)
  | ready {errnum : Int} {content : List UInt8} (h : p.Verdict env errnum content) :
      TaskOk env served p (.ready errnum content)

/-- A thread that waits for a packet. -/
def idleThread : Thread := ⟨some [], [], .dispatched⟩

/-- **The stages**: nothing is under way, the request is, it is being served, the response is under
    way. -/
inductive Stage (env : ProxyEnv) (Q : List UInt8 → Prop) (served : List (List UInt8)) (p : Peer) :
    Prop where
  | quiet (hthread : p.thread = idleThread) (hup : p.upstream = []) (hdown : p.downstream = [])
  | sent (hasked : p.Asked env Q) {reqstr : List UInt8}
      (hthread : p.thread = ⟨some reqstr, [], .dispatched⟩) (hup : p.upstream ≠ [])
      (hbytes : reqstr ++ p.upstream = frame p.request.message) (hdown : p.downstream = [])
  | serving (hasked : p.Asked env Q) {task : Task} (hthread : p.thread = ⟨some [], [p.request], task⟩)
      (htask : p.TaskOk env served task) (hup : p.upstream = []) (hdown : p.downstream = [])
  | answered (hasked : p.Asked env Q) (hthread : p.thread = idleThread) (hup : p.upstream = [])
      {errnum : Int} {content : List UInt8} (hverdict : p.Verdict env errnum content)
      (hdown : p.downstream ≠ [])
      (hbytes : p.status = .waiting → p.rspstr ++ p.downstream =
        frame (responsePacket env.ecb (env.appkey p.request) p.request errnum content).message)

/-- The invariant of a connection. -/
structure Inv (env : ProxyEnv) (Q : List UInt8 → Prop) (served : List (List UInt8)) (p : Peer) :
    Prop where
  keyed : ∀ key, mapAppKeys env.keys (cString p.mysql.appname) = some key → key = p.mysql.appkey
  stage : p.Stage env Q served
  rspstr : p.status = .waiting → p.downstream = [] → p.rspstr = []
  outcome : p.Outcome env p.status

/-- A call starts when nothing is under way, its packet is within the limit, and the database reports
    what MySQL reports. -/
def Allowed (env : ProxyEnv) (Q : List UInt8 → Prop) (p : Peer) : PeerEvent → Prop
  | .query sql _ => p.Quiet ∧ Q sql ∧
    (frame (requestPacket env.ecb p.mysql sql).message).length ≤ MAX_REQUEST_PACKET_LENGTH
  | .fetch _ attempts => ∀ n, AttemptOk (attempts n)
  | _ => True

end Peer

/-- The invariant of the server. -/
structure Server.Inv (env : ProxyEnv) (Q : List UInt8 → Prop) (server : Server) : Prop where
  cache : server.store.CacheOk env.cfg env.db
  served : ∀ reqstr ∈ server.store.served, Q reqstr
  running : server.running = true

/-! ## Steps -/

namespace Peer

variable {env : ProxyEnv} {cipher : BlockCipher} {Q : List UInt8 → Prop}
  {served served' : List (List UInt8)} {server server' : Server} {p p' : Peer}

/-- A verdict is about the request, the statement and the key. -/
theorem Verdict.congr {errnum : Int} {content : List UInt8} (h : p.Verdict env errnum content)
    (hreq : p'.request = p.request) (hsql : p'.sql = p.sql)
    (hkey : p'.mysql.appkey = p.mysql.appkey) : p'.Verdict env errnum content := by
  cases h with
  | answer hk h => exact .answer (by rw [hreq, hkey]; exact hk) (by rw [hsql]; exact h)
  | refusal h => exact .refusal (by rw [hreq, hsql]; exact h)

theorem Asked.congr (h : p.Asked env Q) (hreq : p'.request = p.request) (hsql : p'.sql = p.sql)
    (hname : p'.mysql.appname = p.mysql.appname) (hkey : p'.mysql.appkey = p.mysql.appkey) :
    p'.Asked env Q where
  sql := by rw [hsql]; exact h.sql
  appname := by rw [hreq, hname]; exact h.appname
  errnum := by rw [hreq]; exact h.errnum
  content := by rw [hreq, hkey, hsql]; exact h.content
  size := by rw [hreq]; exact h.size

theorem TaskOk.congr {task : Task} (h : p.TaskOk env served task) (hreq : p'.request = p.request)
    (hsql : p'.sql = p.sql) (hkey : p'.mysql.appkey = p.mysql.appkey) :
    p'.TaskOk env served task := by
  cases h with
  | dispatched => exact .dispatched
  | missed hk hserved =>
    rw [← hsql] at hserved ⊢
    exact .missed (by rw [hreq, hkey]; exact hk) hserved
  | packed hk hserved hdb hpack =>
    rw [← hsql] at hserved hdb hpack
    exact .packed (by rw [hreq, hkey]; exact hk) hserved hdb hpack
  | ready h => exact .ready (h.congr hreq hsql hkey)

theorem Outcome.congr {status : Status} (h : p.Outcome env status) (hreq : p'.request = p.request)
    (hsql : p'.sql = p.sql) (hmysql : p'.mysql = p.mysql) : p'.Outcome env status := by
  cases h with
  | idle => exact .idle
  | waiting => exact .waiting
  | answered hkey h =>
    exact .answered (by rw [hreq, hmysql]; exact hkey) (by rw [hsql, hmysql]; exact h)
  | refused h herr => exact .refused (by rw [hreq, hsql]; exact h) (by rw [hmysql]; exact herr)
  | lost hRet herr he => exact .lost hRet (by rw [hmysql]; exact herr) he

/-- More statements may be served meanwhile. -/
theorem Stage.mono (h : p.Stage env Q served) (hsub : ∀ r ∈ served, r ∈ served') :
    p.Stage env Q served' := by
  cases h with
  | quiet hthread hup hdown => exact .quiet hthread hup hdown
  | sent hasked hthread hup hbytes hdown => exact .sent hasked hthread hup hbytes hdown
  | serving hasked hthread htask hup hdown =>
    refine .serving hasked hthread ?_ hup hdown
    cases htask with
    | dispatched => exact .dispatched
    | missed hkey hserved => exact .missed hkey (hsub _ hserved)
    | packed hkey hserved hdb hpack => exact .packed hkey (hsub _ hserved) hdb hpack
    | ready h => exact .ready h
  | answered hasked hthread hup hverdict hdown hbytes =>
    exact .answered hasked hthread hup hverdict hdown hbytes

theorem Inv.mono (h : p.Inv env Q served) (hsub : ∀ r ∈ served, r ∈ served') :
    p.Inv env Q served' := ⟨h.keyed, h.stage.mono hsub, h.rspstr, h.outcome⟩

theorem length_cString_appname (m : Mysql) : (cString m.appname).length ≤ 128 :=
  Nat.le_trans (Conn.cString_length_le m.appname) m.appname_le

theorem Asked.length_appname (h : p.Asked env Q) : p.request.appname.length ≤ 128 := by
  rw [h.appname]
  exact length_cString_appname p.mysql

/-- The content of a request comes back on the server. -/
theorem Asked.decrypt (hcipher : env.ecb.Applies cipher) (hW : Workload env Q) (h : p.Asked env Q) :
    serverDecrypt env.ecb p.mysql.appkey p.request.content = p.sql := by
  rw [h.content]
  exact (encrypt_roundTrip hcipher p.mysql.appkey p.sql (hW.length _ h.sql)).2.1

/-! ### The client -/

/-- There is always a request to send. -/
theorem sendRequest_packet (ecb : Ecb) (m : Mysql) (sql : List UInt8) :
    sendRequest m.appname m.sequence (encrypt ecb m.appkey sql) =
      .ok (frame (requestPacket ecb m sql).message) :=
  packPacket_eq (p := requestPacket ecb m sql)
    (Nat.lt_of_le_of_lt (length_cString_appname m) (show 128 < 2 ^ 16 by decide))

/-- **A call starts.** -/
theorem startQuery_inv (h : p.Inv env Q served) {sql : List UInt8} {sending : Sending}
    (hal : p.Allowed env Q (.query sql sending)) :
    (p.startQuery env.ecb sql sending).Inv env Q served := by
  obtain ⟨⟨hup, hreq, hpackets, hdown⟩, hQ, hsize⟩ := hal
  have hthread : p.thread = idleThread := by
    cases h.stage with
    | quiet hthread _ _ => exact hthread
    | sent _ _ hne _ _ => exact absurd hup hne
    | serving _ hthread _ _ _ =>
      rw [hthread] at hpackets
      cases hpackets
    | answered _ _ _ _ hne _ => exact absurd hdown hne
  unfold startQuery
  simp only [sendRequest_packet]
  cases sending with
  | failed err =>
    exact ⟨h.keyed, .quiet hthread hup hdown, fun hw => (by cases hw),
      .lost (.inl rfl) rfl (.inr (.inr ⟨err, rfl⟩))⟩
  | timedOut => exact ⟨h.keyed, .quiet hthread hup hdown, fun _ _ => rfl, .waiting⟩
  | sent =>
    refine ⟨h.keyed, @Stage.sent _ _ _ _ ⟨hQ, rfl, rfl, rfl, hsize⟩ [] hthread ?_ ?_ hdown,
      fun _ _ => rfl, .waiting⟩
    · show p.upstream ++ frame _ ≠ []
      intro hnil
      have := congrArg List.length hnil
      rw [List.length_append, length_frame, List.length_nil] at this
      omega
    · show [] ++ (p.upstream ++ frame _) = frame _
      rw [hup]
      rfl

/-- The call has returned, and nothing is left of the response. -/
def finished (p : Peer) (m : Mysql) (iRet : Int) : Peer :=
  { p with downstream := [], mysql := m, status := .returned iRet }

/-- **A part of the response arrives**, or the rest of it. -/
theorem parsed_cut (hcipher : env.ecb.Applies cipher) (hW : Workload env Q) (hasked : p.Asked env Q)
    {errnum : Int} {content : List UInt8} (hverdict : p.Verdict env errnum content)
    {addr n : Nat} (hbytes : p.rspstr ++ p.downstream =
      frame (responsePacket env.ecb (env.appkey p.request) p.request errnum content).message)
    (haddr : addr + (p.rspstr ++ p.downstream.take n).length ≤ Conn.USER_SPACE_END) :
    (p.downstream.drop n ≠ [] →
      { p with downstream := p.downstream.drop n }.parsed env.ecb
        (parseResponse addr (p.rspstr ++ p.downstream.take n)) =
      { p with downstream := p.downstream.drop n, rspstr := p.rspstr ++ p.downstream.take n }) ∧
    (p.downstream.drop n = [] → ∃ m,
      { p with downstream := p.downstream.drop n }.parsed env.ecb
        (parseResponse addr (p.rspstr ++ p.downstream.take n)) = p.finished m (resultOf errnum) ∧
      m.appname = p.mysql.appname ∧ m.appkey = p.mysql.appkey ∧
      (p.finished m (resultOf errnum)).Outcome env (.returned (resultOf errnum))) := by
  have hdb := hW.answer _ hasked.sql
  have hmax := hverdict.length_le hcipher hdb hasked.length_appname (env.appkey p.request)
  have hcut : (p.rspstr ++ p.downstream.take n) ++ p.downstream.drop n =
      frame (responsePacket env.ecb (env.appkey p.request) p.request errnum content).message := by
    rw [List.append_assoc, List.take_append_drop]
    exact hbytes
  constructor
  · intro hrest
    rw [parseResponse_part hcut hrest hmax haddr]
    rfl
  · intro hrest
    rw [hrest, List.append_nil] at hcut
    rw [hcut, hrest, parseResponse_frame hmax (Nat.le_trans (Nat.le_add_right _ _) haddr)]
    have hv : ({ p with downstream := [] } : Peer).Verdict env errnum content :=
      hverdict.congr rfl rfl rfl
    obtain ⟨m, iRet, hparsed, hname, hkey, hout, rfl⟩ := Verdict.parsed
      (p := { p with downstream := [] }) hcipher hdb hasked.length_appname hv
    exact ⟨m, hparsed, hname, hkey, hout⟩

theorem recv_inv (hcipher : env.ecb.Applies cipher) (hW : Workload env Q) (h : p.Inv env Q served)
    {addr n : Nat} (heq : p.exec env server (.recv addr n) = some (server', p')) :
    server' = server ∧ p'.Inv env Q served := by
  simp only [exec] at heq
  split at heq
  case isFalse => cases heq
  case isTrue hcan =>
    obtain ⟨hwait, hn, -, hle, haddr⟩ := hcan
    have hsome : p.downstream ≠ [] := by
      intro hnil
      rw [hnil] at hle
      exact absurd (Nat.lt_of_lt_of_le hn hle) (Nat.lt_irrefl 0)
    cases h.stage with
    | quiet _ _ hdown => exact absurd hdown hsome
    | sent _ _ _ _ hdown => exact absurd hdown hsome
    | serving _ _ _ _ hdown => exact absurd hdown hsome
    | answered hasked hthread hup hverdict _ hbytes =>
      obtain ⟨hpart, hlast⟩ := parsed_cut hcipher hW hasked hverdict (n := n) (hbytes hwait) haddr
      by_cases hrest : p.downstream.drop n = []
      · obtain ⟨m, hparsed, hname, hkey, hout⟩ := hlast hrest
        rw [hparsed] at heq
        cases heq
        refine ⟨rfl, ?_, .quiet hthread hup rfl, fun hw => (nomatch hw), hout⟩
        show ∀ key, mapAppKeys env.keys (cString m.appname) = some key → key = m.appkey
        rw [hname, hkey]
        exact h.keyed
      · rw [hpart hrest] at heq
        cases heq
        refine ⟨rfl, h.keyed, ?_, fun _ hd => absurd hd hrest, h.outcome.congr rfl rfl rfl⟩
        refine .answered (hasked.congr rfl rfl rfl rfl) hthread hup (hverdict.congr rfl rfl rfl) hrest ?_
        intro _
        rw [← hbytes hwait]
        exact (List.append_assoc _ _ _).trans (congrArg _ (List.take_append_drop n _))

/-- **A call gives up.**  What is under way stays. -/
theorem recvEnds_inv (h : p.Inv env Q served) {err : Option String}
    (heq : p.exec env server (.recvEnds err) = some (server', p')) :
    server' = server ∧ p'.Inv env Q served := by
  simp only [exec] at heq
  split at heq
  case isFalse => cases heq
  case isTrue hwait =>
    cases heq
    refine ⟨rfl, h.keyed, ?_, fun hw => (nomatch hw), .lost (.inr rfl) rfl ?_⟩
    · cases h.stage with
      | quiet hthread hup hdown => exact .quiet hthread hup hdown
      | sent hasked hthread hup hbytes hdown =>
        exact .sent (hasked.congr rfl rfl rfl rfl) hthread hup
          hbytes hdown
      | serving hasked hthread htask hup hdown =>
        exact .serving (hasked.congr rfl rfl rfl rfl) hthread (htask.congr rfl rfl rfl) hup hdown
      | answered hasked hthread hup hverdict hdown hbytes =>
        exact .answered (hasked.congr rfl rfl rfl rfl)
          hthread hup (hverdict.congr rfl rfl rfl) hdown fun hw => (nomatch hw)
    · cases err with
      | some err => exact .inr (.inr ⟨err, rfl⟩)
      | none =>
        simp only
        split
        · exact .inl rfl
        · exact .inr (.inl rfl)

/-! ### The thread -/

/-- **`ParsePacket` on a part of a request, or on all of it.** -/
theorem parsePacket_part {base : Nat} {q f : List UInt8} {r : ProxyPacket}
    (h : q ++ f = frame r.message) (hlim : WithinLimit r.message)
    (hbase : base + q.length ≤ Conn.USER_SPACE_END) :
    (f ≠ [] → (parsePacket base q).messages = [] ∧ (parsePacket base q).residue = some q) ∧
      (f = [] → (parsePacket base q).messages = [r.message] ∧
        (parsePacket base q).residue = some []) := by
  have hone : stream [r.message] = frame r.message := by
    rw [stream_cons]
    exact List.append_nil _
  have huser : Conn.USER_SPACE_END = 2 ^ 47 := rfl
  have hmax : MAX_REQUEST_PACKET_LENGTH = 4112 := rfl
  obtain ⟨ms₁, ms₂, rest, hms, hmsgs, hres, hal⟩ := parseLoop_stream (n := q.length + 1)
    (h.trans hone.symm)
    (fun m hm => by rw [List.mem_singleton.mp hm]; exact ⟨r.message_ne_nil, hlim⟩)
    (Nat.lt_succ_self _) (show base + q.length + _ ≤ 2 ^ 64 by omega)
  rw [parsePacket, hmsgs, hres]
  cases ms₁ with
  | nil =>
    obtain rfl : ms₂ = [r.message] := hms.symm
    have heq := hal.eq
    rw [hone, ← h] at heq
    obtain rfl := List.append_cancel_right heq
    refine ⟨fun _ => ⟨rfl, rfl⟩, fun hf => ?_⟩
    have hshort := hal.short _ _ rfl
    rw [hf, List.append_nil] at h
    rw [← h] at hshort
    exact absurd hshort (Nat.lt_irrefl _)
  | cons m ms₁ =>
    obtain ⟨rfl, hnil⟩ := List.cons.inj hms
    obtain ⟨rfl, rfl⟩ := List.append_eq_nil_iff.mp hnil.symm
    have heq : rest ++ f = [] := hal.eq
    obtain ⟨rfl, rfl⟩ := List.append_eq_nil_iff.mp heq
    exact ⟨fun hf => absurd rfl hf, fun _ => ⟨rfl, rfl⟩⟩

/-- **A part of the request reaches the thread**, or the rest of it, and it is dispatched. -/
theorem threadRecv_inv (h : p.Inv env Q served) {addr n : Nat}
    (heq : p.exec env server (.threadRecv addr n) = some (server', p')) :
    server' = server ∧ p'.Inv env Q served := by
  have hmax : MAX_REQUEST_PACKET_LENGTH = 4112 := rfl
  simp only [exec] at heq
  split at heq
  case h_2 => cases heq
  case h_1 reqstr hreqstr hpackets =>
    split at heq
    case isFalse => cases heq
    case isTrue hcan =>
      obtain ⟨-, hn, -, hle, haddr⟩ := hcan
      have hsome : p.upstream ≠ [] := by
        intro hnil
        rw [hnil] at hle
        exact absurd (Nat.lt_of_lt_of_le hn hle) (Nat.lt_irrefl 0)
      cases heq
      cases h.stage with
      | quiet _ hup _ => exact absurd hup hsome
      | serving _ _ _ hup _ => exact absurd hup hsome
      | answered _ _ hup _ _ _ => exact absurd hup hsome
      | @sent hasked reqstr' hthread hup hbytes hdown =>
        obtain rfl : reqstr' = reqstr := by
          rw [hthread] at hreqstr
          exact Option.some.inj hreqstr
        have hcut : (reqstr' ++ p.upstream.take n) ++ p.upstream.drop n =
            frame p.request.message := by
          rw [List.append_assoc, List.take_append_drop]
          exact hbytes
        have hsize := hasked.size
        rw [length_frame] at hsize
        obtain ⟨hpart, hwhole⟩ := parsePacket_part (r := p.request) hcut
          (show 16 + _ ≤ _ from hsize) haddr
        refine ⟨rfl, h.keyed, ?_, h.rspstr, ?_⟩
        · by_cases hrest : p.upstream.drop n = []
          · obtain ⟨hmsgs, hres⟩ := hwhole hrest
            refine .serving (hasked.congr rfl rfl rfl rfl)
              ?_ .dispatched hrest hdown
            show (⟨_, List.filterMap dispatch _, _⟩ : Thread) = ⟨some [], [p.request], .dispatched⟩
            rw [hmsgs, hres, List.filterMap_cons,
              dispatch_message hasked.errnum (by omega)]
            rfl
          · obtain ⟨hmsgs, hres⟩ := hpart hrest
            refine .sent (hasked.congr rfl rfl rfl rfl)
              ?_ hrest hcut hdown
            show (⟨_, List.filterMap dispatch _, _⟩ : Thread) = _
            rw [hmsgs, hres]
            rfl
        · exact h.outcome.congr rfl rfl rfl

/-- A thread that has a packet serves the request of the latest call. -/
theorem Stage.serves (h : p.Stage env Q served)
    (hbusy : p.thread.packets ≠ [] ∨ p.thread.task ≠ .dispatched) : p.Asked env Q ∧
      p.thread.reqstr = some [] ∧ p.thread.packets = [p.request] ∧
      p.TaskOk env served p.thread.task ∧ p.upstream = [] ∧ p.downstream = [] := by
  have hidle : ∀ {reqstr}, p.thread = ⟨reqstr, [], .dispatched⟩ → False := by
    intro reqstr hthread
    rw [hthread] at hbusy
    exact hbusy.elim (fun hne => hne rfl) fun hne => hne rfl
  cases h with
  | quiet hthread _ _ => exact (hidle hthread).elim
  | sent _ hthread _ _ _ => exact (hidle hthread).elim
  | answered _ hthread _ _ _ _ => exact (hidle hthread).elim
  | serving hasked hthread htask hup hdown =>
    rw [hthread]
    exact ⟨hasked, rfl, rfl, htask, hup, hdown⟩

/-- The thread goes on with the request. -/
theorem Inv.task (h : p.Inv env Q served)
    (hbusy : p.thread.packets ≠ [] ∨ p.thread.task ≠ .dispatched) {task : Task}
    (htask : p.TaskOk env served' task) :
    ({ p with thread := { p.thread with task := task } } : Peer).Inv env Q served' := by
  obtain ⟨hasked, hreqstr, hpackets, _, hup, hdown⟩ := h.stage.serves hbusy
  refine ⟨h.keyed, .serving (hasked.congr rfl rfl rfl rfl) ?_ (htask.congr rfl rfl rfl)
    hup hdown, h.rspstr, h.outcome.congr rfl rfl rfl⟩
  show (⟨p.thread.reqstr, p.thread.packets, task⟩ : Thread) = _
  rw [hreqstr, hpackets]

/-- What the cache, the statements and the tasks are after `Read`. -/
theorem readCache_inv (hW : Workload env Q) (hs : server.Inv env Q) (hasked : p.Asked env Q)
    (hkey : mapAppKeys env.keys p.request.appname = some p.mysql.appkey) (time : UInt64)
    (readable : Bool) :
    ({ server with store := (env.readCache server.store p.sql time readable).1 } : Server).Inv env Q ∧
      (∀ r ∈ server.store.served, r ∈ (env.readCache server.store p.sql time readable).1.served) ∧
      p.TaskOk env (env.readCache server.store p.sql time readable).1.served
        (env.readCache server.store p.sql time readable).2 := by
  have hsame : ({ server with store := server.store } : Server).Inv env Q := hs
  unfold ProxyEnv.readCache
  by_cases hnil : p.sql = []
  · rw [if_pos hnil]
    exact ⟨hsame, fun _ hr => hr, .ready (.refusal (.unauthorized hnil))⟩
  · rw [if_neg hnil]
    cases hread : isRead (skipSpaces p.sql) with
    | false =>
      rw [if_pos (by rfl)]
      exact ⟨hsame, fun _ hr => hr, .ready (.refusal (.unsupported hread))⟩
    | true =>
      have hserved : ∀ r ∈ p.sql :: server.store.served, Q r := by
        intro r hr
        rcases List.mem_cons.mp hr with rfl | hr
        · exact hasked.sql
        · exact hs.served r hr
      have hcache := hs.cache.serve p.sql
      have hsub : ∀ r ∈ server.store.served, r ∈ p.sql :: server.store.served :=
        fun _ hr => List.mem_cons_of_mem _ hr
      rw [if_neg (by exact Bool.false_ne_true)]
      simp only
      split
      · rename_i tree hhit
        cases readable with
        | false => cases hhit
        | true =>
          have hanswer := hcache.read
            (fun r hr hk => hW.apart r p.sql (hserved r hr) hasked.sql hk) hhit
          exact ⟨⟨hcache, hserved, hs.running⟩, hsub, .ready (.answer hkey hanswer)⟩
      · exact ⟨⟨hcache, hserved, hs.running⟩, hsub, .missed hkey List.mem_cons_self⟩

/-- **The request is looked at, and the cache is read.** -/
theorem beginRequest_inv (hcipher : env.ecb.Applies cipher) (hW : Workload env Q)
    (hs : server.Inv env Q) (h : p.Inv env Q server.store.served) {time : UInt64}
    {readable : Bool} (heq : p.exec env server (.beginRequest time readable) = some (server', p')) :
    server'.Inv env Q ∧ (∀ r ∈ server.store.served, r ∈ server'.store.served) ∧
      p'.Inv env Q server'.store.served := by
  simp only [exec] at heq
  split at heq
  case h_2 => cases heq
  case h_1 stRequest packets hpackets _ =>
    rw [if_pos hs.running] at heq
    have hbusy : p.thread.packets ≠ [] ∨ p.thread.task ≠ .dispatched :=
      .inl (by rw [hpackets]; exact List.cons_ne_nil _ _)
    obtain ⟨hasked, _, hone, _, _, _⟩ := h.stage.serves hbusy
    obtain rfl : stRequest = p.request := by
      rw [hone] at hpackets
      exact (List.cons.inj hpackets).1.symm
    cases hkey : mapAppKeys env.keys p.request.appname with
    | none =>
      have hb : env.beginRequest server.store p.request time readable = (server.store,
          .ready 1 (textBytes "Unregistered appname " ++ p.request.appname)) := by
        rw [ProxyEnv.beginRequest, hkey]
      rw [hb] at heq
      cases heq
      exact ⟨hs, fun _ hr => hr, h.task hbusy (.ready (.refusal (.unregistered hkey)))⟩
    | some appkey =>
      obtain rfl : appkey = p.mysql.appkey := h.keyed appkey (by rw [← hasked.appname]; exact hkey)
      have hb : env.beginRequest server.store p.request time readable =
          env.readCache server.store p.sql time readable := by
        rw [ProxyEnv.beginRequest, hkey]
        exact congrArg (env.readCache server.store · time readable) (hasked.decrypt hcipher hW)
      obtain ⟨hs', hsub, htask⟩ := readCache_inv hW hs hasked hkey time readable
      rw [hb] at heq
      cases heq
      exact ⟨hs', hsub, h.task hbusy htask⟩

/-- **The database is asked.** -/
theorem fetch_inv (hW : Workload env Q) (h : p.Inv env Q served) {time : UInt64}
    {attempts : Nat → Attempt} (hal : p.Allowed env Q (.fetch time attempts))
    (heq : p.exec env server (.fetch time attempts) = some (server', p')) :
    server' = server ∧ p'.Inv env Q served := by
  simp only [exec] at heq
  split at heq
  case h_2 => cases heq
  case h_1 reqstr htask =>
    split at heq
    case isFalse => cases heq
    case isTrue =>
      cases heq
      have hbusy : p.thread.packets ≠ [] ∨ p.thread.task ≠ .dispatched :=
        .inr (by rw [htask]; exact Task.noConfusion)
      obtain ⟨hasked, _, _, hok, _, _⟩ := h.stage.serves hbusy
      rw [htask] at hok
      refine ⟨rfl, h.task hbusy ?_⟩
      cases hok with
      | missed hkey hserved =>
        have hans := hW.answer _ hasked.sql
        have hdb : env.db (queryText p.sql) ≠ .nothing := by
          intro hnone
          rw [hnone] at hans
          exact hans
        have hfair := fetchLoop_fair (getReqHashKey env.cfg (skipSpaces p.sql)) time hdb attempts
          max_try_num
        unfold ProxyEnv.fetch
        split
        · rename_i errnum content hf
          exact .ready (.refusal (.failed hal hf))
        · rename_i tree hf
          rw [hf] at hfair
          obtain ⟨res, columns, hres, hpack⟩ := hfair
          exact .packed hkey hserved hres hpack

/-- **The answer is written to the cache.** -/
theorem store_inv (hs : server.Inv env Q) (h : p.Inv env Q server.store.served) {written : Bool}
    (heq : p.exec env server (.store written) = some (server', p')) :
    server'.Inv env Q ∧ (∀ r ∈ server.store.served, r ∈ server'.store.served) ∧
      p'.Inv env Q server'.store.served := by
  simp only [exec] at heq
  split at heq
  case h_2 => cases heq
  case h_1 tree htask =>
    rw [if_pos hs.running] at heq
    cases heq
    have hbusy : p.thread.packets ≠ [] ∨ p.thread.task ≠ .dispatched :=
      .inr (by rw [htask]; exact Task.noConfusion)
    obtain ⟨hasked, _, _, hok, _, _⟩ := h.stage.serves hbusy
    rw [htask] at hok
    cases hok with
    | @packed _ hkey hserved res columns time hdb hpack =>
      have hverdict : p.Verdict env 0 tree.getStrVal :=
        .answer hkey ⟨res, columns, time, tree, hdb, hpack, rfl⟩
      cases written with
      | false =>
        exact ⟨⟨hs.cache, hs.served, hs.running⟩, fun _ hr => hr,
          h.task hbusy (.ready hverdict)⟩
      | true =>
        have hsame : (server.store.write tree).served = server.store.served := by
          rw [ProxyState.write]
          split
          · rfl
          · rfl
        simp only [if_true]
        rw [hsame]
        refine ⟨⟨hs.cache.write hserved hdb hpack, ?_, hs.running⟩, fun _ hr => hr,
          h.task hbusy (.ready hverdict)⟩
        show ∀ r ∈ (server.store.write tree).served, Q r
        rw [hsame]
        exact hs.served

/-- There is always a response to send. -/
theorem packPacket_response (ecb : Ecb) (key : List UInt8) {r : ProxyPacket} (errnum : Int)
    (content : List UInt8) (hname : r.appname.length ≤ 128) :
    packPacket (responsePacket ecb key r errnum content) =
      .ok (frame (responsePacket ecb key r errnum content).message) := by
  have happ : (responsePacket ecb key r errnum content).appname = r.appname := by
    unfold responsePacket
    split
    · simp only
      split
      · rfl
      · rfl
    · rfl
  exact packPacket_eq (by rw [happ]; exact Nat.lt_of_le_of_lt hname (by decide))

/-- **The response goes out.** -/
theorem send_inv (h : p.Inv env Q served)
    (heq : p.exec env server .send = some (server', p')) :
    server' = server ∧ p'.Inv env Q served := by
  simp only [exec] at heq
  split at heq
  case h_2 => cases heq
  case h_1 stRequest packets errnum content hpackets htask =>
    split at heq
    case isFalse => cases heq
    case isTrue =>
      cases heq
      have hbusy : p.thread.packets ≠ [] ∨ p.thread.task ≠ .dispatched :=
        .inl (by rw [hpackets]; exact List.cons_ne_nil _ _)
      obtain ⟨hasked, hreqstr, hone, hok, hup, hdown⟩ := h.stage.serves hbusy
      obtain ⟨rfl, rfl⟩ := List.cons.inj (hpackets.symm.trans hone)
      rw [htask] at hok
      cases hok with
      | ready hverdict =>
        have hpack := packPacket_response env.ecb (env.appkey p.request) errnum content
          hasked.length_appname
        unfold respond
        simp only [hpack]
        refine ⟨trivial, h.keyed, ?_, ?_, h.outcome.congr rfl rfl rfl⟩
        · refine .answered (hasked.congr rfl rfl rfl rfl) ?_ hup (hverdict.congr rfl rfl rfl) ?_ ?_
          · show (⟨p.thread.reqstr, [], .dispatched⟩ : Thread) = _
            rw [hreqstr]
            rfl
          · show p.downstream ++ frame _ ≠ []
            intro hnil
            have := congrArg List.length hnil
            rw [List.length_append, length_frame, List.length_nil] at this
            omega
          · intro hwait
            show p.rspstr ++ (p.downstream ++ frame _) = frame _
            rw [h.rspstr hwait hdown, hdown]
            rfl
        · intro hwait hd
          have hd : p.downstream ++ frame _ = [] := hd
          have := congrArg List.length hd
          rw [List.length_append, length_frame, List.length_nil] at this
          omega

/-- **Every step on a connection keeps the server and the connection right.** -/
theorem exec_inv (hcipher : env.ecb.Applies cipher) (hW : Workload env Q) (hs : server.Inv env Q)
    (h : p.Inv env Q server.store.served) {e : PeerEvent} (hal : p.Allowed env Q e)
    (heq : p.exec env server e = some (server', p')) :
    server'.Inv env Q ∧ (∀ r ∈ server.store.served, r ∈ server'.store.served) ∧
      p'.Inv env Q server'.store.served := by
  have keep : server' = server ∧ p'.Inv env Q server.store.served →
      server'.Inv env Q ∧ (∀ r ∈ server.store.served, r ∈ server'.store.served) ∧
        p'.Inv env Q server'.store.served := by
    rintro ⟨rfl, hp⟩
    exact ⟨hs, fun _ hr => hr, hp⟩
  cases e with
  | query sql sending =>
    simp only [exec] at heq
    split at heq
    · cases heq
    · cases heq
      exact keep ⟨rfl, startQuery_inv h hal⟩
  | recv addr n => exact keep (recv_inv hcipher hW h heq)
  | recvEnds err => exact keep (recvEnds_inv h heq)
  | threadRecv addr n => exact keep (threadRecv_inv h heq)
  | crash =>
    -- no thread has met a packet it cannot handle
    have hsome : p.thread.reqstr ≠ none := by
      cases h.stage with
      | quiet hthread _ _ => rw [hthread]; exact fun hn => nomatch hn
      | sent _ hthread _ _ _ => rw [hthread]; exact fun hn => nomatch hn
      | serving _ hthread _ _ _ => rw [hthread]; exact fun hn => nomatch hn
      | answered _ hthread _ _ _ _ => rw [hthread]; exact fun hn => nomatch hn
    simp only [exec] at heq
    split at heq
    · rename_i hnone _
      exact absurd hnone hsome
    · cases heq
  | beginRequest time readable => exact beginRequest_inv hcipher hW hs h heq
  | fetch time attempts => exact keep (fetch_inv hW h hal heq)
  | store written => exact store_inv hs h heq
  | send => exact keep (send_inv h heq)

end Peer

/-! ## Runs -/

namespace System

variable {ι : Type*} [DecidableEq ι] {env : ProxyEnv} {cipher : BlockCipher}
  {Q : List UInt8 → Prop} {s s' : System ι} {clients : ι → Mysql}

/-- Every client keeps to the rules. -/
def Allowed (env : ProxyEnv) (Q : List UInt8 → Prop) (s : System ι) : SystemEvent ι → Prop
  | .peer i e => (s.peers i).Allowed env Q e
  | .evict _ => True

/-- A client has the key of its application, if the application is registered. -/
def Configured (env : ProxyEnv) (clients : ι → Mysql) : Prop :=
  ∀ i key, mapAppKeys env.keys (cString (clients i).appname) = some key → key = (clients i).appkey

/-- The invariant of the system. -/
structure Inv (env : ProxyEnv) (Q : List UInt8 → Prop) (s : System ι) : Prop where
  server : s.server.Inv env Q
  peers : ∀ i, (s.peers i).Inv env Q s.server.store.served

/-- **Every step of every client and every thread keeps the invariant.** -/
theorem step_inv (hcipher : env.ecb.Applies cipher) (hW : Workload env Q) (h : s.Inv env Q)
    (hs : Step env (Allowed env Q) s s') : s'.Inv env Q := by
  obtain ⟨e, hal, heq⟩ := hs
  cases e with
  | peer i e =>
    obtain ⟨⟨server', p'⟩, hexec, rfl⟩ := Option.map_eq_some_iff.mp heq
    obtain ⟨hserver, hsub, hp⟩ := Peer.exec_inv hcipher hW h.server (h.peers i) hal hexec
    refine ⟨hserver, fun j => ?_⟩
    show (Function.update s.peers i p' j).Inv env Q _
    by_cases hj : j = i
    · rw [hj, Function.update_self]
      exact hp
    · rw [Function.update_of_ne hj]
      exact (h.peers j).mono hsub
  | evict key =>
    cases heq
    refine ⟨⟨?_, h.server.served, h.server.running⟩, h.peers⟩
    intro k data hk
    have hk : Function.update s.server.store.cache key none k = some data := hk
    by_cases hkey : k = key
    · rw [hkey, Function.update_self] at hk
      cases hk
    · rw [Function.update_of_ne hkey] at hk
      exact h.server.cache k data hk

omit [DecidableEq ι] in
theorem started_inv (hconf : Configured env clients) : (started clients).Inv env Q where
  server := ⟨fun _ _ hk => (nomatch hk), fun _ hr => absurd hr List.not_mem_nil, rfl⟩
  peers i := ⟨hconf i, .quiet rfl rfl rfl, fun hw => (nomatch hw), .idle⟩

theorem run_inv (hcipher : env.ecb.Applies cipher) (hW : Workload env Q)
    (hconf : Configured env clients)
    (hrun : Relation.ReflTransGen (Step env (Allowed env Q)) (started clients) s) : s.Inv env Q :=
  run_invariant hrun (started_inv hconf) (step_inv hcipher hW)

end System

/-! ## A call can be completed -/

namespace Peer

variable {env : ProxyEnv} {cipher : BlockCipher} {Q : List UInt8 → Prop} {server : Server} {p : Peer}

/-- A step on a connection. -/
def PeerStep (env : ProxyEnv) (Q : List UInt8 → Prop) (a b : Server × Peer) : Prop :=
  ∃ e, a.2.Allowed env Q e ∧ a.2.exec env a.1 e = some b

/-- The call returns `iRet` after some steps on the connection. -/
def Completes (env : ProxyEnv) (Q : List UInt8 → Prop) (server : Server) (p : Peer) (iRet : Int) : Prop :=
  ∃ b, Relation.ReflTransGen (PeerStep env Q) (server, p) b ∧ b.2.status = .returned iRet ∧
    b.2.sql = p.sql

theorem Completes.step {server' : Server} {p' : Peer} {iRet : Int} {e : PeerEvent}
    (h : Completes env Q server' p' iRet) (hsql : p'.sql = p.sql) (hal : p.Allowed env Q e)
    (hexec : p.exec env server e = some (server', p')) : Completes env Q server p iRet := by
  obtain ⟨b, hrun, hst, hb⟩ := h
  exact ⟨b, .head ⟨e, hal, hexec⟩ hrun, hst, hb.trans hsql⟩

/-- **The response is received**, in as many pieces as it takes. -/
theorem complete_answered (hcipher : env.ecb.Applies cipher) (hW : Workload env Q) {errnum : Int}
    {content : List UInt8} (n : Nat) : ∀ {p : Peer}, p.downstream.length ≤ n → p.Asked env Q →
      p.Verdict env errnum content → p.status = .waiting → p.downstream ≠ [] →
      p.rspstr ++ p.downstream =
        frame (responsePacket env.ecb (env.appkey p.request) p.request errnum content).message →
      Completes env Q server p (resultOf errnum) := by
  have hbuf : Conn.RECV_BUFFER_SIZE = 65536 := rfl
  have huser : Conn.USER_SPACE_END = 2 ^ 47 := rfl
  have hlim : MAX_RESPONSE_PACKET_LENGTH = 524288000 := rfl
  induction n with
  | zero =>
    intro p hn _ _ _ hdown _
    exact absurd (List.length_eq_zero_iff.mp (Nat.le_zero.mp hn)) hdown
  | succ n ih =>
    intro p hn hasked hverdict hwait hdown hbytes
    have hpos := List.length_pos_iff.mpr hdown
    have hmax := hverdict.length_le hcipher (hW.answer _ hasked.sql) hasked.length_appname
      (env.appkey p.request)
    rw [← hbytes, List.length_append] at hmax
    generalize hk : min p.downstream.length Conn.RECV_BUFFER_SIZE = k
    have haddr : 0 + (p.rspstr ++ p.downstream.take k).length ≤ Conn.USER_SPACE_END := by
      rw [List.length_append, List.length_take]
      omega
    have hexec : p.exec env server (.recv 0 k) = some (server,
        { p with downstream := p.downstream.drop k }.parsed env.ecb
          (parseResponse 0 (p.rspstr ++ p.downstream.take k))) :=
      if_pos ⟨hwait, by omega, by omega, by omega, haddr⟩
    obtain ⟨hpart, hlast⟩ := parsed_cut hcipher hW hasked hverdict hbytes haddr
    by_cases hrest : p.downstream.drop k = []
    · obtain ⟨m, hparsed, -, -, -⟩ := hlast hrest
      rw [hparsed] at hexec
      exact ⟨_, .single ⟨.recv 0 k, trivial, hexec⟩, rfl, rfl⟩
    · rw [hpart hrest] at hexec
      have hnext := ih (p := { p with
        downstream := p.downstream.drop k
        rspstr := p.rspstr ++ p.downstream.take k })
      refine Completes.step (e := .recv 0 k) (hnext ?_ (hasked.congr rfl rfl rfl rfl) (hverdict.congr rfl rfl rfl) hwait
        hrest ?_) rfl trivial hexec
      · show (p.downstream.drop k).length ≤ n
        rw [List.length_drop]
        omega
      · rw [← hbytes]
        exact (List.append_assoc _ _ _).trans (congrArg _ (List.take_append_drop k _))

/-- **The thread answers.** -/
theorem complete_ready (hcipher : env.ecb.Applies cipher) (hW : Workload env Q)
    (hs : server.Inv env Q) (h : p.Inv env Q server.store.served) (hwait : p.status = .waiting)
    {errnum : Int} {content : List UInt8} (htask : p.thread.task = .ready errnum content) :
    Completes env Q server p (resultOf errnum) := by
  have hbusy : p.thread.packets ≠ [] ∨ p.thread.task ≠ .dispatched :=
    .inr (by rw [htask]; exact Task.noConfusion)
  obtain ⟨hasked, _, hone, hok, hup, hdown⟩ := h.stage.serves hbusy
  rw [htask] at hok
  cases hok with
  | ready hverdict =>
    have hpack := packPacket_response env.ecb (env.appkey p.request) errnum content
      hasked.length_appname
    obtain ⟨q, hq⟩ : ∃ q, p.respond env.ecb (env.appkey p.request) p.request [] errnum content = q :=
      ⟨_, rfl⟩
    have hexec : p.exec env server .send = some (server, q) := by
      simp only [exec, hone, htask, hs.running, if_true, hq]
    unfold respond at hq
    simp only [hpack] at hq
    refine Completes.step (e := .send) (?_ : Completes env Q server q _) (by rw [← hq]) trivial hexec
    subst hq
    refine complete_answered hcipher hW _ (Nat.le_refl _) (hasked.congr rfl rfl rfl rfl)
      (hverdict.congr rfl rfl rfl) hwait ?_ ?_
    · show p.downstream ++ frame _ ≠ []
      intro hnil
      have := congrArg List.length hnil
      rw [List.length_append, length_frame, List.length_nil] at this
      omega
    · show p.rspstr ++ (p.downstream ++ frame _) = frame _
      rw [h.rspstr hwait hdown, hdown]
      rfl

/-- A thread that has packed the answer. -/
theorem complete_packed (hcipher : env.ecb.Applies cipher) (hW : Workload env Q)
    (hs : server.Inv env Q) (h : p.Inv env Q server.store.served) (hwait : p.status = .waiting)
    {tree : KnvNode} (htask : p.thread.task = .packed tree) : Completes env Q server p 0 := by
  have hexec : p.exec env server (.store false) = some (server,
      { p with thread := { p.thread with task := .ready 0 tree.getStrVal } }) := by
    simp only [exec, htask]
    rw [if_pos hs.running]
    rfl
  obtain ⟨hs', _, h'⟩ := store_inv hs h hexec
  exact Completes.step (e := .store false) (complete_ready hcipher hW hs' h' hwait rfl) rfl trivial hexec

/-- The statement is one of those the server answers with a result. -/
structure Answerable (env : ProxyEnv) (p : Peer) : Prop where
  registered : mapAppKeys env.keys (cString p.mysql.appname) ≠ none
  read : isRead (skipSpaces p.sql) = true
  result : ∃ res columns, env.db (queryText p.sql) = .result res columns

/-- A thread that has not found the statement in the cache. -/
theorem complete_missed (hcipher : env.ecb.Applies cipher) (hW : Workload env Q)
    (hs : server.Inv env Q) (h : p.Inv env Q server.store.served) (hwait : p.status = .waiting)
    {reqstr : List UInt8} (htask : p.thread.task = .missed reqstr) :
    ∃ iRet, Completes env Q server p iRet ∧ (iRet = 0 ∨ iRet = -201) ∧
      (p.Answerable env → iRet = 0) := by
  obtain ⟨task, hfetch⟩ : ∃ task, env.fetch reqstr 0 (fun _ => .answered) = task := ⟨_, rfl⟩
  have hexec : p.exec env server (.fetch 0 fun _ => .answered) = some (server,
      { p with thread := { p.thread with task := task } }) := by
    simp only [exec, htask, hs.running, if_true, hfetch]
  have hal : p.Allowed env Q (.fetch 0 fun _ => .answered) := fun _ => trivial
  have h' := (fetch_inv hW h hal hexec).2
  have hsql : reqstr = p.sql := by
    obtain ⟨_, _, _, hok, _, _⟩ := h.stage.serves (.inr (by rw [htask]; exact Task.noConfusion))
    rw [htask] at hok
    cases hok
    rfl
  unfold ProxyEnv.fetch at hfetch
  split at hfetch
  · rename_i errnum content hloop
    subst hfetch
    refine ⟨resultOf errnum, Completes.step (complete_ready hcipher hW hs h' hwait rfl) rfl hal hexec,
      ?_, fun hans => ?_⟩
    · unfold resultOf
      split
      · exact .inl rfl
      · exact .inr rfl
    · -- a result is always packed
      obtain ⟨res, columns, hdb⟩ := hans.result
      obtain ⟨tree, _, hpack, _⟩ := packResult_packed res columns
        (getReqHashKey env.cfg (skipSpaces p.sql)) 0
      rw [hsql, max_try_num, fetchLoop, tryOnce, hdb] at hloop
      simp only [hpack] at hloop
      cases hloop
  · subst hfetch
    exact ⟨0, Completes.step (complete_packed hcipher hW hs h' hwait rfl) rfl hal hexec, .inl rfl,
      fun _ => rfl⟩

/-- A thread that has not looked at the request. -/
theorem complete_dispatched (hcipher : env.ecb.Applies cipher) (hW : Workload env Q)
    (hs : server.Inv env Q) (h : p.Inv env Q server.store.served) (hwait : p.status = .waiting)
    (hpackets : p.thread.packets = [p.request]) (htask : p.thread.task = .dispatched) :
    ∃ iRet, Completes env Q server p iRet ∧ (iRet = 0 ∨ iRet = -201) ∧
      (p.Answerable env → iRet = 0) := by
  obtain ⟨r, hr⟩ : ∃ r, env.beginRequest server.store p.request 0 true = r := ⟨_, rfl⟩
  have hexec : p.exec env server (.beginRequest 0 true) = some ({ server with store := r.1 },
      { p with thread := { p.thread with task := r.2 } }) := by
    simp only [exec, hpackets, htask, hs.running, if_true, hr]
  obtain ⟨hs', _, h'⟩ := beginRequest_inv hcipher hW hs h hexec
  have hbusy : p.thread.packets ≠ [] ∨ p.thread.task ≠ .dispatched :=
    .inl (by rw [hpackets]; exact List.cons_ne_nil _ _)
  obtain ⟨hasked, _, _, _, _, _⟩ := h.stage.serves hbusy
  obtain ⟨store, task⟩ := r
  have go : ∀ {iRet}, Completes env Q { server with store := store }
      { p with thread := { p.thread with task := task } } iRet → Completes env Q server p iRet :=
    fun hc => hc.step (e := .beginRequest 0 true) rfl trivial hexec
  cases task with
  | dispatched =>
    -- `Read` never leaves a request where it was
    exfalso
    unfold ProxyEnv.beginRequest ProxyEnv.readCache at hr
    split at hr
    · cases hr
    · split at hr
      · cases hr
      · split at hr
        · cases hr
        · simp only at hr
          split at hr
          · cases hr
          · cases hr
  | packed tree => exact ⟨0, go (complete_packed hcipher hW hs' h' hwait rfl), .inl rfl, fun _ => rfl⟩
  | missed reqstr =>
    obtain ⟨iRet, hc, hor, hzero⟩ := complete_missed hcipher hW hs' h' hwait (show _ = Task.missed reqstr from rfl)
    exact ⟨iRet, go hc, hor, fun hans => hzero ⟨hans.registered, hans.read, hans.result⟩⟩
  | ready errnum content =>
    refine ⟨resultOf errnum, go (complete_ready hcipher hW hs' h' hwait rfl), ?_, fun hans => ?_⟩
    · unfold resultOf
      split
      · exact .inl rfl
      · exact .inr rfl
    · -- the only answer without the database is one from the cache
      have hreg : mapAppKeys env.keys p.request.appname ≠ none := by
        rw [hasked.appname]
        exact hans.registered
      obtain ⟨key, hkey⟩ := Option.ne_none_iff_exists'.mp hreg
      obtain rfl : key = p.mysql.appkey := h.keyed key (by rw [← hasked.appname]; exact hkey)
      have hne : p.sql ≠ [] := by
        intro hnil
        have hread := hans.read
        rw [hnil] at hread
        exact absurd hread (by decide)
      have hb : env.beginRequest server.store p.request 0 true = env.readCache server.store p.sql 0 true := by
        rw [ProxyEnv.beginRequest, hkey]
        exact congrArg (env.readCache server.store · 0 true) (hasked.decrypt hcipher hW)
      rw [hb, ProxyEnv.readCache, if_neg hne, hans.read, if_neg (by exact Bool.false_ne_true)] at hr
      simp only at hr
      split at hr
      · cases hr
        rfl
      · cases hr

/-- A request on its way to the thread. -/
theorem complete_sent (hcipher : env.ecb.Applies cipher) (hW : Workload env Q)
    (hs : server.Inv env Q) (h : p.Inv env Q server.store.served) (hwait : p.status = .waiting)
    (hup : p.upstream ≠ []) :
    ∃ iRet, Completes env Q server p iRet ∧ (iRet = 0 ∨ iRet = -201) ∧
      (p.Answerable env → iRet = 0) := by
  have hmax : MAX_REQUEST_PACKET_LENGTH = 4112 := rfl
  have hbuf : Conn.RECV_BUFFER_SIZE = 65536 := rfl
  have huser : Conn.USER_SPACE_END = 2 ^ 47 := rfl
  cases h.stage with
  | quiet _ hnil _ => exact absurd hnil hup
  | serving _ _ _ hnil _ => exact absurd hnil hup
  | answered _ _ hnil _ _ _ => exact absurd hnil hup
  | @sent hasked reqstr hthread _ hbytes hdown =>
    have hsize := hasked.size
    have hpos := List.length_pos_iff.mpr hup
    rw [← hbytes, List.length_append] at hsize
    have htake : p.upstream.take p.upstream.length = p.upstream := List.take_length
    have haddr : 0 + (reqstr ++ p.upstream.take p.upstream.length).length ≤ Conn.USER_SPACE_END := by
      rw [htake, List.length_append]
      omega
    obtain ⟨_, hwhole⟩ := parsePacket_part (r := p.request) (f := []) (q := reqstr ++ p.upstream)
      (by rw [List.append_nil]; exact hbytes)
      (by
        have := hasked.size
        rw [length_frame] at this
        exact this) (show 0 + _ ≤ _ by rw [← htake]; exact haddr)
    obtain ⟨hmsgs, hres⟩ := hwhole rfl
    have hdisp : (parsePacket 0 (reqstr ++ p.upstream)).dispatched = [p.request] := by
      have hlen := hasked.size
      rw [length_frame] at hlen
      rw [Parse.dispatched, hmsgs, List.filterMap_cons,
        dispatch_message hasked.errnum (by omega)]
      rfl
    have hexec : p.exec env server (.threadRecv 0 p.upstream.length) = some (server,
        { p with upstream := [], thread := ⟨some [], [p.request], .dispatched⟩ }) := by
      simp only [exec, hthread]
      rw [if_pos ⟨hs.running, hpos, by omega, Nat.le_refl _, haddr⟩, htake, hres, hdisp,
        List.drop_length]
    have h' := (threadRecv_inv h hexec).2
    obtain ⟨iRet, hc, hor, hzero⟩ := complete_dispatched hcipher hW hs h' hwait rfl rfl
    exact ⟨iRet, hc.step (e := .threadRecv 0 p.upstream.length) rfl trivial hexec, hor,
      fun hans => hzero ⟨hans.registered, hans.read, hans.result⟩⟩

end Peer

namespace System

variable {ι : Type*} [DecidableEq ι] {env : ProxyEnv} {cipher : BlockCipher}
  {Q : List UInt8 → Prop} {s : System ι} {clients : ι → Mysql}

/-- Steps on a connection are steps of the system. -/
theorem run_of_peer {i : ι} {a b : Server × Peer}
    (hrun : Relation.ReflTransGen (Peer.PeerStep env Q) a b) (peers : ι → Peer) (hi : peers i = a.2) :
    Relation.ReflTransGen (Step env (Allowed env Q)) ⟨a.1, peers⟩
      ⟨b.1, Function.update peers i b.2⟩ := by
  induction hrun with
  | refl =>
    rw [← hi, Function.update_eq_self]
  | @tail b c _ hstep ih =>
    obtain ⟨e, hal, hexec⟩ := hstep
    refine ih.tail ⟨.peer i e, ?_, ?_⟩
    · show (Function.update peers i b.2 i).Allowed env Q e
      rw [Function.update_self]
      exact hal
    · show ((Function.update peers i b.2 i).exec env b.1 e).map _ = _
      rw [Function.update_self, hexec]
      show some (System.mk c.1 (Function.update (Function.update peers i b.2) i c.2)) = _
      rw [Function.update_idem]

/-- **A call that waits is completed by steps on its connection**, if something of it is under way. -/
theorem Inv.complete (hcipher : env.ecb.Applies cipher) (hW : Workload env Q) (h : s.Inv env Q) {i : ι}
    (hwait : (s.peers i).status = .waiting) (hbusy : ¬ (s.peers i).Quiet) :
    ∃ s' iRet, Relation.ReflTransGen (Step env (Allowed env Q)) s s' ∧
      (∀ j, j ≠ i → s'.peers j = s.peers j) ∧ (s'.peers i).status = .returned iRet ∧
      (s'.peers i).sql = (s.peers i).sql ∧ (iRet = 0 ∨ iRet = -201) ∧
      ((s.peers i).upstream ≠ [] → (s.peers i).Answerable env → iRet = 0) := by
  have lift : ∀ {iRet}, (s.peers i).Completes env Q s.server iRet →
      ∃ s', Relation.ReflTransGen (Step env (Allowed env Q)) s s' ∧
        (∀ j, j ≠ i → s'.peers j = s.peers j) ∧ (s'.peers i).status = .returned iRet ∧
        (s'.peers i).sql = (s.peers i).sql := by
    rintro iRet ⟨b, hrun, hst, hsql⟩
    refine ⟨_, run_of_peer hrun s.peers rfl, fun j hj => Function.update_of_ne hj _ _, ?_, ?_⟩
    · show (Function.update s.peers i b.2 i).status = _
      rw [Function.update_self]
      exact hst
    · show (Function.update s.peers i b.2 i).sql = _
      rw [Function.update_self]
      exact hsql
  have hp := h.peers i
  have hor : ∀ errnum, resultOf errnum = 0 ∨ resultOf errnum = -201 := by
    intro errnum
    unfold resultOf
    split
    · exact .inl rfl
    · exact .inr rfl
  cases hp.stage with
  | quiet hthread hup hdown =>
    refine absurd ⟨hup, ?_, ?_, hdown⟩ hbusy
    · rw [hthread]
      rfl
    · rw [hthread]
      rfl
  | sent _ _ hup _ _ =>
    obtain ⟨iRet, hc, hret, hzero⟩ := Peer.complete_sent hcipher hW h.server hp hwait hup
    obtain ⟨s', hrun, hframe, hst, hsql⟩ := lift hc
    exact ⟨s', iRet, hrun, hframe, hst, hsql, hret, fun _ => hzero⟩
  | answered hasked _ hup hverdict hdown hbytes =>
    obtain ⟨s', hrun, hframe, hst, hsql⟩ := lift (Peer.complete_answered hcipher hW _ (Nat.le_refl _)
      hasked hverdict hwait hdown (hbytes hwait))
    exact ⟨s', _, hrun, hframe, hst, hsql, hor _, fun hne => absurd hup hne⟩
  | @serving hasked task hthread htask hup hdown =>
    have hpackets : (s.peers i).thread.packets = [(s.peers i).request] := by rw [hthread]
    have hnone : (s.peers i).upstream ≠ [] → ∀ P : Prop, P := fun hne => absurd hup hne
    have htask' : (s.peers i).thread.task = task := by rw [hthread]
    cases task with
    | dispatched =>
      obtain ⟨iRet, hc, hret, _⟩ := Peer.complete_dispatched hcipher hW h.server hp hwait hpackets htask'
      obtain ⟨s', hrun, hframe, hst, hsql⟩ := lift hc
      exact ⟨s', iRet, hrun, hframe, hst, hsql, hret, fun hne => hnone hne _⟩
    | missed reqstr =>
      obtain ⟨iRet, hc, hret, _⟩ := Peer.complete_missed hcipher hW h.server hp hwait htask'
      obtain ⟨s', hrun, hframe, hst, hsql⟩ := lift hc
      exact ⟨s', iRet, hrun, hframe, hst, hsql, hret, fun hne => hnone hne _⟩
    | packed tree =>
      obtain ⟨s', hrun, hframe, hst, hsql⟩ := lift
        (Peer.complete_packed hcipher hW h.server hp hwait htask')
      exact ⟨s', 0, hrun, hframe, hst, hsql, .inl rfl, fun hne => hnone hne _⟩
    | ready errnum content =>
      obtain ⟨s', hrun, hframe, hst, hsql⟩ := lift
        (Peer.complete_ready hcipher hW h.server hp hwait htask')
      exact ⟨s', _, hrun, hframe, hst, hsql, hor _, fun hne => hnone hne _⟩

theorem cellKey_le : 128 ≤ 128 := Nat.le_refl 128

theorem cell_columns : 11 + ProxyState.oneCell.fields.length ≤ 2 ^ 32 := by decide

/-- A server with one application, and a database that answers everything with one cell. -/
def cellEnv : ProxyEnv where
  ecb := .ofCipher cipherOfAb
  cfg := ⟨128, 60, cellKey_le⟩
  keys := [([97], keyOfA)]
  db _ := .result ProxyState.oneCell cell_columns

def selectA : List UInt8 := textBytes "select a"

theorem cellApp_le : ([97, 0] : List UInt8).length ≤ 128 := by decide

/-- Clients of the application. -/
def cellClients (_ : Bool) : Mysql where
  appname := [97, 0]
  appname_le := cellApp_le
  appkey := keyOfA
  sequence := 0
  timeout_ms := 100
  current_query_context := none
  error := none

theorem cellEnv_workload : Workload cellEnv (· = selectA) where
  apart _ _ ha hb _ := by rw [ha, hb]
  answer _ _ := by
    refine ⟨by decide, by decide, fun reqkey time tree hpack => ?_⟩
    have hle := evaluateSize_packResult_le rfl (by decide) hpack
    refine Int.le_trans (Int.add_le_add_right hle 512) ?_
    decide
  length a ha := by
    rw [ha]
    decide

theorem cellEnv_configured : Configured cellEnv cellClients := by
  intro _ key hkey
  have hone : mapAppKeys cellEnv.keys [97] = some keyOfA := by decide
  exact Option.some.inj (hkey.symm.trans hone)

/-- One of them asks. -/
theorem cellEnv_asked : ∃ s : System Bool,
    Relation.ReflTransGen (Step cellEnv (Allowed cellEnv (· = selectA))) (started cellClients) s ∧
      (s.peers true).status = .waiting ∧ (s.peers true).sql = selectA ∧
      (s.peers true).upstream ≠ [] ∧ (s.peers true).Answerable cellEnv := by
  obtain ⟨p, hp⟩ : ∃ p, (Peer.connected (cellClients true)).startQuery cellEnv.ecb selectA .sent = p :=
    ⟨_, rfl⟩
  have hstep : Step cellEnv (Allowed cellEnv (· = selectA)) (started cellClients)
      ⟨⟨ProxyState.init, true⟩, Function.update (started cellClients).peers true p⟩ := by
    refine ⟨.peer true (.query selectA .sent), ⟨⟨rfl, rfl, rfl, rfl⟩, rfl, by decide +kernel⟩, ?_⟩
    have hnot : ¬((Peer.connected (cellClients true)).status = .waiting ∨
        (Peer.connected (cellClients true)).status = .threw) := by decide
    have hexec : (Peer.connected (cellClients true)).exec cellEnv ⟨ProxyState.init, true⟩
        (.query selectA .sent) = some (⟨ProxyState.init, true⟩, p) := by
      rw [Peer.exec, if_neg hnot, hp]
    exact congrArg (Option.map fun r => (⟨r.1, Function.update (started cellClients).peers true r.2⟩ :
      System Bool)) hexec
  refine ⟨_, .single hstep, ?_⟩
  show (Function.update (started cellClients).peers true p true).status = _ ∧
    (Function.update (started cellClients).peers true p true).sql = _ ∧
    (Function.update (started cellClients).peers true p true).upstream ≠ [] ∧
    (Function.update (started cellClients).peers true p true).Answerable cellEnv
  rw [Function.update_self]
  unfold Peer.startQuery at hp
  simp only [Peer.sendRequest_packet] at hp
  subst hp
  refine ⟨rfl, rfl, ?_, ?_, rfl, ProxyState.oneCell, by decide, rfl⟩
  · exact fun hnil => by
      have := congrArg List.length hnil
      rw [List.length_append, length_frame, List.length_nil] at this
      omega
  · decide

end System

end MysqlProxy
