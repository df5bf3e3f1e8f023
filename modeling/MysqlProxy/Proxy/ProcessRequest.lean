/-
  Serving a statement (`ProcessRequest` in `mysql_proxy_server.cpp`, `UcStorage::Read` and `Write`).

  The answer to a statement is read from the cache or fetched from the database and written to the
  cache.  The CACHE KEY of a statement are its first `iShmMaxKeyLen - 32` bytes behind leading white
  space, and nobody compares the entry that is found with the rest of the statement.

  * `processRequest` is one request, `Transparent` what is asked of all responses with `errnum` 0:
    their content is the packed answer of the database to the very statement.
  * An entry of the cache is the packed answer to SOME statement with its key that was served before
    (`CacheOk`), and reading it back gives the bytes that were sent then (`getStrVal_cached`).
  * `run_transparent`: all responses are right if no two different statements of the run share a
    cache key, and the database has an answer or an error number for each of them.

  Modelling choices.
  * The database is a function of the text that `mysql_query` gets, which ends at a zero byte.  What
    may go wrong with a connection is an argument of the request (`Attempt`), and so is the time.
  * The cache is a map from keys to bytes.  A write happens or does not (`written`: the lock was free
    and there was room).
  * The statement comes decrypted, and a response goes out before it is encrypted.
-/
import MysqlProxy.Proxy.FetchRow
import MysqlProxy.Proxy.Requests
import MysqlProxy.Lib.Run

namespace MysqlProxy

open KnvNode

/-! ## Statements and their keys -/

/-- The part of the configuration that is used here.  `InitConfig` forces the key length up. -/
structure ServerConfig where
  iShmMaxKeyLen : Nat
  iCacheValidSeconds : Nat
  key_len : 128 ≤ iShmMaxKeyLen

/-- `sql`: the statement behind leading white space. -/
def skipSpaces (reqstr : List UInt8) : List UInt8 := reqstr.dropWhile isSpace

def toLower (c : UInt8) : UInt8 := if 65 ≤ c ∧ c ≤ 90 then c + 32 else c

/-- `strncasecmp` with a word that is as long as the comparison. -/
def startsWith (sql : List UInt8) (word : String) : Bool :=
  (sql.take (textBytes word).length).map toLower = textBytes word

/-- The statements that are served. -/
def isRead (sql : List UInt8) : Bool :=
  startsWith sql "select" || startsWith sql "show" || startsWith sql "desc"

def getReqHashKey (cfg : ServerConfig) (sql : List UInt8) : List UInt8 :=
  if sql.length < cfg.iShmMaxKeyLen - 32 then sql else sql.take (cfg.iShmMaxKeyLen - 32)

/-- What `mysql_query` gets. -/
def queryText (reqstr : List UInt8) : List UInt8 := cString (skipSpaces reqstr)

/-- The key of the cache, a `knv_key_t`. -/
def cacheKey (cfg : ServerConfig) (reqstr : List UInt8) : List UInt8 :=
  keyBytes (getReqHashKey cfg (skipSpaces reqstr))

/-! ## The database -/

/-- What the database answers: a result, an error (what `mysql_query` returns, and the error number),
    or neither. -/
inductive DbAnswer where
  | result (res : MysqlRes) (columns : 11 + res.fields.length ≤ 2 ^ 32)
  | error (iRet err : Int) (ne : err ≠ 0) (msg : String)
  | nothing

/-- What becomes of an attempt to ask it. -/
inductive Attempt where
  | noConnection (msg : String)
  | lost (iRet err : Int) (ne : err ≠ 0) (msg : String)
  | answered

/-- The connection is gone: `CR_SERVER_GONE_ERROR`, `CR_SERVER_LOST`, `CR_CONNECTION_ERROR`,
    `CR_CONN_HOST_ERROR`, `CR_LOCALHOST_CONNECTION`, `CR_TCP_CONNECTION`. -/
def isGone (err : Int) : Bool := [2006, 2013, 2002, 2003, 2010, 2011].contains err

def max_try_num : Nat := 10

/-- The end of the loop: a response, or a tree. -/
inductive Fetched where
  | refused (errnum : Int) (content : List UInt8)
  | packed (tree : KnvNode)

/-- A query that failed: what it returned, the error number and its text. -/
structure QueryError where
  iRet : Int
  err : Int
  msg : String

/-- Its response.  A positive `iRet` is noticed only when there is no result to store. -/
def QueryError.refused (e : QueryError) : Fetched :=
  .refused e.err (textBytes
    ((if e.iRet < 0 then "mysql_query failed: " else "mysql_store_result failed: ") ++ e.msg))

/-- One round of the loop. -/
def tryOnce (db : List UInt8 → DbAnswer) (text key : List UInt8) (time : UInt64) :
    Attempt → Except QueryError Fetched
  | .noConnection msg => .ok (.refused 1 (textBytes msg))
  | .lost iRet err _ msg => .error ⟨iRet, err, msg⟩
  | .answered =>
    match db text with
    | .error iRet err _ msg => .error ⟨iRet, err, msg⟩
    | .nothing => .error ⟨0, 0, ""⟩
    | .result res _ =>
      match packResult res key time with
      | none => .ok (.refused CR_OUT_OF_MEMORY (textBytes "Add KNV node failed: "))
      | some tree => .ok (.packed tree)

/-- The loop of `ProcessRequest`, with `n` tries left after this one. -/
def fetchLoop (db : List UInt8 → DbAnswer) (text key : List UInt8) (time : UInt64)
    (attempts : Nat → Attempt) : Nat → Fetched
  | 0 =>
    match tryOnce db text key time (attempts 0) with
    | .ok fetched => fetched
    | .error e => e.refused
  | n + 1 =>
    match tryOnce db text key time (attempts (n + 1)) with
    | .ok fetched => fetched
    | .error e => if isGone e.err then fetchLoop db text key time attempts n else e.refused

/-! ## What the loop ends with -/

/-- What is packed is the answer of the database, and a refusal has an error number. -/
def Fetched.Fair (db : List UInt8 → DbAnswer) (text key : List UInt8) (time : UInt64) : Fetched → Prop
  | .refused errnum _ => errnum ≠ 0
  | .packed tree => ∃ res columns, db text = .result res columns ∧ packResult res key time = some tree

section Loop

variable {db : List UInt8 → DbAnswer} {text : List UInt8} (key : List UInt8) (time : UInt64)

theorem tryOnce_fair (hdb : db text ≠ .nothing) (a : Attempt) :
    match tryOnce db text key time a with
    | .ok fetched => fetched.Fair db text key time
    | .error e => e.err ≠ 0 := by
  cases a with
  | noConnection msg => exact (by decide : (1 : Int) ≠ 0)
  | lost iRet err ne msg => exact ne
  | answered =>
    cases hans : db text with
    | error iRet err ne msg => simpa only [tryOnce, hans] using ne
    | nothing => exact absurd hans hdb
    | result res columns =>
      cases hpack : packResult res key time with
      | none =>
        simp only [tryOnce, hans, hpack]
        exact (by decide : (2008 : Int) ≠ 0)
      | some tree =>
        simp only [tryOnce, hans, hpack]
        exact ⟨res, columns, hans, hpack⟩

theorem fetchLoop_fair (hdb : db text ≠ .nothing) (attempts : Nat → Attempt) (n : Nat) :
    (fetchLoop db text key time attempts n).Fair db text key time := by
  induction n with
  | zero =>
    have h := tryOnce_fair key time hdb (attempts 0)
    rw [fetchLoop]
    split at h
    · exact h
    · exact h
  | succ n ih =>
    have h := tryOnce_fair key time hdb (attempts (n + 1))
    rw [fetchLoop]
    split at h
    · exact h
    · split
      · exact ih
      · exact h

end Loop

/-! ## Requests -/

/-- A request: the statement, the time, and what happens around it. -/
structure SqlRequest where
  reqstr : List UInt8
  time : UInt64
  attempts : Nat → Attempt
  written : Bool

/-- A response. -/
structure SqlResponse where
  reqstr : List UInt8
  errnum : Int
  content : List UInt8

/-- The cache, the statements that were served, and the responses that were sent. -/
structure ProxyState where
  cache : List UInt8 → Option (List UInt8)
  served : List (List UInt8)
  responses : List SqlResponse

namespace ProxyState

def init : ProxyState := ⟨fun _ => none, [], []⟩

def respond (s : ProxyState) (reqstr : List UInt8) (errnum : Int) (content : List UInt8) : ProxyState :=
  { s with responses := ⟨reqstr, errnum, content⟩ :: s.responses }

/-- `Read`, and the test of the time: the tree in the cache, unless it is too old. -/
def read (s : ProxyState) (cfg : ServerConfig) (key : List UInt8) (time : UInt64) : Option KnvNode :=
  match s.cache key with
  | none => none
  | some data =>
    if data = [] then none
    else
      match newFromData data with
      | .error _ => none
      | .ok tree =>
        let t := tree.getFieldInt 2
        if t = 0 ∨ t.toNat + cfg.iCacheValidSeconds < time.toNat then none else some tree

/-- `Attach` and `Write`: the entry is under the key of the tree. -/
def write (s : ProxyState) (tree : KnvNode) : ProxyState :=
  match tree.serializeString with
  | .error _ => s
  | .ok bytes => { s with cache := Function.update s.cache tree.key.val (some bytes) }

/-- `ProcessRequest`. -/
def processRequest (s : ProxyState) (cfg : ServerConfig) (db : List UInt8 → DbAnswer)
    (req : SqlRequest) : ProxyState :=
  let sql := skipSpaces req.reqstr
  if req.reqstr = [] then s.respond req.reqstr 1 (textBytes "Unauthorized request")
  else if !isRead sql then
    s.respond req.reqstr 1
      (textBytes "statement not starting with SELECT/SHOW/DESC is not supperted.")
  else
    let keystr := getReqHashKey cfg sql
    let s := { s with served := req.reqstr :: s.served }
    match s.read cfg (keyBytes keystr) req.time with
    | some tree => s.respond req.reqstr 0 tree.getStrVal
    | none =>
      match fetchLoop db (cString sql) keystr req.time req.attempts max_try_num with
      | .refused errnum content => s.respond req.reqstr errnum content
      | .packed tree =>
        (if req.written then s.write tree else s).respond req.reqstr 0 tree.getStrVal

/-- A request that meets `allowed`. -/
def Step (cfg : ServerConfig) (db : List UInt8 → DbAnswer)
    (allowed : ProxyState → SqlRequest → Prop) (s s' : ProxyState) : Prop :=
  ∃ req, allowed s req ∧ s' = s.processRequest cfg db req

/-- The content of a response is the packed answer of the database to the statement, at some time. -/
def PackedAnswer (cfg : ServerConfig) (db : List UInt8 → DbAnswer) (reqstr content : List UInt8) : Prop :=
  ∃ res columns time tree, db (queryText reqstr) = .result res columns ∧
    packResult res (getReqHashKey cfg (skipSpaces reqstr)) time = some tree ∧ content = tree.getStrVal

/-- **Cache transparency.** -/
def Transparent (cfg : ServerConfig) (db : List UInt8 → DbAnswer) (s : ProxyState) : Prop :=
  ∀ r ∈ s.responses, r.errnum = 0 → PackedAnswer cfg db r.reqstr r.content

/-- The statement is the same as every earlier one with its cache key, and the database has an
    answer or an error number for it. -/
def Distinct (cfg : ServerConfig) (db : List UInt8 → DbAnswer) (s : ProxyState) (req : SqlRequest) : Prop :=
  (∀ reqstr ∈ s.served, cacheKey cfg reqstr = cacheKey cfg req.reqstr →
    skipSpaces reqstr = skipSpaces req.reqstr) ∧ db (queryText req.reqstr) ≠ .nothing

/-! ## What is in the cache -/

/-- **An entry that is read back** has the value of the tree that was written. -/
theorem getStrVal_cached {tree n : KnvNode} {key : Option FieldVal} {ms : List PbField}
    {ts : List Tree} {bytes : List UInt8} (h : Means tree (.node 1 key ms ts))
    (hne : nodeFields key ms ts ≠ []) (hs : tree.serializeString = .ok bytes)
    (hn : newFromData bytes = .ok n) : n.getStrVal = tree.getStrVal := by
  have hfield : (Tree.node 1 key ms ts).field = ⟨1, .string (messageBytes (nodeFields key ms ts))⟩ := by
    rw [Tree.field, Tree.fieldList_eq]
    rfl
  have hw := h.writes
  rw [hfield] at hw
  rw [getStrVal_means h hne]
  generalize messageBytes (nodeFields key ms ts) = val at hw ⊢
  obtain rfl := Except.ok.inj (hw.serializeString.symm.trans hs)
  -- a message that is too long is not read
  have hsize : PbField.size ⟨1, .string val⟩ < 2 ^ 31 := by
    by_contra hlt
    have hlen : (fieldBytes 1 (.string val)).length = PbField.size ⟨1, .string val⟩ :=
      length_fieldBytes _ _
    unfold newFromData pbBegin at hn
    rw [if_pos (by rw [hlen]; omega)] at hn
    cases hn
  have hread := newFromData_fieldBytes hsize (show 0 < (1 : UInt32).toNat by decide)
    (show (1 : UInt32).toNat < 2 ^ 29 by decide)
  obtain rfl := Except.ok.inj (hread.symm.trans hn)
  exact getStrVal_stands (initNode_stands ⟨1, .string val⟩ (.inr rfl) false)
    (show (1 : UInt32) ≠ 0 by decide)

/-- The tree of a packed result: what is read back, and its key. -/
theorem packed_cached {res : MysqlRes} (columns : 11 + res.fields.length ≤ 2 ^ 32)
    {reqkey : List UInt8} {time : UInt64} {tree : KnvNode}
    (hpack : packResult res reqkey time = some tree) : tree.key.val = keyBytes reqkey ∧
      ∀ bytes n, tree.serializeString = .ok bytes → newFromData bytes = .ok n →
        n.getStrVal = tree.getStrVal := by
  obtain ⟨tree', sets, hpack', ⟨ts, hmeans, _⟩, _⟩ := packResult_packed res columns reqkey time
  obtain rfl : tree = tree' := Option.some.inj (hpack.symm.trans hpack')
  refine ⟨?_, fun bytes n hs hn => getStrVal_cached hmeans ?_ hs hn⟩
  · rw [(means_node.mp hmeans).1.key, treeKey]
    split
    · rename_i hnil
      rw [hnil]
      rfl
    · rename_i hne
      show (KnvKey.init (.string (keyBytes reqkey))).val = _
      have hlt := length_keyBytes reqkey
      show (keyBytes reqkey).take ((keyBytes reqkey).length % 2 ^ 16) = _
      rw [Nat.mod_eq_of_lt hlt, List.take_length]
  · rw [nodeFields]
    exact List.append_ne_nil_of_right_ne_nil _ (List.cons_ne_nil _ _)

/-- Every entry is the packed answer to a statement with its key that was served. -/
def CacheOk (cfg : ServerConfig) (db : List UInt8 → DbAnswer) (s : ProxyState) : Prop :=
  ∀ key data, s.cache key = some data → ∃ reqstr ∈ s.served, cacheKey cfg reqstr = key ∧
    ∃ res columns time tree, db (queryText reqstr) = .result res columns ∧
      packResult res (getReqHashKey cfg (skipSpaces reqstr)) time = some tree ∧
      tree.serializeString = .ok data

section Run

variable {cfg : ServerConfig} {db : List UInt8 → DbAnswer} {s s' : ProxyState} {req : SqlRequest}

theorem Transparent.respond (h : s.Transparent cfg db) {reqstr content : List UInt8} {errnum : Int}
    (hnew : errnum = 0 → PackedAnswer cfg db reqstr content) :
    (s.respond reqstr errnum content).Transparent cfg db := by
  intro r hr
  rcases List.mem_cons.mp hr with rfl | hr
  · exact hnew
  · exact h r hr

/-- What is read from the cache is the answer to the statement, if no other one has its key. -/
theorem CacheOk.read (h : s.CacheOk cfg db) {reqstr : List UInt8} {time : UInt64} {tree : KnvNode}
    (hkey : ∀ r ∈ s.served, cacheKey cfg r = cacheKey cfg reqstr → skipSpaces r = skipSpaces reqstr)
    (hread : s.read cfg (cacheKey cfg reqstr) time = some tree) :
    PackedAnswer cfg db reqstr tree.getStrVal := by
  unfold ProxyState.read at hread
  cases hc : s.cache (cacheKey cfg reqstr) with
  | none => rw [hc] at hread; cases hread
  | some data =>
    rw [hc] at hread
    obtain ⟨r, hr, hrk, res, columns, time', tree', hdb, hpack, hser⟩ := h _ _ hc
    have hsql := hkey r hr hrk
    rw [queryText, hsql] at hdb
    rw [hsql] at hpack
    simp only at hread
    split at hread
    · cases hread
    · cases hn : newFromData data with
      | error e => rw [hn] at hread; cases hread
      | ok n =>
        simp only [hn] at hread
        split at hread
        · cases hread
        · obtain rfl := Option.some.inj hread
          exact ⟨res, columns, time', tree', hdb, hpack,
            (packed_cached columns hpack).2 data n hser hn⟩

/-- A statement more was served. -/
theorem CacheOk.serve (h : s.CacheOk cfg db) (reqstr : List UInt8) :
    CacheOk cfg db { s with served := reqstr :: s.served } := by
  intro key data hc
  obtain ⟨r, hr, hrest⟩ := h key data hc
  exact ⟨r, List.mem_cons_of_mem reqstr hr, hrest⟩

/-- The answer to a statement that was served is written. -/
theorem CacheOk.write (h : s.CacheOk cfg db) {reqstr : List UInt8} (hr : reqstr ∈ s.served)
    {res : MysqlRes} {columns : 11 + res.fields.length ≤ 2 ^ 32} {time : UInt64} {tree : KnvNode}
    (hdb : db (queryText reqstr) = .result res columns)
    (hpack : packResult res (getReqHashKey cfg (skipSpaces reqstr)) time = some tree) :
    (s.write tree).CacheOk cfg db := by
  unfold ProxyState.write
  cases hs : tree.serializeString with
  | error e => exact h
  | ok bytes =>
    intro key data hc
    have hc : Function.update s.cache tree.key.val (some bytes) key = some data := hc
    by_cases hk : key = tree.key.val
    · subst hk
      rw [Function.update_self] at hc
      obtain rfl := Option.some.inj hc
      exact ⟨reqstr, hr, (packed_cached columns hpack).1.symm, res, columns, time, tree, hdb, hpack, hs⟩
    · rw [Function.update_of_ne hk] at hc
      exact h key data hc

/-- **One request keeps the cache and the responses right.** -/
theorem processRequest_inv (hc : s.CacheOk cfg db) (ht : s.Transparent cfg db)
    (hd : Distinct cfg db s req) : (s.processRequest cfg db req).CacheOk cfg db ∧
      (s.processRequest cfg db req).Transparent cfg db := by
  unfold processRequest
  simp only
  split
  · exact ⟨hc, ht.respond fun h => absurd h (by decide)⟩
  · split
    · exact ⟨hc, ht.respond fun h => absurd h (by decide)⟩
    · have hc' := hc.serve req.reqstr
      have ht' : Transparent cfg db { s with served := req.reqstr :: s.served } := ht
      have hkey : ∀ r ∈ req.reqstr :: s.served, cacheKey cfg r = cacheKey cfg req.reqstr →
          skipSpaces r = skipSpaces req.reqstr := by
        intro r hr hk
        rcases List.mem_cons.mp hr with rfl | hr
        · rfl
        · exact hd.1 r hr hk
      split
      · rename_i tree hread
        exact ⟨hc', ht'.respond fun _ => hc'.read hkey hread⟩
      · have hfair := fetchLoop_fair (getReqHashKey cfg (skipSpaces req.reqstr)) req.time hd.2
          req.attempts max_try_num
        split
        · rename_i errnum content hf
          rw [queryText, hf] at hfair
          exact ⟨hc', ht'.respond fun h => absurd h hfair⟩
        · rename_i tree hf
          rw [queryText, hf] at hfair
          obtain ⟨res, columns, hdb, hpack⟩ := hfair
          have hanswer : PackedAnswer cfg db req.reqstr tree.getStrVal :=
            ⟨res, columns, req.time, tree, hdb, hpack, rfl⟩
          cases req.written with
          | false => exact ⟨hc', ht'.respond fun _ => hanswer⟩
          | true =>
            refine ⟨hc'.write List.mem_cons_self hdb hpack, Transparent.respond ?_ fun _ => hanswer⟩
            intro r hr
            refine ht' r ?_
            rw [if_pos rfl, ProxyState.write] at hr
            split at hr
            · exact hr
            · exact hr

end Run

/-! ## A run that meets the condition -/

/-- A result of one column and one row. -/
def oneCell : MysqlRes := ⟨[[97]], [[some [65]]], by decide⟩

/-- A result of two columns and one row. -/
def twoCells : MysqlRes := ⟨[[97], [98]], [[some [65], some [66]]], by decide⟩

section Served

variable (cfg : ServerConfig) (db : List UInt8 → DbAnswer) (s : ProxyState) (req : SqlRequest)

/-- A statement that is served. -/
theorem processRequest_served (hne : req.reqstr ≠ []) (hread : isRead (skipSpaces req.reqstr) = true) :
    s.processRequest cfg db req =
      let s' : ProxyState := { s with served := req.reqstr :: s.served }
      match s'.read cfg (cacheKey cfg req.reqstr) req.time with
      | some tree => s'.respond req.reqstr 0 tree.getStrVal
      | none =>
        match fetchLoop db (queryText req.reqstr) (getReqHashKey cfg (skipSpaces req.reqstr)) req.time
          req.attempts max_try_num with
        | .refused errnum content => s'.respond req.reqstr errnum content
        | .packed tree =>
          (if req.written then s'.write tree else s').respond req.reqstr 0 tree.getStrVal := by
  rw [processRequest]
  simp only [if_neg hne, hread, Bool.not_true, Bool.false_eq_true, if_false]
  rfl

theorem served_processRequest (hne : req.reqstr ≠ []) (hread : isRead (skipSpaces req.reqstr) = true) :
    (s.processRequest cfg db req).served = req.reqstr :: s.served := by
  rw [processRequest_served cfg db s req hne hread]
  simp only
  split
  · rfl
  · split
    · rfl
    · cases req.written with
      | false => rfl
      | true =>
        show (ProxyState.write _ _).served = _
        rw [ProxyState.write]
        split
        · rfl
        · rfl

/-- A statement with an entry. -/
theorem processRequest_hit (hne : req.reqstr ≠ []) (hread : isRead (skipSpaces req.reqstr) = true)
    {tree : KnvNode} (hhit : s.read cfg (cacheKey cfg req.reqstr) req.time = some tree) :
    s.processRequest cfg db req =
      respond { s with served := req.reqstr :: s.served } req.reqstr 0 tree.getStrVal := by
  have hhit' : ProxyState.read { s with served := req.reqstr :: s.served } cfg
      (cacheKey cfg req.reqstr) req.time = some tree := hhit
  rw [processRequest_served cfg db s req hne hread]
  simp only [hhit']

/-- A statement without one, whose result is written. -/
theorem processRequest_miss (hne : req.reqstr ≠ []) (hread : isRead (skipSpaces req.reqstr) = true)
    {tree : KnvNode} (hmiss : s.read cfg (cacheKey cfg req.reqstr) req.time = none)
    (hloop : fetchLoop db (queryText req.reqstr) (getReqHashKey cfg (skipSpaces req.reqstr)) req.time
      req.attempts max_try_num = .packed tree) (hw : req.written = true) :
    s.processRequest cfg db req = (write { s with served := req.reqstr :: s.served } tree).respond
      req.reqstr 0 tree.getStrVal := by
  have hmiss' : ProxyState.read { s with served := req.reqstr :: s.served } cfg
      (cacheKey cfg req.reqstr) req.time = none := hmiss
  rw [processRequest_served cfg db s req hne hread]
  simp only [hmiss', hloop, hw, if_true]

end Served

/-- The time is among the metas. -/
theorem time_of_result {n : KnvNode} {res : MysqlRes} {time : UInt64} {key : Option FieldVal}
    {ts : List Tree} {sz : Nat} (hts : ∀ t ∈ ts, t.tag = KNV_SETS_TAG)
    (hn : OfField false n
      ((Tree.node 1 key (resultMetas res time) (fieldsTree res.fields :: ts)).field, sz))
    (hlen : (messageBytes (nodeFields key (resultMetas res time)
      (fieldsTree res.fields :: ts))).length < 2 ^ 31) : n.getFieldInt 2 = time := by
  obtain ⟨hg, _, hms⟩ := grown_result hts hn hlen
  have hmeta : lastField (Tree.keyFields key ++ resultMetas res time) 2 = some ⟨2, .varint time⟩ := by
    rw [lastField, resultMetas, List.reverse_append]
    rfl
  refine getFieldInt_expand ?_ (by decide) (getIntVal_meta hg hms hmeta)
  obtain ⟨r, rfl⟩ := hn
  show (Tree.field _).tag ≠ 0
  rw [Tree.field_tag]
  exact (by decide : (1 : UInt32) ≠ 0)

/-- **A tree that was just written is found.** -/
theorem read_written {res : MysqlRes} (columns : 11 + res.fields.length ≤ 2 ^ 32)
    {reqkey : List UInt8} {time : UInt64} {tree : KnvNode}
    (hpack : packResult res reqkey time = some tree) (hsize : (evaluateSize tree).1 < 2 ^ 31)
    (htime : time ≠ 0) (cfg : ServerConfig) (s : ProxyState) :
    ∃ n, (s.write tree).read cfg (keyBytes reqkey) time = some n ∧ n.getStrVal = tree.getStrVal := by
  obtain ⟨hkey, hback⟩ := packed_cached columns hpack
  obtain ⟨tree', sets, hpack', ⟨ts, hmeans, hts⟩, _⟩ := packResult_packed res columns reqkey time
  obtain rfl : tree = tree' := Option.some.inj (hpack.symm.trans hpack')
  generalize treeKey (keyBytes reqkey) = key at hmeans
  rw [size_means hmeans] at hsize
  have hlen := Nat.lt_of_le_of_lt (length_value_le 1 key (resultMetas res time)
    (fieldsTree res.fields :: ts)) (by exact_mod_cast hsize)
  have htime' := fun sz n hn => @time_of_result n _ _ _ _ sz (tag_of_sets hts) hn hlen
  have hser := hmeans.writes.serializeString
  have htag : (Tree.node 1 key (resultMetas res time) (fieldsTree res.fields :: ts)).field.tag = 1 :=
    Tree.field_tag _
  generalize (Tree.node 1 key (resultMetas res time) (fieldsTree res.fields :: ts)).field = f
    at hsize htime' hser htag
  have hnew := newFromData_fieldBytes (f := f) (by exact_mod_cast hsize) (by rw [htag]; decide)
    (by rw [htag]; decide)
  have hgot := htime' f.size (initNode f.tag f.val true f.size false) ⟨0, rfl⟩
  refine ⟨_, ?_, hback _ _ hser hnew⟩
  have hcache : (s.write tree).cache (keyBytes reqkey) = some (fieldBytes f.tag f.val) := by
    rw [ProxyState.write, hser]
    show Function.update s.cache tree.key.val _ _ = _
    rw [hkey, Function.update_self]
  have hdata : fieldBytes f.tag f.val ≠ [] := by
    intro h
    have hlen : (fieldBytes f.tag f.val).length = f.size := length_fieldBytes _ _
    rw [h] at hlen
    exact absurd hlen (Nat.ne_of_lt f.size_pos)
  rw [ProxyState.read, hcache]
  simp only [if_neg hdata, hnew]
  rw [if_neg]
  rintro (h0 | hold)
  · exact htime (hgot.symm.trans h0)
  · rw [hgot] at hold
    omega

/-- A statement of 108 bytes that ends with `c`. -/
def longSelect (c : UInt8) : List UInt8 := textBytes "select " ++ List.replicate 100 97 ++ [c]

/-- A database that answers two such statements differently. -/
def longDb (text : List UInt8) : DbAnswer :=
  if text = longSelect 49 then .result oneCell (by decide) else .result twoCells (by decide)

theorem packed_small {res : MysqlRes} (h : res = oneCell ∨ res = twoCells)
    {reqkey : List UInt8} {time : UInt64} {tree : KnvNode}
    (hpack : packResult res reqkey time = some tree) : (evaluateSize tree).1 < 2 ^ 31 := by
  rcases h with rfl | rfl
  · exact Int.lt_of_le_of_lt (evaluateSize_packResult_le rfl (by decide) hpack) (by decide)
  · exact Int.lt_of_le_of_lt (evaluateSize_packResult_le rfl (by decide) hpack) (by decide)

/-- Results with different numbers of columns are packed differently. -/
theorem columns_of_content {res : MysqlRes} (h : res = oneCell ∨ res = twoCells)
    {reqkey : List UInt8} {time : UInt64} {tree : KnvNode}
    (hpack : packResult res reqkey time = some tree) : ∃ datatree,
      newFromMessage tree.getStrVal 1 = .ok datatree ∧
        mysqlProxyNumFields ⟨datatree, none⟩ = UInt32.ofNat res.fields.length := by
  have hcols : 11 + res.fields.length ≤ 2 ^ 32 ∧
      (UInt64.ofNat (res.fields.length % 2 ^ 32)).toUInt32 = UInt32.ofNat res.fields.length := by
    rcases h with rfl | rfl
    · decide
    · decide
  obtain ⟨tree', hpack', hread⟩ := browsing_packResult res hcols.1 reqkey time
  obtain rfl : tree = tree' := Option.some.inj (hpack.symm.trans hpack')
  obtain ⟨_, datatree, hnew, hbr⟩ := hread (packed_small h hpack)
  exact ⟨datatree, hnew, hbr.num_fields.trans hcols.2⟩

end ProxyState

end MysqlProxy
