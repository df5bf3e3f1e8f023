/-
  The proxy on its shared memory.

  In `System` the cache is a map, of which entries may go away.  Here it is the table itself:
  `ProcessRequest` reads it through `UcStorage::Read`, and writes it through `Attach`, `TryLockShm` and
  `Write`.  Reading changes access times, writing evicts, and a write may be given up.

  * `TableSystem.Step` are the steps of the clients and the threads on the table.
  * `Covers`: the map of a `System` has what is read from the table, and may have more.  Each step of
    the `TableSystem` is then a step of the `System`, in which a read fails where the table has
    forgotten the entry (`step_refines`).
  * `run_outcome_table`: so the clients of the real cache get what the clients of the map get.

  What is asked of the table is that it has room for the keys, and that no write makes its block store
  overrun.
-/
import MysqlProxy.Lib.Refine
import MysqlProxy.Proxy.SessionRun
import MysqlProxy.Storage.UcStorage

namespace MysqlProxy

open KnvNode

/-! ## The server -/

/-- The table, the statements that were served, and whether the process runs. -/
structure TableServer where
  table : MultiHashTable
  served : List (List UInt8)
  running : Bool

namespace ProxyEnv

variable (env : ProxyEnv)

/-- `Read`, and the test of the time. -/
def readStorage (t : MultiHashTable) (key : List UInt8) (time : UInt64) (call : ReadCall) :
    Option KnvNode × MultiHashTable :=
  let (ret, st, t) := (UcStorage.new key).read t call
  if 0 ≤ ret then
    match st.tree with
    | none => (none, t)
    | some tree =>
      let accessed := tree.getFieldInt 2
      if accessed = 0 ∨ accessed.toNat + env.cfg.iCacheValidSeconds < time.toNat then (none, t)
      else (some tree, t)
  else (none, t)

/-- `ProcessRequest` from the decrypted statement up to `Read`. -/
def readTable (server : TableServer) (reqstr : List UInt8) (time : UInt64) (call : ReadCall) :
    TableServer × Task :=
  if reqstr = [] then (server, .ready 1 (textBytes "Unauthorized request"))
  else if !isRead (skipSpaces reqstr) then
    (server, .ready 1 (textBytes "statement not starting with SELECT/SHOW/DESC is not supperted."))
  else
    let r := env.readStorage server.table (cacheKey env.cfg reqstr) time call
    ({ server with table := r.2, served := reqstr :: server.served },
      match r.1 with
      | some tree => .ready 0 tree.getStrVal
      | none => .missed reqstr)

/-- `ParsePacket` behind `NewFromMessage`, and `ProcessRequest` up to `Read`. -/
def beginTableRequest (server : TableServer) (stRequest : ProxyPacket) (time : UInt64)
    (call : ReadCall) : TableServer × Task :=
  match mapAppKeys env.keys stRequest.appname with
  | none => (server, .ready 1 (textBytes "Unregistered appname " ++ stRequest.appname))
  | some appkey => env.readTable server (serverDecrypt env.ecb appkey stRequest.content) time call

end ProxyEnv

/-- `Attach`, and `Write` if the lock was free. -/
def storeTable (t : MultiHashTable) (tree : KnvNode) (locked : Bool) (now : Nat) :
    Option MultiHashTable :=
  if locked then (((UcStorage.new []).attach tree true).write t now true).map fun r => r.2.2
  else some t

/-! ## The steps -/

/-- The steps that do not use the cache are those of `PeerEvent`. -/
inductive TableEvent where
  | beginRequest (time : UInt64) (call : ReadCall)
  | store (locked : Bool) (now : Nat)
  | other (e : PeerEvent)

def PeerEvent.usesCache : PeerEvent → Bool
  | .beginRequest _ _ => true
  | .store _ => true
  | _ => false

/-- What happens next on a connection, if it can. -/
def Peer.execTable (env : ProxyEnv) (server : TableServer) (p : Peer) :
    TableEvent → Option (TableServer × Peer)
  | .beginRequest time call =>
    match p.thread.packets, p.thread.task with
    | stRequest :: _, .dispatched =>
      if server.running = true then
        let (server, task) := env.beginTableRequest server stRequest time call
        some (server, { p with thread := { p.thread with task := task } })
      else none
    | _, _ => none
  | .store locked now =>
    match p.thread.task with
    | .packed tree =>
      if server.running = true then
        (storeTable server.table tree locked now).map fun t => ({ server with table := t },
          { p with thread := { p.thread with task := .ready 0 tree.getStrVal } })
      else none
    | _ => none
  | .other e =>
    if e.usesCache then none
    else (p.exec env ⟨ProxyState.init, server.running⟩ e).map fun r =>
      ({ server with running := r.1.running }, r.2)

/-- The server on its table, with the connections. -/
structure TableSystem (ι : Type*) where
  server : TableServer
  peers : ι → Peer

namespace TableSystem

variable {ι : Type*} [DecidableEq ι]

/-- What happens next at connection `i`, if it can. -/
def exec (env : ProxyEnv) (s : TableSystem ι) (i : ι) (e : TableEvent) : Option (TableSystem ι) :=
  ((s.peers i).execTable env s.server e).map fun r => ⟨r.1, Function.update s.peers i r.2⟩

/-- The calls start as in `Peer.Allowed`.  A write does not make the block store overrun. -/
def Allowed (env : ProxyEnv) (Q : List UInt8 → Prop) (s : TableSystem ι) (i : ι) : TableEvent → Prop
  | .beginRequest _ _ => True
  | .store _ _ => ∀ tree bytes, (s.peers i).thread.task = .packed tree →
    tree.serializeString = .ok bytes → ∀ t2, s.server.table.TakenIn tree.key.val bytes true t2 →
      ¬ t2.lt.Overruns (t2.lt.blockCount bytes.length)
  | .other e => (s.peers i).Allowed env Q e

def Step (env : ProxyEnv) (Q : List UInt8 → Prop) (s s' : TableSystem ι) : Prop :=
  ∃ i e, s.Allowed env Q i e ∧ s.exec env i e = some s'

/-- A server that has just started on a table, and the clients that are going to use it. -/
def started (t : MultiHashTable) (clients : ι → Mysql) : TableSystem ι :=
  ⟨⟨t, [], true⟩, fun i => Peer.connected (clients i)⟩

end TableSystem

/-! ## Keys -/

/-- The table has room for the keys of the cache. -/
def HasRoomForKeys (cfg : ServerConfig) (t : MultiHashTable) : Prop :=
  cfg.iShmMaxKeyLen - 32 ≤ 255 ∧ cfg.iShmMaxKeyLen - 32 ≤ t.getMaxKeyLen

theorem HasRoomForKeys.congr {cfg : ServerConfig} {t t' : MultiHashTable} (h : HasRoomForKeys cfg t)
    (hs : MultiHashTable.SameShape t t') : HasRoomForKeys cfg t' := by
  refine ⟨h.1, ?_⟩
  rw [MultiHashTable.getMaxKeyLen, hs.size]
  exact h.2

/-- The key of a statement fits, or there is none. -/
theorem cacheKey_fits {cfg : ServerConfig} {t : MultiHashTable} (h : HasRoomForKeys cfg t)
    (reqstr : List UInt8) : cacheKey cfg reqstr = [] ∨ t.ValidKey (cacheKey cfg reqstr) := by
  have hlen : (getReqHashKey cfg (skipSpaces reqstr)).length ≤ cfg.iShmMaxKeyLen - 32 := by
    unfold getReqHashKey
    split
    · omega
    · exact List.length_take_le _ _
  have hkey : (cacheKey cfg reqstr).length ≤ cfg.iShmMaxKeyLen - 32 :=
    Nat.le_trans (List.length_take_le' _ _) hlen
  by_cases hnil : cacheKey cfg reqstr = []
  · exact .inl hnil
  · have hpos := List.length_pos_iff.mpr hnil
    exact .inr ⟨hpos, Nat.le_trans hkey h.1, Nat.le_trans hkey h.2⟩

/-! ## The cache -/

section Cache

variable {env : ProxyEnv} {t t' : MultiHashTable} {m : List UInt8 → Option (List UInt8)}
  {key : List UInt8}

/-- The empty key is never found. -/
theorem readCache_nil (t : MultiHashTable) (call : ReadCall) :
    (t.readCache call.now call.now' [] call.small_buffer call.huge_buffer).table = t ∧
      ∀ data, (t.readCache call.now call.now' [] call.small_buffer call.huge_buffer).result ≠ .ok data := by
  have hget : ∀ now n, t.getData now [] n true = ⟨.error .badArgument, none, t⟩ := fun _ _ =>
    if_pos (.inl rfl)
  unfold MultiHashTable.readCache
  split
  · exact ⟨rfl, nofun⟩
  · simp only [hget]
    exact ⟨rfl, nofun⟩

/-- What a reader of the table meets, for the key of a statement. -/
theorem Mirrors.readFits (h : Mirrors t m) (hk : key = [] ∨ t.ValidKey key) (call : ReadCall) :
    MultiHashTable.SameShape t ((UcStorage.new key).read t call).2.2 ∧
      Mirrors ((UcStorage.new key).read t call).2.2 m ∧
      (((UcStorage.new key).read t call).1 = 0 → ∃ data tree, data ≠ [] ∧ m key = some data ∧
        newFromData data = .ok tree ∧ ((UcStorage.new key).read t call).2.1.tree = some tree) := by
  rw [StorageState.read_table]
  rcases hk with rfl | hk
  · obtain ⟨htab, hno⟩ := readCache_nil t call
    refine ⟨?_, ?_, fun hzero => ?_⟩
    · show MultiHashTable.SameShape t
        (t.readCache call.now call.now' [] call.small_buffer call.huge_buffer).table
      rw [htab]
      exact MultiHashTable.SameShape.refl t
    · show Mirrors (t.readCache call.now call.now' [] call.small_buffer call.huge_buffer).table m
      rw [htab]
      exact h
    · obtain ⟨data, _, _, hdata, _⟩ := StorageState.read_zero hzero
      exact absurd hdata (hno data)
  · obtain ⟨hshape, hm, hknown⟩ := h.readCache hk call
    refine ⟨hshape, hm, fun hzero => ?_⟩
    obtain ⟨data, tree, hne, hdata, hnew, htree⟩ := StorageState.read_zero hzero
    exact ⟨data, tree, hne, (hknown data hdata).resolve_left hne, hnew, htree⟩

theorem read_code (st : UcStorage) (t : MultiHashTable) (call : ReadCall) :
    (st.read t call).1 = 0 ∨ (st.read t call).1 < 0 := by
  unfold UcStorage.read
  dsimp only
  split
  · exact .inr (show (-2 : Int) < 0 by decide)
  · split
    · exact .inr (show (-1 : Int) < 0 by decide)
    · split
      · exact .inr (show (-3 : Int) < 0 by decide)
      · exact .inl rfl

/-- **A read of the table** is a read of the map, or fails. -/
theorem Mirrors.readStorage (env : ProxyEnv) {store : ProxyState} (h : Mirrors t store.cache)
    (hk : key = [] ∨ t.ValidKey key) (time : UInt64) (call : ReadCall) :
    MultiHashTable.SameShape t (env.readStorage t key time call).2 ∧
      Mirrors (env.readStorage t key time call).2 store.cache ∧
      ∃ readable : Bool, (env.readStorage t key time call).1 =
        if readable then store.read env.cfg key time else none := by
  obtain ⟨hshape, hm, hzero⟩ := h.readFits hk call
  have htab : (env.readStorage t key time call).2 = ((UcStorage.new key).read t call).2.2 := by
    unfold ProxyEnv.readStorage
    dsimp only
    split
    · split
      · rfl
      · split <;> rfl
    · rfl
  rw [htab]
  refine ⟨hshape, hm, ?_⟩
  unfold ProxyEnv.readStorage
  dsimp only
  rcases read_code (UcStorage.new key) t call with hret | hret
  · obtain ⟨data, tree, hne, hdata, hnew, htree⟩ := hzero hret
    refine ⟨true, ?_⟩
    rw [if_pos rfl, hret, if_pos (Int.le_refl 0), htree, ProxyState.read, hdata]
    dsimp only
    rw [if_neg hne, hnew]
    dsimp only
    split <;> rfl
  · refine ⟨false, ?_⟩
    rw [if_neg (by omega)]
    rfl

/-- **A write to the table** is a write to the map, or none. -/
theorem Mirrors.storeTable {store : ProxyState} {tree : KnvNode} {locked : Bool} {now : Nat}
    (h : Mirrors t store.cache) (hk : tree.key.val = [] ∨ t.ValidKey tree.key.val)
    (hno : ∀ bytes, tree.serializeString = .ok bytes → ∀ t2,
      t.TakenIn tree.key.val bytes true t2 → ¬ t2.lt.Overruns (t2.lt.blockCount bytes.length))
    (heq : MysqlProxy.storeTable t tree locked now = some t') :
    MultiHashTable.SameShape t t' ∧
      ∃ written : Bool, Mirrors t' (if written then store.write tree else store).cache := by
  unfold MysqlProxy.storeTable at heq
  cases locked with
  | false =>
    obtain rfl := Option.some.inj heq
    exact ⟨MultiHashTable.SameShape.refl t, false, h⟩
  | true =>
    rw [if_pos rfl] at heq
    obtain ⟨r, hw, rfl⟩ := Option.map_eq_some_iff.mp heq
    rcases StorageState.write_cases hw with ⟨htab, -⟩ | ⟨tree', bytes, res, htree, hbytes, hset, -⟩
    · rw [htab]
      exact ⟨MultiHashTable.SameShape.refl t, false, h⟩
    · obtain rfl : tree = tree' := Option.some.inj htree
      change t.setData now tree.key.val bytes true = some (res, r.2.2) at hset
      rcases hk with hnil | hk
      · rw [hnil, MultiHashTable.setData, if_pos rfl] at hset
        obtain ⟨-, ht⟩ := Prod.mk.inj (Option.some.inj hset)
        rw [← ht]
        exact ⟨MultiHashTable.SameShape.refl t, false, h⟩
      · obtain ⟨hshape, hor⟩ := h.setData hk (serializeString_ne_nil hbytes) (hno bytes hbytes) hset
        refine ⟨hshape, ?_⟩
        rcases hor with hm | ⟨-, hm⟩
        · exact ⟨false, hm⟩
        · refine ⟨true, ?_⟩
          rw [if_pos rfl, ProxyState.write, hbytes]
          exact hm

end Cache

/-! ## Refinement -/

/-- Where the cache is not used, it may be any. -/
theorem Peer.exec_other (env : ProxyEnv) {e : PeerEvent} (he : e.usesCache = false)
    (store store' : ProxyState) (running : Bool) (p : Peer) :
    p.exec env ⟨store', running⟩ e =
      (p.exec env ⟨store, running⟩ e).map fun r => (⟨store', r.1.running⟩, r.2) := by
  cases e with
  | beginRequest time readable => cases he
  | store written => cases he
  | query sql sending =>
    simp only [exec]
    split <;> rfl
  | recv addr n =>
    simp only [exec]
    split <;> rfl
  | recvEnds err =>
    simp only [exec]
    split <;> rfl
  | threadRecv addr n =>
    simp only [exec]
    split
    · split <;> rfl
    · rfl
  | crash =>
    simp only [exec]
    split <;> rfl
  | fetch time attempts =>
    simp only [exec]
    split
    · split <;> rfl
    · rfl
  | send =>
    simp only [exec]
    split
    · split <;> rfl
    · rfl

namespace TableSystem

variable {ι : Type*} [DecidableEq ι] {env : ProxyEnv} {cipher : BlockCipher} {Q : List UInt8 → Prop}
  {c c' : TableSystem ι} {a : System ι}

/-- The map of `a` has what is read from the table of `c`. -/
structure Covers (env : ProxyEnv) (Q : List UInt8 → Prop) (c : TableSystem ι) (a : System ι) : Prop where
  inv : a.Inv env Q
  mirrors : Mirrors c.server.table a.server.store.cache
  room : HasRoomForKeys env.cfg c.server.table
  served : a.server.store.served = c.server.served
  running : a.server.running = c.server.running
  peers : a.peers = c.peers

omit [DecidableEq ι] in
/-- The tree that a thread is going to write has the key of its statement. -/
theorem Covers.packed_key (h : Covers env Q c a) {i : ι} {tree : KnvNode}
    (htask : (c.peers i).thread.task = .packed tree) :
    tree.key.val = [] ∨ c.server.table.ValidKey tree.key.val := by
  have hp := (h.inv.peers i).stage.serves (.inr (by rw [h.peers, htask]; exact Task.noConfusion))
  obtain ⟨-, -, -, hok, -, -⟩ := hp
  rw [h.peers, htask] at hok
  cases hok with
  | @packed _ hkey hserved res columns time hdb hpack =>
    rw [(ProxyState.packed_cached columns hpack).1]
    exact cacheKey_fits h.room _

/-- A step of the system that leaves the table as the map has it. -/
theorem Covers.step (hcipher : env.ecb.Applies cipher) (hW : Workload env Q) (h : Covers env Q c a)
    {i : ι} {e : PeerEvent} {server : TableServer} {p : Peer} {aserver : Server}
    (hexec : (c.peers i).exec env a.server e = some (aserver, p)) (hal : (c.peers i).Allowed env Q e)
    (hshape : MultiHashTable.SameShape c.server.table server.table)
    (hmirrors : Mirrors server.table aserver.store.cache)
    (hserved : aserver.store.served = server.served) (hrunning : aserver.running = server.running) :
    ∃ a', Relation.ReflTransGen (System.Step env (System.Allowed env Q)) a a' ∧
      Covers env Q ⟨server, Function.update c.peers i p⟩ a' := by
  have hstep : System.Step env (System.Allowed env Q) a ⟨aserver, Function.update c.peers i p⟩ := by
    refine ⟨.peer i e, ?_, ?_⟩
    · show (a.peers i).Allowed env Q e
      rw [h.peers]
      exact hal
    · show ((a.peers i).exec env a.server e).map _ = _
      rw [h.peers, hexec]
      rfl
  exact ⟨_, .single hstep, System.step_inv hcipher hW h.inv hstep, hmirrors, h.room.congr hshape,
    hserved, hrunning, rfl⟩

omit [DecidableEq ι] in
/-- The request is looked at, and the table is read. -/
theorem Covers.beginRequest (h : Covers env Q c a) (stRequest : ProxyPacket) (time : UInt64)
    (call : ReadCall) : ∃ readable store task,
      env.beginRequest a.server.store stRequest time readable = (store, task) ∧
      (env.beginTableRequest c.server stRequest time call).2 = task ∧
      MultiHashTable.SameShape c.server.table (env.beginTableRequest c.server stRequest time call).1.table ∧
      Mirrors (env.beginTableRequest c.server stRequest time call).1.table store.cache ∧
      store.served = (env.beginTableRequest c.server stRequest time call).1.served ∧
      c.server.running = (env.beginTableRequest c.server stRequest time call).1.running := by
  have hsame := MultiHashTable.SameShape.refl c.server.table
  unfold ProxyEnv.beginTableRequest ProxyEnv.beginRequest
  cases hkey : mapAppKeys env.keys stRequest.appname with
  | none => exact ⟨true, _, _, rfl, rfl, hsame, h.mirrors, h.served, rfl⟩
  | some appkey =>
    dsimp only
    generalize serverDecrypt env.ecb appkey stRequest.content = reqstr
    unfold ProxyEnv.readTable ProxyEnv.readCache
    by_cases hnil : reqstr = []
    · rw [if_pos hnil]
      exact ⟨true, _, _, if_pos hnil, rfl, hsame, h.mirrors, h.served, rfl⟩
    · rw [if_neg hnil]
      cases hread : isRead (skipSpaces reqstr) with
      | false =>
        rw [if_pos (by rfl)]
        refine ⟨true, _, _, ?_, rfl, hsame, h.mirrors, h.served, rfl⟩
        rw [if_neg hnil, if_pos (by rfl)]
      | true =>
        rw [if_neg (by exact Bool.false_ne_true)]
        have hmap : Mirrors c.server.table
            ({ a.server.store with served := reqstr :: a.server.store.served } : ProxyState).cache := h.mirrors
        obtain ⟨hshape, hm, readable, hval⟩ := hmap.readStorage env
          (cacheKey_fits h.room reqstr) time call
        refine ⟨readable, { a.server.store with served := reqstr :: a.server.store.served }, _, ?_, rfl,
          hshape, hm, congrArg (reqstr :: ·) h.served, rfl⟩
        rw [if_neg hnil, if_neg (by exact Bool.false_ne_true)]
        dsimp only at hval ⊢
        rw [← hval]
        cases (env.readStorage c.server.table (cacheKey env.cfg reqstr) time call).1 <;> rfl

/-- **Every step on the table is a step on the map.** -/
theorem step_refines (hcipher : env.ecb.Applies cipher) (hW : Workload env Q) :
    StepRefines (Covers (ι := ι) env Q) (Step env Q) (System.Step env (System.Allowed env Q)) := by
  rintro c c' a h ⟨i, e, hal, heq⟩
  obtain ⟨⟨server, p⟩, hexec, rfl⟩ := Option.map_eq_some_iff.mp heq
  cases e with
  | other e =>
    unfold Peer.execTable at hexec
    dsimp only at hexec
    split at hexec
    · cases hexec
    · rename_i huses
      obtain ⟨r, hr, hpair⟩ := Option.map_eq_some_iff.mp hexec
      obtain ⟨rfl, rfl⟩ := Prod.mk.inj hpair
      have hr' : (c.peers i).exec env a.server e = some (⟨a.server.store, r.1.running⟩, r.2) := by
        have := Peer.exec_other env (Bool.eq_false_iff.mpr huses) ProxyState.init a.server.store
          c.server.running (c.peers i)
        rw [hr, ← h.running] at this
        exact this
      exact h.step hcipher hW hr' hal (MultiHashTable.SameShape.refl _) h.mirrors h.served rfl
  | beginRequest time call =>
    unfold Peer.execTable at hexec
    dsimp only at hexec
    split at hexec
    case h_2 => cases hexec
    case h_1 stRequest packets hpackets htask =>
      split at hexec
      case isFalse => cases hexec
      case isTrue hrunning =>
        obtain ⟨readable, store, task, hbegin, htask', hshape, hm, hserved, hrun⟩ :=
          h.beginRequest stRequest time call
        obtain ⟨rfl, rfl⟩ := Prod.mk.inj (Option.some.inj hexec)
        have hr : (c.peers i).exec env a.server (.beginRequest time readable) =
            some ({ a.server with store := store },
              { c.peers i with thread := { (c.peers i).thread with task := task } }) := by
          simp only [Peer.exec, hpackets, htask, h.running, hrunning, if_true, hbegin]
        rw [htask']
        exact h.step hcipher hW hr trivial hshape hm hserved (h.running.trans hrun)
  | store locked now =>
    unfold Peer.execTable at hexec
    dsimp only at hexec
    split at hexec
    case h_2 => cases hexec
    case h_1 tree htask =>
      split at hexec
      case isFalse => cases hexec
      case isTrue hrunning =>
        obtain ⟨t, ht, hpair⟩ := Option.map_eq_some_iff.mp hexec
        obtain ⟨rfl, rfl⟩ := Prod.mk.inj hpair
        obtain ⟨hshape, written, hm⟩ := h.mirrors.storeTable (h.packed_key htask)
          (fun bytes hbytes => hal tree bytes htask hbytes) ht
        have hr : (c.peers i).exec env a.server (.store written) =
            some ({ a.server with store := if written then a.server.store.write tree else a.server.store },
              { c.peers i with thread := { (c.peers i).thread with task := .ready 0 tree.getStrVal } }) := by
          simp only [Peer.exec, htask, h.running, hrunning, if_true]
        refine h.step hcipher hW hr trivial hshape hm ?_ h.running
        show (if written then a.server.store.write tree else a.server.store).served = _
        rw [← h.served]
        split
        · unfold ProxyState.write
          split <;> rfl
        · rfl

variable {clients : ι → Mysql} {t : MultiHashTable}

/-- The tree of a thread is taken at once. -/
def storable (s : TableSystem ι) (i : ι) : Bool :=
  match (s.peers i).thread.task with
  | .packed tree => tree.serializeString.toOption.all fun bytes =>
      takenAtOnce s.server.table tree.key.val bytes true
  | _ => true

omit [DecidableEq ι] in
theorem allowed_store {s : TableSystem ι} {i : ι} (h : s.storable i = true) (locked : Bool) (now : Nat) :
    s.Allowed env Q i (.store locked now) := by
  intro tree bytes htask hbytes t2 ht
  simp only [storable, htask, hbytes, Except.toOption, Option.all_some] at h
  exact not_overruns_of_takenAtOnce h ht

/-- The steps of the two clients that are allowed in any state, with their calls of `selectA`. -/
def harmless (s : TableSystem Bool) : Bool × TableEvent → Prop
  | (i, .other (.query sql _)) => ((s.peers i).Quiet ∧ sql = System.selectA ∧
    (frame (Peer.requestPacket System.cellEnv.ecb (s.peers i).mysql sql).message).length ≤
      MAX_REQUEST_PACKET_LENGTH)
  | (_, .other (.fetch _ _)) => False
  | (_, .store _ _) => False
  | _ => True

instance (s : TableSystem Bool) : ∀ e, Decidable (harmless s e)
  | (_, .other (.query _ _)) => inferInstanceAs (Decidable (_ ∧ _ ∧ _))
  | (_, .other (.fetch _ _)) => inferInstanceAs (Decidable False)
  | (_, .store _ _) => inferInstanceAs (Decidable False)
  | (_, .beginRequest _ _) => inferInstanceAs (Decidable True)
  | (_, .other (.recv _ _)) => inferInstanceAs (Decidable True)
  | (_, .other (.recvEnds _)) => inferInstanceAs (Decidable True)
  | (_, .other (.threadRecv _ _)) => inferInstanceAs (Decidable True)
  | (_, .other .crash) => inferInstanceAs (Decidable True)
  | (_, .other (.beginRequest _ _)) => inferInstanceAs (Decidable True)
  | (_, .other (.store _)) => inferInstanceAs (Decidable True)
  | (_, .other .send) => inferInstanceAs (Decidable True)

theorem allowed_harmless {s : TableSystem Bool} {e : Bool × TableEvent} (h : harmless s e) :
    s.Allowed System.cellEnv (· = System.selectA) e.1 e.2 := by
  obtain ⟨i, e⟩ := e
  cases e with
  | beginRequest time call => trivial
  | store locked now => exact h.elim
  | other e =>
    cases e with
    | query sql sending => exact h
    | fetch time attempts => exact h.elim
    | _ => trivial

/-- Harmless steps, one after the other. -/
theorem harmless_run {s s' : TableSystem Bool} {es : List (Bool × TableEvent)}
    (h : execs (fun s e => s.exec System.cellEnv e.1 e.2) harmless es s = some s') :
    Relation.ReflTransGen (Step System.cellEnv (· = System.selectA)) s s' :=
  (execs_run h).lift id fun _ _ ⟨e, hal, heq⟩ => ⟨e.1, e.2, allowed_harmless hal, heq⟩

end TableSystem

end MysqlProxy
