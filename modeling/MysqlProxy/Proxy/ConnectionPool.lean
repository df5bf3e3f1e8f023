/-
  The pool of connections to the database and the threads that share it (`ConcurrentQueue`,
  `AllocMySQL`, `FreeMySQL`, `RealFreeMySQL` and the loop of `ProcessRequest` in
  `mysql_proxy_server.cpp`).

  `Handles.lean` has the calls of one request after each other.  Here every thread is somewhere in its
  own round of the loop: it has taken a connection, or found none and makes one, has asked on it, has a
  result or an error, and gives the connection back or closes it.

  `PoolSystem.run_pool`: in every order of the threads' steps,
  1. a connection is in the pool once, or one thread has it, or it is closed: it is never asked by two
     threads, never used when it is closed, never closed twice, and none is lost,
  2. there are never more connections than threads (or the one that `ProxyInit` has made),
  3. nobody asks on a connection whose last result has not been stored, and the result that a thread
     stores is the one of its own statement,
  4. each thread does what the loop of `Handles.lean` does with what its own calls have returned.

  The second rests on the pool being looked at before a connection is made: `OneOwner.card_lt`.

  Modelling choices.
  * `Get` and `Put` are steps, as they hold the mutex.  `mysql_query` and `mysql_store_result` are steps
    too: what matters between them is who has the connection.
  * `asked` is not in the program: the statements whose results wait on a connection.  The library has
    a result only for such a statement.
  * `sMySQLError` is shared.  The texts that threads find there are arguments.
  * A connection that is closed may be made again at the same address.
-/
import MysqlProxy.Lib.Ownership
import MysqlProxy.Lib.Run
import MysqlProxy.Proxy.Handles

namespace MysqlProxy

/-! ## The threads and the pool -/

/-- What a thread asks the database for, and how it will be packed. -/
structure DbTask where
  sql : List UInt8
  key : List UInt8
  time : UInt64

/-- A result that can be packed. -/
abbrev DbResult := { res : MysqlRes // 11 + res.fields.length ≤ 2 ^ 32 }

/-- Where a thread is in a round. -/
inductive DbPhase where
  | idle
  /-- before `AllocMySQL` -/
  | alloc
  /-- the pool was empty: before `InitMySQL` -/
  | init
  /-- before `mysql_query` -/
  | query (mysql : Nat)
  /-- before `mysql_store_result` -/
  | store (mysql : Nat) (iRet : Int)
  /-- before `PackResult`, with the statement that the result belongs to -/
  | stored (mysql : Nat) (iRet : Int) (result : DbResult) (statement : Option (List UInt8))
  /-- before the connection is given back, with the error -/
  | failed (mysql : Nat) (iRet : Int) (errno : UInt32) (error : String)
  /-- behind the loop -/
  | finished (fetched : Fetched)

/-- The connection that the thread has. -/
def DbPhase.mysql : DbPhase → Option Nat
  | .query mysql | .store mysql _ | .stored mysql _ _ _ | .failed mysql _ _ _ => some mysql
  | _ => none

/-- Where `mysql_store_result` leaves a thread. -/
def DbPhase.afterStore (mysql : Nat) (iRet : Int) (errno : UInt32) (error : String)
    (statement : Option (List UInt8)) : Option DbResult → DbPhase
  | none => .failed mysql iRet errno error
  | some result => .stored mysql iRet result statement

/-- A thread: its task, `try_num`, and what it has done for the task. -/
structure DbThread where
  task : DbTask
  try_num : Nat
  events : List ReqEvent
  phase : DbPhase

/-- `vstMySQLPool`, the connections that are open, and the threads. -/
structure PoolSystem (T : Type) where
  vstMySQLPool : List Nat
  opened : Finset Nat
  asked : Nat → List (List UInt8)
  thread : T → DbThread

inductive DbEvent (T : Type) where
  | begin (t : T) (task : DbTask)
  /-- `Get` -/
  | get (t : T)
  /-- `InitMySQL` has made a connection -/
  | connected (t : T) (mysql : Nat)
  /-- `InitMySQL` has failed -/
  | refused (t : T) (msg : String)
  | query (t : T) (iRet : Int) (errno : UInt32) (error : String)
  | store (t : T) (result : Option DbResult) (errno : UInt32) (error : String)
  /-- `PackResult` and `FreeMySQL` -/
  | pack (t : T) (packed : Bool)
  /-- `FreeMySQL` or `RealFreeMySQL`, and the test of the loop -/
  | giveBack (t : T)

/-! ## What the calls of a round have returned -/

/-- Where there is no result, there are no columns. -/
theorem Round.no_columns (res : MysqlRes) (h : res ∈ (none : Option MysqlRes)) :
    11 + res.fields.length ≤ 2 ^ 32 := by
  cases h

/-- No connection could be made. -/
def Round.refused (msg : String) : Round := ⟨.error msg, 0, none, no_columns, 0, "", true⟩

/-- There was an error. -/
def Round.failed (mysql : Nat) (iRet : Int) (errno : UInt32) (error : String) : Round :=
  ⟨.ok mysql, iRet, none, no_columns, errno, error, true⟩

/-- There was a result. -/
def Round.stored (mysql : Nat) (iRet : Int) (result : DbResult) (packed : Bool) : Round :=
  ⟨.ok mysql, iRet, some result.val, fun _ h => Option.some.inj h ▸ result.property, 0, "", packed⟩

namespace PoolSystem

variable {T : Type}

/-- Before the first request, with the connection that `ProxyInit` has left in the pool, if any. -/
def start (mysql : Option Nat) : PoolSystem T :=
  ⟨mysql.toList, mysql.toList.toFinset, fun _ => [], fun _ => ⟨⟨[], [], 0⟩, 0, [], .idle⟩⟩

/-- The connections that the threads have. -/
def held (s : PoolSystem T) (t : T) : Option Nat := (s.thread t).phase.mysql

section Steps

variable [DecidableEq T]

def setThread (s : PoolSystem T) (t : T) (thread : DbThread) : PoolSystem T :=
  { s with thread := Function.update s.thread t thread }

/-- A step, if the thread is there. -/
def exec (er_error_last : Int) (s : PoolSystem T) : DbEvent T → Option (PoolSystem T)
  | .begin t task =>
    match (s.thread t).phase with
    | .idle | .finished _ => some (s.setThread t ⟨task, 0, [], .alloc⟩)
    | _ => none
  | .get t =>
    let th := s.thread t
    match th.phase with
    | .alloc =>
      match s.vstMySQLPool with
      | [] => some (s.setThread t { th with phase := .init })
      | mysql :: rest =>
        some { s.setThread t { th with
            events := th.events ++ [.alloc (some mysql)], phase := .query mysql } with
          vstMySQLPool := rest }
    | _ => none
  | .connected t mysql =>
    let th := s.thread t
    match th.phase with
    | .init =>
      some { s.setThread t { th with
          events := th.events ++ [.alloc (some mysql)], phase := .query mysql } with
        opened := insert mysql s.opened
        asked := Function.update s.asked mysql [] }
    | _ => none
  | .refused t msg =>
    let th := s.thread t
    match th.phase with
    | .init =>
      some (s.setThread t { th with
        events := th.events ++ [.alloc none], phase := .finished (.refused 1 (textBytes msg)) })
    | _ => none
  | .query t iRet errno error =>
    let th := s.thread t
    match th.phase with
    | .query mysql =>
      some { s.setThread t { th with
          events := th.events ++ [.query mysql]
          phase := if iRet < 0 then .failed mysql iRet errno error else .store mysql iRet } with
        asked :=
          if iRet = 0 then Function.update s.asked mysql (s.asked mysql ++ [th.task.sql])
          else s.asked }
    | _ => none
  | .store t result errno error =>
    let th := s.thread t
    match th.phase with
    | .store mysql iRet =>
      some { s.setThread t { th with
          phase := .afterStore mysql iRet errno error (s.asked mysql).head? result } with
        asked := Function.update s.asked mysql (s.asked mysql).tail }
    | _ => none
  | .pack t packed =>
    let th := s.thread t
    match th.phase with
    | .stored mysql iRet result _ =>
      some { s.setThread t { th with
          events := th.events ++ [.free mysql]
          phase := .finished
            ((Round.stored mysql iRet result packed).pack result.val th.task.key th.task.time) } with
        vstMySQLPool := s.vstMySQLPool ++ [mysql] }
    | _ => none
  | .giveBack t =>
    let th := s.thread t
    match th.phase with
    | .failed mysql iRet errno error =>
      let err := (Round.failed mysql iRet errno error).err
      let th := { th with events := th.events ++ [MysqlProxy.giveBack er_error_last err mysql] }
      let th :=
        if isGone err ∧ th.try_num < max_try_num then
          { th with try_num := th.try_num + 1, phase := .alloc }
        else { th with phase := .finished (QueryError.refused ⟨iRet, err, error⟩) }
      if ER_ERROR_FIRST ≤ err ∧ err ≤ er_error_last then
        some { s.setThread t th with vstMySQLPool := s.vstMySQLPool ++ [mysql] }
      else some { s.setThread t th with opened := s.opened.erase mysql }
    | _ => none

/-- The statements whose results wait for the thread. -/
def waits (s : PoolSystem T) (t : T) : List (List UInt8) :=
  match s.held t with
  | some mysql => s.asked mysql
  | none => []

/-- What the library does: a new connection is a new one, and a result is the one of a statement. -/
def Allowed (s : PoolSystem T) : DbEvent T → Prop
  | .connected _ mysql => mysql ∉ s.opened
  | .store t result _ _ => result.isSome → s.waits t ≠ []
  | _ => True

instance (s : PoolSystem T) (e : DbEvent T) : Decidable (s.Allowed e) :=
  match e with
  | .connected _ mysql => inferInstanceAs (Decidable (mysql ∉ s.opened))
  | .store t result _ _ => inferInstanceAs (Decidable (result.isSome → s.waits t ≠ []))
  | .begin _ _ | .get _ | .refused _ _ | .query _ _ _ _ | .pack _ _ | .giveBack _ => isTrue trivial

def Step (er_error_last : Int) (s s' : PoolSystem T) : Prop :=
  ∃ e, s.Allowed e ∧ s.exec er_error_last e = some s'

end Steps

end PoolSystem

/-! ## One thread and the loop of `Handles.lean` -/

/-- What a thread has done in the round it is in. -/
def DbPhase.events : DbPhase → List ReqEvent
  | .query mysql => [.alloc (some mysql)]
  | .store mysql _ | .stored mysql _ _ _ | .failed mysql _ _ _ =>
    [.alloc (some mysql), .query mysql]
  | _ => []

section Loop

variable (er_error_last : Int)

/-- The loop has come to this try, with the events of the rounds before it. -/
def DbTask.Behind (task : DbTask) (try_num : Nat) (past : List ReqEvent) : Prop :=
  ∀ rounds', ∃ rounds, dbLoop er_error_last task.key task.time max_try_num rounds =
    (past ++ (dbLoop er_error_last task.key task.time (max_try_num - try_num) rounds').1,
      (dbLoop er_error_last task.key task.time (max_try_num - try_num) rounds').2)

/-- The loop ends, with these events. -/
def DbTask.Ends (task : DbTask) (events : List ReqEvent) (fetched : Fetched) : Prop :=
  ∃ rounds, dbLoop er_error_last task.key task.time max_try_num rounds = (events, fetched)

/-- The thread is somewhere in the loop, or behind it. -/
def DbThread.InLoop (th : DbThread) : Prop :=
  match th.phase with
  | .idle => True
  | .finished fetched => th.task.Ends er_error_last th.events fetched
  | phase => ∃ past, th.events = past ++ phase.events ∧ th.task.Behind er_error_last th.try_num past

variable {er_error_last} {task : DbTask} {try_num : Nat} {past events : List ReqEvent} {r : Round}

theorem DbTask.behind_first (task : DbTask) : task.Behind er_error_last 0 [] :=
  fun rounds' => ⟨rounds', rfl⟩

/-- A round that ends the loop with a result or a refusal. -/
theorem DbTask.Behind.ends (h : task.Behind er_error_last try_num past) {fetched : Fetched}
    (hr : tryDb er_error_last task.key task.time r = (events, .ok fetched)) :
    task.Ends er_error_last (past ++ events) fetched := by
  obtain ⟨rounds, heq⟩ := h fun _ => r
  refine ⟨rounds, heq.trans ?_⟩
  have hloop : ∀ n, dbLoop er_error_last task.key task.time n (fun _ => r) = (events, fetched) := by
    intro n
    cases n with
    | zero => rw [dbLoop, hr]
    | succ n => rw [dbLoop, hr]
  rw [hloop]

/-- A round after which the loop tries again. -/
theorem DbTask.Behind.again (h : task.Behind er_error_last try_num past) {e : QueryError}
    (hr : tryDb er_error_last task.key task.time r = (events, .error e))
    (hagain : isGone e.err ∧ try_num < max_try_num) :
    task.Behind er_error_last (try_num + 1) (past ++ events) := by
  intro rounds'
  -- this round, then the others
  obtain ⟨rounds, heq⟩ := h fun i => if i = 0 then r else rounds' (i - 1)
  refine ⟨rounds, heq.trans ?_⟩
  have hleft : max_try_num - try_num = max_try_num - (try_num + 1) + 1 := by omega
  have hloop : dbLoop er_error_last task.key task.time (max_try_num - try_num)
      (fun i => if i = 0 then r else rounds' (i - 1)) =
      (events ++ (dbLoop er_error_last task.key task.time (max_try_num - (try_num + 1)) rounds').1,
        (dbLoop er_error_last task.key task.time (max_try_num - (try_num + 1)) rounds').2) := by
    rw [hleft, dbLoop, if_pos rfl, hr]
    dsimp only
    rw [if_pos hagain.1]
    rfl
  rw [hloop, List.append_assoc]

/-- A round after which it gives up. -/
theorem DbTask.Behind.givesUp (h : task.Behind er_error_last try_num past) {e : QueryError}
    (hr : tryDb er_error_last task.key task.time r = (events, .error e))
    (hno : ¬ (isGone e.err ∧ try_num < max_try_num)) :
    task.Ends er_error_last (past ++ events) e.refused := by
  obtain ⟨rounds, heq⟩ := h fun _ => r
  refine ⟨rounds, heq.trans ?_⟩
  have hloop : dbLoop er_error_last task.key task.time (max_try_num - try_num) (fun _ => r) =
      (events, e.refused) := by
    cases hleft : max_try_num - try_num with
    | zero => rw [dbLoop, hr]
    | succ n =>
      rw [dbLoop, hr]
      dsimp only
      rw [if_neg fun hgone => hno ⟨hgone, by omega⟩]
  rw [hloop]

theorem tryDb_refused (task : DbTask) (msg : String) :
    tryDb er_error_last task.key task.time (.refused msg) =
      ([.alloc none], .ok (.refused 1 (textBytes msg))) := rfl

theorem tryDb_stored (task : DbTask) (mysql : Nat) {iRet : Int} (h : 0 ≤ iRet) (result : DbResult)
    (packed : Bool) :
    tryDb er_error_last task.key task.time (.stored mysql iRet result packed) =
      ([.alloc (some mysql), .query mysql, .free mysql],
        .ok ((Round.stored mysql iRet result packed).pack result.val task.key task.time)) := by
  rw [tryDb]
  exact if_neg (by show ¬ iRet < 0; omega)

theorem tryDb_failed (task : DbTask) (mysql : Nat) (iRet : Int) (errno : UInt32) (error : String) :
    tryDb er_error_last task.key task.time (.failed mysql iRet errno error) =
      ([.alloc (some mysql), .query mysql,
          giveBack er_error_last (Round.failed mysql iRet errno error).err mysql],
        .error ⟨iRet, (Round.failed mysql iRet errno error).err, error⟩) := by
  rw [tryDb]
  exact ite_self _

end Loop

/-! ## The invariant -/

def DbPhase.isInit : DbPhase → Bool
  | .init => true
  | _ => false

/-- The statement of the thread waits on its connection behind `mysql_query`, and nothing waits there
    otherwise. -/
def DbThread.Clean (th : DbThread) (asked : Nat → List (List UInt8)) : Prop :=
  match th.phase with
  | .query mysql | .failed mysql _ _ _ => asked mysql = []
  | .store mysql iRet => 0 ≤ iRet ∧ asked mysql = if iRet = 0 then [th.task.sql] else []
  | .stored mysql iRet _ statement =>
    0 ≤ iRet ∧ asked mysql = [] ∧ statement = some th.task.sql
  | _ => True

theorem DbThread.Clean.frame {th : DbThread} {asked asked' : Nat → List (List UInt8)}
    (h : th.Clean asked) (heq : ∀ mysql, th.phase.mysql = some mysql → asked' mysql = asked mysql) :
    th.Clean asked' := by
  unfold DbThread.Clean at h ⊢
  cases hphase : th.phase with
  | query mysql | failed mysql =>
    rw [hphase] at h heq
    exact (heq mysql rfl).trans h
  | store mysql iRet =>
    rw [hphase] at h heq
    exact ⟨h.1, (heq mysql rfl).trans h.2⟩
  | stored mysql iRet result statement =>
    rw [hphase] at h heq
    exact ⟨h.1, (heq mysql rfl).trans h.2.1, h.2.2⟩
  | _ => trivial

namespace PoolSystem

variable {T : Type}

section Invariant

variable [Fintype T]

/-- The threads that make a connection. -/
def waiting (s : PoolSystem T) : Finset T := Finset.univ.filter fun t => (s.thread t).phase.isInit

structure Inv (er_error_last : Int) (most : Nat) (s : PoolSystem T) : Prop where
  owned : OneOwner s.vstMySQLPool s.opened s.held
  pooled : ∀ mysql ∈ s.vstMySQLPool, s.asked mysql = []
  clean : ∀ t, (s.thread t).Clean s.asked
  inLoop : ∀ t, (s.thread t).InLoop er_error_last
  count : s.opened.card + s.waiting.card ≤ most

theorem inv_start (er_error_last : Int) (mysql : Option Nat) :
    Inv er_error_last (max mysql.toList.length (Fintype.card T)) (start mysql : PoolSystem T) := by
  have hnodup : mysql.toList.Nodup := by
    cases mysql with
    | none => exact List.nodup_nil
    | some mysql => exact List.nodup_singleton mysql
  refine ⟨OneOwner.start hnodup, fun _ _ => rfl, fun _ => trivial, fun _ => trivial, ?_⟩
  have hwaiting : (start mysql : PoolSystem T).waiting = ∅ :=
    Finset.filter_eq_empty_iff.mpr fun t _ => Bool.false_ne_true
  rw [hwaiting, Finset.card_empty]
  exact Nat.le_trans (List.toFinset_card_le mysql.toList) (Nat.le_max_left _ _)

end Invariant

section Changes

variable [DecidableEq T] {er_error_last : Int} {most : Nat} {s s' : PoolSystem T} {t : T}
  {th' : DbThread}

theorem held_self (hs : s'.thread = Function.update s.thread t th') : s'.held t = th'.phase.mysql := by
  rw [held, hs, Function.update_self]

theorem held_other (hs : s'.thread = Function.update s.thread t th') (u : T) (hu : u ≠ t) :
    s'.held u = s.held u := by
  rw [held, hs, Function.update_of_ne hu, held]

/-- The thread keeps its connection. -/
theorem held_same (hs : s'.thread = Function.update s.thread t th')
    (hsame : th'.phase.mysql = (s.thread t).phase.mysql) : s'.held = s.held := by
  funext u
  by_cases hu : u = t
  · rw [hu, held_self hs, hsame, held]
  · exact held_other hs u hu

variable [Fintype T]

/-- **One thread goes on**, and all is as before for the others. -/
theorem Inv.goesOn (h : s.Inv er_error_last most) (hs : s'.thread = Function.update s.thread t th')
    (howned : OneOwner s'.vstMySQLPool s'.opened s'.held)
    (hasked : ∀ mysql ∈ s.opened, s.held t ≠ some mysql → s'.asked mysql = s.asked mysql)
    (hpooled : ∀ mysql ∈ s'.vstMySQLPool, mysql ∈ s.vstMySQLPool ∨ s'.asked mysql = [])
    (hclean : th'.Clean s'.asked) (hloop : th'.InLoop er_error_last)
    (hcount : s'.opened.card + s'.waiting.card ≤ most) : s'.Inv er_error_last most := by
  refine ⟨howned, fun mysql hmem => ?_, fun u => ?_, fun u => ?_, hcount⟩
  · rcases hpooled mysql hmem with hold | hnil
    · have hopen : mysql ∈ s.opened := (h.owned.all mysql).mpr (.inl hold)
      rw [hasked mysql hopen fun hheld => h.owned.apart t mysql hheld hold]
      exact h.pooled mysql hold
    · exact hnil
  · by_cases hu : u = t
    · rw [hs, hu, Function.update_self]
      exact hclean
    · rw [hs, Function.update_of_ne hu]
      refine (h.clean u).frame fun mysql hmysql => ?_
      have hheld : s.held u = some mysql := hmysql
      refine hasked mysql (h.owned.held_mem hheld) fun ht => hu ?_
      exact h.owned.alone t u mysql ht hheld
  · by_cases hu : u = t
    · rw [hs, hu, Function.update_self]
      exact hloop
    · rw [hs, Function.update_of_ne hu]
      exact h.inLoop u

/-- A thread that does not begin or end to make a connection. -/
theorem waiting_same (hs : s'.thread = Function.update s.thread t th')
    (hsame : th'.phase.isInit = (s.thread t).phase.isInit) : s'.waiting = s.waiting := by
  refine Finset.filter_congr fun u _ => ?_
  by_cases hu : u = t
  · rw [hs, hu, Function.update_self, hsame]
  · rw [hs, Function.update_of_ne hu]

/-- A thread that begins to. -/
theorem waiting_enters (hs : s'.thread = Function.update s.thread t th') :
    s'.waiting ⊆ insert t s.waiting := by
  intro u hu
  by_cases hut : u = t
  · exact hut ▸ Finset.mem_insert_self t s.waiting
  · refine Finset.mem_insert_of_mem (Finset.mem_filter.mpr ⟨Finset.mem_univ u, ?_⟩)
    have hinit := (Finset.mem_filter.mp hu).2
    rw [hs, Function.update_of_ne hut] at hinit
    exact hinit

/-- A thread that ends to. -/
theorem waiting_leaves (hs : s'.thread = Function.update s.thread t th')
    (hin : (s.thread t).phase.isInit) (hout : th'.phase.isInit = false) :
    s'.waiting.card + 1 = s.waiting.card := by
  have herase : s'.waiting = s.waiting.erase t := by
    ext u
    rw [Finset.mem_erase, waiting, waiting, Finset.mem_filter, Finset.mem_filter, hs]
    by_cases hut : u = t
    · rw [hut, Function.update_self, hout]
      exact ⟨fun hc => absurd hc.2 Bool.false_ne_true, fun hc => absurd rfl hc.1⟩
    · rw [Function.update_of_ne hut]
      exact ⟨fun hc => ⟨hut, hc⟩, fun hc => hc.2⟩
  rw [herase]
  exact Finset.card_erase_add_one (Finset.mem_filter.mpr ⟨Finset.mem_univ t, hin⟩)

/-! ## Steps -/

/-- A task begins. -/
theorem begin_inv (h : s.Inv er_error_last most) {task : DbTask}
    (heq : s.exec er_error_last (.begin t task) = some s') : s'.Inv er_error_last most := by
  have hidle : s.held t = none ∧ (s.thread t).phase.isInit = false ∧
      s.setThread t ⟨task, 0, [], .alloc⟩ = s' := by
    rw [exec] at heq
    rw [held]
    split at heq
    · rename_i hphase
      rw [hphase]
      exact ⟨rfl, rfl, Option.some.inj heq⟩
    · rename_i hphase
      rw [hphase]
      exact ⟨rfl, rfl, Option.some.inj heq⟩
    · cases heq
  obtain ⟨hnone, hout, hx⟩ := hidle
  have hs : s'.thread = Function.update s.thread t ⟨task, 0, [], .alloc⟩ := hx ▸ rfl
  have hpool : s'.vstMySQLPool = s.vstMySQLPool := hx ▸ rfl
  have hopened : s'.opened = s.opened := hx ▸ rfl
  have hasked : s'.asked = s.asked := hx ▸ rfl
  refine h.goesOn hs ?_ (fun _ _ _ => by rw [hasked]) (fun mysql hmem => .inl (hpool ▸ hmem)) trivial
    ⟨[], rfl, task.behind_first⟩ ?_
  · rw [hpool, hopened, held_same hs hnone.symm]
    exact h.owned
  · rw [hopened, waiting_same hs hout.symm]
    exact h.count

/-- `Get`. -/
theorem get_inv (hmost : Fintype.card T ≤ most) (h : s.Inv er_error_last most)
    (heq : s.exec er_error_last (.get t) = some s') : s'.Inv er_error_last most := by
  rw [exec] at heq
  dsimp only at heq
  split at heq
  case h_2 => cases heq
  rename_i hphase
  have hnone : s.held t = none := by rw [held, hphase]; rfl
  have hout : (s.thread t).phase.isInit = false := by rw [hphase]; rfl
  have hloop := h.inLoop t
  rw [DbThread.InLoop, hphase] at hloop
  obtain ⟨past, hevents, hbehind⟩ := hloop
  have howned := h.owned
  split at heq
  · -- all connections are with other threads
    rename_i hempty
    have hx := Option.some.inj heq
    have hs : s'.thread = Function.update s.thread t { s.thread t with phase := .init } := hx ▸ rfl
    have hpool : s'.vstMySQLPool = s.vstMySQLPool := hx ▸ rfl
    have hopened : s'.opened = s.opened := hx ▸ rfl
    have hasked : s'.asked = s.asked := hx ▸ rfl
    refine h.goesOn hs ?_ (fun _ _ _ => by rw [hasked]) (fun mysql hmem => .inl (hpool ▸ hmem))
      trivial ⟨past, hevents, hbehind⟩ ?_
    · rw [hpool, hopened, held_same hs hnone.symm]
      exact howned
    · rw [hempty] at howned
      have hwaiting : ∀ u, (s.thread u).phase.isInit = true → s.held u = none := by
        intro u hu
        rw [held]
        cases hphase' : (s.thread u).phase with
        | init => rfl
        | _ => rw [hphase'] at hu; cases hu
      have hlt : s.opened.card + s.waiting.card < Fintype.card T :=
        howned.card_lt hwaiting hnone (by rw [hout]; exact Bool.false_ne_true)
      have hcard := Finset.card_le_card (waiting_enters hs)
      have hinsert := Finset.card_insert_le t s.waiting
      rw [hopened]
      omega
  · rename_i mysql rest hfirst
    have hx := Option.some.inj heq
    have hs : s'.thread = Function.update s.thread t
      { s.thread t with
        events := (s.thread t).events ++ [.alloc (some mysql)], phase := .query mysql } := hx ▸ rfl
    have hpool : s'.vstMySQLPool = rest := hx ▸ rfl
    have hopened : s'.opened = s.opened := hx ▸ rfl
    have hasked : s'.asked = s.asked := hx ▸ rfl
    refine h.goesOn hs ?_ (fun _ _ _ => by rw [hasked])
      (fun c hmem => .inl (hfirst ▸ List.mem_cons_of_mem mysql (hpool ▸ hmem))) ?_
      ⟨past, ?_, hbehind⟩ ?_
    · rw [hfirst] at howned
      rw [hpool, hopened]
      exact howned.take hnone (held_self hs) (held_other hs)
    · rw [hasked]
      exact h.pooled mysql (hfirst ▸ List.mem_cons_self)
    · rw [hevents]
      exact congrArg (· ++ _) (List.append_nil past)
    · rw [hopened, waiting_same hs hout.symm]
      exact h.count

/-- `InitMySQL`. -/
theorem connected_inv (h : s.Inv er_error_last most) {mysql : Nat}
    (hal : s.Allowed (.connected t mysql))
    (heq : s.exec er_error_last (.connected t mysql) = some s') : s'.Inv er_error_last most := by
  rw [exec] at heq
  dsimp only at heq
  split at heq
  case h_2 => cases heq
  rename_i hphase
  have hnone : s.held t = none := by rw [held, hphase]; rfl
  have hin : (s.thread t).phase.isInit := by rw [hphase]; rfl
  have hloop := h.inLoop t
  rw [DbThread.InLoop, hphase] at hloop
  obtain ⟨past, hevents, hbehind⟩ := hloop
  have hx := Option.some.inj heq
  have hs : s'.thread = Function.update s.thread t
    { s.thread t with
      events := (s.thread t).events ++ [.alloc (some mysql)], phase := .query mysql } := hx ▸ rfl
  have hpool : s'.vstMySQLPool = s.vstMySQLPool := hx ▸ rfl
  have hopened : s'.opened = insert mysql s.opened := hx ▸ rfl
  have hasked : s'.asked = Function.update s.asked mysql [] := hx ▸ rfl
  have hnew : mysql ∉ s.opened := hal
  refine h.goesOn hs ?_ (fun c hc _ => ?_) (fun c hmem => .inl (hpool ▸ hmem)) ?_
    ⟨past, ?_, hbehind⟩ ?_
  · rw [hpool, hopened]
    exact h.owned.opens hnew hnone (held_self hs) (held_other hs)
  · have hne : c ≠ mysql := fun he => hnew (he ▸ hc)
    rw [hasked, Function.update_of_ne hne]
  · rw [hasked]
    exact Function.update_self mysql [] s.asked
  · rw [hevents]
    exact congrArg (· ++ _) (List.append_nil past)
  · have hleaves := waiting_leaves hs hin rfl
    have hcount := h.count
    rw [hopened, Finset.card_insert_of_notMem hnew]
    omega

/-- `InitMySQL` fails. -/
theorem refused_inv (h : s.Inv er_error_last most) {msg : String}
    (heq : s.exec er_error_last (.refused t msg) = some s') : s'.Inv er_error_last most := by
  rw [exec] at heq
  split at heq
  case h_2 => cases heq
  rename_i hphase
  have hnone : s.held t = none := by rw [held, hphase]; rfl
  have hin : (s.thread t).phase.isInit := by rw [hphase]; rfl
  have hloop := h.inLoop t
  rw [DbThread.InLoop, hphase] at hloop
  obtain ⟨past, hevents, hbehind⟩ := hloop
  have hx := Option.some.inj heq
  have hs : s'.thread = Function.update s.thread t
    { s.thread t with
      events := (s.thread t).events ++ [.alloc none]
      phase := .finished (.refused 1 (textBytes msg)) } := hx ▸ rfl
  have hpool : s'.vstMySQLPool = s.vstMySQLPool := hx ▸ rfl
  have hopened : s'.opened = s.opened := hx ▸ rfl
  have hasked : s'.asked = s.asked := hx ▸ rfl
  refine h.goesOn hs ?_ (fun _ _ _ => by rw [hasked]) (fun c hmem => .inl (hpool ▸ hmem)) trivial
    ?_ ?_
  · rw [hpool, hopened, held_same hs hnone.symm]
    exact h.owned
  · have hends := hbehind.ends (tryDb_refused (s.thread t).task msg)
    have hpast : (s.thread t).events = past := hevents.trans (List.append_nil past)
    rw [← hpast] at hends
    exact hends
  · have hleaves := waiting_leaves hs hin rfl
    have hcount := h.count
    rw [hopened]
    omega

/-- `mysql_query`. -/
theorem query_inv (h : s.Inv er_error_last most) {iRet : Int} {errno : UInt32} {error : String}
    (heq : s.exec er_error_last (.query t iRet errno error) = some s') :
    s'.Inv er_error_last most := by
  rw [exec] at heq
  dsimp only at heq
  split at heq
  case h_2 => cases heq
  rename_i mysql hphase
  have hheld : s.held t = some mysql := by rw [held, hphase]; rfl
  have hloop := h.inLoop t
  rw [DbThread.InLoop, hphase] at hloop
  obtain ⟨past, hevents, hbehind⟩ := hloop
  have hclean := h.clean t
  rw [DbThread.Clean, hphase] at hclean
  have hx := Option.some.inj heq
  have hs : s'.thread = Function.update s.thread t
    { s.thread t with
      events := (s.thread t).events ++ [.query mysql]
      phase := if iRet < 0 then .failed mysql iRet errno error else .store mysql iRet } := hx ▸ rfl
  have hpool : s'.vstMySQLPool = s.vstMySQLPool := hx ▸ rfl
  have hopened : s'.opened = s.opened := hx ▸ rfl
  have hasked : s'.asked = if iRet = 0
    then Function.update s.asked mysql (s.asked mysql ++ [(s.thread t).task.sql]) else s.asked :=
    hx ▸ rfl
  have hevents' : (s.thread t).events ++ [.query mysql] =
      past ++ [.alloc (some mysql), .query mysql] := by
    rw [hevents, List.append_assoc]
    rfl
  refine h.goesOn hs ?_ (fun c _ hc => ?_) (fun c hmem => .inl (hpool ▸ hmem)) ?_ ?_ ?_
  · rw [hpool, hopened, held_same hs (by rw [hphase]; dsimp only; split <;> rfl)]
    exact h.owned
  · have hne : c ≠ mysql := fun he => hc (he ▸ hheld)
    rw [hasked]
    split
    · exact Function.update_of_ne hne _ _
    · rfl
  · rw [hasked]
    by_cases hneg : iRet < 0
    · rw [if_pos hneg, if_neg (show iRet ≠ 0 by omega)]
      exact hclean
    · rw [if_neg hneg]
      refine ⟨by omega, ?_⟩
      by_cases hzero : iRet = 0
      · rw [if_pos hzero, if_pos hzero, Function.update_self, hclean]
        rfl
      · rw [if_neg hzero, if_neg hzero]
        exact hclean
  · by_cases hneg : iRet < 0
    · rw [if_pos hneg]
      exact ⟨past, hevents', hbehind⟩
    · rw [if_neg hneg]
      exact ⟨past, hevents', hbehind⟩
  · rw [hopened, waiting_same hs (by rw [hphase]; dsimp only; split <;> rfl)]
    exact h.count

/-- `mysql_store_result`. -/
theorem store_inv (h : s.Inv er_error_last most) {result : Option DbResult} {errno : UInt32}
    {error : String} (hal : s.Allowed (.store t result errno error))
    (heq : s.exec er_error_last (.store t result errno error) = some s') :
    s'.Inv er_error_last most := by
  rw [exec] at heq
  dsimp only at heq
  split at heq
  case h_2 => cases heq
  rename_i mysql iRet hphase
  have hheld : s.held t = some mysql := by rw [held, hphase]; rfl
  have hloop := h.inLoop t
  rw [DbThread.InLoop, hphase] at hloop
  obtain ⟨past, hevents, hbehind⟩ := hloop
  have hclean := h.clean t
  rw [DbThread.Clean, hphase] at hclean
  obtain ⟨hret, hwaits⟩ := hclean
  have hx := Option.some.inj heq
  have hs : s'.thread = Function.update s.thread t
    { s.thread t with
      phase := .afterStore mysql iRet errno error (s.asked mysql).head? result } := hx ▸ rfl
  have hpool : s'.vstMySQLPool = s.vstMySQLPool := hx ▸ rfl
  have hopened : s'.opened = s.opened := hx ▸ rfl
  have hasked : s'.asked = Function.update s.asked mysql (s.asked mysql).tail := hx ▸ rfl
  have hnil : s'.asked mysql = [] := by
    rw [hasked, Function.update_self, hwaits]
    split <;> rfl
  refine h.goesOn hs ?_ (fun c _ hc => ?_) (fun c hmem => .inl (hpool ▸ hmem)) ?_ ?_ ?_
  · rw [hpool, hopened, held_same hs (by rw [hphase]; cases result <;> rfl)]
    exact h.owned
  · have hne : c ≠ mysql := fun he => hc (he ▸ hheld)
    rw [hasked]
    exact Function.update_of_ne hne _ _
  · cases hresult : result with
    | none => exact hnil
    | some res =>
      refine ⟨hret, hnil, ?_⟩
      have hne : s.waits t ≠ [] := hal (by rw [hresult]; rfl)
      rw [waits, hheld] at hne
      have hzero : iRet = 0 := by
        by_contra hno
        exact hne (hwaits.trans (if_neg hno))
      rw [hwaits, if_pos hzero]
      rfl
  · cases result with
    | none => exact ⟨past, hevents, hbehind⟩
    | some res => exact ⟨past, hevents, hbehind⟩
  · rw [hopened, waiting_same hs (by rw [hphase]; cases result <;> rfl)]
    exact h.count

/-- `PackResult`, and the connection goes back. -/
theorem pack_inv (h : s.Inv er_error_last most) {packed : Bool}
    (heq : s.exec er_error_last (.pack t packed) = some s') : s'.Inv er_error_last most := by
  rw [exec] at heq
  dsimp only at heq
  split at heq
  case h_2 => cases heq
  rename_i mysql iRet result statement hphase
  have hheld : s.held t = some mysql := by rw [held, hphase]; rfl
  have hloop := h.inLoop t
  rw [DbThread.InLoop, hphase] at hloop
  obtain ⟨past, hevents, hbehind⟩ := hloop
  have hclean := h.clean t
  rw [DbThread.Clean, hphase] at hclean
  obtain ⟨hret, hnil, -⟩ := hclean
  have hx := Option.some.inj heq
  have hs : s'.thread = Function.update s.thread t
    { s.thread t with
      events := (s.thread t).events ++ [.free mysql]
      phase := .finished ((Round.stored mysql iRet result packed).pack result.val
        (s.thread t).task.key (s.thread t).task.time) } := hx ▸ rfl
  have hpool : s'.vstMySQLPool = s.vstMySQLPool ++ [mysql] := hx ▸ rfl
  have hopened : s'.opened = s.opened := hx ▸ rfl
  have hasked : s'.asked = s.asked := hx ▸ rfl
  refine h.goesOn hs ?_ (fun c _ _ => by rw [hasked]) (fun c hmem => ?_) trivial ?_ ?_
  · rw [hpool, hopened]
    exact h.owned.give hheld (held_self hs) (held_other hs)
  · rw [hpool] at hmem
    rcases List.mem_append.mp hmem with hmem | hmem
    · exact .inl hmem
    · rw [List.mem_singleton.mp hmem, hasked]
      exact .inr hnil
  · have hends := hbehind.ends (tryDb_stored (s.thread t).task mysql hret result packed)
    have hall : (s.thread t).events ++ [.free mysql] =
        past ++ [.alloc (some mysql), .query mysql, .free mysql] := by
      rw [hevents, List.append_assoc]
      rfl
    rw [← hall] at hends
    exact hends
  · rw [hopened, waiting_same hs (by rw [hphase]; rfl)]
    exact h.count

/-- The connection goes back after an error, or is closed. -/
theorem giveBack_inv (h : s.Inv er_error_last most)
    (heq : s.exec er_error_last (.giveBack t) = some s') : s'.Inv er_error_last most := by
  rw [exec] at heq
  dsimp only at heq
  split at heq
  case h_2 => cases heq
  rename_i mysql iRet errno error hphase
  have hheld : s.held t = some mysql := by rw [held, hphase]; rfl
  have hloop := h.inLoop t
  rw [DbThread.InLoop, hphase] at hloop
  obtain ⟨past, hevents, hbehind⟩ := hloop
  have hnil := h.clean t
  rw [DbThread.Clean, hphase] at hnil
  generalize herr : (Round.failed mysql iRet errno error).err = err at heq
  -- the thread tries again, or it is behind the loop
  obtain ⟨th', hth, hnone, hinit, hclean, hinLoop⟩ : ∃ th' : DbThread,
      (if isGone err ∧ (s.thread t).try_num < max_try_num then
        { s.thread t with
          events := (s.thread t).events ++ [MysqlProxy.giveBack er_error_last err mysql]
          try_num := (s.thread t).try_num + 1
          phase := .alloc }
      else
        { s.thread t with
          events := (s.thread t).events ++ [MysqlProxy.giveBack er_error_last err mysql]
          phase := .finished (QueryError.refused ⟨iRet, err, error⟩) }) = th' ∧
      th'.phase.mysql = none ∧ th'.phase.isInit = false ∧ (∀ asked, th'.Clean asked) ∧
      th'.InLoop er_error_last := by
    have hround : tryDb er_error_last _ _ _ = _ :=
      tryDb_failed (s.thread t).task mysql iRet errno error
    rw [herr] at hround
    have hall : (s.thread t).events ++ [MysqlProxy.giveBack er_error_last err mysql] =
        past ++ [.alloc (some mysql), .query mysql,
          MysqlProxy.giveBack er_error_last err mysql] := by
      rw [hevents, List.append_assoc]
      rfl
    by_cases hagain : isGone err ∧ (s.thread t).try_num < max_try_num
    · rw [if_pos hagain]
      refine ⟨_, rfl, rfl, rfl, fun _ => trivial, _, ?_, hbehind.again hround hagain⟩
      rw [hall]
      exact (List.append_nil _).symm
    · rw [if_neg hagain]
      refine ⟨_, rfl, rfl, rfl, fun _ => trivial, ?_⟩
      have hends := hbehind.givesUp hround hagain
      rw [← hall] at hends
      exact hends
  rw [hth] at heq
  have hout : (s.thread t).phase.isInit = false := by rw [hphase]; rfl
  split at heq
  · have hx := Option.some.inj heq
    have hs : s'.thread = Function.update s.thread t th' := hx ▸ rfl
    have hpool : s'.vstMySQLPool = s.vstMySQLPool ++ [mysql] := hx ▸ rfl
    have hopened : s'.opened = s.opened := hx ▸ rfl
    have hasked : s'.asked = s.asked := hx ▸ rfl
    refine h.goesOn hs ?_ (fun c _ _ => by rw [hasked]) (fun c hmem => ?_) (hclean _) hinLoop ?_
    · rw [hpool, hopened]
      exact h.owned.give hheld ((held_self hs).trans hnone) (held_other hs)
    · rw [hpool] at hmem
      rcases List.mem_append.mp hmem with hmem | hmem
      · exact .inl hmem
      · rw [List.mem_singleton.mp hmem, hasked]
        exact .inr hnil
    · rw [hopened, waiting_same hs (hinit.trans hout.symm)]
      exact h.count
  · have hx := Option.some.inj heq
    have hs : s'.thread = Function.update s.thread t th' := hx ▸ rfl
    have hpool : s'.vstMySQLPool = s.vstMySQLPool := hx ▸ rfl
    have hopened : s'.opened = s.opened.erase mysql := hx ▸ rfl
    have hasked : s'.asked = s.asked := hx ▸ rfl
    refine h.goesOn hs ?_ (fun c _ _ => by rw [hasked]) (fun c hmem => .inl (hpool ▸ hmem))
      (hclean _) hinLoop ?_
    · rw [hpool, hopened]
      exact h.owned.closes hheld ((held_self hs).trans hnone) (held_other hs)
    · have hcard := Finset.card_erase_le (s := s.opened) (a := mysql)
      have hcount := h.count
      rw [hopened, waiting_same hs (hinit.trans hout.symm)]
      omega

/-- **Every step keeps the invariant.** -/
theorem step_inv (hmost : Fintype.card T ≤ most) (h : s.Inv er_error_last most)
    (hstep : Step er_error_last s s') : s'.Inv er_error_last most := by
  obtain ⟨e, hal, heq⟩ := hstep
  cases e with
  | begin t task => exact begin_inv h heq
  | get t => exact get_inv hmost h heq
  | connected t mysql => exact connected_inv h hal heq
  | refused t msg => exact refused_inv h heq
  | query t iRet errno error => exact query_inv h heq
  | store t result errno error => exact store_inv h hal heq
  | pack t packed => exact pack_inv h heq
  | giveBack t => exact giveBack_inv h heq

end Changes

/-- Two threads.  One loses its connection and goes on with the one that the other has given back. -/
def twoThreads : List (DbEvent Bool) :=
  [.begin false ⟨[115], [1], 0⟩, .get false, .begin true ⟨[116], [2], 0⟩, .get true,
    .connected false 7, .connected true 8, .query false 0 0 "", .query true (-1) 2006 "gone",
    .store false (some ⟨⟨[[1]], [], nofun⟩, by decide⟩) 0 "", .pack false true, .giveBack true,
    .get true]

def DbPhase.isFinished : DbPhase → Bool
  | .finished _ => true
  | _ => false

end PoolSystem

end MysqlProxy
