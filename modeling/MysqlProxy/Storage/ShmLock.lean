/-
  The write lock of the shared cache (`storage.h`, `storage.cc`).

  A server process opens the lock file once, in the static `UcStorage::lock_fd`, and all of its
  worker threads call `flock` on that one descriptor.  `flock` locks belong to the open file
  description: a second `LOCK_EX` through the same descriptor succeeds, and one `LOCK_UN` gives the
  lock up for the whole process.

  `ProcessRequest` brackets its cache write with `TryLockShm` and `UnlockShm`.  A thread is INSIDE
  between a `TryLockShm` that returned `0` and its `UnlockShm`.

  Modelling choices.
  * A call of `ShmLock` is one step.  What the kernel answers is an argument: the descriptor that
    `open` returns, and an error of `flock` other than contention (`EINTR`, `ENOLCK`).
  * The lock itself is the process that holds it, because a process has one description.
  * `Write` does not touch the lock.
-/
import MysqlProxy.Lib.Run
import Mathlib.Logic.Function.Basic

namespace MysqlProxy

def DB_LOCK_FILE : String := "/tmp/.mysql_proxy_shm_lock"

/-- The failures of `ShmLock`, with the text of `strerror(errno)`. -/
inductive LockError where
  | openFailed (err : String)
  | flockFailed (unlocking : Bool) (err : String)
  deriving DecidableEq, Repr

/-- The value `ShmLock` returns. -/
def LockError.code : LockError → Int
  | .openFailed _ => -1
  | .flockFailed _ _ => -2

/-- The text it leaves in `errmsg`. -/
def LockError.errmsg : LockError → String
  | .openFailed err => "open lock file " ++ DB_LOCK_FILE ++ " failed: " ++ err
  | .flockFailed unlocking err =>
    (if unlocking then "Unlock" else "Lock") ++ " file " ++ DB_LOCK_FILE ++ " failed: " ++ err

/-- What the kernel answers during a call. -/
structure Answers where
  /-- The descriptor that `open` returns, or the text of its error. -/
  opened : Except String Nat
  /-- An error of `flock` that has nothing to do with other holders. -/
  flockError : Option String

/-- The descriptors of the processes, the holder of the lock, the threads that are inside. -/
structure LockState (P T : Type) where
  lock_fd : P → Int
  holder : Option P
  inside : P → T → Bool

namespace LockState

variable {P T : Type}

/-- Nothing opened, nothing locked. -/
def init : LockState P T where
  lock_fd := fun _ => -1
  holder := none
  inside := fun _ _ => false

section Calls

variable [DecidableEq P] [DecidableEq T]

/-- `flock` on the descriptor of process `p`.  `none` in the place of a holder means that a
    blocking call waits. -/
def flock (holder : Option P) (p : P) (unlocking nonblocking : Bool) :
    Option (Except String (Option P)) :=
  if unlocking then some (.ok (if holder = some p then none else holder))
  else if holder = none ∨ holder = some p then some (.ok (some p))
  else if nonblocking then some (.error "Resource temporarily unavailable")
  else none

/-- `lock_fd`, opened if it is not open yet. -/
def openLockFile (s : LockState P T) (p : P) (a : Answers) : Except String Int :=
  if s.lock_fd p ≤ 0 then
    match a.opened with
    | .error err => .error err
    | .ok fd => .ok fd
  else .ok (s.lock_fd p)

/-- `ShmLock`, called by a thread of process `p`.  `none` means that the call waits. -/
def shmLock (s : LockState P T) (p : P) (iUnlocking trylock : Bool) (a : Answers) :
    Option (Except LockError Unit × LockState P T) :=
  match s.openLockFile p a with
  | .error err =>
    some (.error (.openFailed err), { s with lock_fd := Function.update s.lock_fd p (-1) })
  | .ok fd =>
    let s1 := { s with lock_fd := Function.update s.lock_fd p fd }
    match a.flockError with
    | some err => some (.error (.flockFailed iUnlocking err), s1)
    | none =>
      match flock s.holder p iUnlocking (trylock ∧ ¬ iUnlocking) with
      | none => none
      | some (.error err) => some (.error (.flockFailed iUnlocking err), s1)
      | some (.ok holder) => some (.ok (), { s1 with holder := holder })

/-- `TryLockShm`. -/
def tryLockShm (s : LockState P T) (p : P) (a : Answers) :
    Option (Except LockError Unit × LockState P T) := s.shmLock p false true a

/-- `UnlockShm`. -/
def unlockShm (s : LockState P T) (p : P) (a : Answers) :
    Option (Except LockError Unit × LockState P T) := s.shmLock p true false a

/-- Thread `t` of process `p` goes in or out. -/
def setInside (s : LockState P T) (p : P) (t : T) (b : Bool) : LockState P T :=
  { s with inside := Function.update s.inside p (Function.update (s.inside p) t b) }

/-- What a thread does next. -/
inductive Event (P T : Type) where
  | tryLock (p : P) (t : T) (a : Answers)
  | write (p : P) (t : T)
  | unlock (p : P) (t : T) (a : Answers)

/-- One step of one thread of `ProcessRequest`.  It writes and unlocks only when it is inside, and
    does not look at the result of `UnlockShm`. -/
def exec (s : LockState P T) : Event P T → Option (LockState P T)
  | .tryLock p t a =>
    if s.inside p t then none
    else
      match s.tryLockShm p a with
      | none => none
      | some (.ok _, s') => some (s'.setInside p t true)
      | some (.error _, s') => some s'
  | .write p t => if s.inside p t then some s else none
  | .unlock p t a =>
    if s.inside p t then
      match s.unlockShm p a with
      | none => none
      | some (_, s') => some (s'.setInside p t false)
    else none

/-- A step of any thread that meets `allowed`. -/
def Step (allowed : LockState P T → Event P T → Prop) (s s' : LockState P T) : Prop :=
  ∃ e, allowed s e ∧ s.exec e = some s'

end Calls

/-- No two processes are inside at the same time. -/
def Exclusive (s : LockState P T) : Prop :=
  ∀ p q t u, s.inside p t = true → s.inside q u = true → p = q

/-- A thread that unlocks is the last one of its process that is inside. -/
def LastOut (s : LockState P T) : Event P T → Prop
  | .unlock p t _ => ∀ u, s.inside p u = true → u = t
  | _ => True

/-! ## What the lock does -/

section Spec

variable [DecidableEq P] {s s' : LockState P T} {p : P} {a : Answers}

/-- A `TryLockShm` that returns `0` found the lock free or in its own process, and holds it. -/
theorem tryLockShm_ok (h : s.tryLockShm p a = some (.ok (), s')) :
    (s.holder = none ∨ s.holder = some p) ∧ s'.holder = some p ∧ s'.inside = s.inside := by
  unfold tryLockShm shmLock at h
  split at h
  · simp at h
  · split at h
    · simp at h
    · by_cases hfree : s.holder = none ∨ s.holder = some p
      · simp only [flock, Bool.false_eq_true, if_false, if_pos hfree, Option.some.injEq,
          Prod.mk.injEq, true_and] at h
        subst h
        exact ⟨hfree, rfl, rfl⟩
      · simp [flock, hfree] at h

/-- A `TryLockShm` that fails changes neither the holder nor who is inside. -/
theorem tryLockShm_error {e : LockError} (h : s.tryLockShm p a = some (.error e, s')) :
    s'.holder = s.holder ∧ s'.inside = s.inside := by
  unfold tryLockShm shmLock at h
  split at h
  · obtain ⟨-, rfl⟩ := Prod.mk.inj (Option.some.inj h)
    exact ⟨rfl, rfl⟩
  · split at h
    · obtain ⟨-, rfl⟩ := Prod.mk.inj (Option.some.inj h)
      exact ⟨rfl, rfl⟩
    · split at h
      · simp at h
      · obtain ⟨-, rfl⟩ := Prod.mk.inj (Option.some.inj h)
        exact ⟨rfl, rfl⟩
      · simp at h

/-- `UnlockShm` takes the lock from no other process. -/
theorem unlockShm_holder {r : Except LockError Unit} (h : s.unlockShm p a = some (r, s')) :
    s'.inside = s.inside ∧ (s'.holder = s.holder ∨ s.holder = some p ∧ s'.holder = none) := by
  unfold unlockShm shmLock at h
  split at h
  · obtain ⟨-, rfl⟩ := Prod.mk.inj (Option.some.inj h)
    exact ⟨rfl, .inl rfl⟩
  · split at h
    · obtain ⟨-, rfl⟩ := Prod.mk.inj (Option.some.inj h)
      exact ⟨rfl, .inl rfl⟩
    · simp only [flock, if_true, Option.some.injEq, Prod.mk.injEq] at h
      obtain ⟨-, rfl⟩ := h
      refine ⟨rfl, ?_⟩
      by_cases hp : s.holder = some p
      · exact .inr ⟨hp, by simp [hp]⟩
      · exact .inl (by simp [hp])

end Spec

/-! ## Exclusion -/

/-- A process with a thread inside holds the lock. -/
def Guarded (s : LockState P T) : Prop := ∀ p t, s.inside p t = true → s.holder = some p

theorem Guarded.exclusive {s : LockState P T} (h : s.Guarded) : s.Exclusive := by
  intro p q t u hp hq
  have heq := (h p t hp).symm.trans (h q u hq)
  exact Option.some.inj heq

variable [DecidableEq P] [DecidableEq T]

/-- Who is inside after thread `t` of `p` has gone in or out. -/
theorem setInside_inside (s : LockState P T) (p q : P) (t u : T) (b : Bool) :
    (s.setInside p t b).inside q u = if q = p ∧ u = t then b else s.inside q u := by
  unfold setInside
  by_cases hq : q = p
  · subst hq
    by_cases hu : u = t
    · subst hu
      simp
    · simp [hu]
  · simp [hq]

theorem tryLock_guarded {s s' : LockState P T} {p : P} {t : T} {a : Answers} (h : s.Guarded)
    (heq : s.exec (.tryLock p t a) = some s') : s'.Guarded := by
  simp only [exec] at heq
  split at heq
  · simp at heq
  rcases htry : s.tryLockShm p a with _ | ⟨e | u, s1⟩
  · simp [htry] at heq
  · obtain rfl : s1 = s' := by simpa [htry] using heq
    obtain ⟨hheld, hin⟩ := tryLockShm_error htry
    intro q u hq
    rw [hheld]
    exact h q u (hin ▸ hq)
  · obtain rfl : s1.setInside p t true = s' := by simpa [htry] using heq
    obtain ⟨hfree, hheld, hin⟩ := tryLockShm_ok htry
    intro q u hq
    rw [setInside_inside, hin] at hq
    by_cases hqp : q = p ∧ u = t
    · rw [hqp.1]
      exact hheld
    · rw [if_neg hqp] at hq
      have hold := h q u hq
      -- the lock was free or ours, and the process of `u` held it
      rcases hfree with hnone | hours
      · rw [hnone] at hold
        simp at hold
      · rw [hours] at hold
        obtain rfl := Option.some.inj hold
        exact hheld

theorem unlock_guarded {s s' : LockState P T} {p : P} {t : T} {a : Answers} (h : s.Guarded)
    (hlast : ∀ u, s.inside p u = true → u = t) (heq : s.exec (.unlock p t a) = some s') :
    s'.Guarded := by
  simp only [exec] at heq
  split at heq
  · rcases hun : s.unlockShm p a with _ | ⟨r, s1⟩
    · simp [hun] at heq
    · obtain rfl : s1.setInside p t false = s' := by simpa [hun] using heq
      obtain ⟨hin, hheld⟩ := unlockShm_holder hun
      intro q u hq
      rw [setInside_inside, hin] at hq
      by_cases hqp : q = p ∧ u = t
      · rw [if_pos hqp] at hq
        simp at hq
      · rw [if_neg hqp] at hq
        have hold := h q u hq
        rcases hheld with hsame | ⟨hours, -⟩
        · exact hsame.trans hold
        · -- the lock is given up, so `u` was a second thread of this process
          rw [hours] at hold
          obtain rfl := Option.some.inj hold
          exact absurd ⟨rfl, hlast u hq⟩ hqp
  · simp at heq

/-- One step keeps the invariant, if who unlocks is the last one out. -/
theorem step_guarded {s s' : LockState P T} (h : s.Guarded) (hs : Step LastOut s s') :
    s'.Guarded := by
  obtain ⟨e, hlast, heq⟩ := hs
  cases e with
  | tryLock p t a => exact tryLock_guarded h heq
  | write p t =>
    simp only [exec] at heq
    split at heq
    · exact Option.some.inj heq ▸ h
    · simp at heq
  | unlock p t a => exact unlock_guarded h hlast heq

/-- **Exclusion.**  In every state of every run in which `UnlockShm` is only called by the last
    thread of its process that is inside, no two processes are inside. -/
theorem run_exclusive {s : LockState P T}
    (hrun : Relation.ReflTransGen (Step LastOut) init s) : s.Exclusive := by
  have hinit : (init : LockState P T).Guarded := by
    intro p t hp
    simp [init] at hp
  exact (run_invariant hrun hinit step_guarded).exclusive

/-- The kernel opens descriptor `3` and reports no error. -/
def plainAnswers : Answers := ⟨.ok 3, none⟩

/-- One process locks and unlocks, then another one locks. -/
theorem run_exclusive_two_processes :
    ∃ s : LockState Bool Bool, s.inside false true = true ∧ s.Exclusive :=
  ⟨_, rfl, run_exclusive (((Relation.ReflTransGen.single
    ⟨.tryLock true true plainAnswers, trivial, rfl⟩).tail
    ⟨.unlock true true plainAnswers, by unfold LastOut; decide, rfl⟩).tail
    ⟨.tryLock false true plainAnswers, trivial, rfl⟩)⟩

/-- **The defect.**  Two threads of one process lock, one of them unlocks: the lock is free while
    the other one is still inside, and a thread of another process gets it. -/
theorem shared_descriptor_not_exclusive : ∃ s : LockState Bool Bool,
    Relation.ReflTransGen (Step fun _ _ => True) init s ∧ s.inside true false = true ∧
      s.inside false true = true ∧ ¬ s.Exclusive := by
  refine ⟨_, (((Relation.ReflTransGen.single
    ⟨.tryLock true true plainAnswers, trivial, rfl⟩).tail
    ⟨.tryLock true false plainAnswers, trivial, rfl⟩).tail
    ⟨.unlock true true plainAnswers, trivial, rfl⟩).tail
    ⟨.tryLock false true plainAnswers, trivial, rfl⟩, rfl, rfl, fun h => ?_⟩
  have := h true false false true rfl rfl
  simp at this

end LockState

end MysqlProxy
