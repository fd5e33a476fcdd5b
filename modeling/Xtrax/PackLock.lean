import Xtrax.Machine
import Mathlib.Tactic.Common

/-! # The pack lock, one system call at a time

`_pack_lock` guards a unit directory with a POSIX record lock on the file
`members.tar.zst.lock`.  Any number of processes run it; this module is their
interleaving, split at `os.open`, `fcntl.lockf`, `os.stat`, `os.fstat`,
`os.unlink` and `os.close`.

A lock belongs to an inode, not to a name.  An inode created by `O_CREAT` is new, and
its number is not reused while a descriptor is open on it.  `fcntl.lockf` with
`LOCK_NB` is granted on an inode no other process holds and fails with `EAGAIN`
otherwise; the environment may also make it fail with an error number of its own choice.
-/
namespace Xtrax.PackLock
open Interleaving

/-- `errno.EAGAIN` and `errno.EACCES`, the two answers that mean "held". -/
def EAGAIN : Nat := 11
def EACCES : Nat := 13

/-- `for _ in range(8)`. -/
def attempts : Nat := 8

/-- How a call of `_pack_lock` ends. -/
inductive Outcome
  /-- The `with` block ran and the lock was released. -/
  | released
  /-- `UnitPackRefused("R-U4")`: another process is packing this unit. -/
  | heldElsewhere
  /-- `LockUnavailable`: no POSIX lock on this filesystem. -/
  | lockUnavailable (errno : Nat)
  /-- `UnitPackRefused("R-U4")`: the pack lock kept changing under us. -/
  | keptChanging
  /-- `LockUnavailable`: `local_only_lock_reason` says locks there exclude no other node. -/
  | localOnly
  deriving DecidableEq, Repr

/-- What `os.close` in the outer `finally` is followed by. -/
inductive After
  /-- `continue`: the next iteration of the loop. -/
  | retry (left : Nat)
  | finish (o : Outcome)
  deriving DecidableEq, Repr

/-- Where a process is in `_pack_lock`: `left` counts the iterations that remain after this one,
`fd` is the inode its descriptor is open on. -/
inductive Pc
  /-- Outside: never called, or the last call ended as recorded. -/
  | idle (last : Option Outcome)
  /-- About to `os.open(path, O_RDWR | O_CREAT)`. -/
  | opening (left : Nat)
  /-- About to `fcntl.lockf(fd, LOCK_EX | LOCK_NB)`. -/
  | locking (left fd : Nat)
  /-- `lockf` failed with another error number: about to `os.unlink(path)`. -/
  | unlinking (fd errno : Nat)
  /-- Lock granted: about to `os.stat(path)`. -/
  | checking (left fd : Nat)
  /-- About to compare `current` with `os.fstat(fd).st_ino`. -/
  | comparing (left fd : Nat) (current : Option Nat)
  /-- At the `yield`: inside the locked region. -/
  | inside (fd : Nat)
  /-- In the inner `finally`, about to `os.stat(path)`. -/
  | releasing (fd : Nat)
  /-- About to compare `current` with `os.fstat(fd).st_ino`, then `os.unlink(path)`. -/
  | matching (fd current : Nat)
  /-- The comparison held: about to `os.unlink(path)`. -/
  | removing (fd : Nat)
  /-- In the outer `finally`: about to `os.close(fd)`. -/
  | closing (fd : Nat) (after : After)
  deriving DecidableEq, Repr

/-- The lock file's directory entry, the next inode number, the record locks and
the processes. -/
structure State (P : Type) where
  entry : Option Nat
  next : Nat
  holder : Nat → Option P
  pc : P → Pc

/-- What process `p` does next, and what the environment answers it. -/
inductive Act
  /-- A process that is outside calls `_pack_lock`; `localOnly` is whether
  `local_only_lock_reason` gives a reason. -/
  | call (localOnly : Bool)
  /-- The system call the process is about to make, other than `lockf`. -/
  | syscall
  /-- `lockf`; `some e` makes it fail with error number `e`. -/
  | lockf (fails : Option Nat)
  /-- The body of the `with` block ends, normally or by an exception. -/
  | leave
  /-- The process dies: its descriptor is closed and its locks are dropped. -/
  | crash
  deriving DecidableEq, Repr

variable {P : Type} [DecidableEq P]

/-- `p` moves to `c`. -/
def State.goto (s : State P) (p : P) (c : Pc) : State P :=
  { s with pc := Function.update s.pc p c }

/-- `p` gives up its record lock on inode `i`, if it holds one. -/
def State.unlock (s : State P) (p : P) (i : Nat) : State P :=
  { s with holder := fun j => if j = i ∧ s.holder j = some p then none else s.holder j }

/-- The inode a process's descriptor is open on. -/
def Pc.fd? : Pc → Option Nat
  | idle _ | opening _ => none
  | locking _ fd | unlinking fd _ | checking _ fd | comparing _ fd _ | inside fd
  | releasing fd | matching fd _ | removing fd | closing fd _ => some fd

/-- `os.open(path, O_RDWR | O_CREAT)`: the inode the entry names, or a new one. -/
def State.openLock (s : State P) : Nat × State P :=
  match s.entry with
  | some i => (i, s)
  | none => (s.next, { s with entry := some s.next, next := s.next + 1 })

/-- `fcntl.lockf(fd, LOCK_EX | LOCK_NB)` by `p`: `none` when it is granted, else
its error number. -/
def State.lockError (s : State P) (p : P) (fd : Nat) : Option Nat → Option Nat
  | some e => some e
  | none => if s.holder fd = none ∨ s.holder fd = some p then none else some EAGAIN

/-- One step of `p` in `_pack_lock`. -/
def step (s : State P) : P × Act → Option (State P)
  | (p, .call localOnly) =>
    match s.pc p with
    | .idle _ =>
      if localOnly then some (s.goto p (.idle (some .localOnly)))
      else some (s.goto p (.opening (attempts - 1)))
    | _ => none
  | (p, .syscall) =>
    match s.pc p with
    | .opening left =>
      let (i, s) := s.openLock
      some (s.goto p (.locking left i))
    | .unlinking fd e =>
      some ({ s with entry := none }.goto p (.closing fd (.finish (.lockUnavailable e))))
    | .checking left fd => some (s.goto p (.comparing left fd s.entry))
    | .comparing left fd current =>
      if current = some fd then some (s.goto p (.inside fd))
      else some (s.goto p (.closing fd (.retry left)))
    | .releasing fd =>
      match s.entry with
      | none => some (s.goto p (.closing fd (.finish .released)))
      | some i => some (s.goto p (.matching fd i))
    | .matching fd current =>
      if current = fd then some (s.goto p (.removing fd))
      else some (s.goto p (.closing fd (.finish .released)))
    | .removing fd => some ({ s with entry := none }.goto p (.closing fd (.finish .released)))
    | .closing fd (.retry 0) => some ((s.unlock p fd).goto p (.idle (some .keptChanging)))
    | .closing fd (.retry (left + 1)) => some ((s.unlock p fd).goto p (.opening left))
    | .closing fd (.finish o) => some ((s.unlock p fd).goto p (.idle (some o)))
    | _ => none
  | (p, .lockf fails) =>
    match s.pc p with
    | .locking left fd =>
      match s.lockError p fd fails with
      | none =>
        some ({ s with holder := Function.update s.holder fd (some p) }.goto p (.checking left fd))
      | some e =>
        if e = EACCES ∨ e = EAGAIN then
          some (s.goto p (.closing fd (.finish .heldElsewhere)))
        else some (s.goto p (.unlinking fd e))
    | _ => none
  | (p, .leave) =>
    match s.pc p with
    | .inside fd => some (s.goto p (.releasing fd))
    | _ => none
  | (p, .crash) =>
    match (s.pc p).fd? with
    | some fd => some ((s.unlock p fd).goto p (.idle none))
    | none => some (s.goto p (.idle none))

/-- No process has called yet; a lock file may be left over from a killed holder. -/
def Initial (s : State P) : Prop :=
  (∀ p, ∃ o, s.pc p = .idle o) ∧ (∀ i, s.holder i = none) ∧ ∀ i, s.entry = some i → i < s.next

/-- Any number of processes running `_pack_lock` on one unit. -/
def machine : Machine (State P) (P × Act) where
  init := Initial
  step := step

/-- `p` is inside the locked region. -/
def Inside (s : State P) (p : P) : Prop := ∃ fd, s.pc p = .inside fd

end Xtrax.PackLock
