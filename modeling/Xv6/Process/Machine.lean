import Xv6.Process.Table
import Xv6.Lib.Run

/-!
# The process table as a machine

Each label is one section of kernel code that runs with `ptable.lock` held, together with the CPU
that runs it.  Between two labels the lock is free, so a list of labels is an interleaving of the
critical sections of all CPUs and `Lib.exec step PTable.boot` runs it.

`fork` is three sections.  `forkAlloc` is the locked part of `allocproc`; `forkFail` and
`forkParent` are what happens to the claimed slot without the lock (the two failure paths release
it, the success path sets `parent`); `forkEnqueue` is the section at the end.  A process that
wakes up inside `wait` goes on with `wait` again, which is the next round of its loop.

The timer interrupt can take the CPU away from a process at every one of these points; it can
also make any process older or wake sleepers, so `aging` and `wakeup` need no process.
-/

namespace Xv6.Process

open PTable

inductive Label
  | userinit
  | dispatch (c : ℕ)
  | tick (c : ℕ)
  | sleep (c : ℕ) (chan : Chan)
  | wakeup (chan : Chan)
  | kill (pid : ℤ)
  | nice (c : ℕ) (inc : ℤ)
  | aging
  | forkAlloc (c : ℕ)
  | forkFail (c : ℕ)
  | forkParent (c : ℕ)
  | forkEnqueue (c : ℕ)
  | exit (c : ℕ)
  | wait (c : ℕ)
  deriving DecidableEq

inductive Event
  | none
  /-- `allocproc` gave out a pid. -/
  | allocated (pid : ℤ)
  /-- `fork` returned the pid to the process `p`. -/
  | forked (p : Slot) (pid : ℤ)
  /-- `wait` returned the pid to the process `p`. -/
  | reaped (p : Slot) (pid : ℤ)
  deriving DecidableEq

/-- The process that CPU `c` runs, when it is at the program point `ctx`. -/
def runningAt (s : PTable) (c : ℕ) (ctx : Context) : Option Slot :=
  match s.cpu c with
  | none => none
  | some p => if (s.proc p).context = ctx then some p else none

/-- `userinit`: the first process. -/
def userinit (s : PTable) : Option (PTable × Event) :=
  if s.initproc = none then
    match allocproc s with
    | none => none
    | some (p, s') => some (enqueue p { s' with initproc := some p }, .allocated s.nextpid)
  else none

/-- The timer interrupt while CPU `c` runs a process. -/
def tick (c : ℕ) (s : PTable) : Option (PTable × Event) :=
  match s.cpu c with
  | none => none
  | some p =>
    let s := s.modProc p fun x => { x with ticksCount := (x.ticksCount + 1) % 2 ^ 32 }
    some (if (s.proc p).ticksCount ≥ QUANTUM then yield c p s else s, .none)

/-- `fork` up to the release of `ptable.lock` in `allocproc`.  Without an unused slot `fork`
returns -1. -/
def forkAlloc (c : ℕ) (s : PTable) : Option (PTable × Event) :=
  match runningAt s c .user with
  | none => none
  | some p =>
    match allocproc s with
    | none => some (s, .none)
    | some (np, s') =>
      some (s'.modProc p fun x => { x with context := .forking np }, .allocated s.nextpid)

/-- The child of `fork` that the process on CPU `c` has claimed and not yet filled in. -/
def forkingOn (s : PTable) (c : ℕ) : Option (Slot × Slot) :=
  match s.cpu c with
  | none => none
  | some p =>
    match (s.proc p).context with
    | .forking np => some (p, np)
    | _ => none

/-- The child of `fork` that the process on CPU `c` has filled in and not yet queued. -/
def forkedOn (s : PTable) (c : ℕ) : Option (Slot × Slot) :=
  match s.cpu c with
  | none => none
  | some p =>
    match (s.proc p).context with
    | .forked np => some (p, np)
    | _ => none

/-- No memory for the kernel stack or the page table: the slot is unused again. -/
def forkFail (c : ℕ) (s : PTable) : Option (PTable × Event) :=
  match forkingOn s c with
  | none => none
  | some (p, np) =>
    some ((s.modProc np fun x => { x with state := .unused }).modProc p fun x =>
      { x with context := .user }, .none)

/-- `np->parent = curproc`. -/
def forkParent (c : ℕ) (s : PTable) : Option (PTable × Event) :=
  match forkingOn s c with
  | none => none
  | some (p, np) =>
    some ((s.modProc np fun x => { x with parent := some p }).modProc p fun x =>
      { x with context := .forked np }, .none)

/-- The last section of `fork`: queue the child and return its pid. -/
def forkEnqueue (c : ℕ) (s : PTable) : Option (PTable × Event) :=
  match forkedOn s c with
  | none => none
  | some (p, np) =>
    some ((enqueue np s).modProc p fun x => { x with context := .user },
      .forked p (s.proc np).pid)

def waitEvent (p : Slot) : WaitResult → Event
  | .reaped pid => .reaped p pid
  | _ => .none

/-- `wait` called from user space, or its next round after a sleep. -/
def waitOn (s : PTable) (c : ℕ) : Option Slot :=
  match s.cpu c with
  | none => none
  | some p =>
    match (s.proc p).context with
    | .user => some p
    | .waiting => some p
    | _ => none

def step (s : PTable) : Label → Option (PTable × Event)
  | .userinit => userinit s
  | .dispatch c =>
    if s.cpu c = none then (scheduler c s).map fun s => (s, .none) else none
  | .tick c => tick c s
  | .sleep c chan =>
    (runningAt s c .user).map fun p => (sleep c p chan .asleep s, .none)
  | .wakeup chan => some (wakeup1 (some chan) s, .none)
  | .kill pid => some ((kill pid s).1, .none)
  | .nice c inc => (runningAt s c .user).map fun p => ((nice p inc s).1, .none)
  | .aging => (aging s).map fun s => (s, .none)
  | .forkAlloc c => forkAlloc c s
  | .forkFail c => forkFail c s
  | .forkParent c => forkParent c s
  | .forkEnqueue c => forkEnqueue c s
  | .exit c =>
    match runningAt s c .user with
    | none => none
    | some p => (exit c p s).map fun s => (s, .none)
  | .wait c =>
    (waitOn s c).map fun p => ((wait c p s).1, waitEvent p (wait c p s).2)

end Xv6.Process
