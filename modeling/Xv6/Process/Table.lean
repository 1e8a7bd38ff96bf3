import Xv6.Param
import Xv6.Lib.LinkedQueue

/-!
# The process table and the priority levels of `proc.c`

The data behind `ptable.lock`: the process table, the four run queues `levels`, the process that
each CPU runs, `nextpid` and `initproc`.  The functions of `proc.c` that work on it become
functions on `PTable`, statement by statement, with pointers as `Option Slot`.

The queue links are fields of the processes, as in the source, so `enqueue`, `dequeue` and
`removefromlevel` write through pointers into processes that the caller does not name.  What they
do to the lists is proved in `Process.Queue`.

A `panic` and a dereferenced null pointer are `none`.  So is a loop over a list that does not
end: `aging` walks at most `NPROC` processes of a level, and `Process.RunQueue` proves that this is
enough.
-/

namespace Xv6.Process

inductive ProcState
  | unused
  | embryo
  | sleeping
  | runnable
  | running
  | zombie
  deriving DecidableEq

/-- The channels that processes sleep on: the address of a process (in `wait`), of a semaphore
of `sems.list`, or of any other kernel object. -/
inductive Chan
  | proc (p : Slot)
  | sem (key : ℤ)
  | other (addr : ℕ)
  deriving DecidableEq

/-- Where a process that is not being created or gone will go on: the part of its saved kernel
context that the process table depends on. -/
inductive Context
  /-- In user space or in kernel code that does not concern the process table. -/
  | user
  /-- In `fork`, after `allocproc` has claimed the slot `np` for the child. -/
  | forking (np : Slot)
  /-- In `fork`, after the child `np` has been filled in, before it is queued. -/
  | forked (np : Slot)
  /-- In the loop of `wait`. -/
  | waiting
  /-- In `sleep`, called from elsewhere. -/
  | asleep
  deriving DecidableEq

/-- `struct proc`, the fields that scheduling and the process tree use. -/
@[ext]
structure Proc where
  state : ProcState := .unused
  pid : ℤ := 0
  parent : Option Slot := none
  chan : Option Chan := none
  killed : Bool := false
  ticksCount : ℕ := 0
  nice : ℤ := 0
  age : ℕ := 0
  next : Option Slot := none
  back : Option Slot := none
  context : Context := .user
  deriving DecidableEq

/-- `struct level`: a queue given by its two ends. -/
abbrev Level := Lib.Ends Slot

/-- What `ptable.lock` protects. -/
@[ext]
structure PTable where
  proc : Slot → Proc
  levels : ℤ → Level
  nextpid : ℤ
  initproc : Option Slot
  /-- `cpus[c].proc`: the process running on CPU `c`. -/
  cpu : ℕ → Option Slot

/-- The table before `userinit`: zeroed memory, and `nextpid = 1`. -/
def PTable.boot : PTable where
  proc _ := {}
  levels _ := ⟨none, none⟩
  nextpid := 1
  initproc := none
  cpu _ := none

namespace PTable

/-- Assign to fields of the process in slot `p`. -/
def modProc (s : PTable) (p : Slot) (f : Proc → Proc) : PTable :=
  { s with proc := fun q => if q = p then f (s.proc p) else s.proc q }

/-- `p->next = o`. -/
def setNext (s : PTable) (p : Slot) (o : Option Slot) : PTable :=
  s.modProc p fun x => { x with next := o }

/-- `p->back = o`. -/
def setBack (s : PTable) (p : Slot) (o : Option Slot) : PTable :=
  s.modProc p fun x => { x with back := o }

/-- `levels[l] = e`. -/
def setLevel (s : PTable) (l : ℤ) (e : Level) : PTable :=
  { s with levels := fun k => if k = l then e else s.levels k }

/-- `cpus[c].proc = p`. -/
def setCpu (s : PTable) (c : ℕ) (p : Option Slot) : PTable :=
  { s with cpu := fun d => if d = c then p else s.cpu d }

variable (s : PTable) (p q : Slot) (f : Proc → Proc) (l k : ℤ) (e : Level) (c : ℕ)
  (o : Option Slot)

theorem modProc_proc : (s.modProc p f).proc q = if q = p then f (s.proc p) else s.proc q := rfl
@[simp] theorem modProc_proc_self : (s.modProc p f).proc p = f (s.proc p) := if_pos rfl

theorem modProc_field {β : Type*} {f : Proc → Proc} (g : Proc → β)
    (hg : ∀ y, g (f y) = g y := by intro; rfl) :
    g ((s.modProc p f).proc q) = g (s.proc q) := by
  rw [modProc_proc]
  split_ifs with h
  · rw [h, hg]
  · rfl

@[simp] theorem modProc_levels : (s.modProc p f).levels = s.levels := rfl
@[simp] theorem modProc_nextpid : (s.modProc p f).nextpid = s.nextpid := rfl
@[simp] theorem modProc_initproc : (s.modProc p f).initproc = s.initproc := rfl
@[simp] theorem modProc_cpu : (s.modProc p f).cpu = s.cpu := rfl

@[simp] theorem setNext_levels : (s.setNext p o).levels = s.levels := rfl
@[simp] theorem setBack_levels : (s.setBack p o).levels = s.levels := rfl

theorem setLevel_levels : (s.setLevel l e).levels k = if k = l then e else s.levels k := rfl
theorem setLevel_proc : (s.setLevel l e).proc = s.proc := rfl

theorem setCpu_cpu (d : ℕ) : (s.setCpu c o).cpu d = if d = c then o else s.cpu d := rfl
@[simp] theorem setCpu_proc : (s.setCpu c o).proc = s.proc := rfl
@[simp] theorem setCpu_nextpid : (s.setCpu c o).nextpid = s.nextpid := rfl
@[simp] theorem setCpu_initproc : (s.setCpu c o).initproc = s.initproc := rfl

def links (s : PTable) : Lib.Links Slot := ⟨fun p => (s.proc p).next, fun p => (s.proc p).back⟩

end PTable

open PTable

/-! ## Priority levels -/

/-- Put a process at the head of the list of its level. -/
def enqueue (p : Slot) (s : PTable) : PTable :=
  let s := s.modProc p fun x => { x with state := .runnable }
  let l := (s.proc p).nice
  let s := (s.setNext p (s.levels l).head).setBack p none
  let s :=
    match (s.levels l).head with
    | some h => s.setBack h (some p)
    | none => s.setLevel l ⟨(s.levels l).head, some p⟩
  s.setLevel l ⟨some p, (s.levels l).last⟩

/-- Take the process at the end of the list of a level; an empty level panics. -/
def dequeue (l : ℤ) (s : PTable) : Option (Slot × PTable) :=
  match (s.levels l).last with
  | none => none
  | some p =>
    let s :=
      match (s.proc p).back with
      | none => s.setLevel l ⟨none, none⟩
      | some b => (s.setNext b none).setLevel l ⟨(s.levels l).head, some b⟩
    some (p, (s.setBack p none).setNext p none)

def isempty (l : ℤ) (s : PTable) : Bool := (s.levels l).head.isNone

/-- Lower the priority of a process if possible. -/
def decreasepriority (p : Slot) (s : PTable) : PTable :=
  if (s.proc p).nice < (PLEVELS : ℤ) - 1 then
    s.modProc p fun x => { x with nice := x.nice + 1 }
  else s

/-- Raise the priority of a process if possible. -/
def increasepriority (p : Slot) (s : PTable) : PTable :=
  if (s.proc p).nice > 0 then s.modProc p fun x => { x with nice := x.nice - 1 } else s

/-- Take a process out of a level: the only one, the last one, the first one, or one from the
middle. -/
def removefromlevel (p : Slot) (l : ℤ) (s : PTable) : PTable :=
  let s :=
    match (s.proc p).back, (s.proc p).next with
    | none, none => s.setLevel l ⟨none, none⟩
    | some b, none => (s.setNext b none).setLevel l ⟨(s.levels l).head, some b⟩
    | none, some n => (s.setLevel l ⟨some n, (s.levels l).last⟩).setBack n none
    | some b, some n => (s.setNext b (some n)).setBack n (some b)
  (s.setBack p none).setNext p none

/-! ## Sleeping, waking, killing -/

/-- The slots of `ptable.proc`, in the order in which the loops of `proc.c` visit them. -/
def slots : List Slot := List.finRange NPROC

@[simp] theorem mem_slots (p : Slot) : p ∈ slots := List.mem_finRange p

def wakeupOne (chan : Option Chan) (s : PTable) (p : Slot) : PTable :=
  if (s.proc p).state = .sleeping ∧ (s.proc p).chan = chan then
    enqueue p (increasepriority p s)
  else s

/-- Make every process that sleeps on `chan` runnable. -/
def wakeup1 (chan : Option Chan) (s : PTable) : PTable := slots.foldl (wakeupOne chan) s

/-- Mark the first process with the given pid; wake it if it sleeps. -/
def kill (pid : ℤ) (s : PTable) : PTable × ℤ :=
  match slots.find? fun p => (s.proc p).pid = pid with
  | none => (s, -1)
  | some p =>
    let s := s.modProc p fun x => { x with killed := true }
    (if (s.proc p).state = .sleeping then enqueue p s else s, 0)

/-- Add `inc` to the nice value of the calling process, if the sum is a level. -/
def nice (p : Slot) (inc : ℤ) (s : PTable) : PTable × ℤ :=
  let newnice := int32 ((s.proc p).nice + inc)
  if newnice < 0 ∨ newnice > (PLEVELS : ℤ) - 1 then (s, -1)
  else (s.modProc p fun x => { x with nice := newnice }, newnice)

/-! ## Aging -/

/-- One round of the inner loop of `aging`: the process `p` of level `i` gets older, and moves up
one level once it is old. -/
def agingOne (i : ℤ) (p : Slot) (s : PTable) : PTable :=
  let s := s.modProc p fun x => { x with age := (x.age + 1) % 2 ^ 32 }
  if (s.proc p).age ≥ AGELIMIT then enqueue p (increasepriority p (removefromlevel p i s))
  else s

/-- The inner loop of `aging`, from the process `p` on; `next` is read before the body runs. -/
def agingLevel (i : ℤ) : ℕ → Option Slot → PTable → Option PTable
  | _, none, s => some s
  | 0, some _, _ => none
  | n + 1, some p, s => agingLevel i n (s.proc p).next (agingOne i p s)

/-- One pass over the levels from 1 on. -/
def aging (s : PTable) : Option PTable :=
  [1, 2, 3].foldlM (fun s (i : ℤ) => agingLevel i NPROC (s.levels i).head s) s

/-! ## Processes -/

/-- The locked part of `allocproc`: claim the first unused slot. -/
def allocproc (s : PTable) : Option (Slot × PTable) :=
  match slots.find? fun p => (s.proc p).state = .unused with
  | none => none
  | some p =>
    some (p, { s.modProc p fun x =>
      { x with state := .embryo, pid := s.nextpid, nice := DEFAULTPLEVEL } with
      nextpid := int32 (s.nextpid + 1) })

/-- The level that `scheduler` takes the next process from. -/
def firstLevel (s : PTable) : Option ℤ :=
  ((List.range PLEVELS).map fun (n : ℕ) => (n : ℤ)).find? fun i => !isempty i s

/-- The process as `swtch` resumes it: running, and past the `sched` of `sleep` if it was there,
where it clears its `chan`. -/
def Proc.resume (x : Proc) : Proc :=
  { x with
    state := .running
    chan := if x.context = .asleep ∨ x.context = .waiting then none else x.chan
    context := if x.context = .asleep then .user else x.context }

/-- `scheduler` on an idle CPU `c`: switch to the next process of the first level that has
one. -/
def scheduler (c : ℕ) (s : PTable) : Option PTable :=
  match firstLevel s with
  | none => none
  | some i =>
    match dequeue i s with
    | none => none
    | some (p, s) => some ((s.setCpu c (some p)).modProc p Proc.resume)

/-- `sched`: back to the scheduler of CPU `c`, which forgets the process. -/
def sched (c : ℕ) (s : PTable) : PTable := s.setCpu c none

/-- Give up the CPU at the end of the quantum. -/
def yield (c : ℕ) (p : Slot) (s : PTable) : PTable :=
  let s := s.modProc p fun x => { x with ticksCount := 0 }
  sched c (enqueue p (decreasepriority p s))

/-- `sleep`, from the point where it holds `ptable.lock` to `sched`. -/
def sleep (c : ℕ) (p : Slot) (chan : Chan) (ctx : Context) (s : PTable) : PTable :=
  sched c (s.modProc p fun x => { x with chan := some chan, state := .sleeping, context := ctx })

/-- The body of the loop of `exit` that passes abandoned children to init. -/
def reparentOne (curproc : Slot) (s : PTable) (p : Slot) : PTable :=
  if (s.proc p).parent = some curproc then
    let s := s.modProc p fun x => { x with parent := s.initproc }
    if (s.proc p).state = .zombie then wakeup1 (s.initproc.map .proc) s else s
  else s

/-- The locked part of `exit`; init panics. -/
def exit (c : ℕ) (curproc : Slot) (s : PTable) : Option PTable :=
  if s.initproc = some curproc then none
  else
    let s := wakeup1 ((s.proc curproc).parent.map .proc) s
    let s := slots.foldl (reparentOne curproc) s
    let s := s.modProc curproc fun x => { x with state := .zombie }
    some (sched c s)

/-- What one scan of the table in `wait` comes to. -/
inductive WaitResult
  /-- A zombie child was reaped. -/
  | reaped (pid : ℤ)
  /-- There are no children, or the caller was killed: `wait` returns -1. -/
  | failed
  /-- The caller went to sleep. -/
  | slept
  deriving DecidableEq

/-- One round of the loop of `wait`. -/
def wait (c : ℕ) (curproc : Slot) (s : PTable) : PTable × WaitResult :=
  match slots.find? fun p =>
      (s.proc p).parent = some curproc ∧ (s.proc p).state = .zombie with
  | some p =>
    let s' := s.modProc p fun x =>
      { x with pid := 0, parent := none, killed := false, state := .unused }
    (s'.modProc curproc fun x => { x with context := .user }, .reaped (s.proc p).pid)
  | none =>
    if (slots.any fun p => (s.proc p).parent = some curproc) = false ∨
        (s.proc curproc).killed = true then
      (s.modProc curproc fun x => { x with context := .user }, .failed)
    else (sleep c curproc (.proc curproc) .waiting s, .slept)

end Xv6.Process
