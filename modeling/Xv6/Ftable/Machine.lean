import Xv6.Lib.Bytes
import Xv6.Lib.Run
import Xv6.Lib.Wp
import Xv6.Param

/-!
# Open files and pipes

`file.c`, the part of `pipe.c` that makes and closes pipes, and the system calls of `sysfile.c` that
make, copy and close descriptors, with the parts of `fork` and `exit` that concern the table of open
files.  A call runs from its beginning to its end; the exceptions are `read` and `write` on a pipe,
which can sleep: such a call enters, touches the pipe any number of times while the other processes
run, and leaves.

A pipe lives in a page of its own.  A program that closes or touches a page that holds no pipe stops
with `Stop.page`: in the kernel it would free a page twice, or work on a page that may belong to
somebody else by now.  What `kalloc` returns is chosen by the label of the step, and may be nothing.

What a file of type `FD_INODE` refers to is the subject of `Xv6.Fs`.
-/

namespace Xv6.Ftable

open Lib

abbrev Page := ℕ

/-- `enum { FD_NONE, FD_PIPE, FD_INODE }`, with the field `pipe`. -/
inductive FdType
  | none
  | pipe (pg : Page)
  | inode
  deriving DecidableEq

structure File where
  ref : ℕ
  type : FdType
  readable : Bool
  writable : Bool
  deriving DecidableEq

/-- `struct pipe`: whether the two ends are open. -/
structure Ends where
  readopen : Bool
  writeopen : Bool
  deriving DecidableEq

/-- Whether the end for writing, or the one for reading, is open. -/
def Ends.isOpen (q : Ends) (writable : Bool) : Bool := if writable then q.writeopen else q.readopen

def Ends.shut (q : Ends) (writable : Bool) : Ends :=
  if writable then { q with writeopen := false } else { q with readopen := false }

/-- The state: the table of files, the pages that hold a pipe, and for each process its table of
descriptors and the pipe that it is reading or writing.  `allocs` and `frees` count how often a page
was allocated for a pipe and freed again. -/
structure State where
  /-- `ftable.file` -/
  file : Fin NFILE → File
  pipe : Page → Option Ends
  allocs : Page → ℕ
  frees : Page → ℕ
  /-- whether the slot holds a process that has not exited -/
  alive : Slot → Bool
  ofile : Slot → Fin NOFILE → Option (Fin NFILE)
  busy : Slot → Option Page

/-- How a call can fail to return. -/
inductive Stop
  /-- the panic "filedup" -/
  | filedup
  /-- the panic "fileclose" -/
  | fileclose
  /-- the panic "fileread" -/
  | fileread
  /-- the panic "filewrite" -/
  | filewrite
  /-- the page holds no pipe -/
  | page
  deriving DecidableEq

abbrev Op := StateT State (Except Stop)

/-! ## Files -/

def setFile (f : Fin NFILE) (g : File → File) : Op Unit := modify fun s =>
  { s with file := upd s.file f (g (s.file f)) }

/-- Change a descriptor of the process `p`. -/
def setOfile (p : Slot) (fd : Fin NOFILE) (v : Option (Fin NFILE)) : Op Unit := modify fun s =>
  { s with ofile := upd s.ofile p (upd (s.ofile p) fd v) }

def filealloc : Op (Option (Fin NFILE)) := do
  let s ← get
  match (List.finRange NFILE).find? fun f => (s.file f).ref = 0 with
  | some f =>
    setFile f fun g => { g with ref := 1 }
    return some f
  | none => return none

def filedup (f : Fin NFILE) : Op Unit := do
  if ((← get).file f).ref < 1 then throw .filedup
  else setFile f fun g => { g with ref := g.ref + 1 }

/-- Close one end of a pipe; free it when both are closed. -/
def pipeclose (pg : Page) (writable : Bool) : Op Unit := do
  match (← get).pipe pg with
  | none => throw .page
  | some q =>
    let q' := q.shut writable
    if q'.readopen = false ∧ q'.writeopen = false then
      modify fun s =>
        { s with pipe := upd s.pipe pg none, frees := upd s.frees pg (s.frees pg + 1) }
    else modify fun s => { s with pipe := upd s.pipe pg (some q') }

/-- Close file `f`.  (Decrement ref count, close when reaches 0.) -/
def fileclose (f : Fin NFILE) : Op Unit := do
  let ff := (← get).file f
  if ff.ref < 1 then throw .fileclose
  else if 1 < ff.ref then setFile f fun g => { g with ref := g.ref - 1 }
  else
    setFile f fun g => { g with ref := 0, type := .none }
    match ff.type with
    | .pipe pg => pipeclose pg ff.writable
    | .inode => return ()
    | .none => return ()

/-- The path `bad` of `pipealloc`, which is not taken after a page was allocated. -/
def pipeallocBad (f0 f1 : Option (Fin NFILE)) : Op (Option (Fin NFILE × Fin NFILE)) := do
  match f0 with
  | some f => fileclose f
  | none => pure ()
  match f1 with
  | some f => fileclose f
  | none => pure ()
  return none

/-- Make a pipe and two files for its ends; `kalloc` returns `page`. -/
def pipealloc (page : Option Page) : Op (Option (Fin NFILE × Fin NFILE)) := do
  match ← filealloc with
  | none => pipeallocBad none none
  | some f0 =>
    match ← filealloc with
    | none => pipeallocBad (some f0) none
    | some f1 =>
      match page with
      | none => pipeallocBad (some f0) (some f1)
      | some pg =>
        modify fun s => { s with
          pipe := upd s.pipe pg (some ⟨true, true⟩), allocs := upd s.allocs pg (s.allocs pg + 1) }
        setFile f0 fun g => { g with type := .pipe pg, readable := true, writable := false }
        setFile f1 fun g => { g with type := .pipe pg, readable := false, writable := true }
        return some (f0, f1)

/-! ## System calls -/

theorem toNat_lt_nofile {fd : ℤ} (h : 0 ≤ fd ∧ fd < (NOFILE : ℤ)) : fd.toNat < NOFILE := by omega

/-- The file behind a descriptor that the user passes. -/
def argfd (s : State) (p : Slot) (fd : ℤ) : Option (Fin NOFILE × Fin NFILE) :=
  if h : 0 ≤ fd ∧ fd < (NOFILE : ℤ) then
    let d : Fin NOFILE := ⟨fd.toNat, toNat_lt_nofile h⟩
    (s.ofile p d).map fun f => (d, f)
  else none

/-- Allocate a file descriptor for the given file.  Takes over the reference on success. -/
def fdalloc (p : Slot) (f : Fin NFILE) : Op (Option (Fin NOFILE)) := do
  let s ← get
  match (List.finRange NOFILE).find? fun fd => (s.ofile p fd).isNone with
  | some fd =>
    setOfile p fd (some f)
    return some fd
  | none => return none

def sysDup (p : Slot) (fd : ℤ) : Op ℤ := do
  match argfd (← get) p fd with
  | none => return -1
  | some (_, f) =>
    match ← fdalloc p f with
    | none => return -1
    | some fd' =>
      filedup f
      return fd'

def sysClose (p : Slot) (fd : ℤ) : Op ℤ := do
  match argfd (← get) p fd with
  | none => return -1
  | some (d, f) =>
    setOfile p d none
    fileclose f
    return 0

def O_WRONLY : ℕ := 0x001

def O_RDWR : ℕ := 0x002

/-- `sys_open`; `found` says whether there is an inode to open. -/
def sysOpen (p : Slot) (found : Bool) (omode : ℕ) : Op ℤ := do
  if !found then return -1
  else
    match ← filealloc with
    | none => return -1
    | some f =>
      match ← fdalloc p f with
      | none =>
        fileclose f
        return -1
      | some fd =>
        setFile f fun g => { g with
          type := .inode
          readable := omode &&& O_WRONLY = 0
          writable := omode &&& O_WRONLY ≠ 0 ∨ omode &&& O_RDWR ≠ 0 }
        return fd

def sysPipe (p : Slot) (page : Option Page) : Op ℤ := do
  match ← pipealloc page with
  | none => return -1
  | some (rf, wf) =>
    match ← fdalloc p rf with
    | none =>
      fileclose rf
      fileclose wf
      return -1
    | some fd0 =>
      match ← fdalloc p wf with
      | none =>
        setOfile p fd0 none
        fileclose rf
        fileclose wf
        return -1
      | some _ => return 0

/-- The beginning of `fileread` and `filewrite`. -/
def enter (p : Slot) (fd : ℤ) (write : Bool) : Op ℤ := do
  match argfd (← get) p fd with
  | none => return -1
  | some (_, f) =>
    let ff := (← get).file f
    if (if write then ff.writable else ff.readable) = false then return -1
    else
      match ff.type with
      | .pipe pg =>
        modify fun s => { s with busy := upd s.busy p (some pg) }
        return 0
      | .inode => return 0
      | .none => if write then throw .filewrite else throw .fileread

/-- A look at the pipe, or a change to it, in the middle of `piperead` and `pipewrite`. -/
def touch (p : Slot) : Op ℤ := do
  match (← get).busy p with
  | none => return 0
  | some pg =>
    match (← get).pipe pg with
    | none => throw .page
    | some _ => return 0

/-- The end of `piperead` and `pipewrite`. -/
def leave (p : Slot) : Op ℤ := do
  modify fun s => { s with busy := upd s.busy p none }
  return 0

/-- The loop of `fork` over the open files of the parent `p`. -/
def forkLoop (p c : Slot) : List (Fin NOFILE) → Op Unit
  | [] => return ()
  | fd :: fds => do
    match (← get).ofile p fd with
    | some f =>
      filedup f
      setOfile c fd (some f)
      forkLoop p c fds
    | none => forkLoop p c fds

/-- What `fork` does with files; `child` is the slot that it found, if it did not fail. -/
def fork (p : Slot) (child : Option Slot) : Op ℤ := do
  match child with
  | none => return -1
  | some c =>
    forkLoop p c (List.finRange NOFILE)
    modify fun s => { s with alive := upd s.alive c true }
    return c

/-- The loop of `exit` over the open files. -/
def exitLoop (p : Slot) : List (Fin NOFILE) → Op Unit
  | [] => return ()
  | fd :: fds => do
    match (← get).ofile p fd with
    | some f =>
      fileclose f
      setOfile p fd none
      exitLoop p fds
    | none => exitLoop p fds

def exit (p : Slot) : Op ℤ := do
  exitLoop p (List.finRange NOFILE)
  modify fun s => { s with alive := upd s.alive p false }
  return 0

/-! ## The machine -/

/-- The calls, with their arguments and with what the rest of the kernel decides. -/
inductive Call
  | open (found : Bool) (omode : ℕ)
  | pipe (page : Option Page)
  | dup (fd : ℤ)
  | close (fd : ℤ)
  | enter (fd : ℤ) (write : Bool)
  | touch
  | leave
  | fork (child : Option Slot)
  | exit
  deriving DecidableEq

def syscall (p : Slot) : Call → Op ℤ
  | .open found omode => sysOpen p found omode
  | .pipe page => sysPipe p page
  | .dup fd => sysDup p fd
  | .close fd => sysClose p fd
  | .enter fd write => enter p fd write
  | .touch => touch p
  | .leave => leave p
  | .fork child => fork p child
  | .exit => exit p

/-- Whether the process can make the call: it is there, it is or is not in the middle of a `read` or
`write`, `kalloc` returns no page that is in use, and `allocproc` no slot that is. -/
def enabled (s : State) (p : Slot) : Call → Bool
  | .touch => s.alive p && (s.busy p).isSome
  | .leave => s.alive p && (s.busy p).isSome
  | .pipe (some pg) => s.alive p && (s.busy p).isNone && (s.pipe pg).isNone
  | .fork (some c) => s.alive p && (s.busy p).isNone && !s.alive c
  | _ => s.alive p && (s.busy p).isNone

def step (s : State) (a : Slot × Call) : Option (State × ℤ) :=
  if enabled s a.1 a.2 then
    match syscall a.1 a.2 s with
    | .ok (r, s') => some (s', r)
    | .error _ => none
  else none

/-- The first process, in the slot `p`, before its first call. -/
def init (p : Slot) : State where
  file := fun _ => ⟨0, .none, false, false⟩
  pipe := fun _ => none
  allocs := fun _ => 0
  frees := fun _ => 0
  alive := fun q => q = p
  ofile := fun _ _ => none
  busy := fun _ => none

end Xv6.Ftable
