import Xv6.Fs.Directory
import Xv6.Lib.Run

/-!
# Files and the system calls of the file system

The file table (`file.c`) and the system calls of `sysfile.c`, with the parts of `fork`, `exec` and
`exit` that concern files.  `step` is the machine: a process makes a system call, which runs to its
end.  The exceptions are `write` and `exit`: `filewrite` writes a few blocks at a time, and `exit`
closes one file after the other, each in a transaction of its own.  Such a call goes on in further
steps (`Call.resume`), and the other processes run between them.

The arguments that the user passes are the label of the step.  A path or a buffer outside the
memory of the process makes the call return `-1` at once, which changes nothing and is left out.
-/

namespace Xv6.Fs

open Lib

/-! ## Files -/

def setFile (f : Fin NFILE) (g : File → File) : Op Unit := modify fun s =>
  { s with file := upd s.file f (g (s.file f)) }

/-- Change what the file system keeps of the process `p`. -/
def setProc (p : Slot) (g : Proc → Proc) : Op Unit := modify fun s =>
  { s with proc := upd s.proc p ((s.proc p).map g) }

def filealloc : Op (Option (Fin NFILE)) := do
  let s ← get
  match (List.finRange NFILE).find? fun f => (s.file f).ref = 0 with
  | some f =>
    setFile f fun g => { g with ref := 1 }
    return some f
  | none => return none

/-- Increment the reference count of a file. -/
def filedup (f : Fin NFILE) : Op Unit := do
  if ((← get).file f).ref < 1 then throw (.panic .filedup)
  else setFile f fun g => { g with ref := g.ref + 1 }

/-- Close a file: decrement the reference count, release the inode when it reaches zero. -/
def fileclose (f : Fin NFILE) : Op Unit := do
  let ff := (← get).file f
  if ff.ref < 1 then throw (.panic .fileclose)
  else if 1 < ff.ref then setFile f fun g => { g with ref := g.ref - 1 }
  else
    setFile f fun g => { g with ref := 0, type := .none }
    match ff.type with
    | .inode =>
      beginOp
      iput ff.ip
      endOp
    | .none => return ()

/-- `struct stat`: type, inode number, links and size. -/
structure Stat where
  type : Int16
  ino : ℕ
  nlink : Int16
  size : UInt32
  deriving DecidableEq

def filestat (f : Fin NFILE) : Op (Option Stat) := do
  let ff := (← get).file f
  match ff.type with
  | .inode =>
    ilock ff.ip
    let n := (← get).inode ff.ip
    iunlock ff.ip
    return some ⟨n.din.type, n.inum, n.din.nlink, n.din.size⟩
  | .none => return none

def fileread (f : Fin NFILE) (n : UInt32) : Op (Option (List UInt8)) := do
  let ff := (← get).file f
  if !ff.readable then return none
  else
    match ff.type with
    | .inode =>
      ilock ff.ip
      let r ← readi ff.ip ff.off n
      setFile f fun g => { g with off := g.off + UInt32.ofNat (r.getD []).length }
      iunlock ff.ip
      return r
    | .none => throw (.panic .fileread)

/-- The most bytes that `filewrite` writes in one transaction. -/
def maxWrite : ℕ := (MAXOPBLOCKS - 1 - 1 - 2) / 2 * 512

/-- One turn of the loop of `filewrite`: the bytes at the front of `l`, in one transaction.  Returns
what `writei` returned. -/
def filewriteTurn (f : Fin NFILE) (l : List UInt8) : Op ℤ := do
  let ff := (← get).file f
  beginOp
  ilock ff.ip
  let r ← writei ff.ip (fun k => l.getD k 0) ff.off (UInt32.ofNat (min l.length maxWrite))
  setFile f fun g => { g with off := g.off + UInt32.ofNat r.toNat }
  iunlock ff.ip
  endOp
  return r

/-! ## System calls on files -/

/-- What a system call returns to the user. -/
inductive Reply
  | int (r : ℤ)
  /-- the bytes that `read` returns, `none` for `-1` -/
  | bytes (l : Option (List UInt8))
  /-- what `fstat` returns, `none` for `-1` -/
  | stat (st : Option Stat)
  /-- the call has not returned yet -/
  | busy
  deriving DecidableEq

/-- The file behind a descriptor that the user passes. -/
def argfd (pr : Proc) (fd : ℤ) : Option (Fin NOFILE × Fin NFILE) :=
  if h : 0 ≤ fd ∧ fd < (NOFILE : ℤ) then
    let d : Fin NOFILE := ⟨fd.toNat, by omega⟩
    (pr.ofile d).map fun f => (d, f)
  else none

/-- Allocate a file descriptor for the given file. -/
def fdalloc (p : Slot) (pr : Proc) (f : Fin NFILE) : Op (Option (Fin NOFILE)) := do
  match (List.finRange NOFILE).find? fun fd => (pr.ofile fd).isNone with
  | some fd =>
    setProc p fun pr => { pr with ofile := upd pr.ofile fd (some f) }
    return some fd
  | none => return none

def sysDup (p : Slot) (pr : Proc) (fd : ℤ) : Op Reply := do
  match argfd pr fd with
  | none => return .int (-1)
  | some (_, f) =>
    match ← fdalloc p pr f with
    | none => return .int (-1)
    | some fd' =>
      filedup f
      return .int fd'

/-- A count is an `int`, and a negative one is refused. -/
def sysRead (pr : Proc) (fd : ℤ) (n : UInt32) : Op Reply := do
  match argfd pr fd with
  | none => return .bytes none
  | some (_, f) => if 2 ^ 31 ≤ n.toNat then return .bytes none else return .bytes (← fileread f n)

/-- `sys_write` up to the loop of `filewrite`. -/
def sysWrite (p : Slot) (pr : Proc) (fd : ℤ) (l : List UInt8) : Op Reply := do
  match argfd pr fd with
  | none => return .int (-1)
  | some (d, f) =>
    if 2 ^ 31 ≤ l.length then return .int (-1)
    else
      let ff := (← get).file f
      if !ff.writable then return .int (-1)
      else
        match ff.type with
        | .none => throw (.panic .filewrite)
        | .inode =>
          if l = [] then return .int 0
          else
            setProc p fun pr => { pr with pending := some (.write d l l.length) }
            return .busy

/-- The next turn of the loop of `filewrite`, with the bytes `l` of `n` to go. -/
def writeTurn (p : Slot) (f : Fin NFILE) (fd : Fin NOFILE) (l : List UInt8) (n : ℕ) : Op Reply := do
  let n1 := min l.length maxWrite
  let r ← filewriteTurn f l
  if r < 0 then
    setProc p fun pr => { pr with pending := none }
    return .int (-1)
  else if r ≠ n1 then throw (.panic .shortFilewrite)
  else if l.drop n1 = [] then
    setProc p fun pr => { pr with pending := none }
    return .int n
  else
    setProc p fun pr => { pr with pending := some (.write fd (l.drop n1) n) }
    return .busy

def sysClose (p : Slot) (pr : Proc) (fd : ℤ) : Op Reply := do
  match argfd pr fd with
  | none => return .int (-1)
  | some (d, f) =>
    setProc p fun pr => { pr with ofile := upd pr.ofile d none }
    fileclose f
    return .int 0

def sysFstat (pr : Proc) (fd : ℤ) : Op Reply := do
  match argfd pr fd with
  | none => return .stat none
  | some (_, f) => return .stat (← filestat f)

/-! ## System calls on names -/

/-- The path `bad` of `sys_link`: take back the link. -/
def linkBad (ip : Icache) : Op Reply := do
  ilock ip
  setDin ip fun d => { d with nlink := d.nlink - 1 }
  iupdate ip
  iunlockput ip
  endOp
  return .int (-1)

/-- Create the path `new` as a link to the same inode as `old`. -/
def sysLink (pr : Proc) (old new : Name) : Op Reply := do
  beginOp
  match ← namei pr.cwd old with
  | none =>
    endOp
    return .int (-1)
  | some ip =>
    ilock ip
    if ((← get).inode ip).din.type = T_DIR then
      iunlockput ip
      endOp
      return .int (-1)
    else
      setDin ip fun d => { d with nlink := d.nlink + 1 }
      iupdate ip
      iunlock ip
      match ← nameiparent pr.cwd new with
      | none => linkBad ip
      | some (dp, name) =>
        ilock dp
        if ← dirlink dp name ((← get).inode ip).inum then
          iunlockput dp
          iput ip
          endOp
          return .int 0
        else
          iunlockput dp
          linkBad ip

/-- The loop of `isdirempty`, with `k` entries to go. -/
def isdiremptyLoop (dp : Icache) : ℕ → ℕ → Op Bool
  | 0, _ => return true
  | k + 1, off => do
    match ← readDirent dp off with
    | none => throw (.panic .isdiremptyReadi)
    | some de => if de.inum ≠ 0 then return false else isdiremptyLoop dp k (off + DESIZE)

/-- Is the directory empty except for `.` and `..`? -/
def isdirempty (dp : Icache) : Op Bool := do
  isdiremptyLoop dp (dirents ((← get).inode dp).din - 2) (2 * DESIZE)

def unlinkBad (dp : Icache) : Op Reply := do
  iunlockput dp
  endOp
  return .int (-1)

/-- `sys_unlink` once the entry of `dp` at `off` is known to be that of `ip`, which is locked. -/
def unlinkEntry (dp ip : Icache) (off : ℕ) : Op Reply := do
  let r ← writei dp (fun _ => 0) (UInt32.ofNat off) (UInt32.ofNat DESIZE)
  if r ≠ DESIZE then throw (.panic .unlinkWritei)
  else
    if ((← get).inode ip).din.type = T_DIR then
      setDin dp fun d => { d with nlink := d.nlink - 1 }
      iupdate dp
    iunlockput dp
    setDin ip fun d => { d with nlink := d.nlink - 1 }
    iupdate ip
    iunlockput ip
    endOp
    return .int 0

def sysUnlink (pr : Proc) (path : Name) : Op Reply := do
  beginOp
  match ← nameiparent pr.cwd path with
  | none =>
    endOp
    return .int (-1)
  | some (dp, name) =>
    ilock dp
    if namecmp name dot ∨ namecmp name dotdot then unlinkBad dp
    else
      match ← dirlookup dp name with
      | none => unlinkBad dp
      | some (ip, off) =>
        ilock ip
        let d := ((← get).inode ip).din
        if d.nlink < 1 then throw (.panic .unlinkNlink)
        else if d.type = T_DIR then
          if ← isdirempty ip then unlinkEntry dp ip off
          else
            iunlockput ip
            unlinkBad dp
        else unlinkEntry dp ip off

/-- The entries of a new directory `ip` in `dp`. -/
def createDots (dp ip : Icache) : Op Unit := do
  setDin dp fun d => { d with nlink := d.nlink + 1 }
  iupdate dp
  -- No link for `.`: avoid cyclic ref count.
  if !(← dirlink ip dot ((← get).inode ip).inum) then throw (.panic .createDots)
  else if !(← dirlink ip dotdot ((← get).inode dp).inum) then throw (.panic .createDots)
  else return ()

/-- Create the inode of the given type that `path` names.  Returns it locked. -/
def create (pr : Proc) (path : Name) (type major minor : Int16) : Op (Option Icache) := do
  match ← nameiparent pr.cwd path with
  | none => return none
  | some (dp, name) =>
    ilock dp
    match ← dirlookup dp name with
    | some (ip, _) =>
      iunlockput dp
      ilock ip
      if type = T_FILE ∧ ((← get).inode ip).din.type = T_FILE then return some ip
      else
        iunlockput ip
        return none
    | none =>
      let ip ← ialloc type
      ilock ip
      setDin ip fun d => { d with major := major, minor := minor, nlink := 1 }
      iupdate ip
      if type = T_DIR then createDots dp ip
      if !(← dirlink dp name ((← get).inode ip).inum) then throw (.panic .createDirlink)
      else
        iunlockput dp
        return some ip

def O_WRONLY : ℕ := 0x001

def O_RDWR : ℕ := 0x002

def O_CREATE : ℕ := 0x200

/-- The inode that `sys_open` opens, locked, or `none` after a failure. -/
def openInode (pr : Proc) (path : Name) (omode : ℕ) : Op (Option Icache) := do
  if omode &&& O_CREATE ≠ 0 then create pr path T_FILE 0 0
  else
    match ← namei pr.cwd path with
    | none => return none
    | some ip =>
      ilock ip
      if ((← get).inode ip).din.type = T_DIR ∧ omode ≠ 0 then
        iunlockput ip
        return none
      else return some ip

/-- A file structure and a descriptor for it; a file structure without a descriptor is closed
again. -/
def openFile (p : Slot) (pr : Proc) : Op (Option (Fin NFILE × Fin NOFILE)) := do
  match ← filealloc with
  | none => return none
  | some f =>
    match ← fdalloc p pr f with
    | none =>
      fileclose f
      return none
    | some fd => return some (f, fd)

def sysOpen (p : Slot) (pr : Proc) (path : Name) (omode : ℕ) : Op Reply := do
  beginOp
  match ← openInode pr path omode with
  | none =>
    endOp
    return .int (-1)
  | some ip =>
    match ← openFile p pr with
    | none =>
      iunlockput ip
      endOp
      return .int (-1)
    | some (f, fd) =>
      iunlock ip
      endOp
      setFile f fun g => { g with
        type := .inode
        ip := ip
        off := 0
        readable := omode &&& O_WRONLY = 0
        writable := omode &&& O_WRONLY ≠ 0 ∨ omode &&& O_RDWR ≠ 0 }
      return .int fd

/-- `sys_mkdir` and `sys_mknod`: create, and let go of the new inode. -/
def sysCreate (pr : Proc) (path : Name) (type major minor : Int16) : Op Reply := do
  beginOp
  match ← create pr path type major minor with
  | none =>
    endOp
    return .int (-1)
  | some ip =>
    iunlockput ip
    endOp
    return .int 0

def sysMkdir (pr : Proc) (path : Name) : Op Reply := sysCreate pr path T_DIR 0 0

def sysMknod (pr : Proc) (path : Name) (major minor : Int16) : Op Reply :=
  sysCreate pr path T_DEV major minor

def sysChdir (p : Slot) (pr : Proc) (path : Name) : Op Reply := do
  beginOp
  match ← namei pr.cwd path with
  | none =>
    endOp
    return .int (-1)
  | some ip =>
    ilock ip
    if ((← get).inode ip).din.type ≠ T_DIR then
      iunlockput ip
      endOp
      return .int (-1)
    else
      iunlock ip
      iput pr.cwd
      endOp
      setProc p fun pr => { pr with cwd := ip }
      return .int 0

/-! ## Processes -/

/-- The reads that `exec` makes of a program file, at the places that its headers name. -/
def readAll (ip : Icache) : List (UInt32 × UInt32) → Op Unit
  | [] => return ()
  | (off, n) :: rs => do
    let _ ← readi ip off n
    readAll ip rs

/-- What `exec` does to the file system. -/
def exec (pr : Proc) (path : Name) (reads : List (UInt32 × UInt32)) : Op Reply := do
  beginOp
  match ← namei pr.cwd path with
  | none =>
    endOp
    return .int (-1)
  | some ip =>
    ilock ip
    readAll ip reads
    iunlockput ip
    endOp
    return .int 0

/-- The loop of `fork` over the open files. -/
def dupAll (pr : Proc) : List (Fin NOFILE) → Op Unit
  | [] => return ()
  | fd :: fds => do
    match pr.ofile fd with
    | some f =>
      filedup f
      dupAll pr fds
    | none => dupAll pr fds

/-- What `fork` into the free slot `c` does to the file system. -/
def fork (pr : Proc) (c : Slot) : Op Reply := do
  dupAll pr (List.finRange NOFILE)
  let cwd ← idup pr.cwd
  modify fun s => { s with proc := upd s.proc c (some { pr with cwd := cwd }) }
  return .int c

/-- The next turn of `exit`: close the first open file, or if there is none, let go of the current
directory. -/
def exitTurn (p : Slot) (pr : Proc) : Op Reply := do
  match (List.finRange NOFILE).findSome? fun fd => (pr.ofile fd).map fun f => (fd, f) with
  | some (fd, f) =>
    fileclose f
    setProc p fun pr => { pr with ofile := upd pr.ofile fd none }
    return .busy
  | none =>
    beginOp
    iput pr.cwd
    endOp
    modify fun s => { s with proc := upd s.proc p none }
    return .int 0

/-- What `exit` does to the file system: a few turns. -/
def exit (p : Slot) : Op Reply := do
  setProc p fun pr => { pr with pending := some .exit }
  return .busy

/-- The next turn of a system call in the middle. -/
def resume (p : Slot) (pr : Proc) : Op Reply := do
  match pr.pending with
  | some (.write fd l n) =>
    match pr.ofile fd with
    | some f => writeTurn p f fd l n
    | none => return .int (-1)
  | some .exit => exitTurn p pr
  | none => return .int (-1)

/-! ## The machine -/

/-- The system calls of a process, with their arguments. -/
inductive Call
  | dup (fd : ℤ)
  | read (fd : ℤ) (n : UInt32)
  | write (fd : ℤ) (l : List UInt8)
  /-- the next turn of a call that has not returned -/
  | resume
  | close (fd : ℤ)
  | fstat (fd : ℤ)
  | link (old new : Name)
  | unlink (path : Name)
  | open (path : Name) (omode : ℕ)
  | mkdir (path : Name)
  | mknod (path : Name) (major minor : Int16)
  | chdir (path : Name)
  | exec (path : Name) (reads : List (UInt32 × UInt32))
  | fork (c : Slot)
  | exit
  deriving DecidableEq

def syscall (p : Slot) (pr : Proc) : Call → Op Reply
  | .dup fd => sysDup p pr fd
  | .read fd n => sysRead pr fd n
  | .write fd l => sysWrite p pr fd l
  | .resume => resume p pr
  | .close fd => sysClose p pr fd
  | .fstat fd => sysFstat pr fd
  | .link old new => sysLink pr old new
  | .unlink path => sysUnlink pr path
  | .open path omode => sysOpen p pr path omode
  | .mkdir path => sysMkdir pr path
  | .mknod path major minor => sysMknod pr path major minor
  | .chdir path => sysChdir p pr path
  | .exec path reads => exec pr path reads
  | .fork c => fork pr c
  | .exit => exit p

/-- Whether the process can take this step: a process in the middle of a call goes on with it, and
`fork` has found a free slot. -/
def enabled (s : State) (pr : Proc) : Call → Bool
  | .resume => pr.pending.isSome
  | .fork c => pr.pending.isNone && (s.proc c).isNone
  | _ => pr.pending.isNone

def step (s : State) (a : Slot × Call) : Option (State × Reply) :=
  match s.proc a.1 with
  | none => none
  | some pr =>
    if enabled s pr a.2 then
      match syscall a.1 pr a.2 s with
      | .ok (r, s') => some (s', r)
      | .error _ => none
    else none

/-- The state before the first process: the super block is read, the caches are empty. -/
def init (disk : Disk) (devsw : ℕ → Devsw) : State where
  sb := readsb disk
  disk := disk
  outstanding := 0
  logged := []
  inode := fun _ => ⟨0, 0, false, false, Dinode.zero⟩
  file := fun _ => ⟨.none, 0, false, false, 0, 0⟩
  proc := fun _ => none
  devsw := devsw
  history := ⟨[], 0⟩

/-- `userinit`: the first process starts in the root directory. -/
def userinit (p : Slot) : Op Unit := do
  match ← namei 0 [slash] with
  | some ip =>
    modify fun s => { s with proc := upd s.proc p (some ⟨ip, fun _ => none, none⟩) }
  | none => return ()

end Xv6.Fs
