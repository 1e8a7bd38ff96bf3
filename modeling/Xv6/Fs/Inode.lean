import Xv6.Fs.Disk
import Xv6.Lib.Wp

/-!
# Blocks, inodes and their contents

The lower half of `fs.c`: the block allocator (`balloc`, `bfree`), the inode cache (`iget`,
`idup`, `ilock`, `iunlock`, `iput`), the inode allocator (`ialloc`, `iupdate`), the map from the
blocks of a file to the blocks of the disk (`bmap`, `itrunc`), and reading and writing the bytes of
a file (`readi`, `writei`).

Each function is a program over the state of the file system (`Op`).  It returns, or it stops: at a
`panic` of the source, or because it waits for ever for a sleep lock that its own process holds
(`Stop.hang`).  A system call runs from its beginning to its end without another one in between,
so a lock that is held is held by the caller.

`bread` returns the current contents of a block and `logWrite` changes a block in place: the
buffer cache and the log under them are the subject of `Xv6.Log`.  What is kept of the log is the
number of operations inside a transaction, which `logWrite` checks, and the blocks that the
transaction has changed.

There is one device, so `dev` is left out.  The field `history` is not in the source: it records
what the theorems are to speak of in the middle of a system call, the state at each release of a
sleep lock and the blocks that `readi` found missing.
-/

namespace Xv6.Fs

open Lib

def NINODE : ℕ := 50

instance : NeZero NINODE := ⟨by decide⟩

def NDEV : ℕ := 10

/-- An index into `icache.inode`, standing for a `struct inode *`. -/
abbrev Icache := Fin NINODE

/-- `struct inode`: the place of an inode in the cache.  The fields that are a copy of the disk
inode are one field here. -/
structure Inode where
  inum : ℕ
  ref : ℕ
  /-- `lock.locked` -/
  locked : Bool
  valid : Bool
  /-- `type`, `major`, `minor`, `nlink`, `size` and `addrs` -/
  din : Dinode
  deriving DecidableEq

/-- `enum { FD_NONE, FD_PIPE, FD_INODE }`; a pipe is no part of the file system. -/
inductive FileType
  | none
  | inode
  deriving DecidableEq

structure File where
  type : FileType
  ref : ℕ
  readable : Bool
  writable : Bool
  ip : Icache
  off : UInt32
  deriving DecidableEq

/-- A system call that takes more than one transaction, in the middle: `write` to a descriptor, with
the bytes left to write and the number of bytes asked for, or `exit`. -/
inductive Pending
  | write (fd : Fin NOFILE) (l : List UInt8) (n : ℕ)
  | exit
  deriving DecidableEq

/-- What the file system keeps of a process: its current directory, its open files, and the system
call that it is in the middle of, if any. -/
structure Proc where
  cwd : Icache
  ofile : Fin NOFILE → Option (Fin NFILE)
  pending : Option Pending

/-- `struct devsw`: the functions of a device driver, each of which may be missing.  A read
returns the bytes it delivers, or `none` for `-1`. -/
structure Devsw where
  read : Option (ℕ → Option (List UInt8))
  write : Option (List UInt8 → ℤ)

/-- What a sleep lock is to protect: the disk, with the super block in memory, and the inode
cache. -/
structure Snapshot where
  sb : Superblock
  disk : Disk
  inode : Icache → Inode

/-- A record of the run for the theorems.  No function reads it. -/
structure History where
  /-- the disk and the cache after each release of a sleep lock, the latest first -/
  released : List Snapshot
  /-- how often `readi` has come to a block without an address, which `bmap` then allocates -/
  filled : ℕ

/-- The state of the file system. -/
structure State where
  /-- the super block in memory -/
  sb : Superblock
  disk : Disk
  /-- `log.outstanding` -/
  outstanding : ℕ
  /-- the blocks in `log.lh` -/
  logged : List ℕ
  /-- `icache.inode` -/
  inode : Icache → Inode
  /-- `ftable.file` -/
  file : Fin NFILE → File
  proc : Slot → Option Proc
  devsw : ℕ → Devsw
  history : History

def State.snapshot (s : State) : Snapshot := ⟨s.sb, s.disk, s.inode⟩

/-- The panics of the file system. -/
inductive Panic
  /-- "log_write outside of trans" -/
  | logWriteOutside
  /-- "balloc: out of blocks" -/
  | ballocOutOfBlocks
  /-- "freeing free block" -/
  | freeingFreeBlock
  /-- "ialloc: no inodes" -/
  | iallocNoInodes
  /-- "iget: no inodes" -/
  | igetNoInodes
  /-- "ilock" -/
  | ilock
  /-- "ilock: no type" -/
  | ilockNoType
  /-- "iunlock" -/
  | iunlock
  /-- "bmap: out of range" -/
  | bmapOutOfRange
  /-- "dirlookup not DIR" -/
  | dirlookupNotDir
  /-- "dirlookup read" -/
  | dirlookupRead
  /-- "dirlink read" -/
  | dirlinkRead
  /-- "dirlink" -/
  | dirlink
  /-- "isdirempty: readi" -/
  | isdiremptyReadi
  /-- "unlink: nlink < 1" -/
  | unlinkNlink
  /-- "unlink: writei" -/
  | unlinkWritei
  /-- "create dots" -/
  | createDots
  /-- "create: dirlink" -/
  | createDirlink
  /-- "filedup" -/
  | filedup
  /-- "fileclose" -/
  | fileclose
  /-- "fileread" -/
  | fileread
  /-- "filewrite" -/
  | filewrite
  /-- "short filewrite" -/
  | shortFilewrite
  deriving DecidableEq

/-- How a system call can fail to return. -/
inductive Stop
  | panic (p : Panic)
  /-- the process sleeps on a lock that it holds itself -/
  | hang
  deriving DecidableEq

/-- A program over the state of the file system. -/
abbrev Op := StateT State (Except Stop)

/-! ## The log -/

/-- Called at the start of each system call that may write. -/
def beginOp : Op Unit := modify fun s => { s with outstanding := s.outstanding + 1 }

/-- Called at its end; the last operation commits the transaction. -/
def endOp : Op Unit := modify fun s =>
  { s with
    outstanding := s.outstanding - 1
    logged := if s.outstanding = 1 then [] else s.logged }

def bread (b : ℕ) : Op Block := do return (← get).disk b

/-- Change block `b` by `f`, and `log_write` it. -/
def logWrite (b : ℕ) (f : Block → Block) : Op Unit := do
  let s ← get
  if s.outstanding < 1 then throw (.panic .logWriteOutside)
  else set { s with
    disk := upd s.disk b (f (s.disk b))
    logged := if b ∈ s.logged then s.logged else s.logged ++ [b] }

/-! ## Blocks -/

def bzero (b : ℕ) : Op Unit := logWrite b fun _ => zeroBlock

/-- Allocate a zeroed disk block: the first one whose bit is clear. -/
def balloc : Op ℕ := do
  let s ← get
  match (List.range s.sb.size).find? fun b => !used s.disk s.sb b with
  | some b =>
    logWrite (BBLOCK b s.sb) (setUsed b)
    bzero b
    return b
  | none => throw (.panic .ballocOutOfBlocks)

/-- Free a disk block.  The super block is read again from the disk. -/
def bfree (b : ℕ) : Op Unit := do
  modify fun s => { s with sb := readsb s.disk }
  let s ← get
  if used s.disk s.sb b then logWrite (BBLOCK b s.sb) (clearUsed b)
  else throw (.panic .freeingFreeBlock)

/-! ## Inodes -/

/-- Change the place `ip` of the cache. -/
def setInode (ip : Icache) (f : Inode → Inode) : Op Unit := modify fun s =>
  { s with inode := upd s.inode ip (f (s.inode ip)) }

/-- Change the copy of the disk inode in the place `ip` of the cache. -/
def setDin (ip : Icache) (f : Dinode → Dinode) : Op Unit :=
  setInode ip fun n => { n with din := f n.din }

/-- Copy a modified in-memory inode to disk. -/
def iupdate (ip : Icache) : Op Unit := do
  let s ← get
  logWrite (IBLOCK (s.inode ip).inum s.sb) (putDinode (s.inode ip).inum (s.inode ip).din)

/-- Find the inode with number `inum` and return the in-memory copy: its place in the cache, or
else the first empty place, recycled. -/
def iget (inum : ℕ) : Op Icache := do
  let s ← get
  match (List.finRange NINODE).find? fun ip => 0 < (s.inode ip).ref ∧ (s.inode ip).inum = inum with
  | some ip =>
    setInode ip fun n => { n with ref := n.ref + 1 }
    return ip
  | none =>
    match (List.finRange NINODE).find? fun ip => (s.inode ip).ref = 0 with
    | some ip =>
      setInode ip fun n => { n with inum := inum, ref := 1, valid := false }
      return ip
    | none => throw (.panic .igetNoInodes)

/-- Allocate an inode: the first free one, given the type `type`.  Returns an unlocked but
allocated and referenced inode. -/
def ialloc (type : Int16) : Op Icache := do
  let s ← get
  match (List.range' 1 (s.sb.ninodes - 1)).find? fun i => (dinode s.disk s.sb i).type = 0 with
  | some i =>
    logWrite (IBLOCK i s.sb) (putDinode i { Dinode.zero with type := type })
    iget i
  | none => throw (.panic .iallocNoInodes)

def idup (ip : Icache) : Op Icache := do
  setInode ip fun n => { n with ref := n.ref + 1 }
  return ip

/-- `acquiresleep(&ip->lock)`.  Nobody else holds the lock, so if it is taken the wait is for
ever. -/
def acquiresleep (ip : Icache) : Op Unit := do
  if ((← get).inode ip).locked then throw .hang
  else setInode ip fun n => { n with locked := true }

/-- It goes down in the history that a sleep lock was released in such a state. -/
def State.note (s : State) (v : Snapshot) : State :=
  { s with history := { s.history with released := v :: s.history.released } }

/-- `releasesleep(&ip->lock)` -/
def releasesleep (ip : Icache) : Op Unit := do
  setInode ip fun n => { n with locked := false }
  modify fun s => s.note s.snapshot

/-- Lock the given inode, reading it from disk if necessary. -/
def ilock (ip : Icache) : Op Unit := do
  if ((← get).inode ip).ref < 1 then throw (.panic .ilock)
  else
    acquiresleep ip
    let s ← get
    if (s.inode ip).valid then return ()
    else
      let d := dinode s.disk s.sb (s.inode ip).inum
      setInode ip fun n => { n with din := d, valid := true }
      if d.type = 0 then throw (.panic .ilockNoType)
      else return ()

def iunlock (ip : Icache) : Op Unit := do
  let n := (← get).inode ip
  if !n.locked ∨ n.ref < 1 then throw (.panic .iunlock)
  else releasesleep ip

/-! ## Inode content -/

/-- The address in `ip->addrs[k]`, after a block was allocated for it if there is none. -/
def loadAddr (ip : Icache) (k : Fin (NDIRECT + 1)) : Op ℕ := do
  let a := ((← get).inode ip).din.addrs k
  if a = 0 then
    let b ← balloc
    setDin ip fun d => { d with addrs := upd d.addrs k (UInt32.ofNat b) }
    return b
  else return a.toNat

/-- The address in entry `j` of the indirect table in block `t`, after a block was allocated for it
if there is none. -/
def loadEntry (t j : ℕ) : Op ℕ := do
  let blk ← bread t
  if entry blk j = 0 then
    let b ← balloc
    logWrite t (putEntry j (UInt32.ofNat b))
    return b
  else return (entry blk j).toNat

/-- The disk block address of the block `bn` of inode `ip`.  If there is no such block, `bmap`
allocates one. -/
def bmap (ip : Icache) (bn : ℕ) : Op ℕ := do
  if h : bn < NDIRECT then loadAddr ip ⟨bn, Nat.lt_succ_of_lt h⟩
  else if bn - NDIRECT < NINDIRECT then
    let t ← loadAddr ip (Fin.last NDIRECT)
    loadEntry t (bn - NDIRECT)
  else throw (.panic .bmapOutOfRange)

/-- The loop of `itrunc` over `ip->addrs`. -/
def freeAddrs (ip : Icache) : List (Fin (NDIRECT + 1)) → Op Unit
  | [] => return ()
  | k :: ks => do
    let a := ((← get).inode ip).din.addrs k
    if a = 0 then freeAddrs ip ks
    else
      bfree a.toNat
      setDin ip fun d => { d with addrs := upd d.addrs k 0 }
      freeAddrs ip ks

/-- The loop of `itrunc` over the indirect table `a`. -/
def freeEntries (a : Block) : List (Fin NINDIRECT) → Op Unit
  | [] => return ()
  | j :: js => do
    if entry a j = 0 then freeEntries a js
    else
      bfree (entry a j).toNat
      freeEntries a js

/-- The part of `itrunc` about the indirect table. -/
def freeTable (ip : Icache) : Op Unit := do
  let t := ((← get).inode ip).din.addrs (Fin.last NDIRECT)
  if t = 0 then return ()
  else
    let a ← bread t.toNat
    freeEntries a (List.finRange NINDIRECT)
    bfree t.toNat
    setDin ip fun d => { d with addrs := upd d.addrs (Fin.last NDIRECT) 0 }

def itrunc (ip : Icache) : Op Unit := do
  freeAddrs ip ((List.finRange NDIRECT).map Fin.castSucc)
  freeTable ip
  setDin ip fun d => { d with size := 0 }
  iupdate ip

/-- The part of `iput` for an inode with no links and no other references: truncate and free. -/
def ifree (ip : Icache) : Op Unit := do
  itrunc ip
  setDin ip fun d => { d with type := 0 }
  iupdate ip
  setInode ip fun n => { n with valid := false }

/-- Drop a reference to an in-memory inode.  If that was the last reference and the inode has no
links to it, free the inode (and its content) on disk. -/
def iput (ip : Icache) : Op Unit := do
  acquiresleep ip
  let n := (← get).inode ip
  if n.valid ∧ n.din.nlink = 0 ∧ n.ref = 1 then ifree ip
  releasesleep ip
  setInode ip fun n => { n with ref := n.ref - 1 }

def iunlockput (ip : Icache) : Op Unit := do
  iunlock ip
  iput ip

/-- It goes down in the history that `readi` has come to a block without an address. -/
def noteFill : Op Unit := modify fun s =>
  { s with history := { s.history with filled := s.history.filled + 1 } }

/-- The loop of `readi`: the `n` bytes of `ip` at `off`, one block at a time.  Every turn moves on
by at least one byte, so `n` turns are enough. -/
def readiLoop (ip : Icache) : ℕ → ℕ → ℕ → Op (List UInt8)
  | 0, _, _ => return []
  | fuel + 1, off, n => do
    if n = 0 then return []
    else
      let s ← get
      if (s.inode ip).din.addr s.disk (off / BSIZE) = 0 then noteFill
      let blk ← bread (← bmap ip (off / BSIZE))
      let m := min n (BSIZE - off % BSIZE)
      let rest ← readiLoop ip fuel (off + m) (n - m)
      return slice blk (off % BSIZE) m ++ rest

/-- Read `n` bytes at `off` from inode `ip`; `none` is `-1`. -/
def readi (ip : Icache) (off n : UInt32) : Op (Option (List UInt8)) := do
  let s ← get
  let d := (s.inode ip).din
  if d.type = T_DEV then
    if d.major < 0 ∨ (NDEV : ℤ) ≤ d.major.toInt then return none
    else
      match (s.devsw d.major.toInt.toNat).read with
      | none => return none
      | some read => return read n.toNat
  else if d.size < off ∨ off + n < off then return none
  else
    let n' := if d.size < off + n then d.size - off else n
    return some (← readiLoop ip n'.toNat off.toNat n'.toNat)

/-- The loop of `writei`: the `n` bytes at `src` to `off`. -/
def writeiLoop (ip : Icache) : ℕ → (ℕ → UInt8) → ℕ → ℕ → Op Unit
  | 0, _, _, _ => return ()
  | fuel + 1, src, off, n => do
    if n = 0 then return ()
    else
      let b ← bmap ip (off / BSIZE)
      let m := min n (BSIZE - off % BSIZE)
      logWrite b fun blk => blit blk (off % BSIZE) (slice src 0 m)
      writeiLoop ip fuel (fun k => src (m + k)) (off + m) (n - m)

/-- Write the `n` bytes at `src` to inode `ip` at `off`; returns `n`, or `-1`. -/
def writei (ip : Icache) (src : ℕ → UInt8) (off n : UInt32) : Op ℤ := do
  let s ← get
  let d := (s.inode ip).din
  if d.type = T_DEV then
    if d.major < 0 ∨ (NDEV : ℤ) ≤ d.major.toInt then return -1
    else
      match (s.devsw d.major.toInt.toNat).write with
      | none => return -1
      | some write => return write (slice src 0 n.toNat)
  else if d.size < off ∨ off + n < off then return -1
  else if MAXFILE * BSIZE < (off + n).toNat then return -1
  else
    writeiLoop ip n.toNat src off.toNat n.toNat
    if 0 < n ∧ d.size < off + n then
      setDin ip fun d => { d with size := off + n }
      iupdate ip
    return n.toNat

end Xv6.Fs
