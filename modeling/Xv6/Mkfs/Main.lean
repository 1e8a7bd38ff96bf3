import Xv6.Fs.Directory

/-!
# `mkfs`

The program that makes the initial file system.  It writes the super block and an empty root
directory, adds one file after the other to it, and at the end rounds the size of the root directory
up and writes the free map.  Inodes and blocks are numbered by counters, `freeinode` and
`freeblock`; neither is compared with the limits that the super block announces.

The image is a file of the host.  `wsect` makes it longer if it must, and `rsect` fails past its
end.  A host file is given to the program by the pieces in which `read` returns its contents.

The functions here are programs over the state of `mkfs` (`Prog`), and stop where the source calls
`exit(1)` or where an assertion fails.  The numbers are stored with the least significant byte first
on the host too, so `xshort` and `xint` do nothing.
-/

namespace Xv6.Mkfs

open Lib Fs

/-- Size of the file system in blocks. -/
def FSSIZE : ℕ := 1000

/-- The number of inodes that the super block announces. -/
def NINODES : ℕ := 200

def nbitmap : ℕ := FSSIZE / (BSIZE * 8) + 1

def ninodeblocks : ℕ := NINODES / IPB + 1

def nlog : ℕ := LOGSIZE

/-- Number of meta blocks (boot, sb, nlog, inode, bitmap). -/
def nmeta : ℕ := 2 + nlog + ninodeblocks + nbitmap

def nblocks : ℕ := FSSIZE - nmeta

def sb : Superblock where
  size := FSSIZE
  nblocks := nblocks
  ninodes := NINODES
  nlog := nlog
  logstart := 2
  inodestart := 2 + nlog
  bmapstart := 2 + nlog + ninodeblocks

/-- The state of the program. -/
structure State where
  /-- the contents of the image -/
  img : Disk
  /-- the length of the image in sectors -/
  nsect : ℕ
  freeinode : ℕ
  freeblock : ℕ

/-- How the program can end without `exit(0)`. -/
inductive Stop
  /-- an assertion fails -/
  | assert
  /-- `perror` and `exit(1)` -/
  | perror
  deriving DecidableEq

/-- A program over the state of `mkfs`. -/
abbrev Prog := StateT State (Except Stop)

/-! ## Sectors and inodes -/

/-- The sector at the offset `sec * BSIZE`, which is a `uint`. -/
def seek (sec : ℕ) : ℕ := sec * BSIZE % 2 ^ 32 / BSIZE

def wsect (sec : ℕ) (buf : Block) : Prog Unit := modify fun s =>
  { s with img := upd s.img (seek sec) buf, nsect := max s.nsect (seek sec + 1) }

def rsect (sec : ℕ) : Prog Block := do
  let s ← get
  if s.nsect ≤ seek sec then throw .perror
  else return s.img (seek sec)

def winode (inum : ℕ) (d : Dinode) : Prog Unit := do
  let buf ← rsect (IBLOCK inum sb)
  wsect (IBLOCK inum sb) (putDinode inum d buf)

def rinode (inum : ℕ) : Prog Dinode := do
  let buf ← rsect (IBLOCK inum sb)
  return Dinode.ofBytes (slice buf (64 * (inum % IPB)) 64)

def ialloc (type : Int16) : Prog ℕ := do
  let inum := (← get).freeinode
  modify fun s => { s with freeinode := s.freeinode + 1 }
  winode inum { Dinode.zero with type := type, nlink := 1 }
  return inum

/-- The first `used` bits of a block of the free map. -/
def bitmap : ℕ → Block
  | 0 => zeroBlock
  | i + 1 => upd (bitmap i) (i / 8) (bitmap i (i / 8) ||| mask (i % 8))

def balloc (used : ℕ) : Prog Unit := do
  if used < BSIZE * 8 then wsect sb.bmapstart (bitmap used)
  else throw .assert

/-! ## Appending to a file -/

/-- `freeblock++` -/
def takeBlock : Prog ℕ := do
  let b := (← get).freeblock
  modify fun s => { s with freeblock := s.freeblock + 1 }
  return b

/-- The inode with a block in the slot `k` of its addresses. -/
def fillSlot (din : Dinode) (k : Fin (NDIRECT + 1)) : Prog Dinode := do
  if din.addrs k = 0 then
    let b ← takeBlock
    return { din with addrs := upd din.addrs k (UInt32.ofNat b) }
  else return din

/-- The address of the block `fbn` of a file, after what is missing was taken. -/
def fileBlock (din : Dinode) (fbn : ℕ) : Prog (Dinode × ℕ) := do
  if h : fbn < NDIRECT then
    let din ← fillSlot din ⟨fbn, Nat.lt_succ_of_lt h⟩
    return (din, (din.addrs ⟨fbn, Nat.lt_succ_of_lt h⟩).toNat)
  else
    let din ← fillSlot din (Fin.last NDIRECT)
    let t := (din.addrs (Fin.last NDIRECT)).toNat
    let indirect ← rsect t
    if entry indirect (fbn - NDIRECT) = 0 then
      let b ← takeBlock
      wsect t (putEntry (fbn - NDIRECT) (UInt32.ofNat b) indirect)
      return (din, (UInt32.ofNat b).toNat)
    else return (din, (entry indirect (fbn - NDIRECT)).toNat)

/-- The loop of `iappend`.  Every turn moves on by at least one byte. -/
def appendLoop : ℕ → Dinode → ℕ → List UInt8 → Prog (Dinode × ℕ)
  | 0, din, off, _ => return (din, off)
  | fuel + 1, din, off, p => do
    if p.length = 0 then return (din, off)
    else
      let fbn := off / BSIZE
      if fbn < MAXFILE then
        let (din, x) ← fileBlock din fbn
        let n1 := min p.length ((fbn + 1) * BSIZE - off)
        let buf ← rsect x
        wsect x (blit buf (off - fbn * BSIZE) (p.take n1))
        appendLoop fuel din (off + n1) (p.drop n1)
      else throw .assert

def iappend (inum : ℕ) (p : List UInt8) : Prog Unit := do
  let din ← rinode inum
  let (din, off) ← appendLoop p.length din din.size.toNat p
  winode inum { din with size := UInt32.ofNat off }

/-! ## The program -/

/-- A file of the host: its name as a C string, and what the calls of `read` return until one
returns nothing.  None of them returns more than it was asked for. -/
structure Input where
  name : Name
  chunks : List (List UInt8)
  nul : 0 ∉ name
  pos : ∀ c ∈ chunks, c ≠ []
  le : ∀ c ∈ chunks, c.length ≤ BSIZE

def Input.data (f : Input) : List UInt8 := f.chunks.flatten

/-- The name without a leading `_`. -/
def Input.base (f : Input) : Name := if f.name.headD 0 = 95 then f.name.tail else f.name

/-- The contents of a file, piece by piece. -/
def appendAll (inum : ℕ) : List (List UInt8) → Prog Unit
  | [] => return ()
  | c :: cs => do
    iappend inum c
    appendAll inum cs

/-- One turn of the loop over the arguments. -/
def addFile (f : Input) : Prog Unit := do
  if slash ∈ f.name then throw .assert
  else
    let inum ← ialloc T_FILE
    iappend ROOTINO (⟨inum, strncpy f.base DIRSIZ⟩ : Dirent).toBytes
    appendAll inum f.chunks

def addFiles : List Input → Prog Unit
  | [] => return ()
  | f :: fs => do
    addFile f
    addFiles fs

/-- The image is a file of `n` zeroed sectors. -/
def zeroSectors : ℕ → Prog Unit
  | 0 => return ()
  | n + 1 => do
    zeroSectors n
    wsect n zeroBlock

/-- The block with the super block in it. -/
def superBlock : Block :=
  putEntry 6 (UInt32.ofNat sb.bmapstart) <| putEntry 5 (UInt32.ofNat sb.inodestart) <|
  putEntry 4 (UInt32.ofNat sb.logstart) <| putEntry 3 (UInt32.ofNat sb.nlog) <|
  putEntry 2 (UInt32.ofNat sb.ninodes) <| putEntry 1 (UInt32.ofNat sb.nblocks) <|
  putEntry 0 (UInt32.ofNat sb.size) zeroBlock

def fixRoot : Prog Unit := do
  let din ← rinode ROOTINO
  let off := (din.size / 512 + 1) * 512
  winode ROOTINO { din with size := off }

/-- The entries `.` and `..` of the root directory. -/
def rootDots : Prog Unit := do
  iappend ROOTINO (⟨ROOTINO, strncpy dot DIRSIZ⟩ : Dirent).toBytes
  iappend ROOTINO (⟨ROOTINO, strncpy dotdot DIRSIZ⟩ : Dirent).toBytes

/-- The program after the super block was written. -/
def populate (files : List Input) : Prog Unit := do
  let rootino ← ialloc T_DIR
  if rootino ≠ ROOTINO then throw .assert
  else
    rootDots
    addFiles files
    fixRoot
    balloc (← get).freeblock

/-- The program, up to `exit(0)`. -/
def main (files : List Input) : Prog Unit := do
  zeroSectors FSSIZE
  wsect 1 superBlock
  populate files

/-- The state in which the program starts, with an empty image. -/
def start : State := ⟨fun _ => zeroBlock, 0, 1, nmeta⟩

end Xv6.Mkfs
