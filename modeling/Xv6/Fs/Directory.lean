import Xv6.Fs.Inode

/-!
# Directories and path names

The upper half of `fs.c`.  A directory is a file that holds a sequence of `Dirent`s; an entry with
the inode number zero is empty.  `dirlookup` searches a directory, `dirlink` adds an entry, and
`namex` walks along a path, one element at a time (`skipelem`), holding a reference to one inode
and the lock of at most one.

A path is the list of its bytes; the list ends where the string in the source has its terminating
zero, and a zero byte inside it ends the path too.  The buffer that the source copies a path
element into keeps stale bytes after the terminating zero; `strncmp` and `strncpy` stop there, so
a name here is the list of the bytes before it.
-/

namespace Xv6.Fs

open Lib

/-- Length of a name in a directory entry. -/
def DIRSIZ : ℕ := 14

/-- Size of a directory entry in bytes. -/
def DESIZE : ℕ := 2 + DIRSIZ

/-- A file name or a path. -/
abbrev Name := List UInt8

structure Dirent where
  inum : ℕ
  name : List UInt8
  deriving DecidableEq

/-- The entry that `DESIZE` bytes hold. -/
def Dirent.ofBytes (l : List UInt8) : Dirent := ⟨leNat (l.take 2), l.drop 2⟩

/-- The bytes of an entry: a `ushort` and the characters of the name. -/
def Dirent.toBytes (de : Dirent) : List UInt8 := leBytes 2 de.inum ++ de.name

/-- `strncmp(p, q, n) == 0`: the first `n` characters agree, up to a common zero. -/
def strncmp : ℕ → List UInt8 → List UInt8 → Bool
  | 0, _, _ => true
  | n + 1, p, q =>
    if p.headD 0 ≠ q.headD 0 then false
    else if p.headD 0 = 0 then true
    else strncmp n p.tail q.tail

/-- `strncpy(s, t, n)`: the characters of `t` up to the first zero, then zeroes. -/
def strncpy : List UInt8 → ℕ → List UInt8
  | _, 0 => []
  | t, n + 1 => if t.headD 0 = 0 then List.replicate (n + 1) 0 else t.headD 0 :: strncpy t.tail n

/-- Whether two names of entries are the same. -/
def namecmp (s t : List UInt8) : Bool := strncmp DIRSIZ s t

def dot : Name := [46]

def dotdot : Name := [46, 46]

/-! ## Directories -/

/-- The entry of `dp` at the offset `off`, or `none` if it cannot be read in full. -/
def readDirent (dp : Icache) (off : ℕ) : Op (Option Dirent) := do
  match ← readi dp (UInt32.ofNat off) (UInt32.ofNat DESIZE) with
  | some l => return if l.length = DESIZE then some (Dirent.ofBytes l) else none
  | none => return none

/-- The loop of `dirlookup`, with `k` entries to go: the inode number and the offset of the first
entry with the name. -/
def dirlookupLoop (dp : Icache) (name : Name) : ℕ → ℕ → Op (Option (ℕ × ℕ))
  | 0, _ => return none
  | k + 1, off => do
    match ← readDirent dp off with
    | none => throw (.panic .dirlookupRead)
    | some de =>
      if de.inum = 0 then dirlookupLoop dp name k (off + DESIZE)
      else if namecmp name de.name then return some (de.inum, off)
      else dirlookupLoop dp name k (off + DESIZE)

/-- The number of offsets below the size that the loops over a directory visit. -/
def dirents (d : Dinode) : ℕ := (d.size.toNat + DESIZE - 1) / DESIZE

/-- Look for a directory entry in a directory; also returns the offset of the entry. -/
def dirlookup (dp : Icache) (name : Name) : Op (Option (Icache × ℕ)) := do
  let d := ((← get).inode dp).din
  if d.type ≠ T_DIR then throw (.panic .dirlookupNotDir)
  else
    match ← dirlookupLoop dp name (dirents d) 0 with
    | some (inum, off) => return some (← iget inum, off)
    | none => return none

/-- The loop of `dirlink`: the offset of the first empty entry, or of the end. -/
def emptyDirent (dp : Icache) : ℕ → ℕ → Op ℕ
  | 0, off => return off
  | k + 1, off => do
    match ← readDirent dp off with
    | none => throw (.panic .dirlinkRead)
    | some de => if de.inum = 0 then return off else emptyDirent dp k (off + DESIZE)

/-- The bytes of an entry, as the memory that `writei` copies from. -/
def Dirent.memory (de : Dirent) : ℕ → UInt8 := fun k => de.toBytes.getD k 0

/-- Write a new directory entry into the directory `dp`; `false` is `-1`. -/
def dirlink (dp : Icache) (name : Name) (inum : ℕ) : Op Bool := do
  match ← dirlookup dp name with
  | some (ip, _) =>
    iput ip
    return false
  | none =>
    let off ← emptyDirent dp (dirents ((← get).inode dp).din) 0
    let de : Dirent := ⟨inum, strncpy name DIRSIZ⟩
    let r ← writei dp de.memory (UInt32.ofNat off) (UInt32.ofNat DESIZE)
    if r ≠ DESIZE then throw (.panic .dirlink)
    else return true

/-! ## Paths -/

def slash : UInt8 := 47

/-- Copy the next path element from the path.  Returns the element and the path that follows
it, without leading slashes; `none` if there is no element. -/
def skipelem (path : Name) : Option (Name × Name) :=
  let s := path.dropWhile (· = slash)
  if s.headD 0 = 0 then none
  else
    let elem := s.takeWhile fun c => c ≠ slash ∧ c ≠ 0
    some (elem.take DIRSIZ, (s.drop elem.length).dropWhile (· = slash))

/-- The loop of `namex`.  Every turn takes at least one character off the path, so as many turns
as it has characters are enough. -/
def namexLoop (parent : Bool) : ℕ → Icache → Name → Op (Option (Icache × Name))
  | 0, ip, _ => namexEnd ip
  | fuel + 1, ip, path => do
    match skipelem path with
    | none => namexEnd ip
    | some (name, rest) =>
      ilock ip
      if ((← get).inode ip).din.type ≠ T_DIR then
        iunlockput ip
        return none
      else if parent ∧ rest.headD 0 = 0 then
        iunlock ip
        return some (ip, name)
      else
        match ← dirlookup ip name with
        | none =>
          iunlockput ip
          return none
        | some (next, _) =>
          iunlockput ip
          namexLoop parent fuel next rest
where
  /-- After the last element. -/
  namexEnd (ip : Icache) : Op (Option (Icache × Name)) := do
    if parent then
      iput ip
      return none
    else return some (ip, [])

/-- Look up the inode for a path name, from the directory `cwd` if the path is relative.  If
`parent` is set, return the inode of the parent and the final path element. -/
def namex (cwd : Icache) (path : Name) (parent : Bool) : Op (Option (Icache × Name)) := do
  let ip ← if path.headD 0 = slash then iget ROOTINO else idup cwd
  namexLoop parent path.length ip path

def namei (cwd : Icache) (path : Name) : Op (Option Icache) := do
  return (← namex cwd path false).map Prod.fst

/-- The inode of the parent and the final path element. -/
def nameiparent (cwd : Icache) (path : Name) : Op (Option (Icache × Name)) := namex cwd path true

end Xv6.Fs
