import Xv6.Fs.Syscall
import Xv6.Vm.Copyout
import Xv6.Vm.Tables

/-!
# The system call `exec`

`exec` of `exec.c` as a whole: the file system it reads the program from, the memory it builds the
new image in, and the process whose image it replaces.  The steps are in the order of the source,
with every way out of it, and the label `bad` is a function that gets what has been set up so far.

The functions on page tables are those of `Xv6.Vm`.  Only `loaduvm` and the loop over the program
headers are written again here, because they read the file with `readi` of the file system, which
has a state of its own: a read may find another content than the read before it, and may fail at any
point.

A run ends with a result or it stops.  A stop is a panic of the file system, a panic of `vm.c` or
`kalloc.c`, or the null pointer of `uva2ka`.
-/

namespace Xv6.Exec

open Vm

/-- What `exec` writes of `struct proc`, with the two registers of the trap frame. -/
structure Proc where
  pgdir : PageDir
  sz : ℕ
  name : List UInt8
  /-- `tf->eip` -/
  eip : ℕ
  /-- `tf->esp` -/
  esp : ℕ

/-- The state that `exec` runs in. -/
structure State where
  fs : Fs.State
  kmem : Kmem
  proc : Proc

/-- How `exec` can fail to return. -/
inductive Stop
  /-- the file system panics, or the process waits for a lock that it holds -/
  | fs (e : Fs.Stop)
  /-- a panic of `vm.c` or `kalloc.c` -/
  | panic
  /-- `uva2ka` reads through the null pointer that `walkpgdir` returned -/
  | null

abbrev Op := StateT State (Except Stop)

def fsys {α : Type} (m : Fs.Op α) : Op α := fun s =>
  match m s.fs with
  | .ok (a, fs) => .ok (a, { s with fs := fs })
  | .error e => .error (.fs e)

/-- The result of a function of `vm.c`; there is none if it stops. -/
@[irreducible] def call {α : Type} (e : Stop) : Option α → Op α
  | none => throw e
  | some a => return a

def setKmem (k : Kmem) : Op Unit := modify fun s => { s with kmem := k }

/-! ## The functions of `vm.c` -/

def setupkvm (L : Layout) : Op (Option PageDir) := do
  let (o, k) ← call .panic (Vm.setupkvm L (← get).kmem)
  setKmem k
  return o

def allocuvm (L : Layout) (pgdir : PageDir) (oldsz newsz : ℕ) : Op (ℕ × PageDir) := do
  let (sz, k, pgdir) ← call .panic (Vm.allocuvm L (← get).kmem pgdir oldsz newsz)
  setKmem k
  return (sz, pgdir)

def freevm (L : Layout) (pgdir : PageDir) : Op Unit := do
  setKmem (← call .panic (Vm.freevm L (← get).kmem pgdir))

def copyout (pgdir : PageDir) (va : ℕ) (buf : List UInt8) : Op Bool := do
  let (ok, k) ← call .null (Vm.copyout (← get).kmem pgdir va buf)
  setKmem k
  return ok

/-- The loop of `exec` over the argument strings: the stack pointer after it and the addresses of
the strings. -/
def pushArgs (pgdir : PageDir) (argv : List (List UInt8)) (sp : ℕ) : Op (Option (ℕ × List ℕ)) := do
  let (o, k) ← call .null (Vm.pushArgs pgdir argv sp [] (← get).kmem)
  setKmem k
  return o

/-- The loop of `loaduvm`, for the `n` pages from page `i` of the segment on.  What `readi` delivers
is put at the physical address of the page. -/
def loadLoop (pgdir : PageDir) (addr : ℕ) (ip : Fs.Icache) (offset sz : ℕ) : ℕ → ℕ → Op Bool
  | 0, _ => return true
  | n + 1, i => do
    let pte ← call .panic (walkpgdir pgdir (addr / PGSIZE + i))
    let m := min (sz - i * PGSIZE) PGSIZE
    let bs := (← fsys (Fs.readi ip (UInt32.ofNat (offset + i * PGSIZE)) (UInt32.ofNat m))).getD []
    setKmem ((← get).kmem.write pte.addr 0 bs)
    if bs.length = m then loadLoop pgdir addr ip offset sz n (i + 1) else return false

/-- Load a program segment into `pgdir`.  `addr` must be page-aligned and the pages from `addr` to
`addr + sz` must already be mapped. -/
def loaduvm (pgdir : PageDir) (addr : ℕ) (ip : Fs.Icache) (offset sz : ℕ) : Op Bool := do
  if addr % PGSIZE = 0 then loadLoop pgdir addr ip offset sz (pgroundup sz) 0 else throw .panic

/-! ## The program -/

/-- `readi(ip, …, off, n) != n` is an error. -/
def readAll (ip : Fs.Icache) (off n : ℕ) : Op (Option (List UInt8)) := do
  match ← fsys (Fs.readi ip (UInt32.ofNat off) (UInt32.ofNat n)) with
  | none => return none
  | some bs => return if bs.length = n then some bs else none

/-- The loop over the program headers.  No size stands for `goto bad`. -/
def loadSegments (L : Layout) (ip : Fs.Icache) : ℕ → ℕ → ℕ → PageDir → Op (Option ℕ × PageDir)
  | 0, _, sz, pgdir => return (some sz, pgdir)
  | n + 1, off, sz, pgdir => do
    match ← readAll ip off PROGHDRSIZE with
    | none => return (none, pgdir)
    | some bs =>
      let ph := Proghdr.parse bs
      if ph.type ≠ ELF_PROG_LOAD then
        loadSegments L ip n ((off + PROGHDRSIZE) % 2 ^ 32) sz pgdir
      else if ph.memsz < ph.filesz then return (none, pgdir)
      else if ph.limit < ph.vaddr then return (none, pgdir)
      else
        let (sz, pgdir) ← allocuvm L pgdir sz ph.limit
        if sz = 0 then return (none, pgdir)
        else if ph.vaddr % PGSIZE ≠ 0 then return (none, pgdir)
        else if ← loaduvm pgdir ph.vaddr ip ph.off ph.filesz then
          loadSegments L ip n ((off + PROGHDRSIZE) % 2 ^ 32) sz pgdir
        else return (none, pgdir)

/-- The label `bad`: release what there is. -/
def bad (L : Layout) (pgdir : Option PageDir) (ip : Option Fs.Icache) : Op ℤ := do
  match pgdir with
  | some pgdir => freevm L pgdir
  | none => pure ()
  match ip with
  | some ip =>
    fsys (Fs.iunlockput ip)
    fsys Fs.endOp
  | none => pure ()
  return -1

/-- `elf.entry`. -/
def entry (hdr : List UInt8) : ℕ := littleEndian hdr 24 4

/-- The part of `exec` that has to do with the file: the entry point, the size and the directory of
the program.  No result means that `exec` has failed. -/
def load (L : Layout) (cwd : Fs.Icache) (path : Fs.Name) : Op (Option (ℕ × ℕ × PageDir)) := do
  fsys Fs.beginOp
  match ← fsys (Fs.namei cwd path) with
  | none =>
    fsys Fs.endOp
    return none
  | some ip =>
    fsys (Fs.ilock ip)
    match ← readAll ip 0 ELFHDRSIZE with
    | none =>
      let _ ← bad L none (some ip)
      return none
    | some hdr =>
      if (Elfhdr.parse hdr).magic ≠ ELF_MAGIC then
        let _ ← bad L none (some ip)
        return none
      else
        match ← setupkvm L with
        | none =>
          let _ ← bad L none (some ip)
          return none
        | some pgdir =>
          match ← loadSegments L ip (Elfhdr.parse hdr).phnum (Elfhdr.parse hdr).phoff 0 pgdir with
          | (none, pgdir) =>
            let _ ← bad L (some pgdir) (some ip)
            return none
          | (some sz, pgdir) =>
            fsys (Fs.iunlockput ip)
            fsys Fs.endOp
            return some (entry hdr, sz, pgdir)

/-- Two pages at the next page boundary, the first of them inaccessible: the size of the image with
them, or 0. -/
def stackPages (L : Layout) (sz : ℕ) (pgdir : PageDir) : Op (ℕ × PageDir) := do
  let (sz, pgdir) ← allocuvm L pgdir (pgroundup sz * PGSIZE) (pgroundup sz * PGSIZE + 2 * PGSIZE)
  if sz = 0 then return (0, pgdir)
  else return (sz, ← call .panic (clearpteu pgdir ((sz - 2 * PGSIZE) / PGSIZE)))

/-- Push the argument strings and the rest of the stack: the stack pointer, unless that fails. -/
def stackArgs (argv : List (List UInt8)) (sz : ℕ) (pgdir : PageDir) : Op (Option ℕ) := do
  match ← pushArgs pgdir argv sz with
  | none => return none
  | some (sp, us) =>
    let esp := (sp + (2 ^ 32 - ustackSize us)) % 2 ^ 32
    if ← copyout pgdir esp (ustack sp us) then return some esp else return none

/-- The stack of the new image, with the arguments: the size of the image and the stack pointer. -/
def stack (L : Layout) (argv : List (List UInt8)) (sz : ℕ) (pgdir : PageDir) :
    Op (Option (ℕ × ℕ) × PageDir) := do
  let (sz, pgdir) ← stackPages L sz pgdir
  if sz = 0 then return (none, pgdir)
  else
    match ← stackArgs argv sz pgdir with
    | none => return (none, pgdir)
    | some esp => return (some (sz, esp), pgdir)

/-- The part of a path after its last slash: the loop goes along `s`, and `last` is what it has so
far. -/
def lastElem : List UInt8 → List UInt8 → List UInt8
  | [], last => last
  | c :: s, last => lastElem s (if c = Fs.slash then s else last)

/-- Like `strncpy` but guaranteed to end the string: at most `n - 1` characters. -/
def safestrcpy (t : List UInt8) (n : ℕ) : List UInt8 := t.take (n - 1)

/-- `sizeof(curproc->name)`. -/
def NAMESIZE : ℕ := 16

def commit (L : Layout) (path : Fs.Name) (eip sz esp : ℕ) (pgdir : PageDir) : Op ℤ := do
  let oldpgdir := (← get).proc.pgdir
  modify fun s => { s with proc := ⟨pgdir, sz, safestrcpy (lastElem path path) NAMESIZE, eip, esp⟩ }
  freevm L oldpgdir
  return 0

/-- Replace the image of the process by the program in the file `path`. -/
def exec (L : Layout) (cwd : Fs.Icache) (path : Fs.Name) (argv : List (List UInt8)) : Op ℤ := do
  match ← load L cwd path with
  | none => return -1
  | some (eip, sz, pgdir) =>
    match ← stack L argv sz pgdir with
    | (none, pgdir) => bad L (some pgdir) none
    | (some (sz, esp), pgdir) => commit L path eip sz esp pgdir

/-! ## A small machine -/

/-- A directory with two files, `a` and `b`. -/
def rootdir : List UInt8 :=
  [(1, Fs.dot), (1, Fs.dotdot), (2, [97]), (3, [98])].flatMap fun e =>
    (Fs.Dirent.mk e.1 (Fs.strncpy e.2 Fs.DIRSIZ)).toBytes

/-- A program header, for a segment of eight bytes at the page `v`, of which four are in the
file. -/
def header (v : UInt8) : List UInt8 :=
  [1, 0, 0, 0, 116, 0, 0, 0, 0, 16 * v] ++ List.replicate 6 0 ++ [4, 0, 0, 0,
    8] ++ List.replicate 11 0

/-- A program that uses `n` of its two headers. -/
def program (n : UInt8) : List UInt8 :=
  [0x7F, 0x45, 0x4C, 0x46] ++ List.replicate 24 0 ++ [52, 0, 0, 0] ++ List.replicate 12 0 ++
    [n, 0] ++ List.replicate 6 0 ++ header 0 ++ header 1 ++ [7, 8, 9, 10]

/-- A disk with this directory; `a` has no segment and `b` has one. -/
def smallDisk : Fs.Disk
  | 1 => ([12, 8, 8, 0, 2, 2, 3] : List UInt32).zipIdx.foldr (fun v blk => Fs.putEntry v.2 v.1 blk)
      Fs.zeroBlock
  | 2 => [(1, Fs.T_DIR, 64, 4), (2, Fs.T_FILE, 120, 5), (3, Fs.T_FILE, 120, 6)].foldr
      (fun (i, type, size, b) blk =>
        Fs.putDinode i ⟨type, 0, 0, 1, size, fun k => if k.val = 0 then b else 0⟩ blk) Fs.zeroBlock
  | 3 => fun x => if x = 0 then 0x7F else 0
  | 4 => Lib.blit Fs.zeroBlock 0 rootdir
  | 5 => Lib.blit Fs.zeroBlock 0 (program 0)
  | 6 => Lib.blit Fs.zeroBlock 0 (program 1)
  | _ => Fs.zeroBlock

/-- A process without user memory on the machine `L` with this disk. -/
def small (L : Layout) : State :=
  ⟨Fs.init smallDisk fun _ => ⟨none, none⟩, running L, ⟨PageDir.empty L.first, 0, [], 0, 0⟩⟩

/-- A machine that has `n` pages, and maps the last page of the address space for the kernel. -/
def smallLayout (n : ℕ) (h : 0 < n) : Layout where
  first := 1
  numpages := n
  kmap := [⟨VPAGES - 1, 0, 1, true⟩]
  first_pos := Nat.one_pos
  first_le := h
  kmap_kern := by decide
  kmap_sorted := by decide

/-- What a program returns, if it returns. -/
def returned {α : Type} (p : Op α) (s : State) : Option α := (p s).toOption.map Prod.fst

theorem ok_of_returned {α : Type} {p : Op α} {s : State} {a : α} (h : returned p s = some a) :
    ∃ s', p s = .ok (a, s') := by
  unfold returned at h
  cases hp : p s with
  | error e =>
    rw [hp] at h
    cases h
  | ok r =>
    rw [hp] at h
    cases h
    exact ⟨r.2, rfl⟩

theorem returned_bind {α β : Type} {p : Op α} {f : α → Op β} {s : State} {b : β}
    (h : returned (p >>= f) s = some b) : ∃ a s', p s = .ok (a, s') ∧
      returned (f a) s' = some b := by
  unfold returned at h
  cases hp : p s with
  | error e =>
    rw [Lib.bind_error hp] at h
    cases h
  | ok r =>
    rw [Lib.bind_ok hp] at h
    exact ⟨r.1, r.2, rfl, h⟩

end Xv6.Exec
