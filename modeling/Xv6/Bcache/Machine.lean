import Xv6.Fs.Disk
import Xv6.Lib.Circle
import Xv6.Lib.Run

/-!
# The buffer cache, step by step

`bio.c`, with `iderw` and `ideintr` of `ide.c` below it.  A step is a section under `bcache.lock`,
taking or leaving the sleep lock of a buffer, the interrupt that ends a request to the disk, or what
a process does to a buffer that it has locked; between any two steps any other process can run.

* `bread` is `bget`, which finds or recycles a buffer under `bcache.lock` (`bget`), then the wait
  for the sleep lock (`lock`), and, if the buffer is not valid, a request to the disk, at whose end
  `iderw` returns (`wake`).
* `logWrite` and `bwrite` come after the change that the caller makes to the contents.  Nobody else
  looks at a buffer that is locked, so the change and the call are one step.  What `log_write` does
  to the log is not part of it.
* `brelse` gives up the sleep lock (`brelse`) and then puts the buffer to the front of the list,
  under `bcache.lock` (`put`).
* A commit is a process like any other: it reads, writes and releases buffers.

The buffers are on the circular list `bcache.head`, and the requests wait in `idequeue`.  All blocks
are those of one device, number 1; a buffer that was never used has the device number 0.  A panic is
a step that is not enabled.
-/

namespace Xv6.Bcache

open Lib

abbrev Block := Fin Fs.BSIZE → UInt8

def ROOTDEV : ℕ := 1

/-- An index into `bcache.buf`, standing for a `struct buf *`. -/
abbrev BufId := Fin NBUF

/-- `struct buf`, without its links.  `valid` and `dirty` are the flags `B_VALID` and `B_DIRTY`, and
`owner` is the process that holds the sleep lock. -/
structure Buf (P : Type) where
  dev : ℕ
  blockno : ℕ
  valid : Bool
  dirty : Bool
  refcnt : ℕ
  owner : Option P
  data : Block

inductive Pc
  /-- in none of the functions -/
  | out
  /-- in `bread`, waiting for the sleep lock of a buffer -/
  | locking (i : BufId)
  /-- in `bread`, waiting for the disk -/
  | reading (i : BufId)
  /-- in `bwrite`, waiting for the disk -/
  | writing (i : BufId)
  /-- in `brelse`, past `releasesleep` -/
  | releasing (i : BufId)
  deriving DecidableEq

/-- The disk, the buffers, the list, the queue of requests, and the processes. -/
structure State (P : Type) where
  disk : ℕ → Block
  buf : BufId → Buf P
  /-- the links `next` and `prev` of the buffers and of `bcache.head` -/
  list : Circle BufId
  /-- `idequeue` -/
  queue : List BufId
  pc : P → Pc

inductive Label (P : Type)
  | bget (p : P) (b : ℕ)
  | lock (p : P)
  | ideintr
  | wake (p : P)
  | logWrite (p : P) (i : BufId) (d : Block)
  | bwrite (p : P) (i : BufId) (d : Block)
  | brelse (p : P) (i : BufId)
  | put (p : P)

/-- What the users of the cache see of a step. -/
inductive Event
  | none
  /-- `bread` of the block `b` returns these contents -/
  | read (b : ℕ) (d : Block)
  /-- the block `b` is given these contents, by `log_write` or `bwrite` -/
  | write (b : ℕ) (d : Block)

section Steps

variable {P : Type} [DecidableEq P] (s : State P)

def State.modBuf (i : BufId) (f : Buf P → Buf P) : State P :=
  { s with buf := upd s.buf i (f (s.buf i)) }

def State.setPc (p : P) (x : Pc) : State P := { s with pc := upd s.pc p x }

/-- The first loop of `bget`: is the block already cached? -/
def findCached (b : ℕ) : Option BufId :=
  s.list.search (fun i => (s.buf i).dev = ROOTDEV ∧ (s.buf i).blockno = b) NBUF (s.list.next none)

/-- The second loop of `bget`: an unused buffer, starting with the least recently used. -/
def findUnused : Option BufId :=
  s.list.swap.search (fun i => (s.buf i).refcnt = 0 ∧ (s.buf i).dirty = false)
    NBUF (s.list.prev none)

/-- The section of `bget` under `bcache.lock`. -/
def bget (p : P) (b : ℕ) : Option (State P) :=
  match findCached s b with
  | some i => some ((s.modBuf i fun x => { x with refcnt := x.refcnt + 1 }).setPc p (.locking i))
  | none =>
    match findUnused s with
    | some i =>
      some ((s.modBuf i fun x => { x with
        dev := ROOTDEV, blockno := b, valid := false, dirty := false, refcnt := 1 }).setPc p
          (.locking i))
    | none => none

/-- `acquiresleep` at the end of `bget`, and `bread` up to its return or its request to the disk. -/
def lock (p : P) (i : BufId) : Option (State P × Event) :=
  if (s.buf i).owner = none then
    let s := s.modBuf i fun x => { x with owner := some p }
    if (s.buf i).valid then some (s.setPc p .out, .read (s.buf i).blockno (s.buf i).data)
    else some ({ s with queue := s.queue ++ [i] }.setPc p (.reading i), .none)
  else none

/-- The end of the request at the head of the queue. -/
def ideintr : Option (State P) :=
  match s.queue with
  | [] => none
  | i :: queue =>
    let x := s.buf i
    let s := { s with queue := queue }
    if x.dirty then
      some ({ s with disk := upd s.disk x.blockno x.data }.modBuf i fun x => { x with
        valid := true, dirty := false })
    else some (s.modBuf i fun x => { x with data := s.disk x.blockno, valid := true })

/-- The return of `iderw`: the request is done. -/
def wake (p : P) (i : BufId) : Option (State P) :=
  if (s.buf i).valid = true ∧ (s.buf i).dirty = false then some (s.setPc p .out) else none

/-- `log_write`: pin the buffer in the cache. -/
def logWrite (i : BufId) (d : Block) : State P :=
  s.modBuf i fun x => { x with data := d, dirty := true }

/-- `bwrite` up to the request to the disk. -/
def bwrite (p : P) (i : BufId) (d : Block) : State P :=
  let s := s.modBuf i fun x => { x with data := d, dirty := true }
  { s with queue := s.queue ++ [i] }.setPc p (.writing i)

def brelse (p : P) (i : BufId) : State P :=
  (s.modBuf i fun x => { x with owner := none }).setPc p (.releasing i)

/-- The section of `brelse` under `bcache.lock`. -/
def put (p : P) (i : BufId) : State P :=
  let s := s.modBuf i fun x => { x with refcnt := x.refcnt - 1 }
  let s := if (s.buf i).refcnt = 0 then { s with list := (s.list.unlink i).insertFront i } else s
  s.setPc p .out

/-- One step.  A process can use a buffer between `bread` and `brelse`, while it is in none of the
functions. -/
def step : Label P → Option (State P × Event)
  | .bget p b => if s.pc p = .out then (bget s p b).map fun t => (t, .none) else none
  | .lock p =>
    match s.pc p with
    | .locking i => lock s p i
    | _ => none
  | .ideintr => (ideintr s).map fun t => (t, .none)
  | .wake p =>
    match s.pc p with
    | .reading i => (wake s p i).map fun t => (t, .read (s.buf i).blockno (s.buf i).data)
    | .writing i => (wake s p i).map fun t => (t, .none)
    | _ => none
  | .logWrite p i d =>
    if s.pc p = .out ∧ (s.buf i).owner = some p then
      some (logWrite s i d, .write (s.buf i).blockno d)
    else none
  | .bwrite p i d =>
    if s.pc p = .out ∧ (s.buf i).owner = some p then
      some (bwrite s p i d, .write (s.buf i).blockno d)
    else none
  | .brelse p i =>
    if s.pc p = .out ∧ (s.buf i).owner = some p then some (brelse s p i, .none) else none
  | .put p =>
    match s.pc p with
    | .releasing i => some (put s p i, .none)
    | _ => none

end Steps

/-- `binit`: put all buffers on the list. -/
def binit : Circle BufId := (List.finRange NBUF).foldl Circle.insertFront Circle.empty

def init (P : Type) (disk : ℕ → Block) : State P where
  disk := disk
  buf := fun _ => ⟨0, 0, false, false, 0, none, fun _ => 0⟩
  list := binit
  queue := []
  pc := fun _ => .out

/-! ## The plain block store -/

/-- **A plain block store.**  A block reads as it was written last; a step that reads something else
is not a step of the store. -/
def storeStep (store : ℕ → Block) : Event → Option ((ℕ → Block) × Unit)
  | .none => some (store, ())
  | .read b d => if d = store b then some (store, ()) else none
  | .write b d => some (upd store b d, ())

end Xv6.Bcache
