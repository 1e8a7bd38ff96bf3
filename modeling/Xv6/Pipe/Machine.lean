import Xv6.Lib.Ring
import Xv6.Lib.Run

/-!
# A pipe and the processes that share it

`pipe.c`.  Every process that is in `pipewrite`, `piperead` or `pipeclose` is at a program point,
with its buffer and its loop variable.  A step is one test, one byte, one `wakeup`, the `sleep`, or
an `acquire` or `release` of `p->lock`, so `kill`, which does not take `p->lock`, can fall between
any two of them; nothing else can while the lock is held.

* The state `SLEEPING` with its channel is `asleep`; what else the scheduler does with a process
  does not matter here.  A process goes on in `sleep` once it is not asleep and the lock is free.
* `pipeclose` can be called by any process at any time, also while others are inside; in the kernel
  the reference counts of the files exclude some of that.
* Once both ends are closed the page is freed, and nobody comes in any more.
* User memory is the caller's list of bytes.

The processes are an arbitrary type `P`.
-/

namespace Xv6.Pipe

open Lib

def PIPESIZE : ℕ := 512

/-- `struct pipe`, without its lock.  `ring` is `data` with `nread` and `nwrite`, which are 32 bits
wide. -/
structure PipeData where
  ring : RingBuf UInt8
  readopen : Bool
  writeopen : Bool

/-- `p->nread == p->nwrite`. -/
def PipeData.IsEmpty (x : PipeData) : Prop := x.ring.r = x.ring.w

/-- `p->nwrite == p->nread + PIPESIZE`. -/
def PipeData.IsFull (x : PipeData) : Prop := x.ring.w = (x.ring.r + PIPESIZE) % 2 ^ 32

instance (x : PipeData) : Decidable x.IsEmpty := inferInstanceAs (Decidable (_ = _))

instance (x : PipeData) : Decidable x.IsFull := inferInstanceAs (Decidable (_ = _))

/-- `p->data[p->nwrite++ % PIPESIZE] = b`. -/
def PipeData.put (x : PipeData) (b : UInt8) : PipeData :=
  { x with ring := x.ring.push PIPESIZE (2 ^ 32) b }

/-- `p->data[p->nread % PIPESIZE]`. -/
def PipeData.front (x : PipeData) : UInt8 := x.ring.front PIPESIZE

/-- `p->nread++`. -/
def PipeData.drop (x : PipeData) : PipeData := { x with ring := x.ring.pop (2 ^ 32) }

/-- The channels: `&p->nread` and `&p->nwrite`. -/
inductive Chan
  | nread
  | nwrite
  deriving DecidableEq

inductive Pc
  /-- In none of the calls. -/
  | out
  /-- In `pipewrite(p, buf, n)`, before `acquire`. -/
  | writeEnter (buf : List UInt8)
  /-- At the conditions of the two loops, after `i` bytes. -/
  | writeLoop (buf : List UInt8) (i : ℕ)
  /-- The buffer is full: before the test that may end the call. -/
  | writeFull (buf : List UInt8) (i : ℕ)
  /-- Before `wakeup(&p->nread)` in the loop. -/
  | writeNotify (buf : List UInt8) (i : ℕ)
  /-- Before `sleep(&p->nwrite, &p->lock)`. -/
  | writeSleep (buf : List UInt8) (i : ℕ)
  /-- In that `sleep`, without the lock. -/
  | writeAsleep (buf : List UInt8) (i : ℕ)
  /-- Before `wakeup(&p->nread)` after the loop. -/
  | writeWakeup (n : ℕ)
  /-- Before the `release` that ends the call. -/
  | writeReturn (r : ℤ)
  /-- In `piperead(p, addr, n)`, before `acquire`. -/
  | readEnter (n : ℕ)
  /-- At the condition of the first loop. -/
  | readLoop (n : ℕ)
  /-- The pipe is empty: before the test that may end the call. -/
  | readEmpty (n : ℕ)
  /-- Before `sleep(&p->nread, &p->lock)`. -/
  | readSleep (n : ℕ)
  /-- In that `sleep`, without the lock. -/
  | readAsleep (n : ℕ)
  /-- In the second loop, with the bytes copied so far. -/
  | readCopy (n : ℕ) (got : List UInt8)
  /-- Before `wakeup(&p->nwrite)`. -/
  | readWakeup (n : ℕ) (got : List UInt8)
  /-- Before the `release` that ends the call. -/
  | readReturn (n : ℕ) (got : List UInt8)
  /-- Before the `release` of a killed reader. -/
  | readFail
  /-- In `pipeclose(p, writable)`, before `acquire`. -/
  | closeEnter (writable : Bool)
  /-- Before its `wakeup`. -/
  | closeWakeup (writable : Bool)
  /-- After its `wakeup`. -/
  | closeReturn
  deriving DecidableEq

variable {P : Type*} [DecidableEq P]

/-- The pipe, its lock, and the processes.  `alive` is false once the page has been freed. -/
structure State (P : Type*) where
  pipe : PipeData
  alive : Bool
  lock : Option P
  pc : P → Pc
  asleep : P → Option Chan
  killed : P → Bool

/-- The steps: a call, the next step of a process, and `kill`. -/
inductive Label (P : Type*)
  | pipewrite (p : P) (buf : List UInt8)
  | piperead (p : P) (n : ℕ)
  | pipeclose (p : P) (writable : Bool)
  | go (p : P)
  | kill (p : P)
  deriving DecidableEq

inductive Event (P : Type*)
  | none
  /-- `pipewrite` has stored a byte. -/
  | stored (b : UInt8)
  /-- `piperead` has taken a byte. -/
  | taken (b : UInt8)
  | wrote (p : P) (r : ℤ)
  /-- A call of `piperead` for `n` bytes has returned these. -/
  | read (p : P) (n : ℕ) (got : List UInt8)
  | readFailed (p : P)
  deriving DecidableEq

namespace State

variable (s : State P)

def setPc (p : P) (x : Pc) : State P := { s with pc := Function.update s.pc p x }

/-- `acquire(&p->lock)`, by `p`, which then is at `x`.  It spins while the lock is held. -/
def acquire (p : P) (x : Pc) : Option (State P × Event P) :=
  if s.lock = none ∧ s.alive = true then some ({ s with lock := some p }.setPc p x, .none)
  else none

/-- `release(&p->lock)` at the end of a call of `p`. -/
def leave (p : P) : State P := { s with lock := none }.setPc p .out

def wakeup (chan : Chan) : State P :=
  { s with asleep := fun p => if s.asleep p = some chan then none else s.asleep p }

/-- `sleep(chan, &p->lock)`, up to the point where `p` sleeps. -/
def sleep (p : P) (chan : Chan) (x : Pc) : State P :=
  { s with lock := none, asleep := Function.update s.asleep p (some chan) }.setPc p x

end State

def writeStep (p : P) (s : State P) : Option (State P × Event P) :=
  match s.pc p with
  | .writeEnter buf => s.acquire p (.writeLoop buf 0)
  | .writeLoop buf i =>
    match buf[i]? with
    | none => some (s.setPc p (.writeWakeup buf.length), .none)
    | some b =>
      if s.pipe.IsFull then some (s.setPc p (.writeFull buf i), .none)
      else some ({ s with pipe := s.pipe.put b }.setPc p (.writeLoop buf (i + 1)), .stored b)
  | .writeFull buf i =>
    if s.pipe.readopen = false ∨ s.killed p = true then some (s.setPc p (.writeReturn (-1)), .none)
    else some (s.setPc p (.writeNotify buf i), .none)
  | .writeNotify buf i => some ((s.wakeup .nread).setPc p (.writeSleep buf i), .none)
  | .writeSleep buf i => some (s.sleep p .nwrite (.writeAsleep buf i), .none)
  | .writeAsleep buf i => if s.asleep p = none then s.acquire p (.writeLoop buf i) else none
  | .writeWakeup n => some ((s.wakeup .nread).setPc p (.writeReturn n), .none)
  | .writeReturn r => some (s.leave p, .wrote p r)
  | _ => none

def readStep (p : P) (s : State P) : Option (State P × Event P) :=
  match s.pc p with
  | .readEnter n => s.acquire p (.readLoop n)
  | .readLoop n =>
    if s.pipe.IsEmpty ∧ s.pipe.writeopen = true then some (s.setPc p (.readEmpty n), .none)
    else some (s.setPc p (.readCopy n []), .none)
  | .readEmpty n =>
    if s.killed p = true then some (s.setPc p .readFail, .none)
    else some (s.setPc p (.readSleep n), .none)
  | .readSleep n => some (s.sleep p .nread (.readAsleep n), .none)
  | .readAsleep n => if s.asleep p = none then s.acquire p (.readLoop n) else none
  | .readCopy n got =>
    if got.length < n ∧ ¬ s.pipe.IsEmpty then
      some ({ s with pipe := s.pipe.drop }.setPc p (.readCopy n (got ++ [s.pipe.front])),
        .taken s.pipe.front)
    else some (s.setPc p (.readWakeup n got), .none)
  | .readWakeup n got => some ((s.wakeup .nwrite).setPc p (.readReturn n got), .none)
  | .readReturn n got => some (s.leave p, .read p n got)
  | .readFail => some (s.leave p, .readFailed p)
  | _ => none

def PipeData.close (x : PipeData) (writable : Bool) : PipeData :=
  if writable then { x with writeopen := false } else { x with readopen := false }

def closeChan (writable : Bool) : Chan := if writable then .nread else .nwrite

def closeStep (p : P) (s : State P) : Option (State P × Event P) :=
  match s.pc p with
  | .closeEnter writable =>
    ({ s with pipe := s.pipe.close writable } : State P).acquire p (.closeWakeup writable)
  | .closeWakeup writable => some ((s.wakeup (closeChan writable)).setPc p .closeReturn, .none)
  | .closeReturn =>
    some ({ s with
      alive := s.pipe.readopen || s.pipe.writeopen }.leave p, .none)
  | _ => none

/-- A process that is in none of the calls makes one. -/
def call (p : P) (x : Pc) (s : State P) : Option (State P × Event P) :=
  if s.pc p = .out then some (s.setPc p x, .none) else none

/-- The next step of the call that `p` is in. -/
def go (p : P) (s : State P) : Option (State P × Event P) :=
  (writeStep p s).or ((readStep p s).or (closeStep p s))

def step (s : State P) : Label P → Option (State P × Event P)
  | .pipewrite p buf => call p (.writeEnter buf) s
  | .piperead p n => call p (.readEnter n) s
  | .pipeclose p writable => call p (.closeEnter writable) s
  | .go p => go p s
  | .kill p =>
    some ({ s with
      killed := Function.update s.killed p true
      asleep := Function.update s.asleep p none }, .none)

/-- The pipe that `pipealloc` makes, in memory that holds `data`. -/
def State.init (P : Type*) (data : ℕ → UInt8) : State P where
  pipe := ⟨⟨data, 0, 0⟩, true, true⟩
  alive := true
  lock := none
  pc _ := .out
  asleep _ := none
  killed _ := false

end Xv6.Pipe
