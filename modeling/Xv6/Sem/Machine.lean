import Xv6.Process.Machine
import Xv6.Sem.Table

/-!
# Semaphores and processes together

The state is the process table, the semaphore table, the descriptors of every slot, and for every
process the point it has reached inside a call of `semaphore.c` or inside `fork`.  A label is one
section of code that runs with `sems.lock` or `ptable.lock` held, or a piece of code that touches
the data of its own process only:

* `semget` is the section under `sems.lock` and then `semattach`, after the lock is released;
* `semdown` is one round of its loop, which ends in a decrement or in `sleep`; `sleep` takes
  `ptable.lock` before it lets go of `sems.lock`, so the two are one step.  A process that has been
  woken goes on with `semdownRetry`;
* `semup` is the section that increments and then, if the old value was 0, the `wakeup`;
* `fork` initialises the descriptors of the child (the end of `allocproc`), and copies them one by
  one (`semcopy`) between setting `parent` and queueing the child;
* the label `proc` is any other critical section of `proc.c`.  A process inside a call above makes
  no other call, and the other users of `sleep` and `wakeup` do not use semaphores as channels.
-/

namespace Xv6.Sem

open Process Lib

/-- How far a process is inside a call. -/
inductive Pc
  /-- In no such call. -/
  | idle
  /-- In `semget`, before `semattach(semid)`. -/
  | attach (semid : ℤ)
  /-- In the loop of `semdown`, at or after the `sleep`. -/
  | down (key : ℤ)
  /-- In `semup`, after the increment from 0, before `wakeup`. -/
  | up (key : ℤ)
  /-- In `fork`, after `allocproc`. -/
  | inited
  /-- In `semcopy`, before round `i`. -/
  | copying (i : ℕ)
  /-- In `fork`, after `semcopy`. -/
  | copied
  deriving DecidableEq

/-- The kernel data that the semaphore calls use. -/
structure State where
  pt : PTable
  sems : Sems
  desc : Slot → Desc
  pc : Slot → Pc

/-- Zeroed memory. -/
def State.boot : State where
  pt := PTable.boot
  sems := Sems.boot
  desc _ := ⟨List.replicate PROCMAXSEM 0, 0⟩
  pc _ := .idle

inductive Label
  | proc (a : Process.Label)
  | userinit
  | forkInit (c : ℕ)
  | forkFail (c : ℕ)
  | forkParent (c : ℕ)
  | semcopy (c : ℕ)
  | forkEnqueue (c : ℕ)
  | semget (c : ℕ) (key init_value : ℤ)
  | semattach (c : ℕ)
  | semfree (c : ℕ) (key : ℤ)
  | semdown (c : ℕ) (key : ℤ)
  | semdownRetry (c : ℕ)
  | semup (c : ℕ) (key : ℤ)
  | semupWakeup (c : ℕ)
  deriving DecidableEq

inductive Event
  | none
  | proc (e : Process.Event)
  /-- The call of `p` returned `r`, without any of the effects below. -/
  | returned (p : Slot) (r : ℤ)
  /-- `semget(-1, v)` made the semaphore `semid`. -/
  | created (semid v : ℤ)
  /-- `semget(key, _)` raised the reference count. -/
  | referenced (key : ℤ)
  /-- `semfree(key)` dropped the last reference. -/
  | freed (key : ℤ)
  /-- A `semdown(key)` of `p` decremented and returned 0. -/
  | down (p : Slot) (key : ℤ)
  /-- A `semdown(key)` of `p` went to sleep. -/
  | slept (p : Slot) (key : ℤ)
  /-- A `semup(key)` of `p` incremented. -/
  | up (p : Slot) (key : ℤ)
  deriving DecidableEq

namespace State

variable (s : State)

/-- The process on CPU `c` moves on to `x`. -/
def setPc (p : Slot) (x : Pc) : State := { s with pc := Function.update s.pc p x }

def setDesc (p : Slot) (d : Desc) : State := { s with desc := Function.update s.desc p d }

/-- The process on CPU `c`, if it is in no call and free to make one. -/
def caller (c : ℕ) : Option Slot :=
  match runningAt s.pt c .user with
  | none => none
  | some p => if s.pc p = .idle then some p else none

/-- Is the process on CPU `c` in no call? -/
def idleOn (c : ℕ) : Bool :=
  match s.pt.cpu c with
  | none => true
  | some p => s.pc p = .idle

/-- Can the section of `proc.c` run on its own? -/
def allows : Process.Label → Bool
  | .dispatch _ => true
  | .tick _ => true
  | .kill _ => true
  | .aging => true
  | .wakeup (.other _) => true
  | .sleep c (.other _) => s.idleOn c
  | .nice c _ => s.idleOn c
  | .forkAlloc c => s.idleOn c
  | .exit c => s.idleOn c
  | .wait c => s.idleOn c
  | _ => false

/-- A section of `proc.c`, followed by `f`. -/
def lift (a : Process.Label) (f : State → State) : Option (State × Event) :=
  (Process.step s.pt a).map fun r => (f { s with pt := r.1 }, .proc r.2)

end State

/-- `userinit`, with the end of `allocproc`. -/
def userinit (s : State) : Option (State × Event) :=
  match Process.step s.pt .userinit with
  | none => none
  | some (pt, e) =>
    match pt.initproc with
    | none => none
    | some p => some (({ s with pt := pt } : State).setDesc p Desc.init, .proc e)

def forkInit (c : ℕ) (s : State) : Option (State × Event) :=
  match forkingOn s.pt c with
  | none => none
  | some (p, np) =>
    if s.pc p = .idle then some ((s.setDesc np Desc.init).setPc p .inited, .none) else none

/-- `fork` fails, in `allocproc` or after it. -/
def forkFail (c : ℕ) (s : State) : Option (State × Event) :=
  match forkingOn s.pt c with
  | none => none
  | some (p, _) =>
    if s.pc p = .idle ∨ s.pc p = .inited then s.lift (.forkFail c) fun t => t.setPc p .idle
    else none

/-- `fork` sets the parent of the child. -/
def forkParent (c : ℕ) (s : State) : Option (State × Event) :=
  match forkingOn s.pt c with
  | none => none
  | some (p, _) =>
    if s.pc p = .inited then s.lift (.forkParent c) fun t => t.setPc p (.copying 0) else none

/-- One round of the loop of `semcopy`, or the assignment of `semcount` after it. -/
def copyStep (c : ℕ) (s : State) : Option (State × Event) :=
  match forkedOn s.pt c with
  | none => none
  | some (p, np) =>
    match s.pc p with
    | .copying i =>
      if i < PROCMAXSEM then
        match semcopy s.sems (s.desc np) i ((s.desc p).semids.getD i (-1)) with
        | none => none
        | some (m, d) =>
          some ((({ s with sems := m } : State).setDesc np d).setPc p (.copying (i + 1)), .none)
      else
        some ((s.setDesc np ⟨(s.desc np).semids, (s.desc p).semcount⟩).setPc p .copied, .none)
    | _ => none

def forkEnqueue (c : ℕ) (s : State) : Option (State × Event) :=
  match forkedOn s.pt c with
  | none => none
  | some (p, _) =>
    if s.pc p = .copied then s.lift (.forkEnqueue c) fun t => t.setPc p .idle else none

/-- `semget` up to the release of `sems.lock`. -/
def getStep (c : ℕ) (key init_value : ℤ) (s : State) : Option (State × Event) :=
  match s.caller c with
  | none => none
  | some p =>
    match semget s.sems (s.desc p) key init_value with
    | none => none
    | some (_, .error r) => some (s, .returned p r)
    | some (m, .ok semid) =>
      some (({ s with sems := m } : State).setPc p (.attach semid),
        if key = -1 then .created semid init_value else .referenced key)

/-- The end of `semget`: the id is returned whether or not there was a spot for it. -/
def attachStep (c : ℕ) (s : State) : Option (State × Event) :=
  match runningAt s.pt c .user with
  | none => none
  | some p =>
    match s.pc p with
    | .attach semid =>
      some ((s.setDesc p ((semattach (s.desc p) semid).getD (s.desc p))).setPc p .idle,
        .returned p semid)
    | _ => none

def freeStep (c : ℕ) (key : ℤ) (s : State) : Option (State × Event) :=
  match s.caller c with
  | none => none
  | some p =>
    match semfree s.sems (s.desc p) key with
    | none => none
    | some (m, d, r) => some (({ s with sems := m } : State).setDesc p d,
      if r = 0 ∧ s.sems.references key = 1 then .freed key else .returned p r)

def downBody (c : ℕ) (p : Slot) (key : ℤ) (s : State) : State × Event :=
  match semdown s.sems key with
  | some m => (({ s with sems := m } : State).setPc p .idle, .down p key)
  | none => (({ s with pt := sleep c p (.sem key) .asleep s.pt } : State).setPc p (.down key),
      .slept p key)

/-- `semdown` up to its first decrement or sleep. -/
def downStep (c : ℕ) (key : ℤ) (s : State) : Option (State × Event) :=
  match s.caller c with
  | none => none
  | some p =>
    if invalid s.sems (s.desc p) key = true then some (s, .returned p EINVAL)
    else some (downBody c p key s)

/-- The next round of the loop of `semdown`, after a sleep. -/
def retryStep (c : ℕ) (s : State) : Option (State × Event) :=
  match runningAt s.pt c .user with
  | none => none
  | some p =>
    match s.pc p with
    | .down key => some (downBody c p key s)
    | _ => none

/-- `semup` up to the release of `sems.lock`. -/
def upStep (c : ℕ) (key : ℤ) (s : State) : Option (State × Event) :=
  match s.caller c with
  | none => none
  | some p =>
    if invalid s.sems (s.desc p) key = true then some (s, .returned p EINVAL)
    else
      match semup s.sems key with
      | none => none
      | some (m, semvalue) =>
        some (({ s with sems := m } : State).setPc p (if semvalue = 0 then .up key else .idle),
          .up p key)

def wakeupStep (c : ℕ) (s : State) : Option (State × Event) :=
  match runningAt s.pt c .user with
  | none => none
  | some p =>
    match s.pc p with
    | .up key =>
      some (({ s with pt := wakeup1 (some (.sem key)) s.pt } : State).setPc p .idle,
        .returned p 0)
    | _ => none

def step (s : State) : Label → Option (State × Event)
  | .proc a => if s.allows a = true then s.lift a id else none
  | .userinit => userinit s
  | .forkInit c => forkInit c s
  | .forkFail c => forkFail c s
  | .forkParent c => forkParent c s
  | .semcopy c => copyStep c s
  | .forkEnqueue c => forkEnqueue c s
  | .semget c key v => getStep c key v s
  | .semattach c => attachStep c s
  | .semfree c key => freeStep c key s
  | .semdown c key => downStep c key s
  | .semdownRetry c => retryStep c s
  | .semup c key => upStep c key s
  | .semupWakeup c => wakeupStep c s

end Xv6.Sem
