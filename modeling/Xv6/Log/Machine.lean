import Xv6.Lib.Run
import Xv6.Log.Bio

/-!
# The log, step by step

The machine of `log.c` over the buffer cache.  Every process is at a program point (`Pc`): outside
of a file-system operation, inside one, in the middle of `log_write`, or in one of the phases of
`commit`.  A step of `commit` or of `recover_from_log` makes at most one disk write, so a `crash`,
which is possible in every state, falls between any two of them; it loses everything but the disk,
and `recover_from_log` starts over.

* `log_write` reads its limits before it takes `log.lock`; so it is two steps (`logWrite`, with the
  change that the caller has made to the buffer before the call, and `logAppend`), and other
  operations may append in between.
* A wait in `begin_op` is a step that is not enabled; so is a `panic`, after which only a crash
  remains.
* What one process does to a buffer while it holds it is invisible to the others.
-/

namespace Xv6.Log

/-- What `initlog` reads from the superblock.  `mkfs` makes a log of `LOGSIZE` blocks, one for every
buffer of the cache. -/
structure Superblock where
  logstart : ℕ
  nlog : ℕ
  nbuf_le : NBUF ≤ nlog

/-- The superblock that `mkfs` writes. -/
def Superblock.mkfs : Superblock := ⟨2, LOGSIZE, le_rfl⟩

def Superblock.IsHome (sb : Superblock) (b : ℕ) : Prop :=
  b < sb.logstart ∨ sb.logstart + sb.nlog ≤ b

instance (sb : Superblock) (b : ℕ) : Decidable (sb.IsHome b) := inferInstanceAs (Decidable (_ ∨ _))

inductive Pc
  /-- Outside of any operation. -/
  | out
  /-- Between `begin_op` and `end_op`. -/
  | op
  /-- In `log_write(b)`, past the checks. -/
  | logging (b : ℕ)
  /-- In `write_log`, about to copy the block `tail`. -/
  | writeLog (tail : ℕ)
  /-- In the first `write_head` of `commit`. -/
  | writeHead
  /-- In `install_trans`, about to install the block `tail`. -/
  | install (tail : ℕ)
  /-- In the second `write_head` of `commit`. -/
  | clearHead
  /-- Back in `end_op`. -/
  | endCommit
  deriving DecidableEq

/-- Where the system is: up, or in `recover_from_log`. -/
inductive Mode
  | up
  | readHead
  | install (tail : ℕ)
  | clearHead
  deriving DecidableEq

/-- The state of the machine.  `lh` is `log.lh`, the list of its first `n` block numbers. -/
structure State where
  dev : Dev
  lh : List ℕ
  outstanding : ℕ
  committing : Bool
  pc : Slot → Pc
  mode : Mode

/-- The steps.  `v` and `w` are the buffers that `bget` reuses if it has to. -/
inductive Label
  | beginOp (p : Slot)
  | bread (p : Slot) (b : ℕ) (v : Fin NBUF)
  | logWrite (p : Slot) (b : ℕ) (d : Block)
  | logAppend (p : Slot)
  | brelse (p : Slot) (b : ℕ)
  | endOp (p : Slot)
  | commit (p : Slot) (v w : Fin NBUF)
  | crash
  | recover (p : Slot) (v w : Fin NBUF)

inductive Event
  | none
  | begun (p : Slot)
  | logged (p : Slot) (b : ℕ) (d : Block)
  /-- `end_op` with other operations outstanding. -/
  | ended (p : Slot)
  /-- `end_op` of the last outstanding operation, which starts the commit. -/
  | committing (p : Slot)
  /-- The header is on the disk. -/
  | committed (p : Slot)
  /-- `commit` has returned. -/
  | returned (p : Slot)
  | crashed
  | recovered

def State.setPc (s : State) (p : Slot) (pc : Pc) : State :=
  { s with pc := Function.update s.pc p pc }

/-- After a crash only the disk is left. -/
def State.reboot (disk : ℕ → Block) : State where
  dev := ⟨disk, fun _ => {}⟩
  lh := []
  outstanding := 0
  committing := false
  pc := fun _ => .out
  mode := .readHead

/-! ## The functions of `log.c` -/

variable (sb : Superblock)

/-- The header block for `lh`, over its old contents `d`. -/
def headBlock (lh : List ℕ) (d : Block) : Block
  | 0 => lh.length
  | w + 1 => lh.getD w (d (w + 1))

def readHead (d : Block) : List ℕ := (List.range (d 0)).map fun i => d (i + 1)

/-- Write in-memory log header to disk. -/
def writeHead (p : Slot) (v : Fin NBUF) (lh : List ℕ) (m : Dev) : Option Dev :=
  match bread p sb.logstart v m with
  | none => none
  | some (i, m) => some (brelse i (bwrite i (m.setData i (headBlock lh (m.buf i).data))))

/-- Copy the modified block `b` from cache to the block `tail` of the log. -/
def writeLogOne (p : Slot) (v w : Fin NBUF) (tail b : ℕ) (m : Dev) : Option Dev :=
  match bread p (sb.logstart + tail + 1) v m with
  | none => none
  | some (i, m) =>
    match bread p b w m with
    | none => none
    | some (j, m) => some (brelse i (brelse j (bwrite i (m.setData i (m.buf j).data))))

/-- Copy the block `tail` of the log to its home location `b`. -/
def installOne (p : Slot) (v w : Fin NBUF) (tail b : ℕ) (m : Dev) : Option Dev :=
  match bread p (sb.logstart + tail + 1) v m with
  | none => none
  | some (i, m) =>
    match bread p b w m with
    | none => none
    | some (j, m) => some (brelse j (brelse i (bwrite j (m.setData j (m.buf i).data))))

/-- Called at the start of each FS system call. -/
def beginOp (p : Slot) (s : State) : Option (State × Event) :=
  if s.pc p = .out then
    if s.committing then none
    else if s.lh.length + (s.outstanding + 1) * MAXOPBLOCKS > LOGSIZE then none
    else some ({ s with outstanding := s.outstanding + 1 }.setPc p .op, .begun p)
  else none

/-- `bread` by a process that is not in the log code. -/
def breadStep (p : Slot) (b : ℕ) (v : Fin NBUF) (s : State) : Option (State × Event) :=
  if s.pc p = .out ∨ s.pc p = .op then
    match bread p b v s.dev with
    | none => none
    | some (_, m) => some ({ s with dev := m }, .none)
  else none

/-- `brelse` by a process that is not in the log code. -/
def brelseStep (p : Slot) (b : ℕ) (s : State) : Option (State × Event) :=
  if s.pc p = .out ∨ s.pc p = .op then
    match s.dev.lookup b with
    | none => none
    | some i =>
      if (s.dev.buf i).owner = some p then some ({ s with dev := brelse i s.dev }, .none) else none
  else none

/-- An operation changes a block of its own, not of the log, to `d`, and `log_write` checks the
limits. -/
def logWrite (p : Slot) (b : ℕ) (d : Block) (s : State) : Option (State × Event) :=
  if s.pc p = .op ∧ sb.IsHome b then
    match s.dev.lookup b with
    | none => none
    | some i =>
      if (s.dev.buf i).owner = some p then
        if s.lh.length ≥ LOGSIZE ∨ s.lh.length ≥ sb.nlog - 1 then none
        else if s.outstanding < 1 then none
        else some ({ s with dev := s.dev.setData i d }.setPc p (.logging b), .none)
      else none
  else none

/-- The rest of `log_write`, under `log.lock`. -/
def logAppend (p : Slot) (s : State) : Option (State × Event) :=
  match s.pc p with
  | .logging b =>
    match s.dev.lookup b with
    | none => none
    | some i =>
      some ({ s with
          lh := if b ∈ s.lh then s.lh else s.lh ++ [b]
          dev := s.dev.modBuf i fun x => { x with dirty := true } }.setPc p .op,
        .logged p b (s.dev.buf i).data)
  | _ => none

/-- Called at the end of each FS system call. -/
def endOp (p : Slot) (s : State) : Option (State × Event) :=
  if s.pc p = .op then
    if s.committing then none
    else if s.outstanding - 1 = 0 then
      some ({ s with outstanding := s.outstanding - 1, committing := true }.setPc p
        (if s.lh.length > 0 then .writeLog 0 else .endCommit), .committing p)
    else some ({ s with outstanding := s.outstanding - 1 }.setPc p .out, .ended p)
  else none

/-- The next step of `commit`, and of the end of `end_op`. -/
def commitStep (p : Slot) (v w : Fin NBUF) (s : State) : Option (State × Event) :=
  match s.pc p with
  | .writeLog tail =>
    match s.lh[tail]? with
    | some b =>
      (writeLogOne sb p v w tail b s.dev).map fun m =>
        ({ s with dev := m }.setPc p (.writeLog (tail + 1)), .none)
    | none => some (s.setPc p .writeHead, .none)
  | .writeHead =>
    (writeHead sb p v s.lh s.dev).map fun m =>
      ({ s with dev := m }.setPc p (.install 0), .committed p)
  | .install tail =>
    match s.lh[tail]? with
    | some b =>
      (installOne sb p v w tail b s.dev).map fun m =>
        ({ s with dev := m }.setPc p (.install (tail + 1)), .none)
    | none => some ({ s with lh := [] }.setPc p .clearHead, .none)
  | .clearHead =>
    (writeHead sb p v s.lh s.dev).map fun m => ({ s with dev := m }.setPc p .endCommit, .none)
  | .endCommit => some ({ s with committing := false }.setPc p .out, .returned p)
  | _ => none

/-- The next step of `recover_from_log`. -/
def recoverStep (p : Slot) (v w : Fin NBUF) (s : State) : Option (State × Event) :=
  match s.mode with
  | .readHead =>
    (bread p sb.logstart v s.dev).map fun r =>
      ({ s with
        dev := brelse r.1 r.2, lh := readHead (r.2.buf r.1).data, mode := .install 0 }, .none)
  | .install tail =>
    match s.lh[tail]? with
    | some b =>
      (installOne sb p v w tail b s.dev).map fun m =>
        ({ s with dev := m, mode := .install (tail + 1) }, .none)
    | none => some ({ s with lh := [], mode := .clearHead }, .none)
  | .clearHead =>
    (writeHead sb p v s.lh s.dev).map fun m => ({ s with dev := m, mode := .up }, .recovered)
  | .up => none

def step (s : State) : Label → Option (State × Event)
  | .crash => some (State.reboot s.dev.disk, .crashed)
  | .recover p v w => recoverStep sb p v w s
  | .beginOp p => if s.mode = .up then beginOp p s else none
  | .bread p b v => if s.mode = .up then breadStep p b v s else none
  | .logWrite p b d => if s.mode = .up then logWrite sb p b d s else none
  | .logAppend p => if s.mode = .up then logAppend p s else none
  | .brelse p b => if s.mode = .up then brelseStep p b s else none
  | .endOp p => if s.mode = .up then endOp p s else none
  | .commit p v w => if s.mode = .up then commitStep sb p v w s else none

/-! ## What a step of `commit` can do -/

/-- The steps of `commit`, from a program point to the next, with the header that is then in
memory. -/
inductive Phase (p : Slot) (v w : Fin NBUF) (dev : Dev) (lh : List ℕ) :
    Pc → Dev → List ℕ → Pc → Event → Prop
  | writeLog {tail b : ℕ} {m : Dev} (hb : lh[tail]? = some b)
      (hm : writeLogOne sb p v w tail b dev = some m) :
      Phase p v w dev lh (.writeLog tail) m lh (.writeLog (tail + 1)) .none
  | logWritten {tail : ℕ} (hend : lh[tail]? = none) :
      Phase p v w dev lh (.writeLog tail) dev lh .writeHead .none
  | writeHead {m : Dev} (hm : writeHead sb p v lh dev = some m) :
      Phase p v w dev lh .writeHead m lh (.install 0) (.committed p)
  | install {tail b : ℕ} {m : Dev} (hb : lh[tail]? = some b)
      (hm : installOne sb p v w tail b dev = some m) :
      Phase p v w dev lh (.install tail) m lh (.install (tail + 1)) .none
  | installed {tail : ℕ} (hend : lh[tail]? = none) :
      Phase p v w dev lh (.install tail) dev [] .clearHead .none
  | clearHead {m : Dev} (hm : writeHead sb p v lh dev = some m) :
      Phase p v w dev lh .clearHead m lh .endCommit .none

/-- The same for the state, and the end of `end_op`. -/
inductive Commits (p : Slot) (v w : Fin NBUF) (s : State) : State → Event → Prop
  | phase {x y : Pc} {m : Dev} {lh : List ℕ} {e : Event} (hp : s.pc p = x)
      (h : Phase sb p v w s.dev s.lh x m lh y e) :
      Commits p v w s ({ s with dev := m, lh := lh }.setPc p y) e
  | done (hp : s.pc p = .endCommit) :
      Commits p v w s ({ s with committing := false }.setPc p .out) (.returned p)

theorem commitStep_commits {sb : Superblock} {s t : State} {p : Slot} {v w : Fin NBUF} {e : Event}
    (hs : commitStep sb p v w s = some (t, e)) : Commits sb p v w s t e := by
  unfold commitStep at hs
  split at hs
  · rename_i tail hp
    split at hs
    · rename_i b hb
      obtain ⟨m, hm, heq⟩ := Option.map_eq_some_iff.mp hs
      cases heq
      exact .phase hp (.writeLog hb hm)
    · rename_i hend
      cases hs
      exact .phase hp (.logWritten hend)
  · rename_i hp
    obtain ⟨m, hm, heq⟩ := Option.map_eq_some_iff.mp hs
    cases heq
    exact .phase hp (.writeHead hm)
  · rename_i tail hp
    split at hs
    · rename_i b hb
      obtain ⟨m, hm, heq⟩ := Option.map_eq_some_iff.mp hs
      cases heq
      exact .phase hp (.install hb hm)
    · rename_i hend
      cases hs
      exact .phase hp (.installed hend)
  · rename_i hp
    obtain ⟨m, hm, heq⟩ := Option.map_eq_some_iff.mp hs
    cases heq
    exact .phase hp (.clearHead hm)
  · rename_i hp
    cases hs
    exact .done hp
  · cases hs

end Xv6.Log
