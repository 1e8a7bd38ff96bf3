import Xv6.Process.Machine
import Xv6.Process.Queue
import Xv6.Lib.Roster

/-!
# The run queues are consistent whenever `ptable.lock` is free

`Inv` is what the critical sections preserve.  Its first part is `Queued s q none`: the four
levels are well-formed queues that hold exactly the runnable processes, each at its own level.
The second, `CpuOk`, ties the running processes to the CPUs.  The third, `ForkOk`, is what
`fork` relies on between its sections: the slot it has claimed is still an embryo, and nobody
else has claimed it, so that queueing the child at the end does not queue a process twice.

Each section has one lemma; `Inv.step` collects them and `inv_exec` is the induction over runs.
-/

namespace Xv6.Process

open PTable Lib

/-! ## The parts of the invariant -/

/-- The processes that run are the ones the CPUs name, each on one CPU. -/
structure CpuOk (state : Slot → ProcState) (cpu : ℕ → Option Slot) : Prop where
  running : ∀ {c p}, cpu c = some p → state p = .running
  unique : ∀ {c d p}, cpu c = some p → cpu d = some p → c = d
  exists_cpu : ∀ {p}, state p = .running → ∃ c, cpu c = some p

/-- The child that a process in `fork` has claimed. -/
def Context.child : Context → Option Slot
  | .forking np => some np
  | .forked np => some np
  | _ => none

/-- The slots claimed by the `fork`s in progress are the embryos, each claimed once. -/
structure ForkOk (state : Slot → ProcState) (context : Slot → Context) : Prop where
  embryo : ∀ {p n}, (context p).child = some n → state n = .embryo
  unique : ∀ {p q n}, (context p).child = some n → (context q).child = some n → p = q
  claimed : ∀ {n}, state n = .embryo → ∃ p, (context p).child = some n

def PTable.states (s : PTable) : Slot → ProcState := fun p => (s.proc p).state

/-- The program points of all processes. -/
def PTable.contexts (s : PTable) : Slot → Context := fun p => (s.proc p).context

/-- The invariant of the process table. -/
structure Inv (s : PTable) : Prop where
  queued : ∃ q, Queued s q none
  cpu : CpuOk s.states s.cpu
  fork : ForkOk s.states s.contexts

section Parts

variable {st st' : Slot → ProcState} {cpu : ℕ → Option Slot} {ctx ctx' : Slot → Context}

theorem CpuOk.congr (h : CpuOk st cpu) (hst : ∀ p, st' p = .running ↔ st p = .running) :
    CpuOk st' cpu where
  running hc := (hst _).mpr (h.running hc)
  unique hc hd := h.unique hc hd
  exists_cpu hp := h.exists_cpu ((hst _).mp hp)

theorem cpuOk_iff : CpuOk st cpu ↔ Roster cpu fun p => st p = .running :=
  ⟨fun h => ⟨h.running, h.unique, h.exists_cpu⟩, fun h => ⟨h.sound, h.unique, h.complete⟩⟩

theorem CpuOk.release (h : CpuOk st cpu) {c : ℕ} {p : Slot} (hc : cpu c = some p)
    (hp : st' p ≠ .running) (hst : ∀ r, r ≠ p → (st' r = .running ↔ st r = .running)) :
    CpuOk st' fun d => if d = c then none else cpu d :=
  cpuOk_iff.mpr ((cpuOk_iff.mp h).remove hc (if_pos rfl) (fun _ hd => if_neg hd) hp hst)

theorem CpuOk.dispatch (h : CpuOk st cpu) {c : ℕ} {p : Slot} (hc : cpu c = none)
    (hp : st p ≠ .running) (hp' : st' p = .running)
    (hst : ∀ r, r ≠ p → (st' r = .running ↔ st r = .running)) :
    CpuOk st' fun d => if d = c then some p else cpu d :=
  cpuOk_iff.mpr ((cpuOk_iff.mp h).insert hc hp (if_pos rfl) (fun _ hd => if_neg hd) hp' hst)

theorem ForkOk.congr (h : ForkOk st ctx) (hst : ∀ p, st' p = .embryo ↔ st p = .embryo)
    (hctx : ∀ p, (ctx' p).child = (ctx p).child) : ForkOk st' ctx' where
  embryo hp := (hst _).mpr (h.embryo (by rw [← hctx]; exact hp))
  unique hp hp' := h.unique (by rw [← hctx]; exact hp) (by rw [← hctx]; exact hp')
  claimed hnp := (h.claimed ((hst _).mp hnp)).imp fun p hp => (hctx p).trans hp

/-- One process moves between states other than `EMBRYO`. -/
theorem ForkOk.congr_of_ne (h : ForkOk st ctx) {p : Slot} (hp : st p ≠ .embryo)
    (hp' : st' p ≠ .embryo) (hst : ∀ r, r ≠ p → st' r = st r)
    (hctx : ∀ r, (ctx' r).child = (ctx r).child) : ForkOk st' ctx' := by
  refine h.congr (fun r => ?_) hctx
  by_cases hr : r = p
  · rw [hr]
    exact ⟨fun hh => absurd hh hp', fun hh => absurd hh hp⟩
  · rw [hst r hr]

theorem forkOk_iff : ForkOk st ctx ↔ Roster (fun p => (ctx p).child) fun n => st n = .embryo :=
  ⟨fun h => ⟨h.embryo, h.unique, h.claimed⟩, fun h => ⟨h.sound, h.unique, h.complete⟩⟩

theorem ForkOk.claim (h : ForkOk st ctx) (p np : Slot) (hnp : st np ≠ .embryo)
    (hst : ∀ r, r ≠ np → st' r = st r) (hnp' : st' np = .embryo) (hold : (ctx p).child = none)
    (hp : (ctx' p).child = some np) (hctx : ∀ r, r ≠ p → (ctx' r).child = (ctx r).child) :
    ForkOk st' ctx' :=
  forkOk_iff.mpr ((forkOk_iff.mp h).insert hold hnp hp hctx hnp' fun r hr => by rw [hst r hr])

variable {np : Slot}

/-- A process gives up its claim on `np`, which may now change. -/
theorem ForkOk.drop (h : ForkOk st ctx) {p : Slot} (hp : (ctx p).child = some np)
    (hst : ∀ r, r ≠ np → st' r = st r) (hnp' : st' np ≠ .embryo) (hp' : (ctx' p).child = none)
    (hctx : ∀ r, r ≠ p → (ctx' r).child = (ctx r).child) : ForkOk st' ctx' :=
  forkOk_iff.mpr ((forkOk_iff.mp h).remove hp hp' hctx hnp' fun r hr => by rw [hst r hr])

end Parts

/-! ## What a critical section does -/

variable {s t u : PTable} {p r : Slot} {c : ℕ} {f : Proc → Proc} {i : ℤ} {a : List Slot}

/-- The table in which `allocproc` has claimed the slot `np`. -/
def PTable.claim (s : PTable) (np : Slot) : PTable :=
  { s.modProc np fun x => { x with state := .embryo, pid := s.nextpid, nice := DEFAULTPLEVEL } with
    nextpid := int32 (s.nextpid + 1) }

/-- The table in which `wait` has collected the zombie `z`. -/
def PTable.reap (s : PTable) (z : Slot) : PTable :=
  s.modProc z fun x => { x with pid := 0, parent := none, killed := false, state := .unused }

/-- The table in which the timer has counted a tick of the process `p`. -/
def ticked (s : PTable) (p : Slot) : PTable :=
  s.modProc p fun x => { x with ticksCount := (x.ticksCount + 1) % 2 ^ 32 }

theorem allocproc_eq_some (h : allocproc s = some (np, t)) :
    (slots.find? fun q => (s.proc q).state = .unused) = some np ∧ (s.proc np).state = .unused ∧
      t = s.claim np := by
  unfold allocproc at h
  split at h
  · cases h
  · rename_i p hp
    have hfound := List.find?_some hp
    cases h
    exact ⟨hp, by simpa using hfound, rfl⟩

theorem runningAt_eq_some {ctx : Context} (h : runningAt s c ctx = some p) :
    s.cpu c = some p ∧ (s.proc p).context = ctx := by
  unfold runningAt at h
  split at h
  · cases h
  · rename_i p' hc
    split_ifs at h with hctx
    cases h
    exact ⟨hc, hctx⟩

theorem forkingOn_eq_some (h : forkingOn s c = some (p, np)) :
    s.cpu c = some p ∧ (s.proc p).context = .forking np := by
  unfold forkingOn at h
  split at h
  · cases h
  · rename_i p' hc
    split at h
    · rename_i np' hctx
      cases h
      exact ⟨hc, hctx⟩
    · cases h

theorem forkedOn_eq_some (h : forkedOn s c = some (p, np)) :
    s.cpu c = some p ∧ (s.proc p).context = .forked np := by
  unfold forkedOn at h
  split at h
  · cases h
  · rename_i p' hc
    split at h
    · rename_i np' hctx
      cases h
      exact ⟨hc, hctx⟩
    · cases h

theorem waitOn_eq_some (h : waitOn s c = some p) :
    s.cpu c = some p ∧ ((s.proc p).context = .user ∨ (s.proc p).context = .waiting) := by
  unfold waitOn at h
  split at h
  · cases h
  · rename_i p' hc
    split at h
    · rename_i hctx
      cases h
      exact ⟨hc, Or.inl hctx⟩
    · rename_i hctx
      cases h
      exact ⟨hc, Or.inr hctx⟩
    · cases h

theorem wait_cases (c : ℕ) (p : Slot) (s : PTable) :
    (∃ z, (s.proc z).parent = some p ∧ (s.proc z).state = .zombie ∧
      wait c p s = ((s.reap z).modProc p fun x => { x with context := .user },
        .reaped (s.proc z).pid)) ∨
    (∀ z, (s.proc z).parent = some p → (s.proc z).state ≠ .zombie) ∧
      (wait c p s = (s.modProc p fun x => { x with context := .user }, .failed) ∨
        wait c p s = (sleep c p (.proc p) .waiting s, .slept)) := by
  unfold wait
  split
  · rename_i z hz
    have hfound := List.find?_some hz
    simp only [decide_eq_true_eq] at hfound
    exact Or.inl ⟨z, hfound.1, hfound.2, rfl⟩
  · rename_i hnone
    refine Or.inr ⟨?_, ?_⟩
    · intro z hzp hzz
      have := List.find?_eq_none.mp hnone z (mem_slots z)
      simp [hzp, hzz] at this
    · split_ifs
      · exact Or.inl rfl
      · exact Or.inr rfl

theorem Inv.ne_child (h : Inv s) (hc : s.cpu c = some p) (hnp : s.states np = .embryo) :
    p ≠ np := by
  rintro rfl
  have := h.cpu.running hc
  rw [this] at hnp
  cases hnp

/-- **What the critical sections do**, from a table in order: the process that runs the section, the
slots that it works on, and what it has found there. -/
inductive Section (s : PTable) : Label → PTable → Event → Prop
  | userinit {np : Slot} (hinit : s.initproc = none) (hnp : (s.proc np).state = .unused) :
      Section s .userinit (enqueue np { s.claim np with initproc := some np })
        (.allocated s.nextpid)
  | dispatch {c : ℕ} {t : PTable} (hc : s.cpu c = none) (ht : scheduler c s = some t) :
      Section s (.dispatch c) t .none
  | tick {c : ℕ} {p : Slot} (hc : s.cpu c = some p) (hp : (s.proc p).state = .running)
      (hlt : ((ticked s p).proc p).ticksCount < QUANTUM) : Section s (.tick c) (ticked s p) .none
  | expire {c : ℕ} {p : Slot} (hc : s.cpu c = some p) (hp : (s.proc p).state = .running)
      (hle : QUANTUM ≤ ((ticked s p).proc p).ticksCount) :
      Section s (.tick c) (yield c p (ticked s p)) .none
  | sleep {c : ℕ} {p : Slot} (hc : s.cpu c = some p) (hp : (s.proc p).state = .running)
      (hctx : (s.proc p).context = .user) (chan : Chan) :
      Section s (.sleep c chan) (sleep c p chan .asleep s) .none
  | wakeup (chan : Chan) : Section s (.wakeup chan) (wakeup1 (some chan) s) .none
  | kill (pid : ℤ) : Section s (.kill pid) (kill pid s).1 .none
  | nice {c : ℕ} {p : Slot} (hc : s.cpu c = some p) (hp : (s.proc p).state = .running) (inc : ℤ) :
      Section s (.nice c inc) (nice p inc s).1 .none
  | aging {t : PTable} (ht : aging s = some t) : Section s .aging t .none
  | forkNone {c : ℕ} {p : Slot} (hc : s.cpu c = some p) (hctx : (s.proc p).context = .user) :
      Section s (.forkAlloc c) s .none
  | forkAlloc {c : ℕ} {p np : Slot} (hc : s.cpu c = some p) (hp : (s.proc p).state = .running)
      (hctx : (s.proc p).context = .user) (hnp : (s.proc np).state = .unused) (hne : p ≠ np)
      (hfind : (slots.find? fun q => (s.proc q).state = .unused) = some np) :
      Section s (.forkAlloc c) ((s.claim np).modProc p fun x => { x with context := .forking np })
        (.allocated s.nextpid)
  | forkFail {c : ℕ} {p np : Slot} (hc : s.cpu c = some p) (hp : (s.proc p).state = .running)
      (hctx : (s.proc p).context = .forking np) (hnp : (s.proc np).state = .embryo) (hne : p ≠ np) :
      Section s (.forkFail c)
        ((s.modProc np fun x => { x with state := .unused }).modProc p fun x =>
        { x with context := .user }) .none
  | forkParent {c : ℕ} {p np : Slot} (hc : s.cpu c = some p) (hp : (s.proc p).state = .running)
      (hctx : (s.proc p).context = .forking np) (hnp : (s.proc np).state = .embryo) (hne : p ≠ np) :
      Section s (.forkParent c)
        ((s.modProc np fun x => { x with parent := some p }).modProc p fun x =>
        { x with context := .forked np }) .none
  | forkEnqueue {c : ℕ} {p np : Slot} (hc : s.cpu c = some p) (hp : (s.proc p).state = .running)
      (hctx : (s.proc p).context = .forked np) (hnp : (s.proc np).state = .embryo) (hne : p ≠ np) :
      Section s (.forkEnqueue c) ((enqueue np s).modProc p fun x => { x with context := .user })
        (.forked p (s.proc np).pid)
  | exit {c : ℕ} {p : Slot} {t : PTable} (hc : s.cpu c = some p) (hp : (s.proc p).state = .running)
      (hctx : (s.proc p).context = .user) (ht : exit c p s = some t) : Section s (.exit c) t .none
  | reap {c : ℕ} {p z : Slot} (hc : s.cpu c = some p) (hp : (s.proc p).state = .running)
      (hchild : (s.proc p).context.child = none) (hpar : (s.proc z).parent = some p)
      (hz : (s.proc z).state = .zombie) :
      Section s (.wait c) ((s.reap z).modProc p fun x => { x with context := .user })
        (.reaped p (s.proc z).pid)
  | waitFail {c : ℕ} {p : Slot} (hc : s.cpu c = some p) (hp : (s.proc p).state = .running)
      (hchild : (s.proc p).context.child = none) :
      Section s (.wait c) (s.modProc p fun x => { x with context := .user }) .none
  | waitSleep {c : ℕ} {p : Slot} (hc : s.cpu c = some p) (hp : (s.proc p).state = .running)
      (hchild : (s.proc p).context.child = none)
      (hz : ∀ z, (s.proc z).parent = some p → (s.proc z).state ≠ .zombie) :
      Section s (.wait c) (Process.sleep c p (.proc p) .waiting s) .none

/-- **Every step is one of the sections.** -/
theorem Inv.section_of_step (h : Inv s) {a : Label} {e : Event} (hs : step s a = some (t, e)) :
    Section s a t e := by
  have hrun : ∀ {c p}, s.cpu c = some p → (s.proc p).state = .running := h.cpu.running
  cases a with
  | userinit =>
    rw [step, userinit] at hs
    split_ifs at hs with hinit
    split at hs
    · cases hs
    · rename_i ha
      cases hs
      obtain ⟨-, hnp, rfl⟩ := allocproc_eq_some ha
      exact .userinit hinit hnp
  | dispatch c =>
    rw [step] at hs
    split_ifs at hs with hc
    obtain ⟨u, hu, ⟨⟩⟩ := Option.map_eq_some_iff.mp hs
    exact .dispatch hc hu
  | tick c =>
    rw [step, tick] at hs
    split at hs
    · cases hs
    · rename_i p hc
      obtain ⟨rfl, rfl⟩ := Prod.mk.inj (Option.some.inj hs)
      split_ifs with hq
      · exact .expire hc (hrun hc) hq
      · exact .tick hc (hrun hc) (Nat.lt_of_not_le hq)
  | sleep c chan =>
    obtain ⟨p, hp, ⟨⟩⟩ := Option.map_eq_some_iff.mp hs
    obtain ⟨hc, hctx⟩ := runningAt_eq_some hp
    exact .sleep hc (hrun hc) hctx chan
  | wakeup chan =>
    obtain ⟨rfl, rfl⟩ := Prod.mk.inj (Option.some.inj hs)
    exact .wakeup chan
  | kill pid =>
    cases hs
    exact .kill pid
  | nice c inc =>
    obtain ⟨p, hp, ⟨⟩⟩ := Option.map_eq_some_iff.mp hs
    obtain ⟨hc, -⟩ := runningAt_eq_some hp
    exact .nice hc (hrun hc) inc
  | aging =>
    obtain ⟨u, hu, ⟨⟩⟩ := Option.map_eq_some_iff.mp hs
    exact .aging hu
  | forkAlloc c =>
    rw [step, forkAlloc] at hs
    split at hs
    · cases hs
    · rename_i p hp
      obtain ⟨hc, hctx⟩ := runningAt_eq_some hp
      split at hs
      · cases hs
        exact .forkNone hc hctx
      · rename_i ha
        cases hs
        obtain ⟨hfind, hnp, rfl⟩ := allocproc_eq_some ha
        refine .forkAlloc hc (hrun hc) hctx hnp ?_ hfind
        rintro rfl
        rw [hrun hc] at hnp
        cases hnp
  | forkFail c =>
    rw [step, forkFail] at hs
    split at hs
    · cases hs
    · rename_i p np hp
      obtain ⟨hc, hctx⟩ := forkingOn_eq_some hp
      have hnp := h.fork.embryo (p := p) (n := np) (by rw [PTable.contexts, hctx]; rfl)
      cases hs
      exact .forkFail hc (hrun hc) hctx hnp (h.ne_child hc hnp)
  | forkParent c =>
    rw [step, forkParent] at hs
    split at hs
    · cases hs
    · rename_i p np hp
      obtain ⟨hc, hctx⟩ := forkingOn_eq_some hp
      have hnp := h.fork.embryo (p := p) (n := np) (by rw [PTable.contexts, hctx]; rfl)
      cases hs
      exact .forkParent hc (hrun hc) hctx hnp (h.ne_child hc hnp)
  | forkEnqueue c =>
    rw [step, forkEnqueue] at hs
    split at hs
    · cases hs
    · rename_i p np hp
      obtain ⟨hc, hctx⟩ := forkedOn_eq_some hp
      have hnp := h.fork.embryo (p := p) (n := np) (by rw [PTable.contexts, hctx]; rfl)
      cases hs
      exact .forkEnqueue hc (hrun hc) hctx hnp (h.ne_child hc hnp)
  | exit c =>
    rw [step] at hs
    split at hs
    · cases hs
    · rename_i p hp
      obtain ⟨hc, hctx⟩ := runningAt_eq_some hp
      obtain ⟨u, hu, ⟨⟩⟩ := Option.map_eq_some_iff.mp hs
      exact .exit hc (hrun hc) hctx hu
  | wait c =>
    obtain ⟨p, hp, heq⟩ := Option.map_eq_some_iff.mp hs
    obtain ⟨hc, hctx⟩ := waitOn_eq_some hp
    have hchild : (s.proc p).context.child = none := by
      rcases hctx with hctx | hctx <;> rw [hctx] <;> rfl
    obtain ⟨z, hpar, hz, hw⟩ | ⟨hz, hw | hw⟩ := wait_cases c p s
    all_goals
      rw [hw] at heq
      cases heq
    · exact .reap hc (hrun hc) hchild hpar hz
    · exact .waitFail hc (hrun hc) hchild
    · exact .waitSleep hc (hrun hc) hchild hz

/-! ## The critical sections keep the invariant -/

theorem states_modProc (hf : ∀ y, (f y).state = y.state) : (s.modProc p f).states = s.states :=
  funext fun r => modProc_field s p r (·.state) hf

theorem child_modProc (hf : ∀ y, (f y).context.child = y.context.child)
    (r : Slot) : ((s.modProc p f).contexts r).child = (s.contexts r).child :=
  modProc_field s p r (·.context.child) hf

theorem Inv.modProc (h : Inv s) (hlinks : ∀ y, (f y).next = y.next ∧ (f y).back = y.back)
    (hf : ∀ y, (f y).state = y.state ∧ (f y).nice = y.nice)
    (hctx : ∀ y, (f y).context.child = y.context.child) : Inv (s.modProc p f) where
  queued := h.queued.imp fun _ hq => hq.modProc hlinks hf
  cpu := by
    rw [states_modProc fun y => (hf y).1]
    exact h.cpu
  fork := by
    rw [states_modProc fun y => (hf y).1]
    exact h.fork.congr (fun _ => Iff.rfl) (child_modProc hctx)

theorem Inv.setContext (h : Inv s) {ctx : Context}
    (hctx : ctx.child = (s.proc p).context.child) :
    Inv (s.modProc p fun x => { x with context := ctx }) := by
  have hst : (s.modProc p fun x => { x with context := ctx }).states = s.states :=
    states_modProc fun _ => rfl
  refine ⟨h.queued.imp fun _ hq => hq.modProc (fun _ => ⟨rfl, rfl⟩) fun _ => ⟨rfl, rfl⟩, ?_, ?_⟩
  · rw [hst]
    exact h.cpu
  · rw [hst]
    refine h.fork.congr (fun _ => Iff.rfl) fun r => ?_
    rw [PTable.contexts, modProc_proc]
    split_ifs with hr
    · rw [hr]
      exact hctx
    · rfl

/-- A process that sleeps, or the first one, is queued, after a change of its nice value. -/
theorem Inv.enqueue_idle (h : Inv s)
    (hp : (s.proc p).state = .sleeping ∨ (s.proc p).state = .unused) {s' : PTable}
    (hq : ∀ q, Queued s q (some p) → Queued s' q (some p))
    (hst : ∀ r, r ≠ p → (s'.proc r).state = (s.proc r).state)
    (hctx : ∀ r, (s'.proc r).context = (s.proc r).context) (hcpu : s'.cpu = s.cpu) :
    Inv (enqueue p s') where
  queued := by
    obtain ⟨q, hQ⟩ := h.queued
    have hne : (s.proc p).state ≠ .runnable := by
      rcases hp with hp | hp <;> simp [hp]
    exact ⟨_, (hq q ((Queued.off_iff hne).mpr hQ)).enqueue⟩
  cpu := by
    rw [enqueue_cpu, hcpu]
    refine h.cpu.congr fun r => ?_
    rw [states, states, enqueue_state]
    split_ifs with hr
    · rw [hr]
      rcases hp with hp | hp <;> simp [hp]
    · rw [hst r hr]
  fork := by
    refine h.fork.congr_of_ne (p := p) ?_ ?_ (fun r hr => ?_) fun r => ?_
    · rw [states]
      rcases hp with hp | hp <;> simp [hp]
    · rw [states, enqueue_state, if_pos rfl]
      simp
    · rw [states, enqueue_state, if_neg hr, hst r hr]
      rfl
    · rw [contexts, enqueue_field (·.context) (fun _ _ _ _ => rfl), hctx]
      rfl

theorem Inv.wakeupOne (h : Inv s) (chan : Option Chan) : Inv (wakeupOne chan s p) := by
  unfold Process.wakeupOne
  split_ifs with hp
  · exact h.enqueue_idle (.inl hp.1) (fun q hq => hq.increasepriority)
      (fun r _ => modNice_field (·.state) (fun _ _ => rfl) (increasepriority_eq p s) r)
      (modNice_field (·.context) (fun _ _ => rfl) (increasepriority_eq p s))
      (increasepriority_rest p s).1
  · exact h

theorem Inv.wakeup1 (h : Inv s) (chan : Option Chan) : Inv (wakeup1 chan s) :=
  wakeup1_induction h fun _ _ ht => ht.wakeupOne chan

theorem Inv.kill (h : Inv s) (pid : ℤ) : Inv (kill pid s).1 := by
  unfold Process.kill
  split
  · exact h
  · rename_i p _
    have h' : Inv (s.modProc p fun x => { x with killed := true }) :=
      h.modProc (fun _ => ⟨rfl, rfl⟩) (fun _ => ⟨rfl, rfl⟩) fun _ => rfl
    dsimp only
    split_ifs with hp
    · exact h'.enqueue_idle (.inl hp) (fun _ hq => hq) (fun _ _ => rfl) (fun _ => rfl) rfl
    · exact h'

theorem Queued.claim {q : ℤ → List Slot} (h : Queued s q (some np)) :
    Queued (s.claim np) q (some np) :=
  (h.modProc_off (f := fun x =>
    { x with state := .embryo, pid := s.nextpid, nice := DEFAULTPLEVEL })
    (fun _ => ⟨rfl, rfl⟩) (show IsLevel DEFAULTPLEVEL by decide)).congr rfl rfl fun _ => ⟨rfl, rfl⟩

theorem states_claim (np r : Slot) :
    (s.claim np).states r = if r = np then .embryo else s.states r := by
  rw [states, claim, modProc_proc]
  split_ifs <;> rfl

theorem claim_field {β : Type*} (g : Proc → β)
    (hg : ∀ y st pid l, g { y with state := st, pid := pid, nice := l } = g y) (np r : Slot) :
    g ((s.claim np).proc r) = g (s.proc r) := by
  rw [claim, modProc_proc]
  split_ifs with hr
  · rw [hr]
    exact hg _ _ _ _
  · rfl

theorem Inv.userinit (h : Inv s) (hnp : (s.proc np).state = .unused) :
    Inv (enqueue np { s.claim np with initproc := some np }) := by
  refine h.enqueue_idle (.inr hnp) (fun q hq => hq.claim.congr rfl rfl fun _ => ⟨rfl, rfl⟩)
    (fun r hr => ?_) (claim_field (·.context) (fun _ _ _ _ => rfl) np) rfl
  exact (states_claim np r).trans (if_neg hr)

/-! ### The scheduler -/

/-- The process on CPU `c` stops running: it is queued, sleeps or is a zombie. -/
theorem Inv.release (h : Inv s) (hc : s.cpu c = some p) (hq : ∃ q, Queued t q none)
    (hp : t.states p ≠ .running) (hst : ∀ r, r ≠ p → (t.states r = .running ↔
      s.states r = .running)) (hcpu : t.cpu = fun d => if d = c then none else s.cpu d)
    (hfork : ForkOk t.states t.contexts) : Inv t where
  queued := hq
  cpu := by
    rw [hcpu]
    exact h.cpu.release hc hp hst
  fork := hfork

theorem Inv.yield (h : Inv s) (hc : s.cpu c = some p) : Inv (yield c p s) := by
  have hrun : s.states p = .running := h.cpu.running hc
  set s1 := s.modProc p fun x => { x with ticksCount := 0 } with hs1
  have h1 : Inv s1 := h.modProc (fun _ => ⟨rfl, rfl⟩) (fun _ => ⟨rfl, rfl⟩) fun _ => rfl
  obtain ⟨q, hq⟩ := h1.queued
  have hoff : Queued s1 q (some p) := by
    refine (Queued.off_iff ?_).mpr hq
    rw [hs1, modProc_proc_self]
    intro hh
    rw [PTable.states] at hrun
    rw [hrun] at hh
    cases hh
  refine h.release hc ⟨_, hoff.decreasepriority.enqueue.congr rfl rfl fun _ => ⟨rfl, rfl⟩⟩
    ?_ ?_ ?_ ?_
  · rw [PTable.states, yield_state, if_pos rfl]
    simp
  · intro r hr
    rw [PTable.states, yield_state, if_neg hr]
    rfl
  · exact (yield_rest c p s).1
  · refine h.fork.congr_of_ne (p := p) ?_ ?_ (fun r hr => ?_) fun r => ?_
    · rw [hrun]
      simp
    · rw [PTable.states, yield_state, if_pos rfl]
      simp
    · rw [PTable.states, yield_state, if_neg hr]
      rfl
    · rw [PTable.contexts, yield_field (·.context) fun _ _ _ _ _ _ => rfl]
      rfl

theorem Inv.ticked (h : Inv s) : Inv (ticked s p) :=
  h.modProc (fun _ => ⟨rfl, rfl⟩) (fun _ => ⟨rfl, rfl⟩) fun _ => rfl

theorem firstLevel_eq_some {l : ℤ} (h : firstLevel s = some l) :
    IsLevel l ∧ (s.levels l).head ≠ none := by
  have hmem := List.mem_of_find?_eq_some h
  have hne := List.find?_some h
  obtain ⟨n, hn, rfl⟩ := List.mem_map.mp hmem
  rw [List.mem_range] at hn
  refine ⟨⟨by omega, by omega⟩, ?_⟩
  intro hh
  rw [isempty, hh] at hne
  cases hne

/-- What `scheduler` does, from a state with consistent queues: it takes the last process `p` of
the first level that has one and runs it. -/
theorem scheduler_eq_some (h : Inv s) (hs : scheduler c s = some t) :
    ∃ p l q, IsLevel l ∧ firstLevel s = some l ∧ (s.levels l).last = some p ∧
      (s.proc p).state = .runnable ∧ Queued (removefromlevel p l s) q (some p) ∧
      t = ((removefromlevel p l s).setCpu c (some p)).modProc p Proc.resume := by
  unfold scheduler at hs
  cases hl : firstLevel s with
  | none =>
    rw [hl] at hs
    cases hs
  | some l =>
    rw [hl] at hs
    obtain ⟨hlev, hne⟩ := firstLevel_eq_some hl
    obtain ⟨q, hq⟩ := h.queued
    have hisq := hq.isQueue l hlev
    rcases List.eq_nil_or_concat' (q l) with hnil | ⟨a, p, hap⟩
    · exact absurd (hisq.head_eq_none_iff.mpr hnil) hne
    · obtain ⟨hdeq, hq'⟩ := hq.dequeue hlev hap
      have hp := (hq.mem_iff l p hlev).mp (by rw [hap]; simp)
      have hlast : (s.levels l).last = some p := by
        rw [hisq.last_eq, hap]
        simp
      simp only [hdeq] at hs
      exact ⟨p, l, _, hlev, rfl, hlast, hp.1, hq', (Option.some.inj hs).symm⟩

theorem Inv.scheduler (h : Inv s) (hc : s.cpu c = none) (hs : scheduler c s = some t) :
    Inv t := by
  obtain ⟨p, l, q, -, -, -, hp, hq, rfl⟩ := scheduler_eq_some h hs
  have hst : ∀ r, (((removefromlevel p l s).setCpu c (some p)).proc r).state =
      (s.proc r).state := by
    intro r
    rw [setCpu_proc, removefromlevel_eq]
    rfl
  have hctx : ∀ r, (((removefromlevel p l s).setCpu c (some p)).proc r).context =
      (s.proc r).context := by
    intro r
    rw [setCpu_proc, removefromlevel_eq]
    rfl
  refine ⟨⟨q, ?_⟩, ?_, ?_⟩
  · refine (Queued.off_iff ?_).mp ((hq.congr (t := (removefromlevel p l s).setCpu c (some p))
      rfl rfl fun _ => ⟨rfl, rfl⟩).modProc_off (fun _ => ⟨rfl, rfl⟩) ?_)
    · rw [modProc_proc_self]
      simp [Proc.resume]
    · exact hq.nice p
  · have hcpu : (removefromlevel p l s).cpu = s.cpu := by rw [removefromlevel_eq]; rfl
    have : CpuOk (fun r => if r = p then ProcState.running else s.states r)
        fun d => if d = c then some p else s.cpu d := by
      refine h.cpu.dispatch hc ?_ (if_pos rfl) fun r hr => by rw [if_neg hr]
      rw [PTable.states, hp]
      simp
    convert this using 1
    · funext r
      rw [PTable.states, modProc_proc]
      split_ifs
      · rfl
      · exact hst r
    · rw [modProc_cpu]
      funext d
      rw [setCpu_cpu, hcpu]
  · refine h.fork.congr_of_ne (p := p) ?_ ?_ (fun r hr => ?_) fun r => ?_
    · rw [PTable.states, hp]
      simp
    · rw [PTable.states, modProc_proc_self]
      simp [Proc.resume]
    · rw [PTable.states, modProc_proc, if_neg hr, hst]
      rfl
    · rw [PTable.contexts, modProc_proc]
      split_ifs with hr
      · subst hr
        rw [Proc.resume, PTable.contexts, ← hctx r]
        cases (((removefromlevel r l s).setCpu c (some r)).proc r).context <;> rfl
      · rw [hctx]
        rfl

/-! ### Aging

The loop over a level runs along `next` while the body takes processes out of the level, so its
invariant splits the list of the level: `a` has been visited and stayed, `b` is still to come. -/

/-- A process without what `aging` changes. -/
def Proc.core (x : Proc) : Proc := { x with nice := 0, age := 0, next := none, back := none }

/-- The tables differ in the queues, nice values and ages only. -/
structure SameCore (s t : PTable) : Prop where
  proc : ∀ r, (t.proc r).core = (s.proc r).core
  cpu : t.cpu = s.cpu
  nextpid : t.nextpid = s.nextpid
  initproc : t.initproc = s.initproc

theorem SameCore.refl (s : PTable) : SameCore s s := ⟨fun _ => rfl, rfl, rfl, rfl⟩

theorem SameCore.trans (h : SameCore s t) (h' : SameCore t u) : SameCore s u :=
  ⟨fun r => (h'.proc r).trans (h.proc r), h'.cpu.trans h.cpu, h'.nextpid.trans h.nextpid,
    h'.initproc.trans h.initproc⟩

theorem SameCore.field {β : Type*} (h : SameCore s t) (g : Proc → β)
    (hg : ∀ y : Proc, g y.core = g y) (r : Slot) : g (t.proc r) = g (s.proc r) := by
  rw [← hg, h.proc r, hg]

theorem Inv.of_sameCore (h : Inv s) (hst : SameCore s t) (hq : ∃ q, Queued t q none) : Inv t where
  queued := hq
  cpu := by
    have : t.states = s.states := funext (hst.field (·.state) fun _ => rfl)
    rw [this, hst.cpu]
    exact h.cpu
  fork := by
    have h1 : t.states = s.states := funext (hst.field (·.state) fun _ => rfl)
    have h2 : t.contexts = s.contexts := funext (hst.field (·.context) fun _ => rfl)
    rw [h1, h2]
    exact h.fork

theorem sameCore_modProc (hf : ∀ y, (f y).core = y.core) :
    SameCore s (s.modProc p f) where
  proc r := by
    rw [modProc_proc]
    split_ifs with hr
    · rw [hr, hf]
    · rfl
  cpu := rfl
  nextpid := rfl
  initproc := rfl

theorem sameCore_enqueue (hp : (s.proc p).state = .runnable) : SameCore s (enqueue p s) where
  proc r := by
    rw [enqueue_eq, relink_proc, modProc_proc]
    split_ifs with hr
    · rw [hr, Proc.core, Proc.core, hp]
    · rfl
  cpu := enqueue_cpu p s
  nextpid := enqueue_nextpid p s
  initproc := enqueue_initproc p s

theorem sameCore_removefromlevel (l : ℤ) : SameCore s (removefromlevel p l s) := by
  rw [removefromlevel_eq]
  exact ⟨fun _ => rfl, rfl, rfl, rfl⟩

theorem sameCore_nice (inc : ℤ) : SameCore s (nice p inc s).1 := by
  unfold nice
  dsimp only
  split_ifs
  · exact SameCore.refl s
  · dsimp only
    refine sameCore_modProc ?_
    exact fun _ => rfl

theorem sameCore_increasepriority : SameCore s (increasepriority p s) := by
  unfold increasepriority
  split_ifs
  · exact sameCore_modProc fun _ => rfl
  · exact SameCore.refl s

/-- The age that the next pass of `aging` gives to a process. -/
def older (s : PTable) (p : Slot) : ℕ := ((s.proc p).age + 1) % 2 ^ 32

/-- The next pass of `aging` moves the process up, if it meets it. -/
def isOld (s : PTable) (p : Slot) : Bool := decide (AGELIMIT ≤ older s p)

/-- From `s` to `t` the processes `b` of level `i` were visited, which stand between `a` and `c`:
those that are old moved up, each to the head of its new level. -/
structure Aged (i : ℤ) (a b c : List Slot) (s t : PTable) : Prop where
  core : SameCore s t
  queued : Queued t t.queue none
  up : t.queue (i - 1) = (b.filter (isOld s)).reverse ++ s.queue (i - 1)
  stay : t.queue i = a ++ (b.filter fun p => !isOld s p) ++ c
  other : ∀ k, IsLevel k → k ≠ i - 1 → k ≠ i → t.queue k = s.queue k
  age : ∀ r, (t.proc r).age = if r ∈ b then older s r else (s.proc r).age

theorem Aged.refl {c : List Slot} (hq : Queued s s.queue none)
    (hi : s.queue i = a ++ c) : Aged i a [] c s s where
  core := SameCore.refl s
  queued := hq
  up := rfl
  stay := by rw [hi, List.filter_nil, List.append_nil]
  other _ _ _ _ := rfl
  age r := by rw [if_neg List.not_mem_nil]

theorem Aged.older_eq {b c : List Slot} (h : Aged i a b c s t)
    (hr : r ∉ b) : older t r = older s r := by
  rw [older, older, h.age r, if_neg hr]

theorem Aged.isOld_eq {b c : List Slot} (h : Aged i a b c s t)
    (hr : r ∉ b) : isOld t r = isOld s r := by
  rw [isOld, isOld, h.older_eq hr]

theorem Aged.trans {b b' c : List Slot} (h : Aged i a b (b' ++ c) s t)
    (h' : Aged i (a ++ b.filter fun p => !isOld s p) b' c t u) (hd : ∀ r ∈ b', r ∉ b) :
    Aged i a (b ++ b') c s u where
  core := h.core.trans h'.core
  queued := h'.queued
  up := by
    have hfilter : b'.filter (isOld t) = b'.filter (isOld s) :=
      List.filter_congr fun r hr => h.isOld_eq (hd r hr)
    rw [h'.up, h.up, hfilter, List.filter_append, List.reverse_append, List.append_assoc]
  stay := by
    have hfilter : (b'.filter fun p => !isOld t p) = b'.filter fun p => !isOld s p :=
      List.filter_congr fun r hr => by rw [h.isOld_eq (hd r hr)]
    rw [h'.stay, hfilter, List.filter_append, List.append_assoc a]
  other k hk hne hne' := (h'.other k hk hne hne').trans (h.other k hk hne hne')
  age r := by
    rw [h'.age r, h.age r]
    by_cases hr : r ∈ b'
    · rw [if_pos hr, if_pos (List.mem_append_right b hr), h.older_eq (hd r hr)]
    · rw [if_neg hr]
      by_cases hr' : r ∈ b
      · rw [if_pos hr', if_pos (List.mem_append_left b' hr')]
      · rw [if_neg hr', if_neg fun hm => (List.mem_append.mp hm).elim hr' hr]

/-- One round of the loop: the visited process `p` stays or moves up, the rest of the level stays
as it is. -/
theorem aged_agingOne (hi : IsLevel i) (hi' : 1 ≤ i) {c : List Slot}
    (hq : Queued s s.queue none) (hqi : s.queue i = a ++ p :: c) :
    Aged i a [p] c s (agingOne i p s) := by
  have hlev : IsLevel (i - 1) := ⟨by omega, by have := hi.2; omega⟩
  have hp : (s.proc p).state = .runnable ∧ (s.proc p).nice = i := by
    have := (hq.mem_iff i p hi).mp (by rw [hqi]; simp)
    exact ⟨this.1, this.2.2⟩
  unfold agingOne
  set s1 := s.modProc p fun x => { x with age := (x.age + 1) % 2 ^ 32 } with hs1
  have hc1 : SameCore s s1 := sameCore_modProc fun _ => rfl
  have hq1 : Queued s1 s.queue none := hq.modProc (fun _ => ⟨rfl, rfl⟩) fun _ => ⟨rfl, rfl⟩
  have hage1 : ∀ r, (s1.proc r).age = if r ∈ [p] then older s r else (s.proc r).age := by
    intro r
    rw [hs1, modProc_proc]
    by_cases hr : r = p
    · rw [if_pos hr, if_pos (List.mem_singleton.mpr hr), hr]
      rfl
    · rw [if_neg hr, if_neg fun hm => hr (List.mem_singleton.mp hm)]
  have hold : (s1.proc p).age ≥ AGELIMIT ↔ isOld s p = true := by
    rw [hage1, if_pos (List.mem_singleton_self p), isOld, decide_eq_true_eq]
  dsimp only
  by_cases hage : isOld s p = true
  · rw [if_pos (hold.mpr hage)]
    have hc2 : SameCore s1 (increasepriority p (removefromlevel p i s1)) :=
      (sameCore_removefromlevel i).trans sameCore_increasepriority
    have hp2 : ((increasepriority p (removefromlevel p i s1)).proc p).state = .runnable := by
      rw [(hc1.trans hc2).field (·.state) fun _ => rfl]
      exact hp.1
    -- the level it goes to is `i - 1`
    have hnice : ((increasepriority p (removefromlevel p i s1)).proc p).nice = i - 1 := by
      have hn : ((removefromlevel p i s1).proc p).nice = i := by
        rw [removefromlevel_eq, relink_proc, hs1, modProc_proc_self]
        exact hp.2
      rw [increasepriority, if_pos (by rw [hn]; omega), modProc_proc_self, hn]
    have hq2 := (hq1.removefromlevel hi hqi).increasepriority.enqueue
    rw [hnice] at hq2
    refine ⟨(hc1.trans hc2).trans (sameCore_enqueue hp2), hq2.queue, ?_, ?_, ?_, ?_⟩
    · rw [hq2.spells.queue_eq hlev, if_pos rfl, if_neg (by omega), List.filter_cons_of_pos hage]
      rfl
    · rw [hq2.spells.queue_eq hi, if_neg (by omega), if_pos rfl,
        List.filter_cons_of_neg (by rw [hage]; simp), List.filter_nil, List.append_nil]
    · intro k hk hne hne'
      rw [hq2.spells.queue_eq hk, if_neg hne, if_neg hne']
    · intro r
      rw [enqueue_field (·.age) (fun _ _ _ _ => rfl),
        modNice_field (·.age) (fun _ _ => rfl) (increasepriority_eq p _), removefromlevel_eq]
      exact hage1 r
  · rw [if_neg fun hh => hage (hold.mp hh)]
    have hqueue : ∀ k, IsLevel k → s1.queue k = s.queue k := fun k hk => hq1.spells.queue_eq hk
    refine ⟨hc1, hq1.queue, ?_, ?_, fun k hk _ _ => hqueue k hk, hage1⟩
    · rw [hqueue _ hlev, List.filter_cons_of_neg hage]
      rfl
    · rw [hqueue i hi, hqi, List.filter_cons_of_pos (by simpa using hage), List.filter_nil,
        List.append_assoc, List.singleton_append]

/-- **The loop over a level ends**, within as many rounds as the level has processes, and visits
each of them once. -/
theorem aged_agingLevel (hi : IsLevel i) (hi' : 1 ≤ i) :
    ∀ (n : ℕ) (a b : List Slot) (s : PTable), b.length ≤ n → Queued s s.queue none →
      s.queue i = a ++ b → ∃ t, agingLevel i n b.head? s = some t ∧ Aged i a b [] s t
  | n, a, [], s, _, hq, hqi => by
    refine ⟨s, ?_, Aged.refl hq hqi⟩
    cases n <;> rfl
  | 0, _, p :: b, s, hn, _, _ => by
    rw [List.length_cons] at hn
    omega
  | n + 1, a, p :: b, s, hn, hq, hqi => by
    have hisq := hq.isQueue i hi
    have hnext : (s.proc p).next = b.head? := (hisq.threads a p b hqi).2
    have hpb : p ∉ b := (nodup_split (hqi ▸ hisq.nodup)).2
    have hone : Aged i a [p] (b ++ []) s (agingOne i p s) := by
      rw [List.append_nil]
      exact aged_agingOne hi hi' hq hqi
    have hstay := hone.stay
    rw [List.append_nil] at hstay
    rw [List.length_cons] at hn
    obtain ⟨t, ht, haged⟩ := aged_agingLevel hi hi' n _ b (agingOne i p s) (by omega)
      hone.queued hstay
    refine ⟨t, ?_, hone.trans haged fun r hr hrp => ?_⟩
    · rw [List.head?_cons, agingLevel, hnext]
      exact ht
    · rw [List.mem_singleton.mp hrp] at hr
      exact hpb hr

theorem aged_level (hi : IsLevel i) (hi' : 1 ≤ i) (hq : Queued s s.queue none) :
    ∃ t, agingLevel i NPROC (s.levels i).head s = some t ∧ Aged i [] (s.queue i) [] s t := by
  have hisq := hq.isQueue i hi
  rw [hisq.head_eq]
  refine aged_agingLevel hi hi' NPROC [] (s.queue i) s ?_ hq rfl
  have := hisq.nodup.length_le_card
  rwa [Fintype.card_fin] at this

/-- What one pass of `aging` does, level by level. -/
structure AgingPass (s t1 t2 t3 : PTable) : Prop where
  run1 : agingLevel 1 NPROC (s.levels 1).head s = some t1
  run2 : agingLevel 2 NPROC (t1.levels 2).head t1 = some t2
  run3 : agingLevel 3 NPROC (t2.levels 3).head t2 = some t3
  aged1 : Aged 1 [] (s.queue 1) [] s t1
  aged2 : Aged 2 [] (s.queue 2) [] t1 t2
  aged3 : Aged 3 [] (s.queue 3) [] t2 t3

theorem aging_spec (hq : Queued s s.queue none) : ∃ t1 t2 t3, AgingPass s t1 t2 t3 := by
  obtain ⟨t1, h1, ha1⟩ := aged_level (i := 1) (by decide) (by decide) hq
  obtain ⟨t2, h2, ha2⟩ := aged_level (i := 2) (by decide) (by decide) ha1.queued
  obtain ⟨t3, h3, ha3⟩ := aged_level (i := 3) (by decide) (by decide) ha2.queued
  -- a level is as it was when its turn comes
  rw [ha1.other 2 (by decide) (by decide) (by decide)] at ha2
  rw [ha2.other 3 (by decide) (by decide) (by decide),
    ha1.other 3 (by decide) (by decide) (by decide)] at ha3
  exact ⟨t1, t2, t3, h1, h2, h3, ha1, ha2, ha3⟩

theorem AgingPass.aging_eq {t1 t2 t3 : PTable} (h : AgingPass s t1 t2 t3) :
    aging s = some t3 := by
  simp only [aging, List.foldlM_cons, List.foldlM_nil, h.run1, h.run2, h.run3,
    Option.bind_eq_bind, Option.bind_some]
  rfl

theorem AgingPass.core {t1 t2 t3 : PTable} (h : AgingPass s t1 t2 t3) : SameCore s t3 :=
  (h.aged1.core.trans h.aged2.core).trans h.aged3.core

theorem Inv.aging (h : Inv s) (hs : aging s = some t) : Inv t ∧ SameCore s t := by
  obtain ⟨q, hq⟩ := h.queued
  obtain ⟨t1, t2, t3, hpass⟩ := aging_spec hq.queue
  rw [hpass.aging_eq] at hs
  cases hs
  exact ⟨h.of_sameCore hpass.core ⟨_, hpass.aged3.queued⟩, hpass.core⟩

/-! ### Sections of the running process -/

/-- A process that is not queued changes between states other than `RUNNABLE` and `RUNNING`. -/
theorem Inv.modProc_idle (h : Inv s) (hlinks : ∀ y, (f y).next = y.next ∧ (f y).back = y.back)
    (hnice : (f (s.proc p)).nice = (s.proc p).nice)
    (hp : (s.proc p).state ≠ .runnable ∧ (s.proc p).state ≠ .running)
    (hp' : (f (s.proc p)).state ≠ .runnable ∧ (f (s.proc p)).state ≠ .running)
    (hfork : ForkOk (s.modProc p f).states (s.modProc p f).contexts) : Inv (s.modProc p f) where
  queued := by
    obtain ⟨q, hq⟩ := h.queued
    refine ⟨q, (Queued.off_iff (by rw [modProc_proc_self]; exact hp'.1)).mp
      (((Queued.off_iff hp.1).mpr hq).modProc_off hlinks ?_)⟩
    rw [hnice]
    exact hq.nice p
  cpu := by
    refine h.cpu.congr fun r => ?_
    rw [PTable.states, modProc_proc]
    split_ifs with hr
    · rw [hr]
      exact ⟨fun hh => absurd hh hp'.2, fun hh => absurd hh hp.2⟩
    · exact Iff.rfl
  fork := hfork

/-- The process on CPU `c` gives up the CPU for a state in which it is not queued. -/
theorem Inv.leave (h : Inv s) (hc : s.cpu c = some p)
    (hlinks : ∀ y, (f y).next = y.next ∧ (f y).back = y.back) (hnice : ∀ y, (f y).nice = y.nice)
    (hst : ∀ y, (f y).state ≠ .runnable ∧ (f y).state ≠ .running ∧ (f y).state ≠ .embryo)
    (hctx : (f (s.proc p)).context.child = (s.proc p).context.child) :
    Inv (sched c (s.modProc p f)) := by
  have hrun := h.cpu.running hc
  obtain ⟨q, hq⟩ := h.queued
  have hoff : Queued s q (some p) := by
    refine (Queued.off_iff ?_).mpr hq
    rw [PTable.states] at hrun
    rw [hrun]
    simp
  have hproc : ∀ r, r ≠ p → (sched c (s.modProc p f)).proc r = s.proc r := by
    intro r hr
    rw [sched, setCpu_proc, modProc_proc, if_neg hr]
  have hproc' : (sched c (s.modProc p f)).proc p = f (s.proc p) := by
    rw [sched, setCpu_proc, modProc_proc_self]
  refine h.release hc ⟨q, ?_⟩ ?_ ?_ rfl ?_
  · refine (Queued.off_iff (p := p) ?_).mp ((hoff.modProc_off hlinks ?_).congr rfl rfl
      fun _ => ⟨rfl, rfl⟩)
    · rw [hproc']
      exact (hst _).1
    · rw [hnice]
      exact hq.nice p
  · rw [PTable.states, hproc']
    exact (hst _).2.1
  · intro r hr
    rw [PTable.states, hproc r hr]
    rfl
  · refine h.fork.congr_of_ne (p := p) ?_ ?_ (fun r hr => ?_) fun r => ?_
    · rw [hrun]
      simp
    · rw [PTable.states, hproc']
      exact (hst _).2.2
    · rw [PTable.states, hproc r hr]
      rfl
    · by_cases hr : r = p
      · rw [hr, PTable.contexts, hproc', hctx]
        rfl
      · rw [PTable.contexts, hproc r hr]
        rfl

theorem Inv.sleep (h : Inv s) (hc : s.cpu c = some p) {ctx : Context}
    (hctx : ctx.child = (s.proc p).context.child) (chan : Chan) :
    Inv (sleep c p chan ctx s) :=
  h.leave hc (fun _ => ⟨rfl, rfl⟩) (fun _ => rfl) (fun _ => ⟨by simp, by simp, by simp⟩) hctx

theorem Inv.nice (h : Inv s) (hc : s.cpu c = some p) (inc : ℤ) : Inv (nice p inc s).1 := by
  unfold Process.nice
  dsimp only
  split_ifs with hn
  · exact h
  · obtain ⟨q, hq⟩ := h.queued
    have hrun := h.cpu.running hc
    have hne : (s.proc p).state ≠ .runnable := by
      rw [PTable.states] at hrun
      rw [hrun]
      simp
    have hlev : IsLevel (int32 ((s.proc p).nice + inc)) := ⟨by omega, by omega⟩
    generalize int32 ((s.proc p).nice + inc) = n at hlev
    show Inv (s.modProc p fun x => { x with nice := n })
    have hst : (s.modProc p fun x => { x with nice := n }).states = s.states :=
      states_modProc fun _ => rfl
    have hq' : Queued (s.modProc p fun x => { x with nice := n }) q (some p) :=
      ((Queued.off_iff hne).mpr hq).modProc_off (fun _ => ⟨rfl, rfl⟩) hlev
    refine ⟨⟨q, (Queued.off_iff ?_).mp hq'⟩, ?_, ?_⟩
    · rw [modProc_proc_self]
      exact hne
    · rw [hst]
      exact h.cpu
    · rw [hst]
      exact h.fork.congr (fun _ => Iff.rfl) (child_modProc fun _ => rfl)

/-! ### `fork` -/

theorem Inv.forkAlloc (h : Inv s) (hctx : (s.proc p).context = .user)
    (hnp : (s.proc np).state = .unused) :
    Inv ((s.claim np).modProc p fun x => { x with context := .forking np }) := by
  obtain ⟨q, hq⟩ := h.queued
  have hq' : Queued (s.claim np) q none := by
    refine (Queued.off_iff ?_).mp ((Queued.off_iff (by rw [hnp]; simp)).mpr hq).claim
    have := states_claim (s := s) np np
    rw [if_pos rfl, PTable.states] at this
    rw [this]
    simp
  have hst : ((s.claim np).modProc p fun x => { x with context := .forking np }).states =
      (s.claim np).states := states_modProc fun _ => rfl
  refine ⟨⟨q, hq'.modProc (fun _ => ⟨rfl, rfl⟩) fun _ => ⟨rfl, rfl⟩⟩, ?_, ?_⟩
  · rw [hst]
    refine h.cpu.congr fun r => ?_
    rw [states_claim]
    split_ifs with hr
    · rw [hr, PTable.states, hnp]
      simp
    · exact Iff.rfl
  · rw [hst]
    refine h.fork.claim p np ?_ ?_ ?_ ?_ ?_ ?_
    · rw [PTable.states, hnp]
      simp
    · intro r hr
      rw [states_claim, if_neg hr]
    · rw [states_claim, if_pos rfl]
    · rw [PTable.contexts, hctx]
      rfl
    · rw [PTable.contexts, modProc_proc_self]
      rfl
    · intro r hr
      rw [PTable.contexts, modProc_proc, if_neg hr, claim_field (·.context) fun _ _ _ _ => rfl]
      rfl

/-- `fork` ends: the embryo is given back, or is queued. -/
theorem Inv.endFork (h : Inv s) (np : Slot) (hchild : (s.contexts p).child = some np)
    (hq : ∃ q, Queued u q none) (hcpu : u.cpu = s.cpu)
    (hnp : u.states np ≠ .embryo) (hrun : u.states np ≠ .running)
    (hst : ∀ r, r ≠ np → u.states r = s.states r)
    (hctx : ∀ r, (u.contexts r).child = (s.contexts r).child) :
    Inv (u.modProc p fun x => { x with context := .user }) := by
  have hu : (u.modProc p fun x => { x with context := .user }).states = u.states :=
    states_modProc fun _ => rfl
  refine ⟨hq.imp fun _ hq => hq.modProc (fun _ => ⟨rfl, rfl⟩) fun _ => ⟨rfl, rfl⟩, ?_, ?_⟩
  · rw [hu, modProc_cpu, hcpu]
    refine h.cpu.congr fun r => ?_
    by_cases hr : r = np
    · rw [hr, h.fork.embryo hchild]
      simpa using hrun
    · rw [hst r hr]
  · rw [hu]
    refine h.fork.drop hchild hst hnp ?_ ?_
    · rw [PTable.contexts, modProc_proc_self]
      rfl
    · intro r hr
      rw [PTable.contexts, modProc_proc, if_neg hr]
      exact hctx r

theorem Inv.forkFail (h : Inv s) (hctx : (s.proc p).context = .forking np)
    (hnp : (s.proc np).state = .embryo) :
    Inv ((s.modProc np fun x => { x with state := .unused }).modProc p fun x =>
      { x with context := .user }) := by
  have hst : ∀ r, (s.modProc np fun x => { x with state := .unused }).states r =
      if r = np then .unused else s.states r := by
    intro r
    rw [PTable.states, modProc_proc]
    split_ifs <;> rfl
  refine h.endFork np (by rw [PTable.contexts, hctx]; rfl) ?_ rfl ?_ ?_ ?_ fun r =>
    modProc_field s np r (·.context.child)
  · obtain ⟨q, hq⟩ := h.queued
    refine ⟨q, (Queued.off_iff (p := np) ?_).mp (((Queued.off_iff ?_).mpr hq).modProc_off
      (fun _ => ⟨rfl, rfl⟩) (hq.nice np))⟩
    · rw [modProc_proc_self]
      simp
    · rw [hnp]
      simp
  · rw [hst, if_pos rfl]
    simp
  · rw [hst, if_pos rfl]
    simp
  · intro r hr
    rw [hst, if_neg hr]

theorem Inv.forkParent (h : Inv s) (hctx : (s.proc p).context = .forking np) :
    Inv ((s.modProc np fun x => { x with parent := some p }).modProc p fun x =>
      { x with context := .forked np }) := by
  have h1 : Inv (s.modProc np fun x => { x with parent := some p }) :=
    h.modProc (fun _ => ⟨rfl, rfl⟩) (fun _ => ⟨rfl, rfl⟩) fun _ => rfl
  have hctx1 : ((s.modProc np fun x => { x with parent := some p }).proc p).context =
      (s.proc p).context := modProc_field s np p (·.context)
  refine h1.setContext ?_
  rw [hctx1, hctx]
  rfl

theorem Inv.forkEnqueue (h : Inv s) (hctx : (s.proc p).context = .forked np)
    (hnp : (s.proc np).state = .embryo) :
    Inv ((enqueue np s).modProc p fun x => { x with context := .user }) := by
  have hst : (enqueue np s).states np = .runnable := by
    rw [PTable.states, enqueue_state, if_pos rfl]
  refine h.endFork np (by rw [PTable.contexts, hctx]; rfl) ?_ (enqueue_cpu np s)
    (by rw [hst]; simp) (by rw [hst]; simp) (fun r hr => ?_) fun r => ?_
  · obtain ⟨q, hq⟩ := h.queued
    exact ⟨_, ((Queued.off_iff (p := np) (by rw [hnp]; simp)).mpr hq).enqueue⟩
  · rw [PTable.states, enqueue_state, if_neg hr]
    rfl
  · rw [PTable.contexts, enqueue_field (·.context) fun _ _ _ _ => rfl]
    rfl

/-! ### `exit` and `wait` -/

/-- What assigning the new parent and waking init preserve, the loop of `exit` preserves. -/
theorem reparent_induction {P : PTable → Prop} (cur : Slot) (h : P s)
    (hpar : ∀ t p, P t → (t.proc p).parent = some cur →
      P (t.modProc p fun x => { x with parent := t.initproc }))
    (hwake : ∀ t, P t → P (Process.wakeup1 (t.initproc.map .proc) t)) :
    P (slots.foldl (reparentOne cur) s) := by
  refine List.foldlRecOn slots (reparentOne cur) h fun t ht p _ => ?_
  unfold reparentOne
  split_ifs with hp
  · have h1 := hpar t p ht hp
    dsimp only
    split_ifs
    · exact hwake _ h1
    · exact h1
  · exact ht

theorem Inv.exit (h : Inv s) (hc : s.cpu c = some p) (hctx : (s.proc p).context = .user)
    (hs : exit c p s = some t) : Inv t := by
  unfold Process.exit at hs
  split_ifs at hs with hinit
  cases hs
  have h1 := h.wakeup1 ((s.proc p).parent.map .proc)
  have hcpu1 : (Process.wakeup1 ((s.proc p).parent.map .proc) s).cpu c = some p := by
    rw [(wakeup1_rest _ s).1]
    exact hc
  have hctx1 : ((Process.wakeup1 ((s.proc p).parent.map .proc) s).proc p).context = .user := by
    rw [wakeup1_field (·.context) fun _ _ _ _ _ => rfl]
    exact hctx
  obtain ⟨h2, hcpu2, hctx2⟩ := reparent_induction p
    (P := fun u => Inv u ∧ u.cpu c = some p ∧ (u.proc p).context = .user)
    ⟨h1, hcpu1, hctx1⟩
    (by
      rintro u r ⟨hu, huc, hux⟩ -
      refine ⟨hu.modProc (fun _ => ⟨rfl, rfl⟩) (fun _ => ⟨rfl, rfl⟩) fun _ => rfl, huc, ?_⟩
      exact (modProc_field u r p (·.context)).trans hux)
    (by
      rintro u ⟨hu, huc, hux⟩
      refine ⟨hu.wakeup1 _, ?_, ?_⟩
      · rw [(wakeup1_rest _ u).1]
        exact huc
      · rw [wakeup1_field (·.context) fun _ _ _ _ _ => rfl]
        exact hux)
  refine h2.leave hcpu2 ?_ ?_ ?_ ?_
  · exact fun _ => ⟨rfl, rfl⟩
  · exact fun _ => rfl
  · exact fun _ => ⟨by simp, by simp, by simp⟩
  · rw [hctx2]

theorem Inv.reap (h : Inv s) {z : Slot} (hz : (s.proc z).state = .zombie) : Inv (s.reap z) := by
  refine h.modProc_idle (fun _ => ⟨rfl, rfl⟩) rfl ?_ ?_ ?_
  · rw [hz]
    simp
  · simp
  · refine h.fork.congr_of_ne (p := z) ?_ ?_ (fun r hr => ?_) fun r => ?_
    · rw [PTable.states, hz]
      simp
    · rw [PTable.states, modProc_proc_self]
      simp
    · rw [PTable.states, modProc_proc, if_neg hr]
      rfl
    · exact modProc_field s z r (·.context.child)

/-! ## Runs -/

theorem inv_boot : Inv PTable.boot where
  queued := by
    refine ⟨fun _ => [], fun _ _ => isQueue_nil _, ?_, ?_⟩
    · intro l p _
      simp [PTable.boot]
    · intro p
      show IsLevel 0
      decide
  cpu := by
    refine ⟨?_, ?_, ?_⟩
    · intro c p h
      cases h
    · intro c d p h
      cases h
    · intro p h
      cases h
  fork := by
    refine ⟨?_, ?_, ?_⟩
    · intro p np h
      cases h
    · intro p p' np h
      cases h
    · intro np h
      cases h

/-- **Every critical section preserves the invariant.** -/
theorem Inv.step (h : Inv s) {a : Label} {e : Event} (hs : step s a = some (t, e)) : Inv t := by
  cases h.section_of_step hs with
  | userinit _ hnp => exact h.userinit hnp
  | dispatch hc ht => exact h.scheduler hc ht
  | tick => exact h.ticked
  | expire hc => exact h.ticked.yield hc
  | sleep hc _ hctx chan => exact h.sleep hc (by rw [hctx]; rfl) chan
  | wakeup chan => exact h.wakeup1 _
  | kill pid => exact h.kill pid
  | nice hc _ inc => exact h.nice hc inc
  | aging ht => exact (h.aging ht).1
  | forkNone => exact h
  | forkAlloc _ _ hctx hnp => exact h.forkAlloc hctx hnp
  | forkFail _ _ hctx hnp => exact h.forkFail hctx hnp
  | forkParent _ _ hctx => exact h.forkParent hctx
  | forkEnqueue _ _ hctx hnp => exact h.forkEnqueue hctx hnp
  | exit hc _ hctx ht => exact h.exit hc hctx ht
  | reap _ _ hchild _ hz =>
    exact (h.reap hz).setContext ((modProc_field s _ _ (·.context.child)).trans hchild).symm
  | waitFail _ _ hchild => exact h.setContext hchild.symm
  | waitSleep hc _ hchild =>
    have hctx : Context.waiting.child = (s.proc _).context.child := hchild.symm
    exact h.sleep hc hctx _

/-- The invariant holds whenever `ptable.lock` is free. -/
theorem inv_exec {as : List Label} {es : List Event}
    (h : exec step PTable.boot as = some (s, es)) : Inv s :=
  exec_invariant (fun hi hs => hi.step hs) inv_boot h

/-- The consistency of the run queues, with `q l` the list of level `l` from head to last. -/
structure Consistent (s : PTable) (q : ℤ → List Slot) : Prop where
  /-- `head`, `last`, `next` and `back` spell the list: it is doubly linked, null-terminated and
  has no cycle. -/
  isQueue : ∀ l, IsLevel l → IsQueue s.links (s.levels l) (q l)
  /-- A queued process is runnable, at its own level. -/
  runnable : ∀ l p, IsLevel l → p ∈ q l → (s.proc p).state = .runnable ∧ (s.proc p).nice = l
  /-- A runnable process is in one level, and there once. -/
  once : ∀ p, (s.proc p).state = .runnable →
    ∃ l, IsLevel l ∧ (q l).count p = 1 ∧ ∀ k, IsLevel k → k ≠ l → p ∉ q k
  /-- `levels[p->nice]` is in bounds. -/
  nice : ∀ p, IsLevel (s.proc p).nice
  /-- A running process is the current process of one CPU. -/
  running : ∀ p, (s.proc p).state = .running → ∃! c, s.cpu c = some p

/-- **Run-queue consistency.**  After any interleaving of critical sections on any number of CPUs,
the levels are well-formed queues that hold the runnable processes, each once and at the level of
its nice value; nice values are levels; and each running process is on one CPU. -/
theorem exists_consistent_of_exec {as : List Label} {es : List Event}
    (h : exec step PTable.boot as = some (s, es)) : ∃ q, Consistent s q := by
  have hi := inv_exec h
  obtain ⟨q, hq⟩ := hi.queued
  refine ⟨q, hq.isQueue, ?_, ?_, hq.nice, ?_⟩
  · intro l p hl hp
    obtain ⟨hrun, -, hnice⟩ := (hq.mem_iff l p hl).mp hp
    exact ⟨hrun, hnice⟩
  · intro p hp
    have hmem : p ∈ q (s.proc p).nice :=
      (hq.mem_iff _ p (hq.nice p)).mpr ⟨hp, Option.some_ne_none p, rfl⟩
    refine ⟨(s.proc p).nice, hq.nice p, ?_, ?_⟩
    · exact List.count_eq_one_of_mem (hq.isQueue _ (hq.nice p)).nodup hmem
    · intro k hk hne hpk
      exact hne (hq.level_unique hk (hq.nice p) hpk hmem)
  · intro p hp
    obtain ⟨c, hc⟩ := hi.cpu.exists_cpu hp
    exact ⟨c, hc, fun d hd => hi.cpu.unique hd hc⟩

def highRun : List Label :=
  [.userinit, .dispatch 0, .forkAlloc 0, .forkParent 0, .forkEnqueue 0, .tick 0, .tick 0, .tick 0,
    .dispatch 1, .nice 1 2147483647, .aging]

/-- A run in which init forks and is preempted, its child runs on a second CPU and asks for a
nice value that overflows, and `aging` passes over the queues. -/
theorem exists_consistent_of_fork_run : ∃ s es, exec step PTable.boot highRun = some (s, es) ∧
    ∃ q, Consistent s q := by
  have hrun : (exec step PTable.boot highRun).isSome = true := by decide +kernel
  obtain ⟨⟨s, es⟩, hs⟩ := Option.isSome_iff_exists.mp hrun
  exact ⟨s, es, hs, exists_consistent_of_exec hs⟩

end Xv6.Process
