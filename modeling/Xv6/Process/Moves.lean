import Xv6.Process.Frame

/-!
# The moves that critical sections are made of

Apart from the scheduler, the timer tick and `aging`, a section of `proc.c` reaches its end by a
few kinds of moves: it assigns to a field that scheduling does not read, it changes a process that
is off the queues, or it queues such a process.  `Move` lists them and `step_kind` finds them in
every such section, so that a relation between the table before and after a section has to be
checked for the moves and the three others only.

What moves leave alone is used later: a queued process stays at its level (`Moves.stays`), ages and
tick counts stay (`Moves.clocks`), no CPU gets a process (`Moves.cpu`), and a list of processes
changes at its head only (`Moves.queue`).
-/

namespace Xv6.Process

open PTable Lib

def Proc.clocks (y : Proc) : ℕ × ℕ := (y.age, y.ticksCount)

/-- One move of a section. -/
inductive Move (s : PTable) : PTable → Prop
  /-- Fields that scheduling does not read are assigned to. -/
  | free (p : Slot) {f : Proc → Proc} (hlinks : ∀ y, (f y).next = y.next ∧ (f y).back = y.back)
      (hsched : ∀ y, (f y).state = y.state ∧ (f y).nice = y.nice)
      (hclocks : ∀ y, (f y).clocks = y.clocks) : Move s (s.modProc p f)
  /-- A process that is off the queues changes, and stays off them. -/
  | off (p : Slot) {f : Proc → Proc} (hp : (s.proc p).state ≠ .runnable)
      (hp' : (f (s.proc p)).state ≠ .runnable)
      (hnice : IsLevel (s.proc p).nice → IsLevel (f (s.proc p)).nice)
      (hlinks : ∀ y, (f y).next = y.next ∧ (f y).back = y.back)
      (hclocks : ∀ y, (f y).clocks = y.clocks) : Move s (s.modProc p f)
  /-- A process that is off the queues is queued. -/
  | enqueue (p : Slot) (hp : (s.proc p).state ≠ .runnable) : Move s (enqueue p s)
  /-- The rest of the table changes, and no CPU gets a process. -/
  | rest {t : PTable} (hproc : t.proc = s.proc) (hlevels : t.levels = s.levels)
      (hcpu : ∀ d, t.cpu d = s.cpu d ∨ t.cpu d = none) : Move s t

/-- Several moves. -/
def Moves : PTable → PTable → Prop := Relation.ReflTransGen Move

variable {s t u : PTable} {p r : Slot} {c : ℕ} {e : Event}

theorem Moves.refl : Moves s s := Relation.ReflTransGen.refl

theorem Move.moves (h : Move s t) : Moves s t := Relation.ReflTransGen.single h

theorem Moves.trans (h : Moves s t) (h' : Moves t u) : Moves s u :=
  Relation.ReflTransGen.trans h h'

theorem Moves.tail (h : Moves s t) (h' : Move t u) : Moves s u := Relation.ReflTransGen.tail h h'

/-! ## What moves preserve -/

theorem Move.queued (h : Move s t) (hq : Queued s s.queue none) : Queued t t.queue none := by
  cases h with
  | free p hlinks hsched hclocks => exact (hq.modProc hlinks hsched).queue
  | off p hp hp' hnice hlinks hclocks =>
    have hoff := ((Queued.off_iff hp).mpr hq).modProc_off hlinks (hnice (hq.nice p))
    exact ((Queued.off_iff (by rw [modProc_proc_self]; exact hp')).mp hoff).queue
  | enqueue p hp => exact ((Queued.off_iff hp).mpr hq).enqueue.queue
  | rest hproc hlevels hcpu =>
    refine (hq.congr ?_ hlevels fun r => by rw [hproc]; exact ⟨rfl, rfl⟩).queue
    rw [links, links, hproc]

theorem Moves.queued (h : Moves s t) (hq : Queued s s.queue none) : Queued t t.queue none := by
  induction h with
  | refl => exact hq
  | tail _ hmove ih => exact hmove.queued ih

theorem Move.clocks (h : Move s t) (r : Slot) : (t.proc r).clocks = (s.proc r).clocks := by
  cases h with
  | free p hlinks hsched hclocks => exact modProc_field s p r Proc.clocks hclocks
  | off p hp hp' hnice hlinks hclocks => exact modProc_field s p r Proc.clocks hclocks
  | enqueue p hp => exact enqueue_field Proc.clocks (fun _ _ _ _ => rfl) p s r
  | rest hproc hlevels hcpu => rw [hproc]

theorem Moves.clocks (h : Moves s t) (r : Slot) : (t.proc r).clocks = (s.proc r).clocks := by
  induction h with
  | refl => rfl
  | tail _ hmove ih => exact (hmove.clocks r).trans ih

theorem Move.cpu (h : Move s t) (d : ℕ) : t.cpu d = s.cpu d ∨ t.cpu d = none := by
  cases h with
  | free p hlinks hsched hclocks => exact Or.inl rfl
  | off p hp hp' hnice hlinks hclocks => exact Or.inl rfl
  | enqueue p hp =>
    rw [enqueue_cpu]
    exact Or.inl rfl
  | rest hproc hlevels hcpu => exact hcpu d

/-- **A CPU keeps its process or becomes idle.** -/
theorem Moves.cpu (h : Moves s t) (d : ℕ) : t.cpu d = s.cpu d ∨ t.cpu d = none := by
  induction h with
  | refl => exact Or.inl rfl
  | tail _ hmove ih =>
    rcases hmove.cpu d with h' | h'
    · rw [h']
      exact ih
    · exact Or.inr h'

theorem Move.stays (h : Move s t) (hr : (s.proc r).state = .runnable) :
    (t.proc r).state = .runnable ∧ (t.proc r).nice = (s.proc r).nice := by
  cases h with
  | free p hlinks hsched hclocks =>
    rw [modProc_field s p r (·.state) fun y => (hsched y).1,
      modProc_field s p r (·.nice) fun y => (hsched y).2]
    exact ⟨hr, rfl⟩
  | off p hp hp' hnice hlinks hclocks =>
    have hne : r ≠ p := by
      rintro rfl
      exact hp hr
    rw [modProc_proc, if_neg hne]
    exact ⟨hr, rfl⟩
  | enqueue p hp =>
    refine ⟨?_, enqueue_field (·.nice) (fun _ _ _ _ => rfl) p s r⟩
    rw [enqueue_state]
    split_ifs
    · rfl
    · exact hr
  | rest hproc hlevels hcpu =>
    rw [hproc]
    exact ⟨hr, rfl⟩

/-- **A queued process stays queued, at its level.** -/
theorem Moves.stays (h : Moves s t) (hr : (s.proc r).state = .runnable) :
    (t.proc r).state = .runnable ∧ (t.proc r).nice = (s.proc r).nice := by
  induction h with
  | refl => exact ⟨hr, rfl⟩
  | tail _ hmove ih =>
    obtain ⟨hstate, hnice⟩ := hmove.stays ih.1
    exact ⟨hstate, hnice.trans ih.2⟩

theorem Move.queue (h : Move s t) (hq : Queued s s.queue none) {l : ℤ} (hl : IsLevel l) :
    ∃ new, t.queue l = new ++ s.queue l := by
  cases h with
  | free p hlinks hsched hclocks => exact ⟨[], (hq.modProc hlinks hsched).spells.queue_eq hl⟩
  | off p hp hp' hnice hlinks hclocks =>
    have hoff := ((Queued.off_iff hp).mpr hq).modProc_off hlinks (hnice (hq.nice p))
    exact ⟨[], hoff.spells.queue_eq hl⟩
  | enqueue p hp =>
    rw [((Queued.off_iff hp).mpr hq).enqueue.spells.queue_eq hl]
    split_ifs
    · exact ⟨[p], rfl⟩
    · exact ⟨[], rfl⟩
  | rest hproc hlevels hcpu =>
    refine ⟨[], ?_⟩
    rw [PTable.queue, PTable.queue, links, links, hproc, hlevels]
    rfl

/-- **New processes come in at the head of a level**, and the others keep their places. -/
theorem Moves.queue (h : Moves s t) (hq : Queued s s.queue none) {l : ℤ} (hl : IsLevel l) :
    ∃ new, t.queue l = new ++ s.queue l := by
  induction h with
  | refl => exact ⟨[], rfl⟩
  | tail hmoves hmove ih =>
    obtain ⟨new, hnew⟩ := ih
    obtain ⟨new', hnew'⟩ := hmove.queue (Moves.queued hmoves hq) hl
    exact ⟨new' ++ new, by rw [hnew', hnew, List.append_assoc]⟩

/-! ## The moves of the sections -/

theorem move_sched (c : ℕ) : Move s (sched c s) := by
  refine Move.rest rfl rfl fun d => ?_
  rw [sched, setCpu_cpu]
  split_ifs
  · exact Or.inr rfl
  · exact Or.inl rfl

theorem moves_increasepriority (hp : (s.proc p).state ≠ .runnable) :
    Moves s (increasepriority p s) := by
  unfold increasepriority
  split_ifs with hn
  · refine Move.moves (Move.off p hp hp (fun hlev => ?_) (fun _ => ⟨rfl, rfl⟩) fun _ => rfl)
    have := hlev.2
    exact ⟨by dsimp only; omega, by dsimp only; omega⟩
  · exact Moves.refl

theorem moves_decreasepriority (hp : (s.proc p).state ≠ .runnable) :
    Moves s (decreasepriority p s) := by
  unfold decreasepriority
  split_ifs with hn
  · refine Move.moves (Move.off p hp hp (fun hlev => ?_) (fun _ => ⟨rfl, rfl⟩) fun _ => rfl)
    have := hlev.1
    exact ⟨by dsimp only; omega, by dsimp only; omega⟩
  · exact Moves.refl

theorem moves_wakeupOne (chan : Option Chan) : Moves s (wakeupOne chan s p) := by
  unfold wakeupOne
  split_ifs with hp
  · have hne : (s.proc p).state ≠ .runnable := by
      rw [hp.1]
      simp
    refine (moves_increasepriority hne).tail (Move.enqueue p ?_)
    rwa [modNice_field (·.state) (fun _ _ => rfl) (increasepriority_eq p s)]
  · exact Moves.refl

theorem moves_wakeup1 (chan : Option Chan) : Moves s (wakeup1 chan s) :=
  wakeup1_induction (P := Moves s) Moves.refl fun _ _ h => h.trans (moves_wakeupOne chan)

theorem moves_claim {np : Slot} (hnp : (s.proc np).state = .unused) : Moves s (s.claim np) := by
  refine (Move.off np (f := fun x =>
    { x with state := .embryo, pid := s.nextpid, nice := DEFAULTPLEVEL }) ?_ (by simp)
    (fun _ => ?_) (fun _ => ⟨rfl, rfl⟩) fun _ => rfl).moves.tail
    (Move.rest rfl rfl fun _ => Or.inl rfl)
  · rw [hnp]
    simp
  · show IsLevel DEFAULTPLEVEL
    decide

theorem moves_sleep (hp : (s.proc p).state = .running) (chan : Chan) (ctx : Context) :
    Moves s (sleep c p chan ctx s) := by
  refine Moves.tail (Move.moves (Move.off p (f := fun x =>
    { x with chan := some chan, state := .sleeping, context := ctx }) ?_ (by simp) id
    (fun _ => ⟨rfl, rfl⟩) fun _ => rfl)) (move_sched c)
  rw [hp]
  simp

theorem moves_kill (pid : ℤ) : Moves s (kill pid s).1 := by
  unfold kill
  split
  · exact Moves.refl
  · rename_i p _
    have hfree : Moves s (s.modProc p fun x => { x with killed := true }) :=
      Move.moves (Move.free p (fun _ => ⟨rfl, rfl⟩) (fun _ => ⟨rfl, rfl⟩) fun _ => rfl)
    dsimp only
    split_ifs with hp
    · refine hfree.tail (Move.enqueue p ?_)
      rw [hp]
      simp
    · exact hfree

theorem moves_nice (hp : (s.proc p).state = .running) (inc : ℤ) : Moves s (nice p inc s).1 := by
  unfold nice
  dsimp only
  split_ifs with hn
  · exact Moves.refl
  · have hne : (s.proc p).state ≠ .runnable := by
      rw [hp]
      simp
    dsimp only
    refine Move.moves (Move.off p hne hne (fun _ => ?_) (fun _ => ⟨rfl, rfl⟩) fun _ => rfl)
    exact ⟨by dsimp only; omega, by dsimp only; omega⟩

theorem move_parent (o : Option Slot) : Move s (s.modProc p fun x => { x with parent := o }) :=
  Move.free p (fun _ => ⟨rfl, rfl⟩) (fun _ => ⟨rfl, rfl⟩) fun _ => rfl

theorem move_context (ctx : Context) : Move s (s.modProc p fun x => { x with context := ctx }) :=
  Move.free p (fun _ => ⟨rfl, rfl⟩) (fun _ => ⟨rfl, rfl⟩) fun _ => rfl

theorem moves_exit (hp : (s.proc p).state = .running) (hs : exit c p s = some t) :
    Moves s t := by
  unfold exit at hs
  split_ifs at hs
  cases hs
  -- the exiting process runs throughout
  obtain ⟨hmoves, hrun⟩ := reparent_induction p
    (P := fun u => Moves s u ∧ (u.proc p).state = .running)
    (s := wakeup1 ((s.proc p).parent.map .proc) s)
    ⟨moves_wakeup1 _, by rw [wakeup1_state, hp]; simp⟩
    (by
      rintro u r ⟨hu, hup⟩ -
      exact ⟨hu.tail (move_parent _), (modProc_field u r p (·.state)).trans hup⟩)
    (by
      rintro u ⟨hu, hup⟩
      exact ⟨hu.trans (moves_wakeup1 _), by rw [wakeup1_state, hup]; simp⟩)
  generalize slots.foldl (reparentOne p) _ = u at hmoves hrun
  refine (hmoves.tail (Move.off p (f := fun x => { x with state := .zombie }) ?_ (by simp) id
    (fun _ => ⟨rfl, rfl⟩) fun _ => rfl)).tail (move_sched c)
  rw [hrun]
  simp

/-- **The kinds of sections**: the scheduler, the timer tick, `aging`, and the others, which are
made of moves.  At the end of the quantum a tick queues the process again with a new count. -/
inductive Kind (s : PTable) : Label → PTable → Prop
  | plain {a : Label} {t : PTable} (hm : Moves s t) : Kind s a t
  | dispatch {c : ℕ} {t : PTable} (ht : scheduler c s = some t) : Kind s (.dispatch c) t
  | tick {c : ℕ} {p : Slot} (hc : s.cpu c = some p)
      (hlt : ((ticked s p).proc p).ticksCount < QUANTUM) : Kind s (.tick c) (ticked s p)
  | expire {c : ℕ} {p : Slot} {t : PTable} (hc : s.cpu c = some p)
      (hle : QUANTUM ≤ ((ticked s p).proc p).ticksCount) (hnone : t.cpu c = none)
      (hm : Moves ((ticked s p).modProc p fun x => { x with ticksCount := 0 }) t) :
      Kind s (.tick c) t
  | aging {t : PTable} (ht : aging s = some t) : Kind s .aging t

theorem moves_expire (hp : (s.proc p).state = .running) :
    Moves ((ticked s p).modProc p fun x => { x with ticksCount := 0 })
      (yield c p (ticked s p)) := by
  have hst : ((ticked s p).proc p).state = .running := (modProc_field s p p (·.state)).trans hp
  have hne : (((ticked s p).modProc p fun x => { x with ticksCount := 0 }).proc p).state ≠
      .runnable := by
    rw [modProc_field _ p p (·.state), hst]
    simp
  refine ((moves_decreasepriority hne).tail (Move.enqueue p ?_)).tail (move_sched c)
  rwa [modNice_field (·.state) (fun _ _ => rfl) (decreasepriority_eq p _)]

/-- **Every section is of one of the kinds.** -/
theorem step_kind (hi : Inv s) {a : Label} (hs : step s a = some (t, e)) : Kind s a t := by
  have hne : ∀ {q st}, (s.proc q).state = st → st ≠ .runnable → (s.proc q).state ≠ .runnable := by
    rintro q st rfl hst
    exact hst
  cases hi.section_of_step hs with
  | userinit _ hnp =>
    refine .plain (((moves_claim hnp).tail (Move.rest (t := { s.claim _ with initproc := some _ })
      rfl rfl fun _ => Or.inl rfl)).tail (Move.enqueue _ ?_))
    simp [PTable.claim]
  | dispatch _ ht => exact .dispatch ht
  | tick hc _ hlt => exact .tick hc hlt
  | expire hc hp hle =>
    refine .expire hc hle ?_ (moves_expire hp)
    rw [(yield_rest _ _ _).1]
    exact if_pos rfl
  | sleep _ hp => exact .plain (moves_sleep hp _ _)
  | wakeup chan => exact .plain (moves_wakeup1 _)
  | kill pid => exact .plain (moves_kill pid)
  | nice _ hp inc => exact .plain (moves_nice hp inc)
  | aging ht => exact .aging ht
  | forkNone => exact .plain Moves.refl
  | forkAlloc _ _ _ hnp => exact .plain ((moves_claim hnp).tail (move_context _))
  | forkFail _ _ _ hnp =>
    exact .plain
      ((Move.off _ (f := fun x => { x with state := .unused }) (hne hnp (by simp)) (by simp)
      id (fun _ => ⟨rfl, rfl⟩) fun _ => rfl).moves.tail (move_context _))
  | forkParent => exact .plain ((move_parent _).moves.tail (move_context _))
  | forkEnqueue _ _ _ hnp =>
    exact .plain ((Move.enqueue _ (hne hnp (by simp))).moves.tail (move_context _))
  | exit _ hp _ ht => exact .plain (moves_exit hp ht)
  | reap _ _ _ _ hz =>
    exact .plain ((Move.off _ (f := fun x =>
      { x with pid := 0, parent := none, killed := false, state := .unused }) (hne hz (by simp))
      (by simp) id (fun _ => ⟨rfl, rfl⟩) fun _ => rfl).moves.tail (move_context _))
  | waitFail => exact .plain (move_context _).moves
  | waitSleep _ hp => exact .plain (moves_sleep hp _ _)

end Xv6.Process
