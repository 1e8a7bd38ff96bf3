import Xv6.Process.Frame

/-!
# What a critical section does to one slot

`Turn` lists the ways in which a section of `proc.c` can change the state, the channel and the
program point of the process in a slot.  `step_turn` shows that these are all; what holds of every
slot on its own then follows by cases.

`Tidy` is the first such fact: `chan` is set only from `sleep` to the point where the process runs
again, so a slot without a process has none.
-/

namespace Xv6.Process

open PTable Lib

/-- The ways in which the process of slot `r` can change, where `x` is the process that exits. -/
inductive Turn (s : PTable) (x : Option Slot) (r : Slot) (y : Proc) : Prop
  | keep (hst : y.state = (s.proc r).state) (hchan : y.chan = (s.proc r).chan)
      (hctx : y.context = (s.proc r).context)
  | queue (hst : y.state = .runnable) (hne : (s.proc r).state ≠ .unused)
      (hchan : y.chan = (s.proc r).chan) (hctx : y.context = (s.proc r).context)
  | resume (hst : y.state = .running) (hchan : y.chan = (s.proc r).resume.chan)
      (hctx : y.context = (s.proc r).resume.context)
  | sleep (hst : y.state = .sleeping) (hctx : y.context = .asleep ∨ y.context = .waiting)
  | move (hrun : (s.proc r).state = .running) (hst : y.state = .running)
      (hchan : y.chan = (s.proc r).chan)
      (hctx : ∀ n, y.context = .forking n → (s.proc n).state = .unused)
  | claim (hold : (s.proc r).state = .unused) (hst : y.state = .embryo ∨ y.state = .runnable)
      (hchan : y.chan = (s.proc r).chan) (hctx : y.context = (s.proc r).context)
  | drop (p : Slot) (hp : (s.proc p).context = .forking r) (hold : (s.proc r).state = .embryo)
      (hst : y.state = .unused) (hchan : y.chan = (s.proc r).chan)
      (hctx : y.context = (s.proc r).context)
  | exit (hx : x = some r) (hrun : (s.proc r).state = .running) (hst : y.state = .zombie)
      (hchan : y.chan = (s.proc r).chan) (hctx : y.context = (s.proc r).context)
  | reap (hold : (s.proc r).state = .zombie) (hst : y.state = .unused)
      (hchan : y.chan = (s.proc r).chan) (hctx : y.context = (s.proc r).context)

/-- The process that exits in a section. -/
def exiting (s : PTable) : Label → Option Slot
  | .exit c => s.cpu c
  | _ => none

variable {s t : PTable} {p r : Slot} {x : Option Slot} {c : ℕ} {e : Event}

theorem turn_refl : Turn s x r (s.proc r) := .keep rfl rfl rfl

theorem turn_modProc {f : Proc → Proc} (h : Turn s x p (f (s.proc p))) (r : Slot) :
    Turn s x r ((s.modProc p f).proc r) := by
  rw [modProc_proc]
  split_ifs with hr
  · rw [hr]
    exact h
  · exact turn_refl

theorem turn_sameCore (h : SameCore s t) (r : Slot) : Turn s x r (t.proc r) :=
  .keep (h.field (·.state) (fun _ => rfl) r) (h.field (·.chan) (fun _ => rfl) r)
    (h.field (·.context) (fun _ => rfl) r)

theorem turn_wakes (h : Wakes s t) (r : Slot) : Turn s x r (t.proc r) := by
  rcases h.state r with hst | ⟨hst, hst'⟩
  · exact .keep hst (h.chan r) (h.context r)
  · exact .queue hst' (by rw [hst]; nofun) (h.chan r) (h.context r)

/-- A process is queued, from a table `u` in which it may have another state. -/
theorem turn_enqueue {u : PTable} (hchan : ∀ r, (u.proc r).chan = (s.proc r).chan)
    (hctx : ∀ r, (u.proc r).context = (s.proc r).context)
    (hst : ∀ r, r ≠ p → (u.proc r).state = (s.proc r).state)
    (h : ∀ y : Proc, y.state = .runnable → y.chan = (s.proc p).chan →
      y.context = (s.proc p).context → Turn s x p y) (r : Slot) :
    Turn s x r ((enqueue p u).proc r) := by
  have hchan' := (enqueue_field (·.chan) (fun _ _ _ _ => rfl) p u r).trans (hchan r)
  have hctx' := (enqueue_field (·.context) (fun _ _ _ _ => rfl) p u r).trans (hctx r)
  have hst' := enqueue_state p u r
  split_ifs at hst' with hr
  · subst hr
    exact h _ hst' hchan' hctx'
  · exact .keep (hst'.trans (hst r hr)) hchan' hctx'

theorem turn_sleep {chan : Chan} {ctx : Context} (hctx : ctx = .asleep ∨ ctx = .waiting)
    (r : Slot) : Turn s x r ((sleep c p chan ctx s).proc r) := by
  rw [sleep, sched, setCpu_proc]
  exact turn_modProc (.sleep rfl hctx) r

theorem turn_yield (hp : (s.proc p).state = .running) (r : Slot) :
    Turn s x r ((yield c p (ticked s p)).proc r) := by
  have hchan := (yield_field (·.chan) (fun _ _ _ _ _ _ => rfl) c p (ticked s p) r).trans
    (modProc_field s p r (·.chan))
  have hctx := (yield_field (·.context) (fun _ _ _ _ _ _ => rfl) c p (ticked s p) r).trans
    (modProc_field s p r (·.context))
  have hst := yield_state c p (ticked s p) r
  rw [ticked, modProc_field s p r (·.state)] at hst
  split_ifs at hst with hr
  · exact .queue hst (by rw [hr, hp]; nofun) hchan hctx
  · exact .keep hst hchan hctx

theorem turn_scheduler (hi : Inv s) (hs : scheduler c s = some t) (r : Slot) :
    Turn s x r (t.proc r) := by
  obtain ⟨p, l, q, -, -, -, -, -, rfl⟩ := scheduler_eq_some hi hs
  have hchan := (sameCore_removefromlevel (s := s) (p := p) l).field (·.resume.chan)
    (fun _ => rfl) r
  have hctx := (sameCore_removefromlevel (s := s) (p := p) l).field (·.resume.context)
    (fun _ => rfl) r
  rw [modProc_proc, setCpu_proc]
  split_ifs with hr
  · subst hr
    exact .resume rfl hchan hctx
  · exact turn_sameCore (sameCore_removefromlevel l) r

theorem turn_kill (pid : ℤ) (r : Slot) : Turn s x r ((kill pid s).1.proc r) := by
  unfold kill
  split
  · exact turn_refl
  · rename_i p _
    dsimp only
    split_ifs with hst
    · have hsleep : (s.proc p).state = .sleeping := (modProc_field s p p (·.state)).symm.trans hst
      refine turn_enqueue (fun r => modProc_field s p r (·.chan))
        (fun r => modProc_field s p r (·.context)) (fun r _ => modProc_field s p r (·.state))
        (fun y hst hchan hctx => .queue hst ?_ hchan hctx) r
      rw [hsleep]
      nofun
    · exact turn_modProc (.keep rfl rfl rfl) r

theorem turn_modProc2 {q : Slot} {f g : Proc → Proc} (hpq : q ≠ p)
    (hp : Turn s x p (f (s.proc p))) (hq : Turn s x q (g (s.proc q))) (r : Slot) :
    Turn s x r (((s.modProc p f).modProc q g).proc r) := by
  rw [modProc_proc]
  split_ifs with hr
  · rw [hr, modProc_proc, if_neg hpq]
    exact hq
  · exact turn_modProc hp r

theorem turn_forkEnqueue {np : Slot} (hp : (s.proc p).state = .running)
    (hnp : (s.proc np).state = .embryo) (hne : p ≠ np) (r : Slot) :
    Turn s x r (((enqueue np s).modProc p fun y => { y with context := .user }).proc r) := by
  rw [modProc_proc]
  split_ifs with hr
  · subst hr
    have hst := enqueue_state np s r
    rw [if_neg hne] at hst
    exact .move hp (hst.trans hp)
      (enqueue_field (·.chan) (fun _ _ _ _ => rfl) np s r) fun n hn => by cases hn
  · refine turn_enqueue (fun _ => rfl) (fun _ => rfl) (fun _ _ => rfl)
      (fun y hst hchan hctx => .queue hst ?_ hchan hctx) r
    rw [hnp]
    nofun

theorem turn_exit (hrun : (s.proc p).state = .running) (hs : exit c p s = some t) (r : Slot) :
    Turn s (some p) r (t.proc r) := by
  obtain ⟨-, -, -, hproc, hp, hst, -⟩ := exit_spec hs
  by_cases hr : r = p
  · subst hr
    exact .exit rfl hrun hp (hproc r).2.1 (hproc r).2.2.1
  · rcases hst r hr with h' | ⟨h', h''⟩
    · exact .keep h' (hproc r).2.1 (hproc r).2.2.1
    · exact .queue h'' (by rw [h']; nofun) (hproc r).2.1 (hproc r).2.2.1

/-- **What a critical section does to a slot.** -/
theorem step_turn (hi : Inv s) {a : Label} (hs : step s a = some (t, e)) (r : Slot) :
    Turn s (exiting s a) r (t.proc r) := by
  cases hi.section_of_step hs with
  | userinit _ hnp =>
    refine turn_enqueue (fun r => ?_) (fun r => ?_) (fun r hr => ?_)
      (fun y hst hchan hctx => .claim hnp (Or.inr hst) hchan hctx) r
    · exact claim_field (·.chan) (fun _ _ _ _ => rfl) _ r
    · exact claim_field (·.context) (fun _ _ _ _ => rfl) _ r
    · exact (states_claim _ r).trans (if_neg hr)
  | dispatch _ ht => exact turn_scheduler hi ht r
  | tick => exact turn_modProc (.keep rfl rfl rfl) r
  | expire _ hp => exact turn_yield hp r
  | sleep => exact turn_sleep (Or.inl rfl) r
  | wakeup chan => exact turn_wakes (wakes_wakeup1 _) r
  | kill pid => exact turn_kill pid r
  | nice _ _ inc => exact turn_sameCore (sameCore_nice inc) r
  | aging ht => exact turn_sameCore (hi.aging ht).2 r
  | forkNone => exact turn_refl
  | @forkAlloc _ _ np _ hp _ hnp hne =>
    refine turn_modProc2 (f := fun y =>
      { y with state := .embryo, pid := s.nextpid, nice := DEFAULTPLEVEL })
      (g := fun y => { y with context := .forking np }) hne
      (.claim hnp (Or.inl rfl) rfl rfl) ?_ r
    refine .move hp hp rfl fun n hn => ?_
    cases hn
    exact hnp
  | forkFail _ hp hctx hnp hne =>
    exact turn_modProc2 hne (.drop _ hctx hnp rfl rfl rfl)
      (.move hp hp rfl fun n hn => by cases hn) r
  | forkParent _ hp _ _ hne =>
    exact turn_modProc2 hne (.keep rfl rfl rfl) (.move hp hp rfl fun n hn => by cases hn) r
  | forkEnqueue _ hp _ hnp hne => exact turn_forkEnqueue hp hnp hne r
  | exit hc hp _ ht =>
    rw [exiting, hc]
    exact turn_exit hp ht r
  | reap _ hp _ _ hz =>
    refine turn_modProc2 ?_ (.reap hz rfl rfl rfl) (.move hp hp rfl fun n hn => by cases hn) r
    rintro rfl
    rw [hz] at hp
    cases hp
  | waitFail _ hp => exact turn_modProc (.move hp hp rfl fun n hn => by cases hn) r
  | waitSleep => exact turn_sleep (Or.inr rfl) r

/-! ## Channels -/

/-- A process has a channel only while it is in `sleep`. -/
def Tidy (y : Proc) : Prop :=
  y.chan = none ∨ (y.context = .asleep ∨ y.context = .waiting) ∧
    (y.state = .sleeping ∨ y.state = .runnable)

theorem Tidy.chan_eq_none {y : Proc} (h : Tidy y) (h1 : y.state ≠ .sleeping)
    (h2 : y.state ≠ .runnable) : y.chan = none :=
  h.resolve_right fun hh => hh.2.elim h1 h2

theorem Turn.tidy {y : Proc} (h : Turn s x r y) (ht : Tidy (s.proc r)) : Tidy y := by
  have hnone : ∀ st : ProcState, st ≠ .sleeping → st ≠ .runnable → (s.proc r).state = st →
      y.chan = (s.proc r).chan → Tidy y := by
    intro st h1 h2 hst hchan
    refine Or.inl (hchan.trans (ht.chan_eq_none ?_ ?_))
    · rw [hst]
      exact h1
    · rw [hst]
      exact h2
  cases h with
  | keep hst hchan hctx =>
    unfold Tidy
    rw [hst, hchan, hctx]
    exact ht
  | queue hst hne hchan hctx =>
    unfold Tidy
    rw [hchan, hctx]
    exact ht.imp_right fun hh => ⟨hh.1, Or.inr hst⟩
  | resume hst hchan hctx =>
    refine Or.inl (hchan.trans ?_)
    unfold Proc.resume
    dsimp only
    split_ifs with hh
    · rfl
    · exact ht.resolve_right fun h' => hh h'.1
  | sleep hst hctx => exact Or.inr ⟨hctx, Or.inl hst⟩
  | move hrun hst hchan hctx => exact hnone .running nofun nofun hrun hchan
  | claim hold hst hchan hctx => exact hnone .unused nofun nofun hold hchan
  | drop p hp hold hst hchan hctx => exact hnone .embryo nofun nofun hold hchan
  | exit hx hrun hst hchan hctx => exact hnone .running nofun nofun hrun hchan
  | reap hold hst hchan hctx => exact hnone .zombie nofun nofun hold hchan

end Xv6.Process
