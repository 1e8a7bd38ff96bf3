import Xv6.Process.Tree

/-!
# What a critical section does to the other processes

Code that runs between the sections of `proc.c` (a system call that holds another lock, or has let
it go) relies on its process being left alone.  `Frame s t x` says what is left alone from `s` to
`t`, for every process but `x`: nobody is put to sleep, a sleeper keeps its channel, and program
points stay, except that a process resumed inside `sleep` leaves it.  `frame_step` shows it for
every section, with the process that runs the section as `x`.

`live_step` and its companions say which processes come and go.
-/

namespace Xv6.Process

open PTable Lib

instance (st : ProcState) : Decidable st.Live := inferInstanceAs (Decidable (_ ∨ _))

/-- Processes other than `x` are left alone. -/
structure Frame (s t : PTable) (x : Option Slot) : Prop where
  sleeping : ∀ r, some r ≠ x → (t.proc r).state = .sleeping →
    (s.proc r).state = .sleeping ∧ (t.proc r).chan = (s.proc r).chan
  context : ∀ r, some r ≠ x → (t.proc r).context = (s.proc r).context ∨
    (s.proc r).context = .asleep ∧ (t.proc r).context = .user

variable {s t u : PTable} {p np : Slot} {x : Option Slot} {c : ℕ} {e : Event}
  {f : Proc → Proc} {a : Label}

theorem Frame.refl (s : PTable) : Frame s s x := ⟨fun _ _ h => ⟨h, rfl⟩, fun _ _ => Or.inl rfl⟩

theorem Frame.trans (h : Frame s t x) (h' : Frame t u x) : Frame s u x where
  sleeping r hr hs := by
    obtain ⟨h1, h2⟩ := h'.sleeping r hr hs
    obtain ⟨h3, h4⟩ := h.sleeping r hr h1
    exact ⟨h3, h2.trans h4⟩
  context r hr := by
    rcases h'.context r hr with h1 | ⟨h1, h2⟩
    · rw [h1]
      exact h.context r hr
    · rcases h.context r hr with h3 | ⟨-, h3⟩
      · exact Or.inr ⟨h3.symm.trans h1, h2⟩
      · rw [h3] at h1
        cases h1

theorem frame_of_core (h : ∀ r, some r ≠ x → (t.proc r).core = (s.proc r).core) : Frame s t x := by
  have hf : ∀ {β : Type} (g : Proc → β), (∀ y : Proc, g y.core = g y) → ∀ r, some r ≠ x →
      g (t.proc r) = g (s.proc r) := by
    intro β g hg r hr
    rw [← hg, h r hr, hg]
  refine ⟨fun r hr hs => ⟨?_, ?_⟩, fun r hr => Or.inl ?_⟩
  · exact (hf (·.state) (fun _ => rfl) r hr).symm.trans hs
  · exact hf (·.chan) (fun _ => rfl) r hr
  · exact hf (·.context) (fun _ => rfl) r hr

/-- A process other than `x` changes, but does not go to sleep. -/
theorem frame_modProc (hst : (f (s.proc p)).state ≠ .sleeping)
    (hctx : (f (s.proc p)).context = (s.proc p).context ∨
      (s.proc p).context = .asleep ∧ (f (s.proc p)).context = .user) :
    Frame s (s.modProc p f) x where
  sleeping r _ hs := by
    rw [modProc_proc] at hs ⊢
    split_ifs at hs ⊢ with hr
    · exact absurd hs hst
    · exact ⟨hs, rfl⟩
  context r _ := by
    rw [modProc_proc]
    split_ifs with hr
    · rw [hr]
      exact hctx
    · exact Or.inl rfl

theorem frame_modProc_self : Frame s (s.modProc p f) (some p) := by
  refine frame_of_core fun r hr => ?_
  rw [modProc_proc, if_neg fun hh => hr (congrArg some hh)]

theorem frame_enqueue : Frame s (enqueue p s) x := by
  refine Frame.trans (t := s.modProc p fun y => { y with state := .runnable }) ?_ ?_
  · exact frame_modProc (by simp) (Or.inl rfl)
  · refine frame_of_core fun r _ => ?_
    rw [enqueue_eq, relink_proc]
    rfl

theorem SameCore.frame (h : SameCore s t) : Frame s t x := frame_of_core fun r _ => h.proc r

theorem Wakes.frame (h : Wakes s t) : Frame s t x :=
  ⟨fun r _ hs => ⟨h.sleeping hs, h.chan r⟩, fun r _ => Or.inl (h.context r)⟩

/-- The process that runs the section, if the section belongs to one. -/
def actor (s : PTable) : Label → Option Slot
  | .sleep c _ => s.cpu c
  | .nice c _ => s.cpu c
  | .forkAlloc c => s.cpu c
  | .forkFail c => s.cpu c
  | .forkParent c => s.cpu c
  | .forkEnqueue c => s.cpu c
  | .exit c => s.cpu c
  | .wait c => s.cpu c
  | _ => none

theorem frame_claim (np : Slot) : Frame s (s.claim np) x := by
  refine Frame.trans (t := s.modProc np fun y =>
    { y with state := .embryo, pid := s.nextpid, nice := DEFAULTPLEVEL }) ?_ ?_
  · exact frame_modProc (by simp) (Or.inl rfl)
  · exact frame_of_core fun _ _ => rfl

theorem frame_ticked (hp : (s.proc p).state = .running) : Frame s (ticked s p) x :=
  frame_modProc (by rw [hp]; simp) (Or.inl rfl)

theorem frame_yield : Frame s (yield c p s) x := by
  refine ⟨fun r _ hr => ?_, fun r _ => Or.inl ?_⟩
  · rw [yield_state] at hr
    split_ifs at hr
    exact ⟨hr, yield_field (·.chan) (fun _ _ _ _ _ _ => rfl) c p s r⟩
  · exact yield_field (·.context) (fun _ _ _ _ _ _ => rfl) c p s r

theorem frame_scheduler (hi : Inv s) (hs : scheduler c s = some t) : Frame s t x := by
  obtain ⟨p, l, q, -, -, -, -, -, rfl⟩ := scheduler_eq_some hi hs
  refine (SameCore.frame (sameCore_removefromlevel (p := p) l)).trans
    (Frame.trans (t := (removefromlevel p l s).setCpu c (some p)) ?_ ?_)
  · exact frame_of_core fun _ _ => rfl
  · refine frame_modProc (by simp [Proc.resume]) ?_
    simp only [Proc.resume]
    split_ifs with hctx
    · exact Or.inr ⟨hctx, rfl⟩
    · exact Or.inl rfl

theorem frame_kill (pid : ℤ) : Frame s (kill pid s).1 x := by
  unfold kill
  split
  · exact Frame.refl s
  · rename_i p _
    have hcore : Frame s (s.modProc p fun y => { y with killed := true }) x := by
      refine ⟨fun r _ hr => ?_, fun r _ => Or.inl (modProc_field s p r (·.context))⟩
      exact ⟨(modProc_field s p r (·.state)).symm.trans hr, modProc_field s p r (·.chan)⟩
    dsimp only
    split_ifs
    · exact hcore.trans frame_enqueue
    · exact hcore

theorem frame_exit (hs : exit c p s = some t) : Frame s t (some p) := by
  obtain ⟨-, -, -, hproc, -, hst, -⟩ := exit_spec hs
  refine ⟨fun r hr hsleep => ⟨?_, (hproc r).2.1⟩, fun r _ => Or.inl (hproc r).2.2.1⟩
  rcases hst r (fun hh => hr (congrArg some hh)) with h1 | ⟨-, h1⟩
  · exact h1.symm.trans hsleep
  · rw [hsleep] at h1
    cases h1

theorem frame_sleep {chan : Chan} {ctx : Context} : Frame s (sleep c p chan ctx s) (some p) := by
  refine frame_of_core fun r hr => ?_
  rw [sleep, sched, setCpu_proc, modProc_proc, if_neg fun hh => hr (congrArg some hh)]

/-- **A critical section leaves the processes alone that do not run it.** -/
theorem frame_step (hi : Inv s) (hs : step s a = some (t, e)) : Frame s t (actor s a) := by
  cases hi.section_of_step hs with
  | userinit =>
    refine Frame.trans ?_ frame_enqueue
    exact (frame_claim _).trans (frame_of_core fun _ _ => rfl)
  | dispatch _ ht => exact frame_scheduler hi ht
  | tick _ hp => exact frame_ticked hp
  | expire _ hp => exact (frame_ticked hp).trans frame_yield
  | wakeup chan => exact (wakes_wakeup1 _).frame
  | kill pid => exact frame_kill pid
  | nice _ _ inc => exact (sameCore_nice inc).frame
  | aging ht => exact (hi.aging ht).2.frame
  | forkNone => exact Frame.refl s
  | sleep hc =>
    rw [actor, hc]
    exact frame_sleep
  | forkAlloc hc =>
    rw [actor, hc]
    exact (frame_claim _).trans frame_modProc_self
  | forkFail hc =>
    rw [actor, hc]
    exact Frame.trans (frame_modProc (by simp) (Or.inl rfl)) frame_modProc_self
  | forkParent hc _ _ hnp =>
    rw [actor, hc]
    exact Frame.trans (frame_modProc (by rw [hnp]; simp) (Or.inl rfl)) frame_modProc_self
  | forkEnqueue hc =>
    rw [actor, hc]
    exact frame_enqueue.trans frame_modProc_self
  | exit hc _ _ ht =>
    rw [actor, hc]
    exact frame_exit ht
  | reap hc =>
    rw [actor, hc]
    exact Frame.trans (frame_modProc (by simp) (Or.inl rfl)) frame_modProc_self
  | waitFail hc =>
    rw [actor, hc]
    exact frame_modProc_self
  | waitSleep hc =>
    rw [actor, hc]
    exact frame_sleep

/-! ## Which processes come and go -/

/-- The sections after which another set of processes can act. -/
def Label.changesLife : Label → Bool
  | .userinit => true
  | .forkEnqueue _ => true
  | .exit _ => true
  | _ => false

/-- A slot that holds no process that can act changes, and still holds none. -/
theorem live_modProc (hp : ¬ (s.proc p).state.Live) (hp' : ¬ (f (s.proc p)).state.Live) (r : Slot) :
    ((s.modProc p f).proc r).state.Live ↔ (s.proc r).state.Live := by
  rw [modProc_proc]
  split_ifs with hr
  · rw [hr]
    exact ⟨fun h => absurd h hp', fun h => absurd h hp⟩
  · exact Iff.rfl

theorem live_claim (hnp : (s.proc np).state = .unused) (r : Slot) :
    ((s.claim np).proc r).state.Live ↔ (s.proc r).state.Live :=
  live_modProc (f := fun x => { x with state := .embryo, pid := s.nextpid, nice := DEFAULTPLEVEL })
    (fun h => h.ne.1 hnp) (fun h => h.ne.2.1 rfl) r

/-- **Only `userinit`, the end of `fork` and `exit` change who can act.** -/
theorem live_step (hi : Inv s) (hs : step s a = some (t, e)) (ha : a.changesLife = false)
    (r : Slot) :
    (t.proc r).state.Live ↔ (s.proc r).state.Live := by
  cases hi.section_of_step hs with
  | userinit => cases ha
  | dispatch _ ht => exact (liveStep_scheduler hi ht).live_iff r
  | tick => exact liveStep_ticked.live_iff r
  | expire _ hp =>
    exact (liveStep_ticked.trans
      (liveStep_yield ((modProc_field s _ _ (·.state)).trans hp))).live_iff r
  | sleep _ hp => exact (liveStep_sleep hp (by simp) (by simp)).live_iff r
  | wakeup chan => exact (liveStep_wakeup1 _).live_iff r
  | kill pid => exact (liveStep_kill pid).live_iff r
  | nice _ _ inc => exact (sameCore_nice inc).liveStep.live_iff r
  | aging ht => exact (hi.aging ht).2.liveStep.live_iff r
  | forkNone => exact Iff.rfl
  | forkAlloc _ _ _ hnp =>
    rw [modProc_field _ _ r (·.state)]
    exact live_claim hnp r
  | forkFail _ _ _ hnp =>
    rw [modProc_field _ _ r (·.state)]
    exact live_modProc (fun h => h.ne.2.1 hnp) (fun h => h.ne.1 rfl) r
  | forkParent => rw [modProc_field _ _ r (·.state), modProc_field s _ r (·.state)]
  | forkEnqueue => cases ha
  | exit => cases ha
  | reap _ _ _ _ hz =>
    rw [modProc_field _ _ r (·.state)]
    exact live_modProc (fun h => h.ne.2.2 hz) (fun h => h.ne.1 rfl) r
  | waitFail => rw [modProc_field s _ r (·.state)]
  | waitSleep _ hp _ hz => exact (liveStep_sleep hp (by simp) fun _ => ⟨rfl, hz⟩).live_iff r

theorem live_exit (hs : exit c p s = some t) (r : Slot) :
    (t.proc r).state.Live ↔ (s.proc r).state.Live ∧ r ≠ p := by
  obtain ⟨-, -, -, -, hp, hst, -⟩ := exit_spec hs
  by_cases hr : r = p
  · rw [hr, hp]
    simp [ProcState.Live]
  · rcases hst r hr with h1 | ⟨h1, h2⟩
    · rw [h1]
      simp [hr]
    · rw [h1, h2]
      simp [ProcState.Live, hr]

theorem live_enqueue (r : Slot) :
    ((enqueue p s).proc r).state.Live ↔ (s.proc r).state.Live ∨ r = p := by
  rw [enqueue_state]
  split_ifs with hr
  · simp [ProcState.Live, hr]
  · simp [hr]

theorem userinit_spec (hs : userinit s = some (t, e)) :
    ∃ p, t.initproc = some p ∧ (s.proc p).state = .unused ∧
      ∀ r, (t.proc r).state.Live ↔ (s.proc r).state.Live ∨ r = p := by
  unfold userinit at hs
  split_ifs at hs
  split at hs
  · cases hs
  · rename_i p s' ha
    cases hs
    obtain ⟨-, hp, rfl⟩ := allocproc_eq_some ha
    refine ⟨p, enqueue_initproc _ _, hp, fun r => ?_⟩
    rw [live_enqueue]
    exact or_congr_left (live_claim hp r)

/-- The end of `fork` makes the child a process that can act. -/
theorem live_forkEnqueue (hf : forkedOn s c = some (p, np))
    (hs : forkEnqueue c s = some (t, e)) (r : Slot) :
    (t.proc r).state.Live ↔ (s.proc r).state.Live ∨ r = np := by
  simp only [forkEnqueue, hf] at hs
  cases hs
  rw [modProc_field _ p r (·.state)]
  exact live_enqueue r

theorem exit_eq_some (hs : step s (.exit c) = some (t, e)) :
    ∃ p, s.cpu c = some p ∧ (s.proc p).context = .user ∧ exit c p s = some t := by
  simp only [step] at hs
  split at hs
  · cases hs
  · rename_i p hp
    obtain ⟨u, hu, heq⟩ := Option.map_eq_some_iff.mp hs
    cases heq
    obtain ⟨hc, hctx⟩ := runningAt_eq_some hp
    exact ⟨p, hc, hctx, hu⟩

/-- **Nobody but the process itself ends its life.** -/
theorem live_of_ne_actor (hi : Inv s) (hs : step s a = some (t, e))
    {r : Slot} (hr : some r ≠ actor s a) (hl : (s.proc r).state.Live) : (t.proc r).state.Live := by
  by_cases ha : a.changesLife = false
  · exact (live_step hi hs ha r).mpr hl
  · cases hi.section_of_step hs with
    | userinit _ hnp => exact (live_enqueue r).mpr (Or.inl ((live_claim hnp r).mpr hl))
    | forkEnqueue =>
      rw [modProc_field _ _ r (·.state)]
      exact (live_enqueue r).mpr (Or.inl hl)
    | exit hc _ _ ht =>
      refine (live_exit ht r).mpr ⟨hl, ?_⟩
      rintro rfl
      exact hr hc.symm
    | _ => exact absurd rfl ha

end Xv6.Process
