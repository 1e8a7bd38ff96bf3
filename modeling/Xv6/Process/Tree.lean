import Xv6.Process.RunQueue

/-!
# The process tree and reaping

Every process other than init has a living parent, a parent that sleeps in `wait` has no zombie
child, and no pid is given out or collected twice.  The invariant is `TreeInv s gone`, where
`gone` lists the pids that `wait` has returned so far.

Most critical sections only move processes between the states `SLEEPING`, `RUNNABLE` and
`RUNNING`; they are instances of `LiveStep`, and `TreeInv.liveStep` covers them at once.  What is
left are the three sections that change the tree: the end of `fork`, `exit`, and `wait` when it
finds a zombie.

A slot that `fork` has claimed is an embryo until the last section of `fork`, and its `parent` is
written without the lock in between.  `TreeInv.forked` says that nobody has changed it since: the
only other writer of `parent` is `exit` of that same parent.
-/

namespace Xv6.Process

open PTable Lib

/-- The states of a process that can still act. -/
def ProcState.Live (st : ProcState) : Prop := st = .sleeping ∨ st = .runnable ∨ st = .running

theorem ProcState.Live.ne {st : ProcState} (h : st.Live) :
    st ≠ .unused ∧ st ≠ .embryo ∧ st ≠ .zombie := by
  rcases h with h | h | h <;> rw [h] <;> simp

/-- The invariant of the process tree; `gone` holds the pids that `wait` has returned. -/
structure TreeInv (s : PTable) (gone : List ℤ) : Prop where
  pid_lt : ∀ {p}, (s.proc p).state ≠ .unused → (s.proc p).pid < s.nextpid
  pid_inj : ∀ {p q}, (s.proc p).state ≠ .unused → (s.proc q).state ≠ .unused →
    (s.proc p).pid = (s.proc q).pid → p = q
  gone_lt : ∀ x ∈ gone, x < s.nextpid
  gone_ne : ∀ x ∈ gone, ∀ {p}, (s.proc p).state ≠ .unused → (s.proc p).pid ≠ x
  gone_nodup : gone.Nodup
  /-- Before `userinit` the table is empty. -/
  noInit : s.initproc = none → ∀ p, (s.proc p).state = .unused ∧ (s.proc p).parent = none
  init_live : ∀ {i}, s.initproc = some i →
    (s.proc i).state.Live ∧ (s.proc i).parent = none
  /-- Nobody is its own parent. -/
  parent_ne : ∀ p, (s.proc p).parent ≠ some p
  parent_live : ∀ {p}, (s.proc p).state.Live ∨ (s.proc p).state = .zombie →
    s.initproc ≠ some p → ∃ q, (s.proc p).parent = some q ∧ (s.proc q).state.Live
  /-- The child that a process in `fork` is about to queue is its child. -/
  forked : ∀ {p np}, (s.proc p).context = .forked np → (s.proc np).parent = some p
  /-- A process asleep in `wait` sleeps on itself and has no zombie child. -/
  waiting : ∀ {p}, (s.proc p).state = .sleeping → (s.proc p).context = .waiting →
    (s.proc p).chan = some (.proc p) ∧
      ∀ z, (s.proc z).parent = some p → (s.proc z).state ≠ .zombie

variable {s t u : PTable} {gone : List ℤ} {p np r : Slot} {c : ℕ} {ctx : Context}

theorem treeInv_boot : TreeInv PTable.boot [] where
  pid_lt h := absurd rfl h
  pid_inj h := absurd rfl h
  gone_lt x hx := by cases hx
  gone_ne x hx := by cases hx
  gone_nodup := List.nodup_nil
  noInit _ p := ⟨rfl, rfl⟩
  init_live h := by cases h
  parent_ne p h := by cases h
  parent_live h := by
    rcases h with (h | h | h) | h <;> cases h
  forked h := by cases h
  waiting h := by cases h

/-! ## Sections that leave the tree alone -/

/-- The tables have the same processes with the same pids and parents; only processes that can
act change their state, and those that are asleep in `wait` afterwards either were so before or
have just found no zombie child. -/
structure LiveStep (s t : PTable) : Prop where
  nextpid : t.nextpid = s.nextpid
  initproc : t.initproc = s.initproc
  pid : ∀ r, (t.proc r).pid = (s.proc r).pid
  parent : ∀ r, (t.proc r).parent = (s.proc r).parent
  state : ∀ r, (t.proc r).state = (s.proc r).state ∨
    (s.proc r).state.Live ∧ (t.proc r).state.Live
  forked : ∀ r np, (t.proc r).context = .forked np → (s.proc r).context = .forked np
  waiting : ∀ r, (t.proc r).state = .sleeping → (t.proc r).context = .waiting →
    (s.proc r).state = .sleeping ∧ (s.proc r).context = .waiting ∧
        (t.proc r).chan = (s.proc r).chan ∨
      (t.proc r).chan = some (.proc r) ∧
        ∀ z, (s.proc z).parent = some r → (s.proc z).state ≠ .zombie

theorem LiveStep.unused_iff (h : LiveStep s t) (r : Slot) :
    (t.proc r).state = .unused ↔ (s.proc r).state = .unused := by
  rcases h.state r with heq | ⟨h1, h2⟩
  · rw [heq]
  · exact ⟨fun hh => absurd hh h2.ne.1, fun hh => absurd hh h1.ne.1⟩

theorem LiveStep.zombie_iff (h : LiveStep s t) (r : Slot) :
    (t.proc r).state = .zombie ↔ (s.proc r).state = .zombie := by
  rcases h.state r with heq | ⟨h1, h2⟩
  · rw [heq]
  · exact ⟨fun hh => absurd hh h2.ne.2.2, fun hh => absurd hh h1.ne.2.2⟩

theorem LiveStep.live_iff (h : LiveStep s t) (r : Slot) :
    (t.proc r).state.Live ↔ (s.proc r).state.Live := by
  rcases h.state r with heq | ⟨h1, h2⟩
  · rw [heq]
  · exact ⟨fun _ => h1, fun _ => h2⟩

theorem LiveStep.refl (s : PTable) : LiveStep s s :=
  ⟨rfl, rfl, fun _ => rfl, fun _ => rfl, fun _ => Or.inl rfl, fun _ _ h => h,
    fun _ h1 h2 => Or.inl ⟨h1, h2, rfl⟩⟩

theorem TreeInv.liveStep (h : TreeInv s gone) (hst : LiveStep s t) : TreeInv t gone where
  pid_lt {p} hp := by
    rw [hst.pid, hst.nextpid]
    exact h.pid_lt fun hh => hp ((hst.unused_iff p).mpr hh)
  pid_inj {p q} hp hq hpq := by
    rw [hst.pid, hst.pid] at hpq
    exact h.pid_inj (fun hh => hp ((hst.unused_iff p).mpr hh))
      (fun hh => hq ((hst.unused_iff q).mpr hh)) hpq
  gone_lt x hx := by
    rw [hst.nextpid]
    exact h.gone_lt x hx
  gone_ne x hx {p} hp := by
    rw [hst.pid]
    exact h.gone_ne x hx fun hh => hp ((hst.unused_iff p).mpr hh)
  gone_nodup := h.gone_nodup
  noInit hi p := by
    rw [hst.initproc] at hi
    rw [hst.unused_iff, hst.parent]
    exact h.noInit hi p
  init_live {i} hi := by
    rw [hst.initproc] at hi
    rw [hst.live_iff, hst.parent]
    exact h.init_live hi
  parent_ne p := by
    rw [hst.parent]
    exact h.parent_ne p
  parent_live {p} hp hi := by
    rw [hst.live_iff, hst.zombie_iff] at hp
    rw [hst.initproc] at hi
    obtain ⟨q, hq, hlive⟩ := h.parent_live hp hi
    refine ⟨q, ?_, (hst.live_iff q).mpr hlive⟩
    rw [hst.parent]
    exact hq
  forked {p np} hp := by
    rw [hst.parent]
    exact h.forked (hst.forked p np hp)
  waiting {p} hp hctx := by
    rcases hst.waiting p hp hctx with ⟨h1, h2, h3⟩ | ⟨h1, h2⟩
    · obtain ⟨hchan, hz⟩ := h.waiting h1 h2
      refine ⟨h3.trans hchan, fun z hzp hzz => ?_⟩
      rw [hst.parent] at hzp
      exact hz z hzp ((hst.zombie_iff z).mp hzz)
    · refine ⟨h1, fun z hzp hzz => ?_⟩
      rw [hst.parent] at hzp
      exact h2 z hzp ((hst.zombie_iff z).mp hzz)

theorem SameCore.liveStep (h : SameCore s t) : LiveStep s t where
  nextpid := h.nextpid
  initproc := h.initproc
  pid := h.field (·.pid) fun _ => rfl
  parent := h.field (·.parent) fun _ => rfl
  state r := Or.inl (h.field (·.state) (fun _ => rfl) r)
  forked r np hr := by
    rw [← h.field (·.context) (fun _ => rfl) r]
    exact hr
  waiting r h1 h2 := by
    have hst := h.field (·.state) (fun _ => rfl) r
    have hctx := h.field (·.context) (fun _ => rfl) r
    exact Or.inl ⟨hst.symm.trans h1, hctx.symm.trans h2, h.field (·.chan) (fun _ => rfl) r⟩

theorem liveStep_wakeup1 (chan : Option Chan) : LiveStep s (wakeup1 chan s) where
  nextpid := (wakeup1_rest chan s).2.1
  initproc := (wakeup1_rest chan s).2.2
  pid := wakeup1_field (·.pid) (fun _ _ _ _ _ => rfl) chan s
  parent := wakeup1_field (·.parent) (fun _ _ _ _ _ => rfl) chan s
  state r := by
    rw [wakeup1_state]
    split_ifs with hr
    · exact Or.inr ⟨Or.inl hr.1, Or.inr (Or.inl rfl)⟩
    · exact Or.inl rfl
  forked r np hr := by
    rwa [wakeup1_field (·.context) fun _ _ _ _ _ => rfl] at hr
  waiting r h1 h2 := by
    rw [wakeup1_field (·.context) fun _ _ _ _ _ => rfl] at h2
    rw [wakeup1_field (·.chan) fun _ _ _ _ _ => rfl]
    rw [wakeup1_state] at h1
    split_ifs at h1
    exact Or.inl ⟨h1, h2, rfl⟩

theorem liveStep_modProc {f : Proc → Proc} (hpid : (f (s.proc p)).pid = (s.proc p).pid)
    (hpar : (f (s.proc p)).parent = (s.proc p).parent)
    (hst : (f (s.proc p)).state = (s.proc p).state ∨
      (s.proc p).state.Live ∧ (f (s.proc p)).state.Live)
    (hfork : ∀ np, (f (s.proc p)).context = .forked np → (s.proc p).context = .forked np)
    (hwait : (f (s.proc p)).state = .sleeping → (f (s.proc p)).context = .waiting →
      (s.proc p).state = .sleeping ∧ (s.proc p).context = .waiting ∧
          (f (s.proc p)).chan = (s.proc p).chan ∨
        (f (s.proc p)).chan = some (.proc p) ∧
          ∀ z, (s.proc z).parent = some p → (s.proc z).state ≠ .zombie) :
    LiveStep s (s.modProc p f) where
  nextpid := rfl
  initproc := rfl
  pid r := by
    rw [modProc_proc]
    split_ifs with hr
    · rw [hr, hpid]
    · rfl
  parent r := by
    rw [modProc_proc]
    split_ifs with hr
    · rw [hr, hpar]
    · rfl
  state r := by
    rw [modProc_proc]
    split_ifs with hr
    · rw [hr]
      exact hst
    · exact Or.inl rfl
  forked r np hr := by
    rw [modProc_proc] at hr
    split_ifs at hr with hrp
    · rw [hrp]
      exact hfork np hr
    · exact hr
  waiting r h1 h2 := by
    rw [modProc_proc] at h1 h2 ⊢
    split_ifs at h1 h2 ⊢ with hr
    · rw [hr] at *
      exact hwait h1 h2
    · exact Or.inl ⟨h1, h2, rfl⟩

theorem LiveStep.trans (h : LiveStep s t) (h' : LiveStep t u) : LiveStep s u where
  nextpid := h'.nextpid.trans h.nextpid
  initproc := h'.initproc.trans h.initproc
  pid r := (h'.pid r).trans (h.pid r)
  parent r := (h'.parent r).trans (h.parent r)
  state r := by
    rcases h'.state r with heq | ⟨h1, h2⟩
    · rw [heq]
      exact h.state r
    · exact Or.inr ⟨(h.live_iff r).mp h1, h2⟩
  forked r np hr := h.forked r np (h'.forked r np hr)
  waiting r h1 h2 := by
    rcases h'.waiting r h1 h2 with ⟨h3, h4, h5⟩ | ⟨h3, h4⟩
    · rw [h5]
      exact h.waiting r h3 h4
    · refine Or.inr ⟨h3, fun z hz hzz => h4 z ?_ ((h.zombie_iff z).mpr hzz)⟩
      rw [h.parent]
      exact hz

theorem liveStep_of_core (hproc : ∀ r, (t.proc r).core = (s.proc r).core)
    (hrest : t.nextpid = s.nextpid ∧ t.initproc = s.initproc) : LiveStep s t :=
  (SameCore.liveStep (s := s) (t := { t with cpu := s.cpu }) ⟨hproc, rfl, hrest.1, hrest.2⟩).trans
    ⟨rfl, rfl, fun _ => rfl, fun _ => rfl, fun _ => Or.inl rfl, fun _ _ h => h,
      fun _ h1 h2 => Or.inl ⟨h1, h2, rfl⟩⟩

theorem liveStep_enqueue (hp : (s.proc p).state.Live) : LiveStep s (enqueue p s) := by
  have h1 : LiveStep s (s.modProc p fun x => { x with state := .runnable }) :=
    liveStep_modProc rfl rfl (Or.inr ⟨hp, Or.inr (Or.inl rfl)⟩) (fun _ h => h)
      fun h => by cases h
  refine h1.trans (liveStep_of_core ?_ ?_)
  · intro r
    rw [enqueue_eq, relink_proc]
    rfl
  · rw [enqueue_nextpid, enqueue_initproc]
    exact ⟨rfl, rfl⟩

theorem liveStep_kill (pid : ℤ) : LiveStep s (kill pid s).1 := by
  unfold kill
  split
  · exact LiveStep.refl s
  · rename_i p _
    have h1 : LiveStep s (s.modProc p fun x => { x with killed := true }) :=
      liveStep_modProc rfl rfl (Or.inl rfl) (fun _ h => h) fun h1 h2 => Or.inl ⟨h1, h2, rfl⟩
    dsimp only
    split_ifs with hp
    · exact h1.trans (liveStep_enqueue (Or.inl hp))
    · exact h1

theorem liveStep_yield (hp : (s.proc p).state = .running) : LiveStep s (yield c p s) := by
  have h1 : LiveStep s (decreasepriority p (s.modProc p fun x => { x with ticksCount := 0 })) := by
    refine LiveStep.trans (t := s.modProc p fun x => { x with ticksCount := 0 }) ?_ ?_
    · exact liveStep_modProc rfl rfl (Or.inl rfl) (fun _ h => h) fun h1 h2 => Or.inl ⟨h1, h2, rfl⟩
    · refine liveStep_of_core (fun r => ?_) (decreasepriority_rest p _).2
      exact modNice_field Proc.core (fun _ _ => rfl) (decreasepriority_eq p _) r
  have hlive : ((decreasepriority p (s.modProc p fun x =>
      { x with ticksCount := 0 })).proc p).state.Live :=
    (h1.live_iff p).mpr (Or.inr (Or.inr hp))
  exact (h1.trans (liveStep_enqueue hlive)).trans
    (liveStep_of_core (fun _ => rfl) ⟨rfl, rfl⟩)

theorem liveStep_ticked : LiveStep s (ticked s p) :=
  liveStep_modProc rfl rfl (Or.inl rfl) (fun _ h => h) fun h1 h2 => Or.inl ⟨h1, h2, rfl⟩

/-- A process that was asleep in `wait` wakes up there, so that it is no longer asleep. -/
theorem liveStep_scheduler (hi : Inv s) (hs : scheduler c s = some t) : LiveStep s t := by
  obtain ⟨p, l, q, -, -, -, hp, -, rfl⟩ := scheduler_eq_some hi hs
  have hcore : SameCore s (removefromlevel p l s) := sameCore_removefromlevel l
  have hp' : ((removefromlevel p l s).proc p).state = .runnable := by
    rw [hcore.field (·.state) fun _ => rfl]
    exact hp
  refine (hcore.liveStep.trans (liveStep_of_core (t := (removefromlevel p l s).setCpu c (some p))
    (fun _ => rfl) ⟨rfl, rfl⟩)).trans ?_
  refine liveStep_modProc rfl rfl (Or.inr ⟨Or.inr (Or.inl hp'), Or.inr (Or.inr rfl)⟩) ?_ ?_
  · intro np hctx
    simp only [Proc.resume] at hctx
    split_ifs at hctx
    exact hctx
  · intro h
    cases h

/-- A running process goes to sleep; inside `wait` it has just found no zombie child. -/
theorem liveStep_sleep (hrun : (s.proc p).state = .running) {chan : Chan}
    (hfork : ∀ np, ctx ≠ .forked np) (hwait : ctx = .waiting → chan = .proc p ∧
      ∀ z, (s.proc z).parent = some p → (s.proc z).state ≠ .zombie) :
    LiveStep s (sleep c p chan ctx s) := by
  have h1 : LiveStep s (s.modProc p fun x =>
      { x with chan := some chan, state := .sleeping, context := ctx }) := by
    refine liveStep_modProc rfl rfl (Or.inr ⟨Or.inr (Or.inr hrun), Or.inl rfl⟩) ?_ ?_
    · intro np h
      exact absurd h (hfork np)
    · intro _ h
      obtain ⟨hchan, hz⟩ := hwait h
      exact Or.inr ⟨congrArg some hchan, hz⟩
  exact h1.trans (liveStep_of_core (fun _ => rfl) ⟨rfl, rfl⟩)

/-- A running process moves to a program point other than the end of `fork`. -/
theorem liveStep_setContext (hp : (s.proc p).state = .running) (hfork : ∀ np, ctx ≠ .forked np) :
    LiveStep s (s.modProc p fun x => { x with context := ctx }) := by
  refine liveStep_modProc rfl rfl (Or.inl rfl) ?_ ?_
  · intro np h
    exact absurd h (hfork np)
  · intro h
    rw [hp] at h
    cases h

/-! ## Sections that change one slot

`fork` and `wait` change slots that hold no process that can act: the claimed embryo, and the
zombie. -/

section Slots

variable (h : TreeInv s gone)

include h

theorem TreeInv.changeIdle {gone' : List ℤ} (np : Slot)
    (hinit : s.initproc ≠ none) (hold : ¬ (s.proc np).state.Live)
    (hcore : ∀ r, r ≠ np → (t.proc r).core = (s.proc r).core)
    (hctx : (t.proc np).context = (s.proc np).context)
    (hrest : s.nextpid ≤ t.nextpid ∧ t.initproc = s.initproc)
    (hgone : gone'.Nodup ∧ (∀ x ∈ gone', x < t.nextpid) ∧
      ∀ x ∈ gone', ∀ r, r ≠ np → (s.proc r).state ≠ .unused → (s.proc r).pid ≠ x)
    (hstate : (t.proc np).state ≠ .zombie ∧ (t.proc np).state ≠ .sleeping)
    (hpid : (t.proc np).state ≠ .unused → (t.proc np).pid < t.nextpid ∧
      (t.proc np).pid ∉ gone' ∧
      ∀ r, r ≠ np → (s.proc r).state ≠ .unused → (s.proc r).pid ≠ (t.proc np).pid)
    (hparent : (t.proc np).parent ≠ some np)
    (hlive : (t.proc np).state.Live → ∃ q, (t.proc np).parent = some q ∧ (s.proc q).state.Live)
    (hfork : ∀ r, (s.proc r).context = .forked np → (t.proc np).parent = some r) :
    TreeInv t gone' := by
  have hf : ∀ {β : Type} (g : Proc → β), (∀ y : Proc, g y.core = g y) → ∀ r, r ≠ np →
      g (t.proc r) = g (s.proc r) := by
    intro β g hg r hr
    rw [← hg, hcore r hr, hg]
  have hst : ∀ r, r ≠ np → (t.proc r).state = (s.proc r).state := hf (·.state) fun _ => rfl
  have hpid' : ∀ r, r ≠ np → (t.proc r).pid = (s.proc r).pid := hf (·.pid) fun _ => rfl
  have hpar : ∀ r, r ≠ np → (t.proc r).parent = (s.proc r).parent :=
    hf (·.parent) fun _ => rfl
  -- a process that could act before is another one, and unchanged
  have hlive' : ∀ {q}, (s.proc q).state.Live → (t.proc q).state.Live := by
    intro q hq
    have hqn : q ≠ np := by
      rintro rfl
      exact hold hq
    rw [hst q hqn]
    exact hq
  obtain ⟨hnd, hlt, hne⟩ := hgone
  constructor
  case pid_lt =>
    intro r hr
    by_cases hrn : r = np
    · rw [hrn] at hr ⊢
      exact (hpid hr).1
    · rw [hst r hrn] at hr
      rw [hpid' r hrn]
      exact lt_of_lt_of_le (h.pid_lt hr) hrest.1
  case pid_inj =>
    intro r r' hr hr' heq
    by_cases hrn : r = np <;> by_cases hrn' : r' = np
    · rw [hrn, hrn']
    · rw [hrn] at hr heq
      rw [hst r' hrn'] at hr'
      rw [hpid' r' hrn'] at heq
      exact absurd heq.symm ((hpid hr).2.2 r' hrn' hr')
    · rw [hrn'] at hr' heq
      rw [hst r hrn] at hr
      rw [hpid' r hrn] at heq
      exact absurd heq ((hpid hr').2.2 r hrn hr)
    · rw [hst r hrn] at hr
      rw [hst r' hrn'] at hr'
      rw [hpid' r hrn, hpid' r' hrn'] at heq
      exact h.pid_inj hr hr' heq
  case gone_lt => exact hlt
  case gone_ne =>
    intro x hx r hr heq
    by_cases hrn : r = np
    · rw [hrn] at hr heq
      rw [← heq] at hx
      exact (hpid hr).2.1 hx
    · rw [hst r hrn] at hr
      rw [hpid' r hrn] at heq
      exact hne x hx r hrn hr heq
  case gone_nodup => exact hnd
  case noInit =>
    intro hi
    rw [hrest.2] at hi
    exact absurd hi hinit
  case init_live =>
    intro i hi
    rw [hrest.2] at hi
    obtain ⟨h1, h2⟩ := h.init_live hi
    have hin : i ≠ np := by
      rintro rfl
      exact hold h1
    rw [hst i hin, hpar i hin]
    exact ⟨h1, h2⟩
  case parent_ne =>
    intro r
    by_cases hrn : r = np
    · rw [hrn]
      exact hparent
    · rw [hpar r hrn]
      exact h.parent_ne r
  case parent_live =>
    intro r hr hi
    by_cases hrn : r = np
    · rw [hrn] at hr ⊢
      obtain ⟨q, hq, hql⟩ := hlive (hr.resolve_right hstate.1)
      exact ⟨q, hq, hlive' hql⟩
    · rw [hst r hrn] at hr
      rw [hrest.2] at hi
      obtain ⟨q, hq, hql⟩ := h.parent_live hr hi
      exact ⟨q, (hpar r hrn).trans hq, hlive' hql⟩
  case forked =>
    intro r n hr
    have hr' : (s.proc r).context = .forked n := by
      by_cases hrn : r = np
      · rw [hrn] at hr ⊢
        exact hctx.symm.trans hr
      · exact (hf (·.context) (fun _ => rfl) r hrn).symm.trans hr
    by_cases hn : n = np
    · rw [hn] at hr' ⊢
      exact hfork r hr'
    · rw [hpar n hn]
      exact h.forked hr'
  case waiting =>
    intro r hr hctx'
    have hrn : r ≠ np := by
      rintro rfl
      exact hstate.2 hr
    rw [hst r hrn] at hr
    rw [hf (·.context) (fun _ => rfl) r hrn] at hctx'
    obtain ⟨h1, h2⟩ := h.waiting hr hctx'
    refine ⟨(hf (·.chan) (fun _ => rfl) r hrn).trans h1, fun z hz => ?_⟩
    by_cases hzn : z = np
    · rw [hzn]
      exact hstate.1
    · rw [hst z hzn]
      rw [hpar z hzn] at hz
      exact h2 z hz

theorem TreeInv.initproc_ne_none (hp : (s.proc p).state ≠ .unused) : s.initproc ≠ none :=
  fun hi => hp (h.noInit hi p).1

/-! ### `fork` -/

/-- The claim of a slot by `allocproc`, while `nextpid` does not wrap around. -/
theorem TreeInv.claim (hi : Inv s) (hinit : s.initproc ≠ none) (hnp : (s.proc np).state = .unused)
    (hnext : int32 (s.nextpid + 1) = s.nextpid + 1) : TreeInv (s.claim np) gone := by
  have hle : s.nextpid ≤ int32 (s.nextpid + 1) := by omega
  refine h.changeIdle np hinit (fun hl => hl.ne.1 hnp) ?_
    (by simp only [PTable.claim, modProc_proc_self]) ⟨hle, rfl⟩ ?_ ?_ ?_ ?_ ?_ ?_
  all_goals simp only [PTable.claim, modProc_proc_self]
  · intro r hr
    rw [modProc_proc, if_neg hr]
  · refine ⟨h.gone_nodup, fun x hx => lt_of_lt_of_le (h.gone_lt x hx) hle, ?_⟩
    exact fun x hx r _ hr => h.gone_ne x hx hr
  · simp
  · intro _
    refine ⟨by omega, fun hmem => lt_irrefl _ (h.gone_lt _ hmem), ?_⟩
    exact fun r _ hr => ne_of_lt (h.pid_lt hr)
  · exact h.parent_ne np
  · intro hl
    exact absurd rfl hl.ne.2.1
  · intro r hr
    have hemb := hi.fork.embryo (p := r) (n := np) (by rw [PTable.contexts, hr]; rfl)
    rw [PTable.states, hnp] at hemb
    cases hemb

/-- The embryo of a `fork` in progress changes without getting an end other than `UNUSED`,
`EMBRYO` or `RUNNABLE`. -/
theorem TreeInv.changeEmbryo (hi : Inv s) (p np : Slot) (hctx : (s.proc p).context.child = some np)
    (hcore : ∀ r, r ≠ np → (t.proc r).core = (s.proc r).core)
    (hself : (t.proc np).context = (s.proc np).context ∧ (t.proc np).pid = (s.proc np).pid)
    (hrest : t.nextpid = s.nextpid ∧ t.initproc = s.initproc)
    (hstate : (t.proc np).state ≠ .zombie ∧ (t.proc np).state ≠ .sleeping)
    (hparent : (t.proc np).parent ≠ some np)
    (hlive : (t.proc np).state.Live → ∃ q, (t.proc np).parent = some q ∧ (s.proc q).state.Live)
    (hfork : (s.proc p).context = .forked np → (t.proc np).parent = some p) :
    TreeInv t gone := by
  have hnp : (s.proc np).state = .embryo := hi.fork.embryo hctx
  have hne : (s.proc np).state ≠ .unused := by
    rw [hnp]
    simp
  refine h.changeIdle np (h.initproc_ne_none hne) (fun hl => hl.ne.2.1 hnp) hcore hself.1
    ⟨hrest.1.ge, hrest.2⟩ ?_ hstate ?_ hparent hlive ?_
  · rw [hrest.1]
    exact ⟨h.gone_nodup, h.gone_lt, fun x hx r _ hr => h.gone_ne x hx hr⟩
  · intro _
    rw [hself.2, hrest.1]
    refine ⟨h.pid_lt hne, fun hmem => h.gone_ne _ hmem hne rfl, ?_⟩
    exact fun r hr hr' heq => hr (h.pid_inj hr' hne heq)
  · intro r hr
    have hrp : r = p := hi.fork.unique (n := np) (by rw [PTable.contexts, hr]; rfl) hctx
    rw [hrp] at hr ⊢
    exact hfork hr

theorem TreeInv.forkFail (hi : Inv s)
    (hp : (s.proc p).state = .running) (hctx : (s.proc p).context = .forking np) (hne : p ≠ np) :
    TreeInv ((s.modProc np fun x => { x with state := .unused }).modProc p fun x =>
      { x with context := .user }) gone := by
  have h1 : TreeInv (s.modProc np fun x => { x with state := .unused }) gone := by
    refine h.changeEmbryo hi p np (by rw [hctx]; rfl) ?_ ?_ ⟨rfl, rfl⟩ ?_ ?_ ?_ ?_
    all_goals try rw [modProc_proc_self]
    · intro r hr
      rw [modProc_proc, if_neg hr]
    · exact ⟨rfl, rfl⟩
    · simp
    · exact h.parent_ne np
    · exact fun hl => absurd rfl hl.ne.1
    · rw [hctx]
      intro hh
      cases hh
  refine h1.liveStep (liveStep_setContext ?_ (by simp))
  rw [modProc_proc, if_neg hne, hp]

theorem TreeInv.forkEnqueue (hi : Inv s)
    (hp : (s.proc p).state = .running) (hctx : (s.proc p).context = .forked np) (hne : p ≠ np) :
    TreeInv ((enqueue np s).modProc p fun x => { x with context := .user }) gone := by
  have hpar : (s.proc np).parent = some p := h.forked hctx
  have hpar' : ((enqueue np s).proc np).parent = some p := by
    rw [enqueue_field (·.parent) fun _ _ _ _ => rfl]
    exact hpar
  have hst : ((enqueue np s).proc np).state = .runnable := by rw [enqueue_state, if_pos rfl]
  have h1 : TreeInv (enqueue np s) gone := by
    refine h.changeEmbryo hi p np (by rw [hctx]; rfl) ?_ ?_ ?_ ?_ ?_ ?_ ?_
    · intro r hr
      rw [enqueue_eq, relink_proc, modProc_proc, if_neg hr]
      rfl
    · exact ⟨enqueue_field (·.context) (fun _ _ _ _ => rfl) np s np,
        enqueue_field (·.pid) (fun _ _ _ _ => rfl) np s np⟩
    · exact ⟨enqueue_nextpid np s, enqueue_initproc np s⟩
    · rw [hst]
      simp
    · rw [hpar', ← hpar]
      exact h.parent_ne np
    · exact fun _ => ⟨p, hpar', Or.inr (Or.inr hp)⟩
    · exact fun _ => hpar'
  refine h1.liveStep (liveStep_setContext ?_ (by simp))
  rw [enqueue_state, if_neg hne, hp]

theorem TreeInv.setForked (hp : (s.proc p).state = .running) (hnp : (s.proc np).parent = some p) :
    TreeInv (s.modProc p fun x => { x with context := .forked np }) gone := by
  have hst : ∀ r, ((s.modProc p fun x => { x with context := .forked np }).proc r).state =
      (s.proc r).state := fun r => modProc_field s p r (·.state)
  have hpid : ∀ r, ((s.modProc p fun x => { x with context := .forked np }).proc r).pid =
      (s.proc r).pid := fun r => modProc_field s p r (·.pid)
  have hpar : ∀ r, ((s.modProc p fun x => { x with context := .forked np }).proc r).parent =
      (s.proc r).parent := fun r => modProc_field s p r (·.parent)
  have hchan : ∀ r, ((s.modProc p fun x => { x with context := .forked np }).proc r).chan =
      (s.proc r).chan := fun r => modProc_field s p r (·.chan)
  constructor
  case gone_nodup => exact h.gone_nodup
  all_goals simp only [hst, hpid, hpar, hchan, modProc_initproc, modProc_nextpid]
  case pid_lt => exact h.pid_lt
  case pid_inj => exact h.pid_inj
  case gone_lt => exact h.gone_lt
  case gone_ne => exact h.gone_ne
  case noInit => exact h.noInit
  case init_live => exact h.init_live
  case parent_ne => exact h.parent_ne
  case parent_live => exact h.parent_live
  case forked =>
    intro r n hr
    rw [modProc_proc] at hr
    split_ifs at hr with hrp
    · rw [hrp, ← Context.forked.inj hr]
      exact hnp
    · exact h.forked hr
  case waiting =>
    intro r hr hctx
    have hrp : r ≠ p := by
      rintro rfl
      rw [hp] at hr
      cases hr
    rw [modProc_proc, if_neg hrp] at hctx
    exact h.waiting hr hctx

theorem TreeInv.forkParent (hi : Inv s)
    (hp : (s.proc p).state = .running) (hctx : (s.proc p).context = .forking np)
    (hnp : (s.proc np).state = .embryo) (hne : p ≠ np) :
    TreeInv ((s.modProc np fun x => { x with parent := some p }).modProc p fun x =>
      { x with context := .forked np }) gone := by
  have h1 : TreeInv (s.modProc np fun x => { x with parent := some p }) gone := by
    refine h.changeEmbryo hi p np (by rw [hctx]; rfl) ?_ ?_ ⟨rfl, rfl⟩ ?_ ?_ ?_ ?_
    all_goals try rw [modProc_proc_self]
    · intro r hr
      rw [modProc_proc, if_neg hr]
    · exact ⟨rfl, rfl⟩
    · rw [hnp]
      simp
    · exact fun hh => hne (Option.some_inj.mp hh)
    · rw [hnp]
      exact fun hl => absurd rfl hl.ne.2.1
    · exact fun _ => rfl
  refine h1.setForked ?_ (by rw [modProc_proc_self])
  exact (modProc_field s np p (·.state)).trans hp

/-- The first process: `parent` is null in zeroed memory and stays so. -/
theorem TreeInv.userinit (hi : Inv s) {p : Slot} (hinit : s.initproc = none)
    (hnext : int32 (s.nextpid + 1) = s.nextpid + 1) :
    TreeInv (enqueue p { s.claim p with initproc := some p }) gone := by
  generalize hu : { s.claim p with initproc := some p } = u
  have hnextpid : (enqueue p u).nextpid = s.nextpid + 1 := by
    rw [enqueue_nextpid, ← hu]
    exact hnext
  have hinitproc : (enqueue p u).initproc = some p := by
    rw [enqueue_initproc, ← hu]
  have hst : ∀ r, ((enqueue p u).proc r).state = if r = p then .runnable else .unused := by
    intro r
    rw [enqueue_state]
    split_ifs with hr
    · rfl
    · rw [← hu]
      exact (congrArg Proc.state (if_neg hr)).trans (h.noInit hinit r).1
  have hpar : ∀ r, ((enqueue p u).proc r).parent = none := by
    intro r
    rw [enqueue_field (·.parent) fun _ _ _ _ => rfl, ← hu]
    exact (claim_field (·.parent) (fun _ _ _ _ => rfl) p r).trans (h.noInit hinit r).2
  have hpid : ((enqueue p u).proc p).pid = s.nextpid := by
    rw [enqueue_field (·.pid) fun _ _ _ _ => rfl, ← hu]
    simp only [PTable.claim, modProc_proc_self]
  have hctx : ∀ r n, ((enqueue p u).proc r).context ≠ .forked n := by
    intro r n hr
    rw [enqueue_field (·.context) fun _ _ _ _ => rfl, ← hu] at hr
    have hr' : (s.proc r).context = .forked n :=
      (claim_field (·.context) (fun _ _ _ _ => rfl) p r).symm.trans hr
    have hemb := hi.fork.embryo (p := r) (n := n) (by rw [PTable.contexts, hr']; rfl)
    rw [PTable.states, (h.noInit hinit n).1] at hemb
    cases hemb
  have honly : ∀ r, ((enqueue p u).proc r).state ≠ .unused → r = p := by
    intro r hr
    rw [hst r] at hr
    by_contra hrp
    rw [if_neg hrp] at hr
    exact hr rfl
  constructor
  case pid_lt =>
    intro r hr
    rw [honly r hr, hpid, hnextpid]
    omega
  case pid_inj => exact fun {r r'} hr hr' _ => (honly r hr).trans (honly r' hr').symm
  case gone_lt =>
    intro x hx
    have := h.gone_lt x hx
    omega
  case gone_ne =>
    intro x hx r hr heq
    rw [honly r hr, hpid] at heq
    have := h.gone_lt x hx
    omega
  case gone_nodup => exact h.gone_nodup
  case noInit =>
    intro hh
    rw [hinitproc] at hh
    cases hh
  case init_live =>
    intro i hh
    rw [hinitproc] at hh
    cases hh
    rw [hst, if_pos rfl]
    exact ⟨Or.inr (Or.inl rfl), hpar _⟩
  case parent_ne =>
    intro r hr
    rw [hpar r] at hr
    cases hr
  case parent_live =>
    intro r hr hne
    have hrp : r = p := honly r (by rcases hr with hr | hr; exacts [hr.ne.1, by rw [hr]; simp])
    rw [hrp, hinitproc] at hne
    exact absurd rfl hne
  case forked => exact fun {r n} hr => absurd hr (hctx r n)
  case waiting =>
    intro r hr
    rw [hst r] at hr
    split_ifs at hr

/-! ### `wait` -/

theorem TreeInv.reap (hi : Inv s) {z : Slot} (hzz : (s.proc z).state = .zombie) :
    TreeInv (s.reap z) (gone ++ [(s.proc z).pid]) := by
  have hzne : (s.proc z).state ≠ .unused := by
    rw [hzz]
    simp
  refine h.changeIdle z (h.initproc_ne_none hzne) (fun hl => hl.ne.2.2 hzz) ?_ ?_
    ⟨le_refl _, rfl⟩ ⟨?_, ?_, ?_⟩ ?_ ?_ ?_ ?_ ?_
  all_goals try rw [PTable.reap, modProc_proc_self]
  · intro r hr
    rw [PTable.reap, modProc_proc, if_neg hr]
  · rw [List.nodup_append]
    refine ⟨h.gone_nodup, List.nodup_singleton _, ?_⟩
    rintro x hx y hy rfl
    rw [List.mem_singleton] at hy
    exact h.gone_ne x hx hzne hy.symm
  · intro x hx
    rcases List.mem_append.mp hx with hx | hx
    · exact h.gone_lt x hx
    · rw [List.mem_singleton.mp hx]
      exact h.pid_lt hzne
  · intro x hx r hr hru heq
    rcases List.mem_append.mp hx with hx | hx
    · exact h.gone_ne x hx hru heq
    · rw [List.mem_singleton.mp hx] at heq
      exact hr (h.pid_inj hru hzne heq)
  · simp
  · intro hh
    exact absurd rfl hh
  · simp
  · exact fun hl => absurd rfl hl.ne.1
  · intro r hr
    have hemb := hi.fork.embryo (p := r) (n := z) (by rw [PTable.contexts, hr]; rfl)
    rw [PTable.states, hzz] at hemb
    cases hemb

end Slots

/-! ### `exit` -/

/-- Sleepers have been woken; children may have a new parent. -/
structure Wakes (s t : PTable) : Prop where
  nextpid : t.nextpid = s.nextpid
  initproc : t.initproc = s.initproc
  pid : ∀ r, (t.proc r).pid = (s.proc r).pid
  chan : ∀ r, (t.proc r).chan = (s.proc r).chan
  context : ∀ r, (t.proc r).context = (s.proc r).context
  state : ∀ r, (t.proc r).state = (s.proc r).state ∨
    (s.proc r).state = .sleeping ∧ (t.proc r).state = .runnable

theorem Wakes.refl (s : PTable) : Wakes s s :=
  ⟨rfl, rfl, fun _ => rfl, fun _ => rfl, fun _ => rfl, fun _ => Or.inl rfl⟩

theorem Wakes.trans (h : Wakes s t) (h' : Wakes t u) : Wakes s u where
  nextpid := h'.nextpid.trans h.nextpid
  initproc := h'.initproc.trans h.initproc
  pid r := (h'.pid r).trans (h.pid r)
  chan r := (h'.chan r).trans (h.chan r)
  context r := (h'.context r).trans (h.context r)
  state r := by
    rcases h'.state r with h1 | ⟨h1, h2⟩
    · rw [h1]
      exact h.state r
    · rcases h.state r with h3 | ⟨-, h3⟩
      · exact Or.inr ⟨h3.symm.trans h1, h2⟩
      · rw [h3] at h1
        cases h1

theorem Wakes.sleeping (h : Wakes s t) (hr : (t.proc r).state = .sleeping) :
    (s.proc r).state = .sleeping := by
  rcases h.state r with h1 | ⟨-, h1⟩
  · exact h1.symm.trans hr
  · rw [hr] at h1
    cases h1

theorem Wakes.eq_iff (h : Wakes s t) {st : ProcState} (hst : ¬ st.Live) (r : Slot) :
    (t.proc r).state = st ↔ (s.proc r).state = st := by
  rcases h.state r with h1 | ⟨h1, h2⟩
  · rw [h1]
  · rw [h1, h2]
    constructor
    · rintro rfl
      exact absurd (Or.inr (Or.inl rfl)) hst
    · rintro rfl
      exact absurd (Or.inl rfl) hst

theorem wakes_wakeup1 (chan : Option Chan) : Wakes s (wakeup1 chan s) where
  nextpid := (wakeup1_rest chan s).2.1
  initproc := (wakeup1_rest chan s).2.2
  pid := wakeup1_field (·.pid) (fun _ _ _ _ _ => rfl) chan s
  chan := wakeup1_field (·.chan) (fun _ _ _ _ _ => rfl) chan s
  context := wakeup1_field (·.context) (fun _ _ _ _ _ => rfl) chan s
  state r := by
    rw [wakeup1_state]
    split_ifs with hr
    · exact Or.inr ⟨hr.1, rfl⟩
    · exact Or.inl rfl

theorem not_sleeping_wakeup1 {chan : Option Chan}
    (hr : ((wakeup1 chan s).proc r).state = .sleeping) :
    ((wakeup1 chan s).proc r).chan ≠ chan := by
  rw [wakeup1_state] at hr
  rw [wakeup1_field (·.chan) fun _ _ _ _ _ => rfl]
  split_ifs at hr with hh
  exact fun hchan => hh ⟨hr, hchan⟩

/-- What one round of the loop of `exit` does to the child `r`, if it is one. -/
theorem reparentOne_spec (cur r : Slot) :
    Wakes s (reparentOne cur s r) ∧
      (∀ q, ((reparentOne cur s r).proc q).parent =
        if q = r ∧ (s.proc q).parent = some cur then s.initproc else (s.proc q).parent) ∧
      ((s.proc r).parent = some cur → (s.proc r).state = .zombie → ∀ i, s.initproc = some i →
        ((reparentOne cur s r).proc i).state = .sleeping → (s.proc i).chan ≠ some (.proc i)) := by
  unfold reparentOne
  split_ifs with hr
  · have hw : Wakes s (s.modProc r fun x => { x with parent := s.initproc }) :=
      ⟨rfl, rfl, fun q => modProc_field s r q (·.pid), fun q => modProc_field s r q (·.chan),
        fun q => modProc_field s r q (·.context),
        fun q => Or.inl (modProc_field s r q (·.state))⟩
    have hpar : ∀ q, ((s.modProc r fun x => { x with parent := s.initproc }).proc q).parent =
        if q = r ∧ (s.proc q).parent = some cur then s.initproc else (s.proc q).parent := by
      intro q
      rw [modProc_proc]
      by_cases hq : q = r
      · rw [if_pos hq, if_pos ⟨hq, by rw [hq]; exact hr⟩]
      · rw [if_neg hq, if_neg fun hh => hq hh.1]
    dsimp only
    split_ifs with hz
    · refine ⟨hw.trans (wakes_wakeup1 _), ?_, ?_⟩
      · intro q
        rw [wakeup1_field (·.parent) fun _ _ _ _ _ => rfl]
        exact hpar q
      · intro _ _ i hi hsleep
        have := not_sleeping_wakeup1 hsleep
        rw [(hw.trans (wakes_wakeup1 _)).chan, modProc_initproc, hi] at this
        exact this
    · refine ⟨hw, hpar, fun _ hzz => ?_⟩
      rw [modProc_proc_self] at hz
      exact absurd hzz hz
  · refine ⟨Wakes.refl s, ?_, fun hh => absurd hh hr⟩
    intro q
    rw [if_neg]
    rintro ⟨rfl, hq⟩
    exact hr hq

/-- The loop of `exit`: the children of `cur` become children of init, and if one of them is a
zombie then init does not sleep in `wait`. -/
theorem foldl_reparentOne_spec (cur : Slot) :
    ∀ (l : List Slot) (s : PTable), s.initproc ≠ some cur →
      Wakes s (l.foldl (reparentOne cur) s) ∧
      (∀ q, ((l.foldl (reparentOne cur) s).proc q).parent =
        if q ∈ l ∧ (s.proc q).parent = some cur then s.initproc else (s.proc q).parent) ∧
      (∀ z ∈ l, (s.proc z).parent = some cur → (s.proc z).state = .zombie →
        ∀ i, s.initproc = some i → ((l.foldl (reparentOne cur) s).proc i).state = .sleeping →
          (s.proc i).chan ≠ some (.proc i))
  | [], s, _ => by
    refine ⟨Wakes.refl s, ?_, ?_⟩
    · intro q
      simp
    · intro z hz
      cases hz
  | r :: l, s, hcur => by
    obtain ⟨hw, hpar, hz⟩ := reparentOne_spec (s := s) cur r
    obtain ⟨hw', hpar', hz'⟩ := foldl_reparentOne_spec cur l (reparentOne cur s r)
      (by rw [hw.initproc]; exact hcur)
    rw [List.foldl_cons]
    refine ⟨hw.trans hw', ?_, ?_⟩
    · intro q
      rw [hpar' q, hpar q, hw.initproc]
      by_cases hqp : (s.proc q).parent = some cur
      · by_cases hq : q = r
        · -- visited: its parent is init from now on, which is not `cur`
          rw [if_pos (c := q = r ∧ _) ⟨hq, hqp⟩, if_neg fun hh => hcur hh.2,
            if_pos ⟨by simp [hq], hqp⟩]
        · simp [hq, hqp]
      · simp [hqp]
    · intro z hzl hzp hzz i hi hsleep
      by_cases hzr : z = r
      · rw [hzr] at hzp hzz
        exact hz hzp hzz i hi (hw'.sleeping hsleep)
      · have hzl' : z ∈ l := (List.mem_cons.mp hzl).resolve_left hzr
        rw [← hw.chan i]
        refine hz' z hzl' ?_ ?_ i (hw.initproc.trans hi) hsleep
        · rw [hpar z, if_neg fun hh => hzr hh.1]
          exact hzp
        · exact (hw.eq_iff (fun hl => hl.ne.2.2 rfl) z).mpr hzz

/-- **What `exit` does**: `p` is a zombie, its children are init's, and whoever is still asleep in
`wait` is neither its parent nor an init that has just got a zombie. -/
theorem exit_spec (hs : exit c p s = some t) :
    s.initproc ≠ some p ∧ t.nextpid = s.nextpid ∧ t.initproc = s.initproc ∧
      (∀ r, (t.proc r).pid = (s.proc r).pid ∧ (t.proc r).chan = (s.proc r).chan ∧
        (t.proc r).context = (s.proc r).context ∧ (t.proc r).parent =
          if (s.proc r).parent = some p then s.initproc else (s.proc r).parent) ∧
      (t.proc p).state = .zombie ∧
      (∀ r, r ≠ p → (t.proc r).state = (s.proc r).state ∨
        (s.proc r).state = .sleeping ∧ (t.proc r).state = .runnable) ∧
      ∀ r, r ≠ p → (t.proc r).state = .sleeping → (s.proc r).chan = some (.proc r) →
        (s.proc p).parent ≠ some r ∧ ∀ z, s.initproc = some r → (s.proc z).parent = some p →
          (s.proc z).state ≠ .zombie := by
  unfold exit at hs
  split_ifs at hs with hinit
  cases hs
  have hw := wakes_wakeup1 (s := s) ((s.proc p).parent.map .proc)
  obtain ⟨hw', hpar, hz⟩ := foldl_reparentOne_spec p slots
    (wakeup1 ((s.proc p).parent.map .proc) s) (by rw [hw.initproc]; exact hinit)
  have hpar1 : ∀ r, ((wakeup1 ((s.proc p).parent.map .proc) s).proc r).parent =
      (s.proc r).parent := wakeup1_field (·.parent) (fun _ _ _ _ _ => rfl) _ s
  generalize hu : slots.foldl (reparentOne p) (wakeup1 ((s.proc p).parent.map .proc) s) = u at *
  have hw2 : Wakes s u := hw.trans hw'
  have hst : ∀ r, r ≠ p → ((sched c (u.modProc p fun x =>
      { x with state := .zombie })).proc r).state = (u.proc r).state := by
    intro r hr
    rw [sched, setCpu_proc, modProc_proc, if_neg hr]
  refine ⟨hinit, hw2.nextpid, hw2.initproc, ?_, ?_, ?_, ?_⟩
  · intro r
    rw [sched, setCpu_proc, ← hw2.pid r, ← hw2.chan r, ← hw2.context r]
    refine ⟨modProc_field u p r (·.pid), modProc_field u p r (·.chan),
      modProc_field u p r (·.context), (modProc_field u p r (·.parent)).trans ?_⟩
    rw [hpar r, hpar1 r, hw.initproc]
    simp
  · rw [sched, setCpu_proc, modProc_proc_self]
  · intro r hr
    rw [hst r hr]
    exact hw2.state r
  · intro r hr hsleep hchan
    rw [hst r hr] at hsleep
    constructor
    · intro hp
      have := not_sleeping_wakeup1 (hw'.sleeping hsleep)
      rw [hw.chan, hp] at this
      exact this hchan
    · intro z hi hzp hzz
      refine hz z (mem_slots z) ((hpar1 z).trans hzp) ?_ r (hw.initproc.trans hi) hsleep ?_
      · exact (hw.eq_iff (fun hl => hl.ne.2.2 rfl) z).mpr hzz
      · rw [hw.chan]
        exact hchan

theorem TreeInv.exit (h : TreeInv s gone) (hrun : (s.proc p).state = .running)
    (hctx : (s.proc p).context = .user) (hs : exit c p s = some t) : TreeInv t gone := by
  obtain ⟨hinit, hnextpid, hinitproc, hproc, hp, hst, hwoken⟩ := exit_spec hs
  have hlive : ∀ {r}, r ≠ p → (s.proc r).state.Live → (t.proc r).state.Live := by
    intro r hr hl
    rcases hst r hr with h1 | ⟨-, h1⟩
    · rw [h1]
      exact hl
    · exact Or.inr (Or.inl h1)
  have hsame : ∀ {r st}, r ≠ p → ¬ ProcState.Live st → (t.proc r).state = st →
      (s.proc r).state = st := by
    intro r st hr hdead hrt
    rcases hst r hr with h1 | ⟨-, h1⟩
    · exact h1.symm.trans hrt
    · rw [hrt] at h1
      exact absurd (Or.inr (Or.inl h1)) hdead
  have hunused : ∀ {r}, (t.proc r).state ≠ .unused → (s.proc r).state ≠ .unused := by
    intro r hr hru
    by_cases hrp : r = p
    · rw [hrp, hrun] at hru
      cases hru
    · rcases hst r hrp with h1 | ⟨h1, -⟩
      · exact hr (h1.trans hru)
      · rw [hru] at h1
        cases h1
  -- init takes over the children: it is there, and it is not `p`
  obtain ⟨i, hii⟩ : ∃ i, s.initproc = some i :=
    Option.ne_none_iff_exists'.mp (h.initproc_ne_none (p := p) (by rw [hrun]; simp))
  have hip : i ≠ p := fun hh => hinit (hh ▸ hii)
  constructor
  case pid_lt =>
    intro r hr
    rw [(hproc r).1, hnextpid]
    exact h.pid_lt (hunused hr)
  case pid_inj =>
    intro r r' hr hr' heq
    rw [(hproc r).1, (hproc r').1] at heq
    exact h.pid_inj (hunused hr) (hunused hr') heq
  case gone_lt =>
    rw [hnextpid]
    exact h.gone_lt
  case gone_ne =>
    intro x hx r hr
    rw [(hproc r).1]
    exact h.gone_ne x hx (hunused hr)
  case gone_nodup => exact h.gone_nodup
  case noInit =>
    intro hh
    rw [hinitproc, hii] at hh
    cases hh
  case init_live =>
    intro j hj
    rw [hinitproc, hii] at hj
    cases hj
    obtain ⟨hl, hpar⟩ := h.init_live hii
    refine ⟨hlive hip hl, ?_⟩
    rw [(hproc i).2.2.2, hpar, if_neg (by simp)]
  case parent_ne =>
    intro r hr
    rw [(hproc r).2.2.2, hii] at hr
    split_ifs at hr with hrp
    · rw [← Option.some.inj hr, (h.init_live hii).2] at hrp
      cases hrp
    · exact h.parent_ne r hr
  case parent_live =>
    intro r hr hri
    rw [hinitproc] at hri
    have hr' : (s.proc r).state.Live ∨ (s.proc r).state = .zombie := by
      by_cases hrp : r = p
      · rw [hrp, hrun]
        exact Or.inl (Or.inr (Or.inr rfl))
      · rcases hst r hrp with h1 | ⟨h1, -⟩
        · rw [← h1]
          exact hr
        · exact Or.inl (Or.inl h1)
    obtain ⟨q, hq, hql⟩ := h.parent_live hr' hri
    rw [(hproc r).2.2.2, hq]
    by_cases hqp : q = p
    · rw [if_pos (by rw [hqp])]
      exact ⟨i, hii, hlive hip (h.init_live hii).1⟩
    · rw [if_neg fun hh => hqp (Option.some.inj hh)]
      exact ⟨q, rfl, hlive hqp hql⟩
  case forked =>
    intro r n hr
    rw [(hproc r).2.2.1] at hr
    have hrp : r ≠ p := by
      rintro rfl
      rw [hctx] at hr
      cases hr
    rw [(hproc n).2.2.2, h.forked hr, if_neg fun hh => hrp (Option.some.inj hh)]
  case waiting =>
    intro r hr hrctx
    have hrp : r ≠ p := by
      rintro rfl
      rw [hp] at hr
      cases hr
    have hsleep : (s.proc r).state = .sleeping := by
      rcases hst r hrp with h1 | ⟨-, h1⟩
      · exact h1.symm.trans hr
      · rw [hr] at h1
        cases h1
    rw [(hproc r).2.2.1] at hrctx
    obtain ⟨hchan, hz⟩ := h.waiting hsleep hrctx
    obtain ⟨hnotpar, hnotinit⟩ := hwoken r hrp hr hchan
    refine ⟨(hproc r).2.1.trans hchan, ?_⟩
    intro z hzr hzz
    rw [(hproc z).2.2.2] at hzr
    split_ifs at hzr with hzp
    · have hzne : z ≠ p := by
        rintro rfl
        exact h.parent_ne z hzp
      exact hnotinit z hzr hzp (hsame hzne (fun hl => hl.ne.2.2 rfl) hzz)
    · have hzne : z ≠ p := by
        rintro rfl
        exact hnotpar hzr
      exact hz z hzr (hsame hzne (fun hl => hl.ne.2.2 rfl) hzz)

/-! ## Runs -/

/-- The pid that a section of `wait` returned. -/
def Event.reapedPid : Event → Option ℤ
  | .reaped _ pid => some pid
  | _ => .none

def Event.isAllocated : Event → Bool
  | .allocated _ => true
  | _ => false

theorem TreeInv.forkAlloc (h : TreeInv s gone) (hi : Inv s)
    (hp : (s.proc p).state = .running) (hnp : (s.proc np).state = .unused) (hne : p ≠ np)
    (hnext : int32 (s.nextpid + 1) = s.nextpid + 1) :
    TreeInv ((s.claim np).modProc p fun x => { x with context := .forking np }) gone := by
  have hinit := h.initproc_ne_none (p := p) (by rw [hp]; simp)
  refine (h.claim hi hinit hnp hnext).liveStep (liveStep_setContext ?_ (by simp))
  exact ((states_claim np p).trans (if_neg hne)).trans hp

/-- A section that gives out no pid and collects none, in the form of `TreeInv.step`. -/
theorem TreeInv.quiet {e : Event} (h : TreeInv t gone) (hpid : t.nextpid = s.nextpid)
    (he : e.reapedPid = none ∧ e.isAllocated = false) :
    TreeInv t (gone ++ e.reapedPid.toList) ∧
      t.nextpid = s.nextpid + (if e.isAllocated then 1 else 0) := by
  rw [he.1, he.2]
  exact ⟨by simpa using h, by simpa using hpid⟩

theorem TreeInv.step_live (h : TreeInv s gone) (hst : LiveStep s t) :
    TreeInv t (gone ++ (Event.reapedPid .none).toList) ∧
      t.nextpid = s.nextpid + (if Event.isAllocated .none then 1 else 0) :=
  (h.liveStep hst).quiet hst.nextpid ⟨rfl, rfl⟩

/-- **Every critical section preserves the process tree**, as long as pids do not wrap around. -/
theorem TreeInv.step (h : TreeInv s gone) (hi : Inv s) {a : Label} {e : Event}
    (hs : step s a = some (t, e))
    (hnext : e.isAllocated = true → int32 (s.nextpid + 1) = s.nextpid + 1) :
    TreeInv t (gone ++ e.reapedPid.toList) ∧
      t.nextpid = s.nextpid + (if e.isAllocated then 1 else 0) := by
  cases hi.section_of_step hs with
  | userinit hinit _ =>
    refine ⟨by simpa [Event.reapedPid] using h.userinit hi hinit (hnext rfl), ?_⟩
    rw [enqueue_nextpid]
    exact hnext rfl
  | dispatch _ ht => exact h.step_live (liveStep_scheduler hi ht)
  | tick => exact h.step_live liveStep_ticked
  | expire _ hp =>
    exact h.step_live
      (liveStep_ticked.trans (liveStep_yield ((modProc_field s _ _ (·.state)).trans hp)))
  | sleep _ hp => exact h.step_live (liveStep_sleep hp (by simp) (by simp))
  | wakeup chan => exact h.step_live (liveStep_wakeup1 _)
  | kill pid => exact h.step_live (liveStep_kill pid)
  | nice _ _ inc => exact h.step_live (sameCore_nice inc).liveStep
  | aging ht => exact h.step_live (hi.aging ht).2.liveStep
  | forkNone => exact h.step_live (LiveStep.refl s)
  | forkAlloc _ hp _ hnp hne =>
    exact ⟨by simpa [Event.reapedPid] using h.forkAlloc hi hp hnp hne (hnext rfl), hnext rfl⟩
  | forkFail _ hp hctx _ hne => exact (h.forkFail hi hp hctx hne).quiet rfl ⟨rfl, rfl⟩
  | forkParent _ hp hctx hnp hne => exact (h.forkParent hi hp hctx hnp hne).quiet rfl ⟨rfl, rfl⟩
  | forkEnqueue _ hp hctx _ hne =>
    exact (h.forkEnqueue hi hp hctx hne).quiet (enqueue_nextpid _ s) ⟨rfl, rfl⟩
  | exit _ hp hctx ht => exact (h.exit hp hctx ht).quiet (exit_spec ht).2.1 ⟨rfl, rfl⟩
  | reap _ hp _ _ hz =>
    refine ⟨(h.reap hi hz).liveStep (liveStep_setContext ?_ (by simp)), ?_⟩
    · rw [PTable.reap, modProc_proc, if_neg, hp]
      rintro rfl
      rw [hp] at hz
      cases hz
    · simp [Event.isAllocated, PTable.reap]
  | waitFail _ hp => exact h.step_live (liveStep_setContext hp (by simp))
  | waitSleep _ hp _ hz => exact h.step_live (liveStep_sleep hp (by simp) fun _ => ⟨rfl, hz⟩)

/-- The invariant in every run with fewer than `2 ^ 31 - 1` allocations. -/
theorem treeInv_exec {as : List Label} {es : List Event}
    (h : exec step PTable.boot as = some (s, es))
    (hfew : es.countP Event.isAllocated < 2 ^ 31 - 1) :
    TreeInv s (es.filterMap Event.reapedPid) := by
  have key : es.countP Event.isAllocated < 2 ^ 31 - 1 →
      TreeInv s (es.filterMap Event.reapedPid) ∧
        s.nextpid = 1 + (es.countP Event.isAllocated : ℤ) := by
    refine exec_induction (P := fun _ s es => es.countP Event.isAllocated < 2 ^ 31 - 1 →
      TreeInv s (es.filterMap Event.reapedPid) ∧
        s.nextpid = 1 + (es.countP Event.isAllocated : ℤ)) (fun _ => ⟨treeInv_boot, rfl⟩) ?_ h
    intro as s es a t e hrun ih hs hlt
    rw [List.countP_append, List.countP_singleton] at hlt
    obtain ⟨htree, hpid⟩ := ih (by omega)
    have hnext : e.isAllocated = true → int32 (s.nextpid + 1) = s.nextpid + 1 := by
      intro he
      rw [if_pos he] at hlt
      exact int32_eq_self (by omega) (by omega)
    obtain ⟨ht, hpid'⟩ := htree.step (inv_exec hrun) hs hnext
    rw [List.filterMap_append, List.countP_append, List.countP_singleton]
    refine ⟨?_, ?_⟩
    · cases hr : e.reapedPid <;> simpa [hr] using ht
    · rw [hpid', hpid]
      split_ifs <;> push_cast <;> omega
  exact (key hfew).1

/-- A zombie that `wait` collects is a child of the process that called `wait`. -/
theorem reaped_eq_some (hi : Inv s) {pid : ℤ} (h : step s (.wait c) = some (t, .reaped p pid)) :
    s.cpu c = some p ∧
      ∃ z, (s.proc z).pid = pid ∧ (s.proc z).state = .zombie ∧ (s.proc z).parent = some p := by
  cases hi.section_of_step h with
  | reap hc _ _ hpar hz => exact ⟨hc, _, rfl, hz, hpar⟩

/-- The process tree in a state `s` that is reached with the events `es`. -/
structure TreeConsistent (s : PTable) (es : List Event) : Prop where
  /-- Pids are distinct. -/
  pid_inj : ∀ p q, (s.proc p).state ≠ .unused → (s.proc q).state ≠ .unused →
    (s.proc p).pid = (s.proc q).pid → p = q
  /-- Every process but init has a parent that is there and has not exited. -/
  parent : ∀ p, (s.proc p).state ∈ [.sleeping, .runnable, .running, .zombie] →
    s.initproc ≠ some p → ∃ q, (s.proc p).parent = some q ∧
      (s.proc q).state ≠ .unused ∧ (s.proc q).state ≠ .zombie
  /-- Nobody is asleep in `wait` while a child is to be collected. -/
  waiting : ∀ p z, (s.proc p).state = .sleeping → (s.proc p).context = .waiting →
    (s.proc z).parent = some p → (s.proc z).state ≠ .zombie
  /-- `wait` has returned no pid twice. -/
  once : (es.filterMap Event.reapedPid).Nodup
  /-- The next pid that `wait` returns goes to the parent of the process that has it. -/
  toParent : ∀ c t p pid, step s (.wait c) = some (t, .reaped p pid) →
    s.cpu c = some p ∧
      ∃ z, (s.proc z).pid = pid ∧ (s.proc z).state = .zombie ∧ (s.proc z).parent = some p

/-- **The process tree and reaping.**  After any interleaving of critical sections with fewer than
`2 ^ 31 - 1` allocations, pids are distinct, every process but init has a parent that has not
exited, no process sleeps in `wait` while it has a zombie child, and each pid has been collected at
most once, by the parent.  That init does not exit is no assumption: `exit` panics. -/
theorem treeConsistent_of_exec {as : List Label} {es : List Event}
    (h : exec step PTable.boot as = some (s, es))
    (hfew : es.countP Event.isAllocated < 2 ^ 31 - 1) : TreeConsistent s es := by
  have ht := treeInv_exec h hfew
  constructor
  case pid_inj => exact fun p q hp hq heq => ht.pid_inj hp hq heq
  case parent =>
    intro p hp hinit
    have hp' : (s.proc p).state.Live ∨ (s.proc p).state = .zombie := by
      simp only [List.mem_cons, List.not_mem_nil, or_false] at hp
      unfold ProcState.Live
      tauto
    obtain ⟨q, hq, hlive⟩ := ht.parent_live hp' hinit
    exact ⟨q, hq, hlive.ne.1, hlive.ne.2.2⟩
  case waiting => exact fun p z hp hctx hz => (ht.waiting hp hctx).2 z hz
  case once => exact ht.gone_nodup
  case toParent => exact fun c t p pid hs => reaped_eq_some (inv_exec h) hs

def orphanRun : List Label :=
  [.userinit, .dispatch 0, .forkAlloc 0, .forkParent 0, .forkEnqueue 0, .wait 0, .dispatch 0,
    .forkAlloc 0, .forkParent 0, .forkEnqueue 0, .dispatch 1, .exit 0, .dispatch 0, .wait 0,
    .wait 0, .exit 1, .dispatch 0, .wait 0]

/-- A run in which init forks a child that forks a grandchild; the child exits before the
grandchild, and init, asleep in `wait` in between, collects both. -/
theorem treeConsistent_of_orphan_run : ∃ s es, exec step PTable.boot orphanRun = some (s, es) ∧
    es.countP Event.isAllocated < 2 ^ 31 - 1 ∧ es.filterMap Event.reapedPid = [2, 3] ∧
    TreeConsistent s es := by
  have hrun : ((exec step PTable.boot orphanRun).map fun r =>
      (r.2.countP Event.isAllocated, r.2.filterMap Event.reapedPid)) = some (3, [2, 3]) := by
    decide +kernel
  obtain ⟨⟨s, es⟩, hs, heq⟩ := Option.map_eq_some_iff.mp hrun
  obtain ⟨hcount, hreap⟩ := Prod.mk.inj heq
  have hfew : es.countP Event.isAllocated < 2 ^ 31 - 1 := by
    dsimp only at hcount
    omega
  exact ⟨s, es, hs, hfew, hreap, treeConsistent_of_exec hs hfew⟩

end Xv6.Process
