import Xv6.Process.Frame
import Xv6.Sem.Machine

/-!
# The calls in progress

`SemInv` ties the program points of the semaphore machine to the process table: only a process
that can act is inside a call, a process in `semcopy` has copied a prefix of its descriptors to
the embryo that it has claimed, and a process in the loop of `semdown` has the semaphore attached
and, while it sleeps, sleeps on it.

The process table itself moves as in `Process.Machine` (`pt_step`), so everything proved there
holds here.  Of the other processes a step only uses `Process.Frame`, which gives one rule for all
sections of `proc.c` (`SemInv.of_frame`); the rest are updates of one program point or of the
descriptors of one process.
-/

namespace Xv6.Sem

open Process Lib

/-! ## What the steps do -/

/-- The calls that can be refused, and `semdown`. -/
def Label.isTry : Label → Bool
  | .semget _ _ _ => true
  | .semdown _ _ => true
  | .semdownRetry _ => true
  | .semup _ _ => true
  | _ => false

/-- **The steps**, with what they have found. -/
inductive Part (s : State) : Label → State → Event → Prop
  | proc {a pt' e} (ha : s.allows a = true) (hs : Process.step s.pt a = some (pt', e)) :
      Part s (.proc a) { s with pt := pt' } (.proc e)
  | userinit {p pt' e} (hs : Process.step s.pt .userinit = some (pt', e))
      (hp : pt'.initproc = some p) :
      Part s .userinit (({ s with pt := pt' } : State).setDesc p Desc.init) (.proc e)
  | forkInit {c p np} (hf : forkingOn s.pt c = some (p, np)) (hpc : s.pc p = .idle) :
      Part s (.forkInit c) ((s.setDesc np Desc.init).setPc p .inited) .none
  | forkFail {c p np pt' e} (hf : forkingOn s.pt c = some (p, np))
      (hpc : s.pc p = .idle ∨ s.pc p = .inited)
      (hs : Process.step s.pt (.forkFail c) = some (pt', e)) :
      Part s (.forkFail c) (({ s with pt := pt' } : State).setPc p .idle) (.proc e)
  | forkParent {c p np pt' e} (hf : forkingOn s.pt c = some (p, np)) (hpc : s.pc p = .inited)
      (hs : Process.step s.pt (.forkParent c) = some (pt', e)) :
      Part s (.forkParent c) (({ s with pt := pt' } : State).setPc p (.copying 0)) (.proc e)
  | copy {c p np i m d} (hf : forkedOn s.pt c = some (p, np)) (hpc : s.pc p = .copying i)
      (hi : i < PROCMAXSEM)
      (hcopy : semcopy s.sems (s.desc np) i ((s.desc p).semids.getD i (-1)) = some (m, d)) :
      Part s (.semcopy c) ((({ s with sems := m } : State).setDesc np d).setPc p (.copying (i + 1)))
        .none
  | copied {c p np i} (hf : forkedOn s.pt c = some (p, np)) (hpc : s.pc p = .copying i)
      (hi : PROCMAXSEM ≤ i) : Part s (.semcopy c)
        ((s.setDesc np ⟨(s.desc np).semids, (s.desc p).semcount⟩).setPc p .copied) .none
  | forkEnqueue {c p np pt' e} (hf : forkedOn s.pt c = some (p, np)) (hpc : s.pc p = .copied)
      (hs : Process.step s.pt (.forkEnqueue c) = some (pt', e)) :
      Part s (.forkEnqueue c) (({ s with pt := pt' } : State).setPc p .idle) (.proc e)
  | refused {a p r} (ha : a.isTry = true) : Part s a s (.returned p r)
  | get {c key v p m semid} (hp : s.caller c = some p)
      (hget : semget s.sems (s.desc p) key v = some (m, .ok semid)) :
      Part s (.semget c key v) (({ s with sems := m } : State).setPc p (.attach semid))
        (if key = -1 then .created semid v else .referenced key)
  | attach {c p semid} (hrun : runningAt s.pt c .user = some p) (hpc : s.pc p = .attach semid) :
      Part s (.semattach c)
        ((s.setDesc p ((semattach (s.desc p) semid).getD (s.desc p))).setPc p .idle)
        (.returned p semid)
  | free {c key p m d r} (hp : s.caller c = some p)
      (hfree : semfree s.sems (s.desc p) key = some (m, d, r)) :
      Part s (.semfree c key) (({ s with sems := m } : State).setDesc p d)
        (if r = 0 ∧ s.sems.references key = 1 then .freed key else .returned p r)
  | down {a c p key} (ha : a.isTry = true) (hrun : runningAt s.pt c .user = some p)
      (hpc : s.pc p = .idle ∧ ¬ invalid s.sems (s.desc p) key = true ∨ s.pc p = .down key)
      (hv : s.sems.value key > 0) : Part s a
        (({ s with sems := s.sems.setValue key (s.sems.value key - 1) } : State).setPc p .idle)
        (.down p key)
  | slept {a c p key} (ha : a.isTry = true) (hrun : runningAt s.pt c .user = some p)
      (hpc : s.pc p = .idle ∧ ¬ invalid s.sems (s.desc p) key = true ∨ s.pc p = .down key)
      (hv : s.sems.value key ≤ 0) : Part s a
        (({ s with pt := sleep c p (.sem key) .asleep s.pt } : State).setPc p (.down key))
        (.slept p key)
  | up {c key p} (hp : s.caller c = some p) : Part s (.semup c key)
        (({ s with sems := s.sems.setValue key (s.sems.value key + 1) } : State).setPc p
          (if s.sems.value key = 0 then .up key else .idle)) (.up p key)
  | wakeup {c p key} (hrun : runningAt s.pt c .user = some p) (hpc : s.pc p = .up key) :
      Part s (.semupWakeup c)
        (({ s with pt := wakeup1 (some (.sem key)) s.pt } : State).setPc p .idle) (.returned p 0)

variable {s t : State} {p np : Slot} {c : ℕ} {key : ℤ} {a : Process.Label} {pt' : PTable} {x : Pc}
  {d : Desc}

theorem caller_eq_some (h : s.caller c = some p) :
    runningAt s.pt c .user = some p ∧ s.pc p = .idle := by
  unfold State.caller at h
  split at h
  · cases h
  · rename_i q hq
    split_ifs at h with hpc
    cases h
    exact ⟨hq, hpc⟩

theorem lift_eq_some {f : State → State} {e : Event} (h : s.lift a f = some (t, e)) :
    ∃ pt' e', Process.step s.pt a = some (pt', e') ∧ t = f { s with pt := pt' } ∧
      e = .proc e' := by
  obtain ⟨⟨pt', e'⟩, hs, heq⟩ := Option.map_eq_some_iff.mp h
  cases heq
  exact ⟨pt', e', hs, rfl, rfl⟩

section Inversion

variable {e : Event}

theorem getStep_eq_some {v : ℤ} (h : getStep c key v s = some (t, e)) :
    ∃ p, s.caller c = some p ∧
      ((∃ m r, semget s.sems (s.desc p) key v = some (m, .error r) ∧ t = s ∧
          e = .returned p r) ∨
        ∃ m semid, semget s.sems (s.desc p) key v = some (m, .ok semid) ∧
          t = ({ s with sems := m } : State).setPc p (.attach semid) ∧
          e = if key = -1 then .created semid v else .referenced key) := by
  unfold getStep at h
  split at h
  · cases h
  · rename_i p hp
    split at h
    · cases h
    · rename_i m r hg
      cases h
      exact ⟨p, hp, Or.inl ⟨m, r, hg, rfl, rfl⟩⟩
    · rename_i m semid hg
      cases h
      exact ⟨p, hp, Or.inr ⟨m, semid, hg, rfl, rfl⟩⟩

theorem forkInit_eq_some (h : forkInit c s = some (t, e)) :
    ∃ p np, forkingOn s.pt c = some (p, np) ∧ s.pc p = .idle ∧
      t = (s.setDesc np Desc.init).setPc p .inited ∧ e = .none := by
  unfold forkInit at h
  split at h
  · cases h
  · rename_i p np hp
    split_ifs at h with hpc
    cases h
    exact ⟨p, np, hp, hpc, rfl, rfl⟩

theorem attachStep_eq_some (h : attachStep c s = some (t, e)) :
    ∃ p semid, runningAt s.pt c .user = some p ∧ s.pc p = .attach semid ∧
      t = (s.setDesc p ((semattach (s.desc p) semid).getD (s.desc p))).setPc p .idle ∧
      e = .returned p semid := by
  unfold attachStep at h
  split at h
  · cases h
  · rename_i p hp
    split at h
    · rename_i semid hpc
      cases h
      exact ⟨p, semid, hp, hpc, rfl, rfl⟩
    · cases h

theorem freeStep_eq_some (h : freeStep c key s = some (t, e)) :
    ∃ p m d r, s.caller c = some p ∧ semfree s.sems (s.desc p) key = some (m, d, r) ∧
      t = ({ s with sems := m } : State).setDesc p d ∧
      e = if r = 0 ∧ s.sems.references key = 1 then .freed key else .returned p r := by
  unfold freeStep at h
  split at h
  · cases h
  · rename_i p hp
    split at h
    · cases h
    · rename_i m d r hf
      cases h
      exact ⟨p, m, d, r, hp, hf, rfl, rfl⟩

theorem fork_part {f : Option (Slot × Slot)} {P : Pc → Prop} [DecidablePred P] {l : Process.Label}
    (h : (match f with
      | none => none
      | some (p, _) => if P (s.pc p) then s.lift l fun t => t.setPc p x else none) = some (t, e)) :
    ∃ p np pt' e', f = some (p, np) ∧ P (s.pc p) ∧ Process.step s.pt l = some (pt', e') ∧
      t = ({ s with pt := pt' } : State).setPc p x ∧ e = .proc e' := by
  split at h
  · cases h
  · rename_i p np
    split_ifs at h with hpc
    obtain ⟨pt', e', hs, rfl, rfl⟩ := lift_eq_some h
    exact ⟨p, np, pt', e', rfl, hpc, hs, rfl, rfl⟩

theorem copyStep_part (h : copyStep c s = some (t, e)) : Part s (.semcopy c) t e := by
  unfold copyStep at h
  split at h
  · cases h
  · rename_i p np hp
    split at h
    · rename_i i hpc
      split_ifs at h with hi
      · split at h
        · cases h
        · rename_i m d hcopy
          cases h
          exact .copy hp hpc hi hcopy
      · cases h
        exact .copied hp hpc (Nat.le_of_not_lt hi)
    · cases h

theorem downBody_cases (c : ℕ) (p : Slot) (key : ℤ) (s : State) :
    (s.sems.value key > 0 ∧ downBody c p key s =
      (({ s with sems := s.sems.setValue key (s.sems.value key - 1) } : State).setPc p .idle,
        .down p key)) ∨
    s.sems.value key ≤ 0 ∧ downBody c p key s =
      (({ s with pt := sleep c p (.sem key) .asleep s.pt } : State).setPc p (.down key),
        .slept p key) := by
  unfold downBody
  cases hd : semdown s.sems key with
  | some m =>
    obtain ⟨hv, rfl⟩ := semdown_eq_some hd
    exact Or.inl ⟨hv, rfl⟩
  | none => exact Or.inr ⟨semdown_eq_none_iff.mp hd, rfl⟩

theorem downBody_part {a : Label} (ha : a.isTry = true) (hrun : runningAt s.pt c .user = some p)
    (hpc : s.pc p = .idle ∧ ¬ invalid s.sems (s.desc p) key = true ∨ s.pc p = .down key)
    (h : downBody c p key s = (t, e)) : Part s a t e := by
  rcases downBody_cases c p key s with ⟨hv, heq⟩ | ⟨hv, heq⟩
  · cases heq.symm.trans h
    exact .down ha hrun hpc hv
  · cases heq.symm.trans h
    exact .slept ha hrun hpc hv

theorem upStep_part (h : upStep c key s = some (t, e)) : Part s (.semup c key) t e := by
  unfold upStep at h
  split at h
  · cases h
  · rename_i p hp
    split_ifs at h with hinv
    · cases h
      exact .refused rfl
    · split at h
      · cases h
      · rename_i m old hup
        obtain ⟨rfl, rfl, -⟩ := semup_eq_some hup
        cases h
        exact .up hp

/-- **Every step is one of them.** -/
theorem step_part {a : Label} (h : step s a = some (t, e)) : Part s a t e := by
  cases a with
  | proc a =>
    rw [step] at h
    split_ifs at h with ha
    obtain ⟨pt', e', hs, rfl, rfl⟩ := lift_eq_some h
    exact .proc ha hs
  | userinit =>
    rw [step, userinit] at h
    split at h
    · cases h
    · rename_i pt' e' hs
      split at h
      · cases h
      · rename_i p hp
        cases h
        exact .userinit hs hp
  | forkInit c =>
    obtain ⟨p, np, hf, hpc, rfl, rfl⟩ := forkInit_eq_some h
    exact .forkInit hf hpc
  | forkFail c =>
    obtain ⟨p, np, pt', e', hf, hpc, hs, rfl, rfl⟩ :=
      fork_part (P := fun x => x = .idle ∨ x = .inited) h
    exact .forkFail hf hpc hs
  | forkParent c =>
    obtain ⟨p, np, pt', e', hf, hpc, hs, rfl, rfl⟩ := fork_part (P := fun x => x = .inited) h
    exact .forkParent hf hpc hs
  | semcopy c => exact copyStep_part h
  | forkEnqueue c =>
    obtain ⟨p, np, pt', e', hf, hpc, hs, rfl, rfl⟩ := fork_part (P := fun x => x = .copied) h
    exact .forkEnqueue hf hpc hs
  | semget c key v =>
    obtain ⟨p, hp, ⟨m, r, -, rfl, rfl⟩ | ⟨m, semid, hget, rfl, rfl⟩⟩ := getStep_eq_some h
    · exact .refused rfl
    · exact .get hp hget
  | semattach c =>
    obtain ⟨p, semid, hrun, hpc, rfl, rfl⟩ := attachStep_eq_some h
    exact .attach hrun hpc
  | semfree c key =>
    obtain ⟨p, m, d, r, hp, hfree, rfl, rfl⟩ := freeStep_eq_some h
    exact .free hp hfree
  | semdown c key =>
    rw [step, downStep] at h
    split at h
    · cases h
    · rename_i p hp
      obtain ⟨hrun, hpc⟩ := caller_eq_some hp
      split_ifs at h with hinv
      · cases h
        exact .refused rfl
      · exact downBody_part rfl hrun (Or.inl ⟨hpc, hinv⟩) (Option.some.inj h)
  | semdownRetry c =>
    rw [step, retryStep] at h
    split at h
    · cases h
    · rename_i p hrun
      split at h
      · rename_i key hpc
        exact downBody_part rfl hrun (Or.inr hpc) (Option.some.inj h)
      · cases h
  | semup c key => exact upStep_part h
  | semupWakeup c =>
    rw [step, wakeupStep] at h
    split at h
    · cases h
    · rename_i p hrun
      split at h
      · rename_i key hpc
        obtain ⟨rfl, rfl⟩ := Prod.mk.inj (Option.some.inj h)
        exact .wakeup hrun hpc
      · cases h

theorem step_sleep {s : PTable} (chan : Chan) (hrun : runningAt s c .user = some p) :
    Process.step s (.sleep c chan) = some (sleep c p chan .asleep s, .none) := by
  simp only [Process.step, hrun]
  rfl

end Inversion

/-! ## The invariant -/

/-- The number of descriptors that have been copied to the child. -/
def Pc.copyCount : Pc → Option ℕ
  | .inited => some 0
  | .copying i => some i
  | .copied => some PROCMAXSEM
  | _ => none

/-- What holds of the calls in progress. -/
structure SemInv (s : State) : Prop where
  pt : Inv s.pt
  idle : ∀ p, ¬ (s.pt.proc p).state.Live → s.pc p = .idle
  length : ∀ p, (s.desc p).semids.length = PROCMAXSEM
  copy : ∀ p k, (s.pc p).copyCount = some k → k ≤ PROCMAXSEM ∧
    ∃ np, (s.pt.proc p).context.child = some np ∧
      (s.desc np).semids =
        (s.desc p).semids.take k ++ List.replicate (PROCMAXSEM - k) (-1)
  down : ∀ p key, s.pc p = .down key → key ∈ (s.desc p).semids ∧
    ((s.pt.proc p).state = .sleeping → (s.pt.proc p).chan = some (.sem key))

theorem SemInv.live (h : SemInv s) (hp : s.pc p ≠ .idle) : (s.pt.proc p).state.Live := by
  by_contra hl
  exact hp (h.idle p hl)

theorem SemInv.live_of_cpu (h : SemInv s) (hc : s.pt.cpu c = some p) :
    (s.pt.proc p).state.Live := Or.inr (Or.inr (h.pt.cpu.running hc))

theorem SemInv.not_live_child (h : SemInv s) (hp : (s.pt.proc p).context.child = some np) :
    ¬ (s.pt.proc np).state.Live := fun hl => hl.ne.2.1 (h.pt.fork.embryo hp)

theorem semInv_boot : SemInv State.boot where
  pt := inv_boot
  idle _ _ := rfl
  length _ := rfl
  copy p k h := by cases h
  down p key h := by cases h

/-! ## The rules -/

theorem SemInv.setSems (h : SemInv s) (m : Sems) : SemInv { s with sems := m } :=
  ⟨h.pt, h.idle, h.length, h.copy, h.down⟩

/-- The process table moves and leaves all processes alone but `x`, which is in no call
afterwards. -/
theorem SemInv.of_frame (h : SemInv s) {x : Option Slot} (hpt : Inv t.pt)
    (hf : Frame s.pt t.pt x) (hdesc : t.desc = s.desc)
    (hpc : ∀ q, t.pc q = .idle ∨ t.pc q = s.pc q ∧ some q ≠ x)
    (hlive : ∀ q, t.pc q ≠ .idle → (s.pt.proc q).state.Live → (t.pt.proc q).state.Live) :
    SemInv t where
  pt := hpt
  idle q hq := by
    by_contra hne
    rcases hpc q with hi | ⟨hsame, -⟩
    · exact hne hi
    · exact hq (hlive q hne (h.live (hsame ▸ hne)))
  length q := by
    rw [hdesc]
    exact h.length q
  copy q k hk := by
    rcases hpc q with hi | ⟨hsame, hqx⟩
    · rw [hi] at hk
      cases hk
    · rw [hsame] at hk
      obtain ⟨hle, np, hnp, hids⟩ := h.copy q k hk
      rw [hdesc]
      refine ⟨hle, np, ?_, hids⟩
      rcases hf.context q hqx with hctx | ⟨hctx, -⟩
      · rw [hctx]
        exact hnp
      · rw [hctx] at hnp
        cases hnp
  down q key hq := by
    rcases hpc q with hi | ⟨hsame, hqx⟩
    · rw [hi] at hq
      cases hq
    · rw [hsame] at hq
      obtain ⟨hmem, hchan⟩ := h.down q key hq
      rw [hdesc]
      refine ⟨hmem, fun hsleep => ?_⟩
      obtain ⟨h1, h2⟩ := hf.sleeping q hqx hsleep
      exact h2.trans (hchan h1)

theorem SemInv.setPc (h : SemInv s) (hlive : (s.pt.proc p).state.Live)
    (hcopy : ∀ k, x.copyCount = some k → k ≤ PROCMAXSEM ∧
      ∃ np, (s.pt.proc p).context.child = some np ∧ (s.desc np).semids =
        (s.desc p).semids.take k ++ List.replicate (PROCMAXSEM - k) (-1))
    (hdown : ∀ key, x = .down key → key ∈ (s.desc p).semids ∧
      ((s.pt.proc p).state = .sleeping → (s.pt.proc p).chan = some (.sem key))) :
    SemInv (s.setPc p x) := by
  have hpc : ∀ q, (s.setPc p x).pc q = if q = p then x else s.pc q :=
    fun q => Function.update_apply s.pc p x q
  refine ⟨h.pt, ?_, h.length, ?_, ?_⟩
  · intro q hq
    have hqp : q ≠ p := by
      rintro rfl
      exact hq hlive
    rw [hpc, if_neg hqp]
    exact h.idle q hq
  · intro q k hk
    rw [hpc] at hk
    split_ifs at hk with hqp
    · rw [hqp]
      exact hcopy k hk
    · exact h.copy q k hk
  · intro q key hq
    rw [hpc] at hq
    split_ifs at hq with hqp
    · rw [hqp]
      exact hdown key hq
    · exact h.down q key hq

/-- A process moves to a point that needs nothing but that it can act. -/
theorem SemInv.setPc_of_live (h : SemInv s) (hlive : (s.pt.proc p).state.Live)
    (hcopy : x.copyCount = none) (hdown : ∀ key, x ≠ .down key) : SemInv (s.setPc p x) := by
  refine h.setPc hlive ?_ ?_
  · intro k hk
    rw [hcopy] at hk
    cases hk
  · intro key hk
    exact absurd hk (hdown key)

/-- The descriptors of `p` change, which no call in progress needs. -/
theorem SemInv.setDesc_of (h : SemInv s) (hlen : d.semids.length = PROCMAXSEM)
    (hcopy : ∀ q k, (s.pc q).copyCount = some k →
      q ≠ p ∧ (s.pt.proc q).context.child ≠ some p)
    (hdown : ∀ q key, s.pc q = .down key → q ≠ p) : SemInv (s.setDesc p d) := by
  have hd : ∀ q, (s.setDesc p d).desc q = if q = p then d else s.desc q :=
    fun q => Function.update_apply s.desc p d q
  refine ⟨h.pt, h.idle, fun q => ?_, fun q k hk => ?_, fun q key hq => ?_⟩
  · rw [hd]
    split_ifs
    · exact hlen
    · exact h.length q
  · obtain ⟨hle, n, hn, hids⟩ := h.copy q k hk
    obtain ⟨hqp, hchild⟩ := hcopy q k hk
    have hnp : n ≠ p := by
      rintro rfl
      exact hchild hn
    refine ⟨hle, n, hn, ?_⟩
    rw [hd, hd, if_neg hqp, if_neg hnp]
    exact hids
  · rw [hd, if_neg (hdown q key hq)]
    exact h.down q key hq

theorem SemInv.setDesc (h : SemInv s) (hlive : (s.pt.proc p).state.Live)
    (hlen : d.semids.length = PROCMAXSEM) (hcopy : (s.pc p).copyCount = none)
    (hdown : ∀ key, s.pc p ≠ .down key) : SemInv (s.setDesc p d) := by
  refine h.setDesc_of hlen (fun q k hk => ⟨?_, fun hn => h.not_live_child hn hlive⟩)
    fun q key hq => ?_
  · rintro rfl
    rw [hcopy] at hk
    cases hk
  · rintro rfl
    exact hdown key hq

theorem SemInv.setDesc_child (h : SemInv s)
    (hnp : (s.pt.proc p).context.child = some np) (hlen : d.semids.length = PROCMAXSEM)
    (hcopy : (s.pc p).copyCount = none) : SemInv (s.setDesc np d) := by
  have hidle := h.idle np (h.not_live_child hnp)
  refine h.setDesc_of hlen (fun q k hk => ⟨?_, fun hn => ?_⟩) fun q key hq => ?_
  · rintro rfl
    rw [hidle] at hk
    cases hk
  · rw [h.pt.fork.unique hn hnp, hcopy] at hk
    cases hk
  · rintro rfl
    rw [hidle] at hq
    cases hq

/-! ## Every step keeps the invariant -/

/-- The sections that `proc` stands for are run by processes in no call. -/
theorem idle_of_allows (h : s.allows a = true) (hp : actor s.pt a = some p) : s.pc p = .idle := by
  have key : ∀ c, s.idleOn c = true → s.pt.cpu c = some p → s.pc p = .idle := by
    intro c hidle hc
    rw [State.idleOn, hc] at hidle
    exact of_decide_eq_true hidle
  cases a with
  | sleep c chan =>
    cases chan with
    | other addr => exact key c h hp
    | _ => cases h
  | nice c inc => exact key c h hp
  | forkAlloc c => exact key c h hp
  | exit c => exact key c h hp
  | wait c => exact key c h hp
  | _ => first | cases hp | cases h

theorem SemInv.procStep (h : SemInv s) {e : Process.Event}
    (ha : ∀ p, actor s.pt a = some p → s.pc p = .idle)
    (hs : Process.step s.pt a = some (pt', e)) : SemInv { s with pt := pt' } := by
  refine h.of_frame (x := actor s.pt a) (h.pt.step hs) (frame_step h.pt hs) rfl ?_ ?_
  · intro q
    by_cases hq : some q = actor s.pt a
    · exact Or.inl (ha q hq.symm)
    · exact Or.inr ⟨rfl, hq⟩
  · intro q hpc hl
    exact live_of_ne_actor h.pt hs (fun hq => hpc (ha q hq.symm)) hl

/-- A section of `proc.c` that is part of a call of `p`, which is over or goes on elsewhere. -/
theorem SemInv.actStep (h : SemInv s) {e : Process.Event}
    (ha : ∀ q, actor s.pt a = some q → q = p) (hs : Process.step s.pt a = some (pt', e)) :
    SemInv (({ s with pt := pt' } : State).setPc p .idle) := by
  have hpc : ∀ q, ((({ s with pt := pt' } : State).setPc p .idle)).pc q =
      if q = p then .idle else s.pc q := fun q => Function.update_apply s.pc p .idle q
  refine h.of_frame (x := actor s.pt a) (h.pt.step hs) (frame_step h.pt hs) rfl ?_ ?_
  · intro q
    rw [hpc]
    split_ifs with hq
    · exact Or.inl rfl
    · exact Or.inr ⟨rfl, fun hh => hq (ha q hh.symm)⟩
  · intro q hne hl
    rw [hpc] at hne
    split_ifs at hne with hq
    · exact absurd rfl hne
    · exact live_of_ne_actor h.pt hs (fun hh => hq (ha q hh.symm)) hl

theorem SemInv.setPc_setPc (x y : Pc) : (s.setPc p x).setPc p y = s.setPc p y := by
  unfold State.setPc
  rw [Function.update_idem]

theorem SemInv.userinit (h : SemInv s) {e : Process.Event}
    (hps : Process.step s.pt .userinit = some (pt', e)) (hp : pt'.initproc = some p) :
    SemInv (({ s with pt := pt' } : State).setDesc p Desc.init) := by
  obtain ⟨q, hq, hunused, hlive⟩ := userinit_spec hps
  obtain rfl : q = p := Option.some.inj (hq.symm.trans hp)
  have h1 : SemInv { s with pt := pt' } :=
    h.procStep (a := .userinit) (fun p hp => by cases hp) hps
  have hidle : s.pc q = .idle := h.idle q fun hl => hl.ne.1 hunused
  refine h1.setDesc ((hlive q).mpr (Or.inr rfl)) (List.length_replicate) ?_ ?_
  · rw [show ({ s with pt := pt' } : State).pc q = s.pc q from rfl, hidle]
    rfl
  · intro key hk
    rw [show ({ s with pt := pt' } : State).pc q = s.pc q from rfl, hidle] at hk
    cases hk

theorem child_of_forkingOn (h : forkingOn s.pt c = some (p, np)) :
    s.pt.cpu c = some p ∧ (s.pt.proc p).context.child = some np := by
  obtain ⟨hc, hctx⟩ := forkingOn_eq_some h
  exact ⟨hc, by rw [hctx]; rfl⟩

theorem child_of_forkedOn (h : forkedOn s.pt c = some (p, np)) :
    s.pt.cpu c = some p ∧ (s.pt.proc p).context.child = some np := by
  obtain ⟨hc, hctx⟩ := forkedOn_eq_some h
  exact ⟨hc, by rw [hctx]; rfl⟩

theorem SemInv.forkInit (h : SemInv s) (hf : forkingOn s.pt c = some (p, np))
    (hpc : s.pc p = .idle) : SemInv ((s.setDesc np Desc.init).setPc p .inited) := by
  obtain ⟨hc, hchild⟩ := child_of_forkingOn hf
  have h1 : SemInv (s.setDesc np Desc.init) :=
    h.setDesc_child hchild List.length_replicate (by rw [hpc]; rfl)
  refine h1.setPc (h.live_of_cpu hc) ?_ ?_
  · intro k hk
    obtain rfl : 0 = k := Option.some.inj hk
    refine ⟨Nat.zero_le _, np, hchild, ?_⟩
    rw [show (s.setDesc np Desc.init).desc np = Desc.init from Function.update_self ..]
    rfl
  · intro key hk
    cases hk

theorem SemInv.forkParent (h : SemInv s) {e : Process.Event}
    (hf : forkingOn s.pt c = some (p, np)) (hpc : s.pc p = .inited)
    (hps : Process.step s.pt (.forkParent c) = some (pt', e)) :
    SemInv (({ s with pt := pt' } : State).setPc p (.copying 0)) := by
  obtain ⟨hc, hchild⟩ := child_of_forkingOn hf
  have h1 : SemInv (({ s with pt := pt' } : State).setPc p .idle) :=
    h.actStep (a := .forkParent c) (fun q hq => Option.some.inj (hq.symm.trans hc)) hps
  rw [← SemInv.setPc_setPc .idle]
  have hs' := hps
  simp only [Process.step, Process.forkParent, hf] at hs'
  obtain ⟨rfl, -⟩ := Prod.mk.inj (Option.some.inj hs')
  obtain ⟨hle, n, hn, hids⟩ := h.copy p 0 (by rw [hpc]; rfl)
  obtain rfl : n = np := Option.some.inj (hn.symm.trans hchild)
  refine h1.setPc ?_ ?_ ?_
  · exact (live_step h.pt hps rfl p).mpr (h.live_of_cpu hc)
  · intro k hk
    obtain rfl : 0 = k := Option.some.inj hk
    refine ⟨hle, n, ?_, hids⟩
    simp only [State.setPc, PTable.modProc_proc_self]
    rfl
  · intro key hk
    cases hk

/-- `semcopy` changes the descriptors of the child and then the point of the parent. -/
theorem SemInv.copyTo (h : SemInv s) (hf : forkedOn s.pt c = some (p, np)) (m : Sems)
    {k : ℕ} (hx : x.copyCount = some k) (hk : k ≤ PROCMAXSEM)
    (hd : d.semids = (s.desc p).semids.take k ++ List.replicate (PROCMAXSEM - k) (-1)) :
    SemInv ((({ s with sems := m } : State).setDesc np d).setPc p x) := by
  obtain ⟨hc, hchild⟩ := child_of_forkedOn hf
  have hlive := h.live_of_cpu hc
  have hne : p ≠ np := by
    rintro rfl
    exact h.not_live_child hchild hlive
  have h0 : SemInv (s.setPc p .idle) := h.setPc_of_live hlive rfl fun key hh => by cases hh
  have h1 : SemInv ((s.setPc p .idle).setDesc np d) := by
    refine h0.setDesc_child hchild ?_ ?_
    · rw [hd, List.length_append, List.length_take, List.length_replicate, h.length p]
      omega
    · rw [show (s.setPc p .idle).pc p = .idle from Function.update_self ..]
      rfl
  have h2 : SemInv (((s.setPc p .idle).setDesc np d).setPc p x) := by
    refine h1.setPc hlive (fun k' hk' => ?_) fun key hh => ?_
    · obtain rfl : k = k' := Option.some.inj (hx.symm.trans hk')
      refine ⟨hk, np, hchild, ?_⟩
      rw [show ((s.setPc p .idle).setDesc np d).desc np = d from Function.update_self ..,
        show ((s.setPc p .idle).setDesc np d).desc p = s.desc p from
          Function.update_of_ne hne _ _]
      exact hd
    · rw [hh] at hx
      cases hx
  have h3 := h2.setSems m
  rw [show ((s.setPc p .idle).setDesc np d).setPc p x = (s.setDesc np d).setPc p x from
    SemInv.setPc_setPc (s := s.setDesc np d) .idle x] at h3
  exact h3

/-- What the parent in round `i` of `semcopy` has copied. -/
theorem SemInv.copiedSoFar (h : SemInv s) (hf : forkedOn s.pt c = some (p, np)) {i : ℕ}
    (hpc : s.pc p = .copying i) : i ≤ PROCMAXSEM ∧ (s.desc np).semids =
      (s.desc p).semids.take i ++ List.replicate (PROCMAXSEM - i) (-1) := by
  obtain ⟨hle, n, hn, hids⟩ := h.copy p i (by rw [hpc]; rfl)
  obtain rfl : n = np := Option.some.inj (hn.symm.trans (child_of_forkedOn hf).2)
  exact ⟨hle, hids⟩

theorem SemInv.slept (h : SemInv s) (hrun : runningAt s.pt c .user = some p)
    (hkey : key ∈ (s.desc p).semids) :
    SemInv (({ s with pt := sleep c p (.sem key) .asleep s.pt } : State).setPc p (.down key)) := by
  obtain ⟨hc, hctx⟩ := runningAt_eq_some hrun
  have hs := step_sleep (.sem key) hrun
  have h1 := h.actStep (p := p) (a := .sleep c (.sem key))
    (fun q hq => Option.some.inj (hq.symm.trans hc)) hs
  rw [← SemInv.setPc_setPc .idle]
  refine h1.setPc ?_ (fun k hk => by cases hk) ?_
  · exact (live_step h.pt hs rfl p).mpr (h.live_of_cpu hc)
  · intro k hk
    obtain rfl := Pc.down.inj hk
    refine ⟨hkey, fun _ => ?_⟩
    show ((sleep c p (.sem key) .asleep s.pt).proc p).chan = some (.sem key)
    rw [sleep, sched, PTable.setCpu_proc, PTable.modProc_proc_self]

theorem SemInv.step (h : SemInv s) {a : Label} {e : Event} (hs : step s a = some (t, e)) :
    SemInv t := by
  cases step_part hs with
  | proc ha hps => exact h.procStep (fun p hp => idle_of_allows ha hp) hps
  | userinit hps hp => exact h.userinit hps hp
  | forkInit hf hpc => exact h.forkInit hf hpc
  | @forkFail c p _ _ _ hf _ hps =>
    obtain ⟨hc, -⟩ := child_of_forkingOn hf
    exact h.actStep (a := .forkFail c) (fun q hq => Option.some.inj (hq.symm.trans hc)) hps
  | forkParent hf hpc hps => exact h.forkParent hf hpc hps
  | @copy c p np i m d hf hpc hi hcopy =>
    obtain ⟨-, hids⟩ := h.copiedSoFar hf hpc
    refine h.copyTo hf m (k := i + 1) rfl hi ?_
    rw [← h.length p] at hi hids ⊢
    rcases semcopy_eq_some hcopy with ⟨hid, -, rfl⟩ | ⟨-, rfl, -⟩
    · rw [hids]
      exact take_append_replicate_of_getD_eq hi hid
    · rw [hids]
      exact set_take_append_replicate hi
  | copied hf hpc hi =>
    obtain ⟨hle, hids⟩ := h.copiedSoFar hf hpc
    obtain rfl := le_antisymm hle hi
    exact h.copyTo hf s.sems (k := PROCMAXSEM) rfl le_rfl hids
  | @forkEnqueue c p _ _ _ hf _ hps =>
    obtain ⟨hc, -⟩ := child_of_forkedOn hf
    exact h.actStep (a := .forkEnqueue c) (fun q hq => Option.some.inj (hq.symm.trans hc)) hps
  | refused => exact h
  | get hp _ =>
    obtain ⟨hc, -⟩ := runningAt_eq_some (caller_eq_some hp).1
    exact (h.setSems _).setPc_of_live (h.live_of_cpu hc) rfl fun key hh => by cases hh
  | @attach c p semid hrun hpc =>
    obtain ⟨hc, -⟩ := runningAt_eq_some hrun
    have hlive := h.live_of_cpu hc
    refine (h.setDesc hlive ?_ (by rw [hpc]; rfl) ?_).setPc_of_live hlive rfl fun key hh => by
      cases hh
    · cases hd : semattach (s.desc p) semid with
      | none => exact h.length p
      | some d =>
        obtain ⟨l, hl, rfl⟩ := Option.map_eq_some_iff.mp hd
        exact (length_replaceFirst hl).trans (h.length p)
    · intro key hk
      rw [hpc] at hk
      cases hk
  | @free c key p m d r hp hfree =>
    obtain ⟨hrun, hpc⟩ := caller_eq_some hp
    obtain ⟨hc, -⟩ := runningAt_eq_some hrun
    refine (h.setSems m).setDesc (h.live_of_cpu hc) ?_ ?_ ?_
    · rcases semfree_eq_some hfree with ⟨-, rfl, -⟩ | ⟨-, -, hd, -⟩
      · exact h.length p
      · obtain ⟨l, hl, rfl⟩ := Option.map_eq_some_iff.mp hd
        exact (length_replaceFirst hl).trans (h.length p)
    · show (s.pc p).copyCount = none
      rw [hpc]
      rfl
    · show ∀ key, s.pc p ≠ .down key
      rw [hpc]
      exact fun key hh => by cases hh
  | down _ hrun =>
    obtain ⟨hc, -⟩ := runningAt_eq_some hrun
    exact (h.setSems _).setPc_of_live (h.live_of_cpu hc) rfl fun key hh => by cases hh
  | @slept _ c p key _ hrun hpc =>
    refine h.slept hrun ?_
    rcases hpc with ⟨-, hinv⟩ | hpc
    · exact (not_invalid hinv).2.2.2
    · exact (h.down p key hpc).1
  | up hp =>
    obtain ⟨hc, -⟩ := runningAt_eq_some (caller_eq_some hp).1
    refine (h.setSems _).setPc_of_live (h.live_of_cpu hc) ?_ ?_
    · split_ifs <;> rfl
    · intro k hk
      split_ifs at hk
  | @wakeup c p key => exact h.actStep (a := .wakeup (.sem key)) (fun q hq => by cases hq) rfl

theorem semInv_exec {as : List Label} {es : List Event}
    (h : exec step State.boot as = some (s, es)) : SemInv s :=
  exec_invariant (fun hi hs => hi.step hs) semInv_boot h

end Xv6.Sem
