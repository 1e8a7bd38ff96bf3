import Xv6.Sem.References

/-!
# No wakeup is lost

`semup` wakes the sleepers only if it found the value 0, and only after it has let go of
`sems.lock`.  In between, other processes can decrement, increment or go to sleep.  Still nobody is
stranded: `NoLost` says that while somebody sleeps on a semaphore with a positive value, some
`semup` on it has yet to call `wakeup`.

A process goes to sleep on a value that is not positive; the value becomes positive only by an
increment from 0, which leaves such a `semup` behind; and when the last of them calls `wakeup`,
nobody sleeps on the semaphore any more.  A new semaphore would break this if a sleeper were left
from the previous one with the same id, but a sleeper has the semaphore attached, so it has
references and `semcreate` does not choose it.
-/

namespace Xv6.Sem

open Process Lib

variable {s t : State} {p q : Slot} {c : ℕ} {key : ℤ} {a : Process.Label} {e : Process.Event}
  {pt' : PTable} {x : Pc}

/-- The process sleeps in `semdown(key)`. -/
def SleepsOn (s : State) (p : Slot) (key : ℤ) : Prop :=
  (s.pt.proc p).state = .sleeping ∧ s.pc p = .down key

/-- Whoever sleeps on a semaphore with a positive value will be woken: some `semup` has done its
increment from 0 and not yet its `wakeup`. -/
def NoLost (s : State) : Prop :=
  ∀ p key, IsId key → SleepsOn s p key → 0 < (s.sems.list key).value → ∃ q, s.pc q = .up key

theorem NoLost.mono (h : NoLost s)
    (hsleep : ∀ p key, IsId key → SleepsOn t p key → 0 < (t.sems.list key).value →
      SleepsOn s p key ∧ 0 < (s.sems.list key).value)
    (hup : ∀ q key, s.pc q = .up key → t.pc q = .up key) : NoLost t := by
  intro p key hkey hp hv
  obtain ⟨hp', hv'⟩ := hsleep p key hkey hp hv
  obtain ⟨q, hq⟩ := h p key hkey hp' hv'
  exact ⟨q, hup q key hq⟩

/-- A section of `proc.c` puts nobody to sleep who is inside `semdown`. -/
theorem sleepsOn_procStep (h : SemInv s) (hs : Process.step s.pt a = some (pt', e))
    (hpt : t.pt = pt') (ha : ∀ q, t.pc q = .down key → actor s.pt a ≠ some q ∧ s.pc q = .down key)
    (hp : SleepsOn t p key) : SleepsOn s p key := by
  obtain ⟨hsleep, hpc⟩ := hp
  obtain ⟨hact, hpc'⟩ := ha p hpc
  rw [hpt] at hsleep
  exact ⟨((frame_step h.pt hs).sleeping p (Ne.symm hact) hsleep).1, hpc'⟩

/-- A section of `proc.c` that is part of no call, or ends one other than `semup`. -/
theorem NoLost.procStep (h : NoLost s) (hinv : SemInv s)
    (hs : Process.step s.pt a = some (pt', e)) (hpt : t.pt = pt') (hsems : t.sems = s.sems)
    (hact : ∀ q key, t.pc q = .down key → actor s.pt a ≠ some q ∧ s.pc q = .down key)
    (hup : ∀ q key, s.pc q = .up key → t.pc q = .up key) : NoLost t := by
  refine h.mono (fun p key _ hp hv => ?_) hup
  rw [hsems] at hv
  exact ⟨sleepsOn_procStep hinv hs hpt (fun q => hact q key) hp, hv⟩

theorem pc_setPc_of_ne (hx : ∀ key, x ≠ .down key)
    (hq : (s.setPc p x).pc q = .down key) : q ≠ p ∧ s.pc q = .down key := by
  rw [setPc_pc] at hq
  split_ifs at hq with hqp
  · exact absurd hq (hx key)
  · exact ⟨hqp, hq⟩

theorem pc_up_setPc (hp : ∀ key, s.pc p ≠ .up key)
    (hq : s.pc q = .up key) : (s.setPc p x).pc q = .up key := by
  have hqp : q ≠ p := by
    rintro rfl
    exact hp key hq
  rw [setPc_pc, if_neg hqp]
  exact hq

/-- A step of `p`, which is not at the end of `semup`, in the semaphore table. -/
theorem NoLost.semStep (h : NoLost s) (hpt : t.pt = s.pt)
    (hpc : t.pc = (s.setPc p x).pc) (hx : ∀ key, x ≠ .down key) (hp : ∀ key, s.pc p ≠ .up key)
    (hv : ∀ q key, IsId key → SleepsOn s q key → 0 < (t.sems.list key).value →
      0 < (s.sems.list key).value) : NoLost t := by
  refine h.mono (fun q key hkey hq hpos => ?_) fun q key hq => ?_
  · obtain ⟨hsleep, hdown⟩ := hq
    rw [hpt] at hsleep
    rw [hpc] at hdown
    have hq' : SleepsOn s q key := ⟨hsleep, (pc_setPc_of_ne hx hdown).2⟩
    exact ⟨hq', hv q key hkey hq' hpos⟩
  · rw [hpc]
    exact pc_up_setPc hp hq

/-- A sleeper has the semaphore attached, so the semaphore has references. -/
theorem references_pos_of_sleepsOn (hinv : SemInv s)
    (hle : ∀ i p, IsId i → share s i p ≤ (s.sems.list i).references) (hkey : IsId key)
    (hp : SleepsOn s p key) : 0 < (s.sems.list key).references := by
  have hmem := (hinv.down p key hp.2).1
  have hcount := List.count_pos_iff.mpr hmem
  have hshare := hle key p hkey
  rw [share_of_live (hinv.live (by rw [hp.2]; simp))] at hshare
  omega

theorem NoLost.get (h : NoLost s) (hinv : SemInv s)
    (hle : ∀ i p, IsId i → share s i p ≤ (s.sems.list i).references) {v semid : ℤ} {m : Sems}
    (hp : s.caller c = some p) (hget : semget s.sems (s.desc p) key v = some (m, .ok semid)) :
    NoLost (({ s with sems := m } : State).setPc p (.attach semid)) := by
  refine h.semStep (p := p) (x := .attach semid) rfl rfl (by simp) ?_ ?_
  · rw [(caller_eq_some hp).2]
    simp
  · intro q k hk hq hpos
    have hpos' : 0 < (m.list k).value := hpos
    obtain ⟨-, ⟨-, hlist, hcase⟩ | ⟨-, -, -, href⟩⟩ := semget_eq_ok hget
    · have hne : k ≠ semid := by
        rintro rfl
        rcases hcase with ⟨-, hz, -⟩ | ⟨rfl, -⟩
        · have := references_pos_of_sleepsOn hinv hle hk hq
          omega
        · exact absurd hk (by decide)
      rw [hlist, if_neg hne] at hpos'
      exact hpos'
    · rw [href.value k hk] at hpos'
      exact hpos'

/-- `semdown` decrements, which makes no value positive. -/
theorem NoLost.down (h : NoLost s) (hup : ∀ k, s.pc p ≠ .up k) (hv : s.sems.value key > 0) :
    NoLost (({ s with sems := s.sems.setValue key (s.sems.value key - 1) } : State).setPc p
      .idle) := by
  refine h.semStep (p := p) (x := .idle) rfl rfl (by simp) hup ?_
  intro q k hk _ hpos
  have hpos' : 0 < ((s.sems.setValue key (s.sems.value key - 1)).list k).value := hpos
  rw [Sems.setValue_value hk] at hpos'
  split_ifs at hpos' with hkk
  · rw [← hkk, Sems.value_of_isId hk] at hv
    exact hv
  · exact hpos'

/-- `semdown` goes to sleep, and has found no positive value. -/
theorem NoLost.slept (h : NoLost s) (hinv : SemInv s) (hrun : runningAt s.pt c .user = some p)
    (hup : ∀ k, s.pc p ≠ .up k) (hv : s.sems.value key ≤ 0) :
    NoLost (({ s with pt := sleep c p (.sem key) .asleep s.pt } : State).setPc p (.down key)) := by
  refine h.mono ?_ fun q k hq => pc_up_setPc (s := { s with pt := _ }) hup hq
  intro q k hk hq hpos
  have hpos' : 0 < (s.sems.list k).value := hpos
  have hqp : q ≠ p := by
    rintro rfl
    have hqk := hq.2
    rw [setPc_pc, if_pos rfl] at hqk
    obtain rfl := Pc.down.inj hqk
    rw [Sems.value_of_isId hk] at hv
    omega
  obtain ⟨hsleep, hdown⟩ := hq
  rw [setPc_pc, if_neg hqp] at hdown
  refine ⟨⟨((frame_step hinv.pt (step_sleep _ hrun)).sleeping q ?_ hsleep).1, hdown⟩, hpos'⟩
  rw [actor, (runningAt_eq_some hrun).1]
  exact fun hh => hqp (Option.some.inj hh)

theorem NoLost.up (h : NoLost s) (hp : s.caller c = some p) :
    NoLost (({ s with sems := s.sems.setValue key (s.sems.value key + 1) } : State).setPc p
      (if s.sems.value key = 0 then .up key else .idle)) := by
  have hidle := (caller_eq_some hp).2
  intro q k hk hq hpos
  have hpos' : 0 < ((s.sems.setValue key (s.sems.value key + 1)).list k).value := hpos
  rw [Sems.setValue_value hk] at hpos'
  have hq' : SleepsOn s q k := by
    refine ⟨hq.1, (pc_setPc_of_ne (s := { s with sems := _ }) ?_ hq.2).2⟩
    intro k'
    split_ifs <;> simp
  by_cases hzero : k = key ∧ s.sems.value key = 0
  · -- this increment is the one from 0
    refine ⟨p, ?_⟩
    rw [setPc_pc, if_pos rfl, if_pos hzero.2, hzero.1]
  · -- the value was positive before, so that an earlier one is left
    have hold : 0 < (s.sems.list k).value := by
      split_ifs at hpos' with hkk
      · subst hkk
        rw [Sems.value_of_isId hk] at hpos' hzero
        have : (s.sems.list k).value ≠ 0 := fun hz => hzero ⟨rfl, hz⟩
        omega
      · exact hpos'
    obtain ⟨r, hr⟩ := h q k hk hq' hold
    refine ⟨r, pc_up_setPc (s := { s with sems := _ }) ?_ hr⟩
    intro k'
    rw [hidle]
    simp

theorem NoLost.wakeup (h : NoLost s) (hinv : SemInv s) {k : ℤ} (hpc : s.pc p = .up k) :
    NoLost (({ s with pt := wakeup1 (some (.sem k)) s.pt } : State).setPc p .idle) := by
  have hw := wakes_wakeup1 (s := s.pt) (some (.sem k))
  have hnot : ∀ r, ((wakeup1 (some (.sem k)) s.pt).proc r).state = .sleeping →
      ((wakeup1 (some (.sem k)) s.pt).proc r).chan ≠ some (.sem k) :=
    fun r => not_sleeping_wakeup1
  generalize wakeup1 (some (.sem k)) s.pt = pt' at hw hnot
  intro q key hkey hq hpos
  obtain ⟨hsleep, hdown⟩ := hq
  obtain ⟨hqp, hdown⟩ := pc_setPc_of_ne (s := { s with pt := _ }) (by simp) hdown
  have hq' : SleepsOn s q key := ⟨hw.sleeping hsleep, hdown⟩
  have hkk : key ≠ k := by
    rintro rfl
    refine hnot q hsleep ?_
    rw [hw.chan]
    exact (hinv.down q key hdown).2 hq'.1
  obtain ⟨r, hr⟩ := h q key hkey hq' hpos
  refine ⟨r, ?_⟩
  have hrp : r ≠ p := by
    rintro rfl
    rw [hpc] at hr
    exact hkk (Pc.up.inj hr).symm
  rw [setPc_pc, if_neg hrp]
  exact hr

/-- A section of `proc.c` that is part of a call of `p` other than `semdown` and `semup`. -/
theorem NoLost.actStep (h : NoLost s) (hinv : SemInv s) (hact : actor s.pt a = some p)
    (hs : Process.step s.pt a = some (pt', e)) (hx : ∀ key, x ≠ .down key)
    (hp : ∀ key, s.pc p ≠ .up key) : NoLost (({ s with pt := pt' } : State).setPc p x) := by
  refine h.procStep hinv hs rfl rfl (fun q key hq => ?_) fun q key hq => ?_
  · obtain ⟨hqp, hq⟩ := pc_setPc_of_ne (s := { s with pt := pt' }) hx hq
    exact ⟨fun hq' => hqp (Option.some.inj (hq'.symm.trans hact)), hq⟩
  · exact pc_up_setPc (s := { s with pt := pt' }) hp hq

/-- **Every step keeps the sleepers in reach of a `wakeup`.** -/
theorem NoLost.step (h : NoLost s) (hinv : SemInv s)
    (hle : ∀ i p, IsId i → share s i p ≤ (s.sems.list i).references) {a : Label} {e : Event}
    (hs : step s a = some (t, e)) : NoLost t := by
  have hdown : ∀ {p : Slot} {key : ℤ} {P : Prop}, s.pc p = .idle ∧ P ∨ s.pc p = .down key →
      ∀ k, s.pc p ≠ .up k := by
    rintro p key P (⟨hpc, -⟩ | hpc) k <;> rw [hpc] <;> nofun
  cases step_part hs with
  | proc ha hps =>
    refine h.procStep hinv hps rfl rfl (fun q key hq => ⟨fun hact => ?_, hq⟩) fun _ _ hq => hq
    have hq' : s.pc q = .down key := hq
    rw [idle_of_allows ha hact] at hq'
    cases hq'
  | userinit hps =>
    exact h.procStep hinv hps rfl rfl (fun q key hq => ⟨by simp [actor], hq⟩) fun _ _ hq => hq
  | @forkInit c p np _ hpc =>
    exact h.semStep (p := p) (x := .inited) rfl rfl (by simp) (by rw [hpc]; simp)
      fun _ _ _ _ hpos => hpos
  | @forkFail c _ _ _ _ hf hpc hps =>
    refine h.actStep hinv (a := .forkFail c) (child_of_forkingOn hf).1 hps (by simp) fun k => ?_
    rcases hpc with hpc | hpc <;> simp [hpc]
  | @forkParent c _ _ _ _ hf hpc hps =>
    exact h.actStep hinv (a := .forkParent c) (child_of_forkingOn hf).1 hps (by simp)
      (by simp [hpc])
  | @copy c p np k m d _ hpc _ hcopy =>
    refine h.semStep (p := p) (x := .copying (k + 1)) rfl rfl (by simp) (by rw [hpc]; simp) ?_
    intro q key hkey _ hpos
    have hpos' : 0 < (m.list key).value := hpos
    rcases semcopy_eq_some hcopy with ⟨-, rfl, -⟩ | ⟨-, -, href⟩
    · exact hpos'
    · rw [href.value key hkey] at hpos'
      exact hpos'
  | @copied c p np k _ hpc _ =>
    exact h.semStep (p := p) (x := .copied) rfl rfl (by simp) (by rw [hpc]; simp)
      fun _ _ _ _ hpos => hpos
  | @forkEnqueue c _ _ _ _ hf hpc hps =>
    exact h.actStep hinv (a := .forkEnqueue c) (child_of_forkedOn hf).1 hps (by simp)
      (by simp [hpc])
  | refused => exact h
  | get hp hget => exact h.get hinv hle hp hget
  | @attach c p semid _ hpc =>
    exact h.semStep (p := p) (x := .idle) rfl rfl (by simp) (by rw [hpc]; simp)
      fun _ _ _ _ hpos => hpos
  | @free c key p m d r _ hfree =>
    refine h.mono (fun q k hk hq hpos => ⟨hq, ?_⟩) fun _ _ hq => hq
    have hpos' : 0 < (m.list k).value := hpos
    rcases semfree_eq_some hfree with ⟨rfl, -, -⟩ | ⟨-, -, -, -, -, hvalue, -⟩
    · exact hpos'
    · rw [hvalue k hk] at hpos'
      exact hpos'
  | down _ _ hpc hv => exact h.down (hdown hpc) hv
  | slept _ hrun hpc hv => exact h.slept hinv hrun (hdown hpc) hv
  | up hp => exact h.up hp
  | wakeup _ hpc => exact h.wakeup hinv hpc

/-- **No lost wakeup.**  In every state of every run, whatever the initial values, if some process
sleeps in `semdown(key)` and the value of the semaphore is positive, then some `semup(key)` has
done its increment from 0 and not yet its `wakeup`. -/
theorem exists_pending_wakeup_of_exec {as : List Label} {es : List Event}
    (h : exec step State.boot as = some (s, es)) (hkey : IsId key)
    (hsleep : (s.pt.proc p).state = .sleeping) (hpc : s.pc p = .down key)
    (hv : 0 < (s.sems.list key).value) : ∃ q, s.pc q = .up key := by
  have key : NoLost s := by
    refine exec_induction (P := fun _ s _ => NoLost s) ?_ ?_ h
    · intro p key _ hp
      cases hp.2
    · intro as s es a t e hrun ih hs
      exact ih.step (semInv_exec hrun) (fun i p hi => share_le_references hrun hi p) hs
  exact key p _ hkey ⟨hsleep, hpc⟩ hv

def upRun : List Label :=
  [.userinit, .proc (.dispatch 0), .semget 0 (-1) 0, .semattach 0, .proc (.forkAlloc 0),
    .forkInit 0, .forkParent 0, .semcopy 0, .semcopy 0, .semcopy 0, .semcopy 0, .semcopy 0,
    .semcopy 0, .forkEnqueue 0, .proc (.dispatch 1), .semdown 1 0, .semup 0 0]

/-- init and its child share a semaphore of value 0; the child sleeps on it, and init is between
its increment and its `wakeup`. -/
theorem exists_pending_wakeup_of_up_run : ∃ s es p, exec step State.boot upRun = some (s, es) ∧
    IsId 0 ∧ (s.pt.proc p).state = .sleeping ∧ s.pc p = .down 0 ∧ 0 < (s.sems.list 0).value ∧
    ∃ q, s.pc q = .up 0 := by
  have hrun : ((exec step State.boot upRun).map fun r =>
      ((r.1.pt.proc 1).state, r.1.pc 1, (r.1.sems.list 0).value)) =
      some (.sleeping, .down 0, 1) := by
    decide +kernel
  obtain ⟨⟨s, es⟩, hs, heq⟩ := Option.map_eq_some_iff.mp hrun
  obtain ⟨hsleep, heq'⟩ := Prod.mk.inj heq
  obtain ⟨hpc, hv⟩ := Prod.mk.inj heq'
  have hv' : 0 < (s.sems.list 0).value := by
    dsimp only at hv
    omega
  exact ⟨s, es, 1, hs, by decide, hsleep, hpc, hv',
    exists_pending_wakeup_of_exec hs (by decide) hsleep hpc hv'⟩

end Xv6.Sem
