import Xv6.Sem.Invariant

/-!
# `semdown` and `kill`

`kill` marks a process and, if it sleeps, makes it runnable, so that it comes to the check in `trap`
and exits.  The loops of the kernel that wait look at the mark when they wake up.  The loop of
`semdown` does not: it looks at the value of the semaphore only, and a marked process goes back to
sleep if there is nothing to take (`killed_sleeps_again`).  Once it is scheduled again, a marked
process leaves `semdown` in exactly the states in which an unmarked one does (`leaves_iff_of_exec`).
-/

namespace Xv6.Sem

open Process Lib

variable {s t : State} {p : Slot} {c : ℕ} {key : ℤ} {e : Event}

/-- The process `p`, which CPU `c` runs, leaves `semdown` with its next round: it does not go back
to sleep, and its next step is the return to `trap`. -/
def Leaves (s : State) (c : ℕ) (p : Slot) : Prop :=
  ∀ t e, step s (.semdownRetry c) = some (t, e) → t.pc p = .idle ∧ (t.pt.proc p).state = .running

/-- A process in the loop of `semdown` can make its round. -/
theorem retryStep_of_down (hp : runningAt s.pt c .user = some p) (hpc : s.pc p = .down key) :
    retryStep c s = some (downBody c p key s) := by
  unfold retryStep
  simp only [hp, hpc]

/-- The process `p` was killed, is in the loop of `semdown(key)`, and has been scheduled again. -/
structure KilledInDown (s : State) (c : ℕ) (p : Slot) (key : ℤ) : Prop where
  killed : (s.pt.proc p).killed = true
  down : s.pc p = .down key
  running : runningAt s.pt c .user = some p

instance (s : State) (c : ℕ) (p : Slot) (key : ℤ) : Decidable (KilledInDown s c p key) :=
  decidable_of_iff ((s.pt.proc p).killed = true ∧ s.pc p = .down key ∧
    runningAt s.pt c .user = some p) ⟨fun h => ⟨h.1, h.2.1, h.2.2⟩, fun h => ⟨h.1, h.2, h.3⟩⟩

/-- **A killed process in `semdown`.**  In every reachable state in which a killed process has been
scheduled again in the loop of `semdown(key)`, it leaves `semdown` with its next round if and only
if the value of the semaphore is positive. -/
theorem leaves_iff_of_exec {as : List Label} {es : List Event}
    (h : exec step State.boot as = some (s, es)) (hp : KilledInDown s c p key) :
    Leaves s c p ↔ 0 < s.sems.value key := by
  have hround : step s (.semdownRetry c) = some (downBody c p key s) :=
    retryStep_of_down hp.running hp.down
  have hrunning := (semInv_exec h).pt.cpu.running (runningAt_eq_some hp.running).1
  rcases downBody_cases c p key s with ⟨hpos, hbody⟩ | ⟨hle, hbody⟩
  · refine iff_of_true (fun t e ht => ?_) hpos
    rw [hround, hbody] at ht
    cases ht
    exact ⟨Function.update_self .., hrunning⟩
  · refine iff_of_false (fun hleaves => ?_) (not_lt.mpr hle)
    rw [hbody] at hround
    have hidle := (hleaves _ _ hround).1
    have hdown :
      (({ s with pt := sleep c p (.sem key) .asleep s.pt } : State).setPc p (.down key)).pc p =
        .down key := Function.update_self ..
    cases hdown.symm.trans hidle

/-- The first process makes a semaphore of value 0, forks, and sleeps in `semdown`.  Its child
runs. -/
def downRun : List Label :=
  [.userinit, .proc (.dispatch 0), .semget 0 (-1) 0, .semattach 0,
    .proc (.forkAlloc 0), .forkInit 0,
    .forkParent 0, .semcopy 0, .semcopy 0, .semcopy 0, .semcopy 0, .semcopy 0, .semcopy 0,
    .forkEnqueue 0, .semdown 0 0, .proc (.dispatch 0)]

/-- The child increments the semaphore and kills its parent, which finds something to take. -/
theorem leaves_after_semup : ∃ s es p,
    exec step State.boot (downRun ++ [.semup 0 0, .proc (.kill 1), .proc (.dispatch 1)]) =
      some (s, es) ∧ KilledInDown s 1 p 0 ∧ Leaves s 1 p := by
  have hrun : ((exec step State.boot
      (downRun ++ [.semup 0 0, .proc (.kill 1), .proc (.dispatch 1)])).map fun x =>
      (decide (KilledInDown x.1 1 0 0), decide (0 < x.1.sems.value 0))) =
      some (true, true) := by
    decide +kernel
  obtain ⟨⟨s, es⟩, hs, heq⟩ := Option.map_eq_some_iff.mp hrun
  obtain ⟨hkilled, hpos⟩ := Prod.mk.inj heq
  have hin := of_decide_eq_true hkilled
  exact ⟨s, es, 0, hs, hin, (leaves_iff_of_exec hs hin).mpr (of_decide_eq_true hpos)⟩

/-- **Counterexample.**  The child kills its parent, which sleeps in `semdown`.  The parent is
scheduled again, and goes back to sleep on the semaphore. -/
theorem killed_sleeps_again : ∃ s t es p,
    exec step State.boot (downRun ++ [.proc (.kill 1), .proc (.dispatch 1)]) = some (s, es) ∧
      KilledInDown s 1 p 0 ∧ step s (.semdownRetry 1) = some (t, .slept p 0) ∧
      (t.pt.proc p).killed = true ∧ (t.pt.proc p).state = .sleeping ∧
      (t.pt.proc p).chan = some (.sem 0) := by
  have hrun :
    ((exec step State.boot (downRun ++ [.proc (.kill 1), .proc (.dispatch 1)])).bind fun x =>
      (step x.1 (.semdownRetry 1)).map fun y =>
        (y.2, decide (KilledInDown x.1 1 0 0), (y.1.pt.proc 0).killed,
          (y.1.pt.proc 0).state, (y.1.pt.proc 0).chan)) =
      some (.slept 0 0, true, true, .sleeping, some (.sem 0)) := by
    decide +kernel
  obtain ⟨⟨s, es⟩, hs, hrun⟩ := Option.bind_eq_some_iff.mp hrun
  obtain ⟨⟨t, e⟩, ht, heq⟩ := Option.map_eq_some_iff.mp hrun
  simp only [Prod.mk.injEq, decide_eq_true_eq] at heq
  obtain ⟨rfl, hin, hkilled, hsleep, hchan⟩ := heq
  exact ⟨s, t, es, 0, hs, hin, ht, hkilled, hsleep, hchan⟩

end Xv6.Sem
