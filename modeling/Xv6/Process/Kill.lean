import Xv6.Process.Aging

/-!
# `kill`

`kill` looks for the first slot with the given pid and marks the process in it.  It does not look at
the state of the slot, and slots that are not in use have pids too: 0 from the start and after
`wait`, and the pid of the child that never was after a `fork` that failed.  `killOk_iff` says for
which tables and pids `kill` does what it should.
-/

namespace Xv6.Process

open PTable Lib

def HasPid (s : PTable) (pid : ℤ) (p : Slot) : Prop :=
  (s.proc p).state ≠ .unused ∧ (s.proc p).pid = pid

instance (s : PTable) (pid : ℤ) (p : Slot) : Decidable (HasPid s pid p) :=
  inferInstanceAs (Decidable (_ ∧ _))

def Proc.offLinks (y : Proc) : Proc := { y with next := none, back := none }

/-- The process `p` is marked as killed and made runnable if it slept; nothing else changes. -/
structure Killed (p : Slot) (s t : PTable) : Prop where
  self : (t.proc p).offLinks = Proc.offLinks { s.proc p with
    killed := true
    state := if (s.proc p).state = .sleeping then .runnable else (s.proc p).state }
  other : ∀ r, r ≠ p → (t.proc r).offLinks = (s.proc r).offLinks
  /-- A sleeper is queued at its level. -/
  queue : ∀ l, IsLevel l → t.queue l =
    if (s.proc p).state = .sleeping ∧ l = (s.proc p).nice then p :: s.queue l else s.queue l
  links : (s.proc p).state ≠ .sleeping → t.links = s.links ∧ t.levels = s.levels
  rest : t.nextpid = s.nextpid ∧ t.initproc = s.initproc ∧ t.cpu = s.cpu

/-- What `kill` should do: it returns 0 exactly when a process has the pid and then kills such a
process; otherwise it returns -1 and changes no slot. -/
structure KillOk (s : PTable) (pid : ℤ) : Prop where
  result : (kill pid s).2 = 0 ↔ ∃ p, HasPid s pid p
  killed : (∃ p, HasPid s pid p) → ∃ p, HasPid s pid p ∧ Killed p s (kill pid s).1
  failed : (∀ p, ¬ HasPid s pid p) → (kill pid s).2 = -1 ∧ (kill pid s).1.proc = s.proc

/-- The slot that `kill` finds is in use.  Otherwise it marks a slot without a process, which goes
unnoticed only if the slot was marked before and the process was killed before and does not
sleep. -/
def KillTarget (s : PTable) (pid : ℤ) : Prop :=
  ∀ p, (slots.find? fun p => (s.proc p).pid = pid) = some p →
    (s.proc p).state ≠ .unused ∨ (s.proc p).killed = true ∧
      ∃ r, HasPid s pid r ∧ (s.proc r).killed = true ∧ (s.proc r).state ≠ .sleeping

variable {s : PTable} {p : Slot} {pid : ℤ}

theorem kill_of_none (h : (slots.find? fun p => (s.proc p).pid = pid) = none) :
    kill pid s = (s, -1) := by
  rw [kill, h]

theorem kill_of_some (h : (slots.find? fun p => (s.proc p).pid = pid) = some p) :
    kill pid s = (if (s.proc p).state = .sleeping then
      enqueue p (s.modProc p fun x => { x with killed := true })
      else s.modProc p fun x => { x with killed := true }, 0) := by
  rw [kill, h]
  simp only [modProc_proc_self]

theorem killed_modProc (hi : Inv s) (hp : (s.proc p).state ≠ .sleeping) :
    Killed p s (s.modProc p fun x => { x with killed := true }) where
  self := by rw [modProc_proc_self, if_neg hp]
  other r hr := by rw [modProc_proc, if_neg hr]
  queue l hl := by
    have hq : Queued (s.modProc p fun x => { x with killed := true }) s.queue none :=
      hi.queue.modProc (fun _ => ⟨rfl, rfl⟩) fun _ => ⟨rfl, rfl⟩
    rw [hq.spells.queue_eq hl, if_neg fun hh => hp hh.1]
  links _ := ⟨links_modProc fun _ => ⟨rfl, rfl⟩, rfl⟩
  rest := ⟨rfl, rfl, rfl⟩

theorem killed_enqueue (hi : Inv s) (hp : (s.proc p).state = .sleeping) :
    Killed p s (enqueue p (s.modProc p fun x => { x with killed := true })) where
  self := by
    rw [enqueue_eq, relink_proc, modProc_proc_self, modProc_proc_self, if_pos hp]
    rfl
  other r hr := by
    rw [enqueue_eq, relink_proc, modProc_proc, if_neg hr, modProc_proc, if_neg hr]
    rfl
  queue l hl := by
    have hne : (s.proc p).state ≠ .runnable := by
      rw [hp]
      simp
    have hq : Queued (s.modProc p fun x => { x with killed := true }) s.queue (some p) :=
      ((Queued.off_iff hne).mpr hi.queue).modProc_off (fun _ => ⟨rfl, rfl⟩) (hi.queue.nice p)
    rw [hq.enqueue.spells.queue_eq hl, modProc_proc_self]
    simp only [hp, true_and]
  links hne := absurd hp hne
  rest := by
    rw [enqueue_nextpid, enqueue_initproc, enqueue_cpu]
    exact ⟨rfl, rfl, rfl⟩

theorem modKilled_eq_self (hp : (s.proc p).killed = true) :
    (s.modProc p fun x => { x with killed := true }) = s := by
  refine PTable.ext (funext fun q => ?_) rfl rfl rfl rfl
  rw [modProc_proc]
  split_ifs with hq
  · rw [hq, ← hp]
  · rfl

theorem killOk_of_none (h : (slots.find? fun p => (s.proc p).pid = pid) = none) :
    KillOk s pid := by
  have hno : ¬ ∃ p, HasPid s pid p := by
    rintro ⟨p, hp⟩
    have := List.find?_eq_none.mp h p (mem_slots p)
    simp [hp.2] at this
  refine ⟨?_, fun hex => absurd hex hno, fun _ => ?_⟩
  · rw [kill_of_none h]
    exact ⟨fun hret => by simp at hret, fun hex => absurd hex hno⟩
  · rw [kill_of_none h]
    exact ⟨rfl, rfl⟩

theorem pid_of_some (h : (slots.find? fun p => (s.proc p).pid = pid) = some p) :
    (s.proc p).pid = pid := by
  have := List.find?_some h
  simpa using this

theorem killOk_of_used (hi : Inv s) (h : (slots.find? fun p => (s.proc p).pid = pid) = some p)
    (hst : (s.proc p).state ≠ .unused) : KillOk s pid := by
  have hp : HasPid s pid p := ⟨hst, pid_of_some h⟩
  refine ⟨?_, fun _ => ⟨p, hp, ?_⟩, fun hno => absurd hp (hno p)⟩
  · rw [kill_of_some h]
    exact ⟨fun _ => ⟨p, hp⟩, fun _ => rfl⟩
  · rw [kill_of_some h]
    by_cases hsleep : (s.proc p).state = .sleeping
    · rw [if_pos hsleep]
      exact killed_enqueue hi hsleep
    · rw [if_neg hsleep]
      exact killed_modProc hi hsleep

/-- The slot that `kill` finds is not in use: it marks the slot and returns 0. -/
theorem killOk_of_unused_iff (hi : Inv s)
    (h : (slots.find? fun p => (s.proc p).pid = pid) = some p)
    (hst : (s.proc p).state = .unused) : KillOk s pid ↔ (s.proc p).killed = true ∧
      ∃ r, HasPid s pid r ∧ (s.proc r).killed = true ∧ (s.proc r).state ≠ .sleeping := by
  have hkill := kill_of_some h
  rw [if_neg (by rw [hst]; simp)] at hkill
  constructor
  · intro hok
    obtain ⟨r, hr, hkilled⟩ := hok.killed (hok.result.mp (by rw [hkill]))
    rw [hkill] at hkilled
    have hrp : p ≠ r := by
      rintro rfl
      exact hr.1 hst
    -- the slot `p` was changed and the process `r` was not, so neither shows
    have hother := hkilled.other p hrp
    have hself := hkilled.self
    rw [modProc_proc_self] at hother
    rw [modProc_proc, if_neg hrp.symm] at hself
    have hmark : true = (s.proc p).killed := congrArg Proc.killed hother
    have hmark' : (s.proc r).killed = true := congrArg Proc.killed hself
    have hstate : (s.proc r).state = if (s.proc r).state = .sleeping then .runnable
        else (s.proc r).state := congrArg Proc.state hself
    refine ⟨hmark.symm, r, hr, hmark', fun hsleep => ?_⟩
    rw [hsleep] at hstate
    cases hstate
  · rintro ⟨hmark, r, hr, hmark', hsleep⟩
    rw [modKilled_eq_self hmark] at hkill
    have hkilled := killed_modProc hi hsleep
    rw [modKilled_eq_self hmark'] at hkilled
    refine ⟨?_, fun _ => ⟨r, hr, ?_⟩, fun hno => absurd hr (hno r)⟩
    · rw [hkill]
      exact ⟨fun _ => ⟨r, hr⟩, fun _ => rfl⟩
    · rw [hkill]
      exact hkilled

/-- **When `kill` hits its target.**  In every reachable state and for every pid, `kill` kills
exactly the process with the pid, exactly when the first slot that has the pid is in use. -/
theorem killOk_iff {as : List Label} {es : List Event}
    (hs : exec step PTable.boot as = some (s, es)) (pid : ℤ) :
    KillOk s pid ↔ KillTarget s pid := by
  have hi := inv_exec hs
  rw [KillTarget]
  cases hfind : slots.find? fun p => (s.proc p).pid = pid with
  | none =>
    refine ⟨fun _ p hp => ?_, fun _ => killOk_of_none hfind⟩
    cases hp
  | some p =>
    simp only [Option.some.injEq, forall_eq']
    by_cases hst : (s.proc p).state = .unused
    · rw [killOk_of_unused_iff hi hfind hst]
      exact ⟨Or.inr, fun h => h.resolve_left fun hne => hne hst⟩
    · exact ⟨fun _ => Or.inl hst, fun _ => killOk_of_used hi hfind hst⟩

/-- Init is killed while it sleeps. -/
theorem killOk_iff_init : ∃ s es, exec step PTable.boot
    [.userinit, .dispatch 0, .sleep 0 (.other 1)] = some (s, es) ∧ KillOk s 1 := by
  have hrun : (exec step PTable.boot [.userinit, .dispatch 0, .sleep 0 (.other 1)]).map
      (fun r => (slots.find? fun p => (r.1.proc p).pid = 1).map fun p => (r.1.proc p).state) =
      some (some .sleeping) := by decide +kernel
  obtain ⟨⟨s, es⟩, hs, hfind⟩ := Option.map_eq_some_iff.mp hrun
  obtain ⟨p, hp, hsleep⟩ := Option.map_eq_some_iff.mp hfind
  refine ⟨s, es, hs, (killOk_iff hs 1).mpr fun q hq => Or.inl ?_⟩
  rw [hp] at hq
  rw [← Option.some.inj hq, hsleep]
  simp

/-- **`kill(0)` succeeds.**  No process has the pid 0, and yet `kill` returns 0 and marks a slot
that is not in use. -/
theorem not_killOk_zero : ∃ s es, exec step PTable.boot [.userinit] = some (s, es) ∧
    (∀ p, ¬ HasPid s 0 p) ∧ (kill 0 s).2 = 0 ∧ ¬ KillOk s 0 := by
  have hrun : (exec step PTable.boot [.userinit]).map
      (fun r => decide ((∀ p, ¬ HasPid r.1 0 p) ∧ (kill 0 r.1).2 = 0)) = some true := by
    decide +kernel
  obtain ⟨⟨s, es⟩, hs, hdec⟩ := Option.map_eq_some_iff.mp hrun
  obtain ⟨hno, hret⟩ := of_decide_eq_true hdec
  refine ⟨s, es, hs, hno, hret, fun hok => ?_⟩
  obtain ⟨p, hp⟩ := hok.result.mp hret
  exact hno p hp

end Xv6.Process
