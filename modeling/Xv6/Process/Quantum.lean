import Xv6.Process.Aging

/-!
# The quantum

`trap` counts the timer ticks of the running process in `ticks_count` and makes it yield at
`QUANTUM` of them.  The declaration says that the field counts ticks without releasing the CPU.
`yield` starts the count again, but a process that gives up the CPU in `sleep` takes its count
along, and so does the next process in its slot after `exit`.

`quantumKept_iff` says when a dispatch is followed by a whole quantum: exactly when the dispatched
process has a count of 0.  In a run all counts stay below `QUANTUM` (`ticksCount_lt`).
-/

namespace Xv6.Process

open PTable Lib

variable {s t : PTable} {p r : Slot} {c : ℕ} {e : Event}

/-! ## The counts -/

/-- **Only a tick of its own CPU changes the count of a process.** -/
theorem step_ticksCount (h : Inv s) {a : Label} (hs : step s a = some (t, e))
    (hr : ∀ c, a = .tick c → s.cpu c ≠ some r) :
    (t.proc r).ticksCount = (s.proc r).ticksCount := by
  have hticked : ∀ {c q}, a = .tick c → s.cpu c = some q → r ≠ q ∧
    (ticked s q).proc r = s.proc r := by
    intro c q ha hq
    have hne : r ≠ q := by
      rintro rfl
      exact hr c ha hq
    exact ⟨hne, by rw [ticked, modProc_proc, if_neg hne]⟩
  cases step_kind h hs with
  | plain hm => exact (Prod.mk.inj (hm.clocks r)).2
  | dispatch ht =>
    obtain ⟨q, -, -, -, hclocks⟩ := scheduler_proc h ht
    exact (Prod.mk.inj (hclocks r)).2
  | tick hc => rw [(hticked rfl hc).2]
  | expire hc _ _ hm =>
    rw [(Prod.mk.inj (hm.clocks r)).2, modProc_proc, if_neg (hticked rfl hc).1, (hticked rfl hc).2]
  | aging ht => exact (h.aging ht).2.field (·.ticksCount) (fun _ => rfl) r

theorem tick_ticksCount (h : Inv s) (hc : s.cpu c = some p) (hs : tick c s = some (t, e)) :
    ((s.proc p).ticksCount + 1) % 2 ^ 32 < QUANTUM ∧ t.cpu = s.cpu ∧
        (t.proc p).ticksCount = ((s.proc p).ticksCount + 1) % 2 ^ 32 ∨
      QUANTUM ≤ ((s.proc p).ticksCount + 1) % 2 ^ 32 ∧ t.cpu c = none ∧
        (t.proc p).ticksCount = 0 := by
  have hcount : ((ticked s p).proc p).ticksCount = ((s.proc p).ticksCount + 1) % 2 ^ 32 := by
    rw [ticked, modProc_proc_self]
  cases h.section_of_step (a := .tick c) hs with
  | tick hq _ hlt =>
    cases hc.symm.trans hq
    exact Or.inl ⟨hcount ▸ hlt, rfl, hcount⟩
  | expire hq hp hle =>
    cases hc.symm.trans hq
    refine Or.inr ⟨hcount ▸ hle, ?_, ?_⟩
    · rw [(yield_rest _ _ _).1]
      exact if_pos rfl
    · rw [(Prod.mk.inj ((moves_expire hp).clocks p)).2, modProc_proc_self]

theorem exists_tick (hc : s.cpu c = some p) : ∃ t, tick c s = some (t, .none) := by
  rw [tick, hc]
  exact ⟨_, rfl⟩

/-- **Between sections no process has reached its quantum.** -/
theorem ticksCount_lt {as : List Label} {es : List Event}
    (h : exec step PTable.boot as = some (s, es)) (r : Slot) :
    (s.proc r).ticksCount < QUANTUM := by
  refine (exec_invariant (I := fun u => Inv u ∧ ∀ r, (u.proc r).ticksCount < QUANTUM) ?_
    ⟨inv_boot, fun _ => ?_⟩ h).2 r
  · rintro u a v e ⟨hi, hlt⟩ hv
    refine ⟨hi.step hv, fun r => ?_⟩
    by_cases hr : ∃ c, a = .tick c ∧ u.cpu c = some r
    · obtain ⟨c, rfl, hc⟩ := hr
      rcases tick_ticksCount hi hc hv with ⟨hless, -, hcount⟩ | ⟨-, -, hcount⟩
      · rwa [hcount]
      · rw [hcount]
        decide
    · rw [step_ticksCount hi hv fun c ha hc => hr ⟨c, ha, hc⟩]
      exact hlt r
  · show 0 < QUANTUM
    decide

/-- Until the next dispatch on a CPU, its process stays there or leaves it idle. -/
theorem step_cpu (h : Inv s) {a : Label} (ha : a ≠ .dispatch c) (hs : step s a = some (t, e)) :
    t.cpu c = s.cpu c ∨ t.cpu c = none := by
  cases step_kind h hs with
  | plain hm => exact hm.cpu c
  | @dispatch d _ ht =>
    obtain ⟨q, k, -, -, -, -, -, -, rfl⟩ := scheduler_eq_some h ht
    have hcd : c ≠ d := by
      rintro rfl
      exact ha rfl
    rw [modProc_cpu, setCpu_cpu, if_neg hcd, removefromlevel_eq]
    exact Or.inl rfl
  | tick => exact Or.inl rfl
  | expire _ _ _ hm => exact hm.cpu c
  | aging ht =>
    rw [(h.aging ht).2.cpu]
    exact Or.inl rfl

/-! ## Ticks since the dispatch -/

/-- From `s` on, until CPU `c` dispatches again, a tick makes its process yield only as the
`QUANTUM`th tick at the earliest. -/
def QuantumKept (c : ℕ) (s : PTable) : Prop :=
  ∀ bs t es u e, exec step s bs = some (t, es) → .dispatch c ∉ bs →
    step t (.tick c) = some (u, e) → u.cpu c = none → QUANTUM ≤ bs.count (.tick c) + 1

/-- The count of a process that was dispatched with the count 0 is the number of ticks since. -/
theorem ticksCount_eq_count {bs : List Label} {es : List Event} (hi : Inv s)
    (hc : s.cpu c = some p) (hp : (s.proc p).ticksCount = 0) (h : exec step s bs = some (t, es))
    (hbs : .dispatch c ∉ bs) :
    Inv t ∧ (t.cpu c = none ∨
      t.cpu c = some p ∧ (t.proc p).ticksCount = bs.count (.tick c) % 2 ^ 32) := by
  refine exec_induction (P := fun bs t _ => .dispatch c ∉ bs → Inv t ∧ (t.cpu c = none ∨
    t.cpu c = some p ∧ (t.proc p).ticksCount = bs.count (.tick c) % 2 ^ 32)) ?_ ?_ h hbs
  · exact fun _ => ⟨hi, Or.inr ⟨hc, by rw [hp]; rfl⟩⟩
  · intro bs t es a u e _ ih hu hbs
    rw [List.mem_append, not_or, List.mem_singleton] at hbs
    obtain ⟨hit, hcases⟩ := ih hbs.1
    have hcpu := step_cpu hit (Ne.symm hbs.2) hu
    refine ⟨hit.step hu, ?_⟩
    rcases hcases with hnone | ⟨hct, hcount⟩
    · rw [hnone, or_self] at hcpu
      exact Or.inl hcpu
    · rw [List.count_append]
      by_cases ha : a = .tick c
      · subst ha
        rw [List.count_singleton_self]
        rcases tick_ticksCount hit hct hu with ⟨-, hsame, hnext⟩ | ⟨-, hnone, -⟩
        · refine Or.inr ⟨by rw [hsame]; exact hct, ?_⟩
          rw [hnext, hcount, Nat.mod_add_mod]
        · exact Or.inl hnone
      · rw [List.count_singleton, if_neg (by simpa using ha), Nat.add_zero]
        have hsame : (u.proc p).ticksCount = (t.proc p).ticksCount := by
          refine step_ticksCount hit hu fun d had hd => ha ?_
          rw [had, hit.cpu.unique hd hct]
        rw [hct] at hcpu
        rw [hsame]
        exact hcpu.symm.imp_right fun hcu => ⟨hcu, hcount⟩

/-- **When the quantum is measured from the dispatch.**  A process that the scheduler dispatches
gets `QUANTUM` ticks before `trap` makes it yield, exactly when its count is 0 at that moment. -/
theorem quantumKept_iff {as : List Label} {es : List Event}
    (hs : exec step PTable.boot as = some (s, es)) (ht : step s (.dispatch c) = some (t, e))
    (hp : t.cpu c = some p) : QuantumKept c t ↔ (s.proc p).ticksCount = 0 := by
  have hrun : exec step PTable.boot (as ++ [.dispatch c]) = some (t, es ++ [e]) :=
    exec_concat_iff.mpr ⟨s, es, e, hs, ht, rfl⟩
  have hi := inv_exec hrun
  have hlt : (t.proc p).ticksCount < 3 := ticksCount_lt hrun p
  have hquantum : QUANTUM = 3 := rfl
  have hkeep : (t.proc p).ticksCount = (s.proc p).ticksCount :=
    step_ticksCount (inv_exec hs) ht fun d hd => by cases hd
  rw [← hkeep]
  constructor
  · intro hkept
    by_contra hne
    obtain ⟨u, hu⟩ := exists_tick hp
    rcases tick_ticksCount hi hp hu with ⟨hless, hcpu, hcount⟩ | ⟨-, hnone, -⟩
    · -- the count was 1, and the second tick is the last
      have hpu : u.cpu c = some p := by
        rw [hcpu]
        exact hp
      obtain ⟨v, hv⟩ := exists_tick hpu
      have hiu := hi.step (a := .tick c) hu
      rcases tick_ticksCount hiu hpu hv with ⟨hless', -, -⟩ | ⟨-, hnone, -⟩
      · rw [hcount] at hless'
        omega
      · have hle := hkept [.tick c] u [.none] v .none
          (exec_cons_iff.mpr ⟨u, .none, [], hu, rfl, rfl⟩) (by simp) hv hnone
        rw [List.count_singleton_self] at hle
        omega
    · have hle := hkept [] t [] u .none rfl List.not_mem_nil hu hnone
      rw [List.count_nil] at hle
      omega
  · intro hzero bs u es' v e' hu hbs hv hnone
    obtain ⟨hiu, hcases⟩ := ticksCount_eq_count hi hp hzero hu hbs
    rcases hcases with hidle | ⟨hcu, hcount⟩
    · -- without a process there is no tick
      have : step u (.tick c) = none := by rw [step, tick, hidle]
      rw [this] at hv
      cases hv
    · rcases tick_ticksCount hiu hcu hv with ⟨-, hsame, -⟩ | ⟨hle, -, -⟩
      · rw [hsame, hcu] at hnone
        cases hnone
      · rw [hcount, Nat.mod_add_mod] at hle
        exact hle.trans (Nat.mod_le _ _)

/-- The first dispatch of init. -/
theorem quantumKept_iff_init : ∃ s es t e, exec step PTable.boot [.userinit] = some (s, es) ∧
    step s (.dispatch 0) = some (t, e) ∧ QuantumKept 0 t := by
  have hrun : (exec step PTable.boot [.userinit]).map (fun r => (step r.1 (.dispatch 0)).map
      fun r' => (r'.1.cpu 0, (r.1.proc 0).ticksCount)) =
      some (some (some 0, 0)) := by decide +kernel
  obtain ⟨⟨s, es⟩, hs, hstep⟩ := Option.map_eq_some_iff.mp hrun
  obtain ⟨⟨t, e⟩, ht, hpair⟩ := Option.map_eq_some_iff.mp hstep
  obtain ⟨hp, hzero⟩ := Prod.mk.inj hpair
  exact ⟨s, es, t, e, hs, ht, (quantumKept_iff hs ht hp).mpr hzero⟩

def napRun : List Label :=
  [.userinit, .dispatch 0, .tick 0, .tick 0, .sleep 0 (.other 1), .wakeup (.other 1)]

/-- **A short quantum.**  Init runs for two ticks, sleeps and is woken up; the first tick after its
next dispatch makes it yield. -/
theorem not_quantumKept_sleep : ∃ s es t e, exec step PTable.boot napRun = some (s, es) ∧
    step s (.dispatch 0) = some (t, e) ∧ ¬ QuantumKept 0 t := by
  have hrun : (exec step PTable.boot napRun).map (fun r => (step r.1 (.dispatch 0)).map
      fun r' => (step r'.1 (.tick 0)).map fun r'' => r''.1.cpu 0) =
      some (some (some none)) := by decide +kernel
  obtain ⟨⟨s, es⟩, hs, hstep⟩ := Option.map_eq_some_iff.mp hrun
  obtain ⟨⟨t, e⟩, ht, hnext⟩ := Option.map_eq_some_iff.mp hstep
  obtain ⟨⟨u, e'⟩, hu, hnone⟩ := Option.map_eq_some_iff.mp hnext
  refine ⟨s, es, t, e, hs, ht, fun hkept => ?_⟩
  have hle := hkept [] t [] u e' rfl List.not_mem_nil hu hnone
  exact absurd hle (by decide)

end Xv6.Process
