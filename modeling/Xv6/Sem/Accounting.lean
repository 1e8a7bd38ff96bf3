import Xv6.Sem.References

/-!
# The number of semaphores in use

`sems.used` is meant to be the number of semaphores with references.  `semget` counts a new
semaphore twice, once in `semcreate` and once more after `semset`, while `semfree` takes back one,
so `used` exceeds the number of semaphores in use by the number of semaphores that have ever been
created (`used_of_exec`).  With every create/free cycle the system comes one step closer to
`ENSEMSYS`.

The drift has one good side: `semcreate` never runs out.  Twenty semaphores in use would have been
counted forty times, and `semget` refuses from 21 on.
-/

namespace Xv6.Sem

open Process Lib

variable {s t : State} {p : Slot} {c : ℕ} {i key v : ℤ} {m m' : Sems}

def inUse (m : Sems) : ℤ :=
  ∑ k : Fin SYSMAXSEM, if 0 < (m.list (k : ℕ)).references then 1 else 0

def Event.isCreated : Event → Bool
  | .created _ _ => true
  | _ => false

theorem isId_fin (k : Fin SYSMAXSEM) : IsId (k : ℕ) := ⟨by omega, by have := k.2; omega⟩

theorem inUse_congr (h : ∀ i, IsId i → (0 < (m'.list i).references ↔ 0 < (m.list i).references)) :
    inUse m' = inUse m := by
  refine Finset.sum_congr rfl fun k _ => ?_
  simp only [h _ (isId_fin k)]

theorem inUse_of_one (hkey : IsId key)
    (h : ∀ i, IsId i → i ≠ key → (m'.list i).references = (m.list i).references) :
    inUse m' = inUse m + ((if 0 < (m'.list key).references then 1 else 0) -
      if 0 < (m.list key).references then 1 else 0) := by
  obtain ⟨k, rfl⟩ : ∃ k : Fin SYSMAXSEM, ((k : ℕ) : ℤ) = key := by
    obtain ⟨h1, h2⟩ := hkey
    exact ⟨⟨key.toNat, by omega⟩, by simp only; omega⟩
  refine sum_eq_add_of_eq_off (p := k) fun r hr => ?_
  rw [h _ (isId_fin r)]
  intro heq
  exact hr (Fin.ext (by omega))

theorem inUse_nonneg (m : Sems) : 0 ≤ inUse m :=
  Finset.sum_nonneg fun k _ => by split_ifs <;> omega

theorem inUse_eq_of_all (h : ∀ i, IsId i → 0 < (m.list i).references) : inUse m = SYSMAXSEM := by
  unfold inUse
  rw [Finset.sum_congr rfl fun k _ => if_pos (h _ (isId_fin k))]
  simp

/-- `used` less the number in use grows by `n`, and the number in use by `n` at most. -/
structure Drift (m m' : Sems) (n : ℤ) : Prop where
  used : m'.used - inUse m' = m.used - inUse m + n
  le : inUse m' ≤ inUse m + n

theorem Drift.refl (m : Sems) : Drift m m 0 := ⟨(add_zero _).symm, (add_zero _).ge⟩

theorem drift_referenced (h : Referenced m m' key (m.references key + 1))
    (hpos : IsId key → 0 < (m.list key).references) : Drift m m' 0 := by
  have : inUse m' = inUse m := by
    refine inUse_congr fun i hi => ?_
    rw [h.references i hi]
    split_ifs with hik
    · subst hik
      have := hpos hi
      rw [Sems.references_of_isId hi]
      omega
    · exact Iff.rfl
  exact ⟨by rw [this, h.used, add_zero], by rw [this, add_zero]⟩

/-- A semaphore without references gets one, and counts twice. -/
theorem drift_created (hid : IsId key)
    (hlist : ∀ k, m'.list k = if k = key then ⟨v, 1⟩ else m.list k)
    (hz : (m.list key).references = 0) (hu : m'.used = m.used + 2) : Drift m m' 1 := by
  have hin := inUse_of_one hid (m := m) fun i _ hi => congrArg Semaphore.references
    ((hlist i).trans (if_neg hi))
  rw [hlist, if_pos rfl, hz, if_pos zero_lt_one, if_neg (lt_irrefl _)] at hin
  exact ⟨by omega, by omega⟩

theorem drift_freed (hid : IsId key) (hpos : 0 < (m.list key).references)
    (hu : m'.used = m.used - if (m.list key).references = 1 then 1 else 0)
    (href : ∀ i, IsId i → (m'.list i).references =
      (m.list i).references - if i = key then 1 else 0) : Drift m m' 0 := by
  have hsame : ∀ i, IsId i → i ≠ key → (m'.list i).references = (m.list i).references := by
    intro i hi hik
    rw [href i hi, if_neg hik]
    omega
  have hin := inUse_of_one hid hsame
  rw [href key hid, if_pos rfl, if_pos hpos] at hin
  constructor
  · split_ifs at hin hu <;> omega
  · split_ifs at hin <;> omega

/-- Values do not matter, except for the one that is `used`. -/
theorem drift_setValue {x : ℤ} (hkey : key ≠ SYSMAXSEM) : Drift m (m.setValue key x) 0 := by
  have : inUse (m.setValue key x) = inUse m :=
    inUse_congr fun i _ => by rw [Sems.setValue_references]
  exact ⟨by rw [this, Sems.setValue_used hkey, add_zero], by rw [this, add_zero]⟩

/-- **What a step does to the count**: a new semaphore counts twice, and everything else is right.
The table is not full when `semget` makes one, or it was full with `used` at most `SYSMAXSEM`. -/
theorem SemsEffect.drift {e : Event} (h : SemsEffect m m' e)
    (he : ∀ p, e ≠ .up p SYSMAXSEM ∧ e ≠ .down p SYSMAXSEM) :
    Drift m m' (if e.isCreated then 1 else 0) ∨ m.used ≤ SYSMAXSEM ∧ inUse m = SYSMAXSEM := by
  cases h with
  | same hplain =>
    have : e.isCreated = false := by
      cases e <;> first | rfl | cases hplain
    rw [this]
    exact Or.inl (Drift.refl m)
  | created hused hlist hfound =>
    rcases hfound with ⟨hid, hz, hu⟩ | ⟨-, hall⟩
    · exact Or.inl (drift_created hid hlist hz hu)
    · exact Or.inr ⟨hused, inUse_eq_of_all hall⟩
  | referenced hpos hstep he' =>
    rcases he' with rfl | rfl <;> exact Or.inl (drift_referenced hstep hpos)
  | dropped hid hpos hu _ href he' =>
    have : e.isCreated = false := by
      rcases he' with ⟨-, rfl⟩ | ⟨-, hplain⟩
      · rfl
      · cases e <;> first | rfl | cases hplain
    rw [this]
    exact Or.inl (drift_freed hid hpos hu href)
  | @down p key _ => exact Or.inl (drift_setValue fun hk => (he p).2 (by rw [hk]))
  | @up p key => exact Or.inl (drift_setValue fun hk => (he p).1 (by rw [hk]))

/-! ## Runs -/

/-- No `semup` or `semdown` has gone through on the key `SYSMAXSEM`, whose value is `used`. -/
def Spared (es : List Event) : Prop :=
  ∀ e ∈ es, ∀ p, e ≠ .up p SYSMAXSEM ∧ e ≠ .down p SYSMAXSEM

/-- **`used` exceeds the number of semaphores in use by the number of semaphores created.** -/
theorem used_of_exec {as : List Label} {es : List Event}
    (h : exec step State.boot as = some (s, es)) (hes : Spared es) :
    s.sems.used = inUse s.sems + es.countP Event.isCreated ∧
      inUse s.sems ≤ es.countP Event.isCreated := by
  refine exec_induction (P := fun _ s es => Spared es →
    s.sems.used = inUse s.sems + es.countP Event.isCreated ∧
      inUse s.sems ≤ es.countP Event.isCreated) ?_ ?_ h hes
  · intro _
    exact ⟨rfl, le_rfl⟩
  · intro as s es a t e hrun ih hs hes
    obtain ⟨hused, hle⟩ := ih fun e' he' => hes e' (List.mem_append_left _ he')
    have he := hes e (List.mem_append_right _ (List.mem_singleton_self e))
    rw [List.countP_append, List.countP_singleton]
    rcases (semsEffect_of_exec hrun hs).drift he with ⟨hu, hin⟩ | ⟨hu, hin⟩
    · split_ifs at hu hin ⊢ with hc
      · push_cast
        exact ⟨by omega, by omega⟩
      · push_cast
        exact ⟨by omega, by omega⟩
    · -- twenty semaphores in use count forty times
      rw [SYSMAXSEM] at *
      omega

/-- `used` is the number of semaphores in use, and a `semget(-1, v)` of a process with a free
descriptor returns `ENSEMSYS` exactly when all of them are. -/
structure Accounted (s : State) : Prop where
  used : s.sems.used = inUse s.sems
  full : ∀ c v p, s.caller c = some p → (s.desc p).hasFree →
    ((∃ t, step s (.semget c (-1) v) = some (t, .returned p ENSEMSYS)) ↔
      inUse s.sems = SYSMAXSEM)

theorem getStep_ne_ensemsys (hused : s.sems.used ≤ SYSMAXSEM)
    (hs : step s (.semget c key v) = some (t, .returned p ENSEMSYS)) : False := by
  obtain ⟨q, -, ⟨m, r, hget, -, he⟩ | ⟨m, semid, -, -, he⟩⟩ := getStep_eq_some hs
  · obtain ⟨-, rfl⟩ := Event.returned.inj he
    rcases (semget_eq_error hget).2 with ⟨hr, -⟩ | ⟨-, hlt⟩ | hr
    · exact absurd hr (by decide)
    · omega
    · exact absurd hr (by decide)
  · split_ifs at he

/-- **The accounting is right exactly until the first semaphore is created.**  In every run of
`semget`, `semfree` and `fork` calls (and of any others, as long as no `semup` or `semdown` goes
through on the key `SYSMAXSEM`), the state reached is accounted for if and only if no
`semget(-1, v)` of the run has made a semaphore. -/
theorem accounted_iff_of_exec {as : List Label} {es : List Event}
    (h : exec step State.boot as = some (s, es)) (hes : Spared es) :
    Accounted s ↔ es.countP Event.isCreated = 0 := by
  obtain ⟨hused, hle⟩ := used_of_exec h hes
  have hnonneg := inUse_nonneg s.sems
  constructor
  · intro hs
    have := hs.used
    omega
  · intro hz
    rw [hz] at hused hle
    refine ⟨by omega, fun c v p _ _ => ⟨?_, ?_⟩⟩
    · rintro ⟨t, ht⟩
      exact (getStep_ne_ensemsys (by rw [SYSMAXSEM]; omega) ht).elim
    · intro hfull
      rw [hfull, SYSMAXSEM] at hle
      omega

/-- Two processes that make no semaphore: init asks for one that nobody has made and forks, the
child does the same with the other calls and exits, and init waits for it. -/
def idleRun : List Label :=
  [.userinit, .proc (.dispatch 0), .semget 0 3 1, .proc (.forkAlloc 0), .forkInit 0,
    .forkParent 0, .semcopy 0, .semcopy 0, .semcopy 0, .semcopy 0, .semcopy 0, .semcopy 0,
    .forkEnqueue 0, .proc (.dispatch 1), .semget 1 3 1, .semdown 1 0, .semup 1 0, .semfree 1 3,
    .proc (.exit 1), .proc (.wait 0), .semfree 0 3]

theorem accounted_iff_of_idleRun : ∃ s es, exec step State.boot idleRun = some (s, es) ∧
    Spared es ∧ Accounted s := by
  have hrun : ((exec step State.boot idleRun).map fun r =>
      (r.2.all Event.isPlain, r.2.countP Event.isCreated)) = some (true, 0) := by
    decide +kernel
  obtain ⟨⟨s, es⟩, hs, heq⟩ := Option.map_eq_some_iff.mp hrun
  obtain ⟨hplain, hnone⟩ := Prod.mk.inj heq
  have hes : Spared es := by
    intro e he p
    have := List.all_eq_true.mp hplain e he
    constructor <;> (rintro rfl; cases this)
  exact ⟨s, es, hs, hes, (accounted_iff_of_exec hs hes).mpr hnone⟩

/-- init creates a semaphore and frees it, 21 times: no semaphore is in use, `used` is 21, and the
next `semget(-1, 1)` returns `ENSEMSYS`. -/
theorem not_accounted_after_cycles : ∃ s es, exec step State.boot
    ([.userinit, .proc (.dispatch 0)] ++
      (List.replicate 21 [.semget 0 (-1) 1, .semattach 0, .semfree 0 0]).flatten) = some (s, es) ∧
    s.sems.used = 21 ∧ inUse s.sems = 0 ∧
    (∃ t p, step s (.semget 0 (-1) 1) = some (t, .returned p ENSEMSYS)) ∧ ¬ Accounted s := by
  have hrun : ((exec step State.boot
      ([.userinit, .proc (.dispatch 0)] ++
        (List.replicate 21 [.semget 0 (-1) 1, .semattach 0, .semfree 0 0]).flatten)).map fun r =>
      (r.1.sems.used, inUse r.1.sems, (step r.1 (.semget 0 (-1) 1)).map (·.2))) =
      some (21, 0, some (.returned 0 ENSEMSYS)) := by
    decide +kernel
  obtain ⟨⟨s, es⟩, hs, heq⟩ := Option.map_eq_some_iff.mp hrun
  obtain ⟨hused, heq'⟩ := Prod.mk.inj heq
  obtain ⟨hin, hget⟩ := Prod.mk.inj heq'
  obtain ⟨⟨t, e⟩, ht, rfl⟩ := Option.map_eq_some_iff.mp hget
  refine ⟨s, es, hs, hused, hin, ⟨t, _, ht⟩, fun hacc => ?_⟩
  have := hacc.used
  rw [hused, hin] at this
  exact absurd this (by decide)

end Xv6.Sem
