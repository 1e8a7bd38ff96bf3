import Xv6.Process.Moves

/-!
# Aging

One pass of `aging` walks the levels from 1 on, makes every process that it meets older and moves
the old ones up.  `Process.RunQueue` shows that the walk survives its own changes.  Here the pass
is put together: which processes it visits (`agingTrace`), what the lists are afterwards
(`aging_queue`), and the age and level of each queued process (`aging_age`, `aging_nice`).

Three questions about it follow.

* A process that stays queued reaches level 0 (`level_le_of_waiting`): nothing but the scheduler
  takes it out, and once it is old every pass moves it up.
* The age is never set back, so it is not the time for which a process has been waiting: the age
  that it is queued with decides when it moves up (`promotedLate_iff`).
* The walk goes from the newest process to the oldest and queues what it promotes at the head, so
  processes that are promoted together come out in the opposite order (`aging_keeps_order_iff`).
-/

namespace Xv6.Process

open PTable Lib

variable {s t u t1 t2 t3 : PTable} {p r : Slot} {l i : ℤ} {e : Event} {as : List Label}
  {es : List Event}
  {a : Label}

theorem Inv.queue (h : Inv s) : Queued s s.queue none := by
  obtain ⟨q, hq⟩ := h.queued
  exact hq.queue

theorem Inv.mem_queue_iff (h : Inv s) (hl : IsLevel l) :
    p ∈ s.queue l ↔ (s.proc p).state = .runnable ∧ (s.proc p).nice = l := by
  rw [h.queue.mem_iff l p hl]
  exact ⟨fun hp => ⟨hp.1, hp.2.2⟩, fun hp => ⟨hp.1, Option.some_ne_none p, hp.2⟩⟩

/-! ## One pass -/

/-- The processes for which the body of the inner loop of `aging` runs. -/
def agingVisits (i : ℤ) : ℕ → Option Slot → PTable → List Slot
  | n + 1, some p, s => p :: agingVisits i n (s.proc p).next (agingOne i p s)
  | _, _, _ => []

/-- One pass of `aging`, with the processes that it visits in their order. -/
def agingTrace (s : PTable) : Option (PTable × List Slot) :=
  [1, 2, 3].foldlM (fun (r : PTable × List Slot) (i : ℤ) =>
    (agingLevel i NPROC (r.1.levels i).head r.1).map fun t =>
      (t, r.2 ++ agingVisits i NPROC (r.1.levels i).head r.1)) (s, [])

/-- The processes that a pass of `aging` visits. -/
def visits (s : PTable) : List Slot :=
  match agingTrace s with
  | none => []
  | some r => r.2

theorem agingVisits_eq (hi : IsLevel i) (hi' : 1 ≤ i) :
    ∀ (n : ℕ) (a b : List Slot) (s : PTable), b.length ≤ n → Queued s s.queue none →
      s.queue i = a ++ b → agingVisits i n b.head? s = b
  | n, _, [], s, _, _, _ => by cases n <;> rfl
  | 0, _, p :: b, s, hn, _, _ => by
    rw [List.length_cons] at hn
    omega
  | n + 1, a, p :: b, s, hn, hq, hqi => by
    have hnext : (s.proc p).next = b.head? := ((hq.isQueue i hi).threads a p b hqi).2
    have hone := aged_agingOne hi hi' hq hqi
    rw [List.length_cons] at hn
    rw [List.head?_cons, agingVisits, hnext,
      agingVisits_eq hi hi' n _ b (agingOne i p s) (by omega) hone.queued hone.stay]

theorem agingVisits_level (hi : IsLevel i) (hi' : 1 ≤ i) (hq : Queued s s.queue none) :
    agingVisits i NPROC (s.levels i).head s = s.queue i := by
  have hisq := hq.isQueue i hi
  rw [hisq.head_eq]
  refine agingVisits_eq hi hi' NPROC [] (s.queue i) s ?_ hq rfl
  have := hisq.nodup.length_le_card
  rwa [Fintype.card_fin] at this

/-- **A pass visits the processes of the levels from 1 on.** -/
theorem AgingPass.trace_eq (h : AgingPass s t1 t2 t3) (hq : Queued s s.queue none) :
    agingTrace s = some (t3, s.queue 1 ++ s.queue 2 ++ s.queue 3) := by
  have hv1 := agingVisits_level (i := 1) (by decide) (by decide) hq
  have hv2 := agingVisits_level (i := 2) (by decide) (by decide) h.aged1.queued
  have hv3 := agingVisits_level (i := 3) (by decide) (by decide) h.aged2.queued
  rw [h.aged1.other 2 (by decide) (by decide) (by decide)] at hv2
  rw [h.aged2.other 3 (by decide) (by decide) (by decide),
    h.aged1.other 3 (by decide) (by decide) (by decide)] at hv3
  simp only [agingTrace, List.foldlM_cons, List.foldlM_nil, h.run1, h.run2, h.run3, hv1, hv2, hv3,
    Option.map_some, Option.bind_eq_bind, Option.bind_some, List.nil_append]
  rfl

/-- The processes of level `l` that the next pass moves up, if it visits the level. -/
def promoted (s : PTable) (l : ℤ) : List Slot :=
  if IsLevel l then (s.queue l).filter (isOld s) else []

/-- The processes of level `l` that the next pass leaves there. -/
def waiting (s : PTable) (l : ℤ) : List Slot :=
  if 1 ≤ l then (s.queue l).filter fun p => !isOld s p else s.queue l

/-- A level that is not yet visited holds the ages it had. -/
theorem AgingPass.filter_eq (h : AgingPass s t1 t2 t3) (hq : Queued s s.queue none)
    (g : Bool → Bool) :
    ((s.queue 2).filter fun p => g (isOld t1 p)) = ((s.queue 2).filter fun p => g (isOld s p)) ∧
      ((s.queue 3).filter fun p => g (isOld t2 p)) =
        (s.queue 3).filter fun p => g (isOld s p) := by
  have hne : ∀ {k k' : ℤ} {r : Slot}, IsLevel k → IsLevel k' → k ≠ k' → r ∈ s.queue k →
      r ∉ s.queue k' := fun hk hk' hkk' hr hr' => hkk' (hq.level_unique hk hk' hr hr')
  refine ⟨List.filter_congr fun r hr => ?_, List.filter_congr fun r hr => ?_⟩
  · rw [h.aged1.isOld_eq (hne (by decide) (by decide) (by decide) hr)]
  · rw [h.aged2.isOld_eq (hne (by decide) (by decide) (by decide) hr),
      h.aged1.isOld_eq (hne (by decide) (by decide) (by decide) hr)]

theorem IsLevel.cases (hl : IsLevel l) : l = 0 ∨ l = 1 ∨ l = 2 ∨ l = 3 := by
  have h1 := hl.1
  have h2 : l < 4 := hl.2
  omega

theorem AgingPass.queue_eq (h : AgingPass s t1 t2 t3) (hq : Queued s s.queue none)
    (hl : IsLevel l) :
    t3.queue l = (promoted s (l + 1)).reverse ++ waiting s l := by
  have hold : (s.queue 2).filter (isOld t1) = (s.queue 2).filter (isOld s) ∧
      (s.queue 3).filter (isOld t2) = (s.queue 3).filter (isOld s) := h.filter_eq hq id
  have hyoung := h.filter_eq hq not
  have hstay1 : t1.queue 1 = (s.queue 1).filter fun p => !isOld s p := by
    rw [h.aged1.stay, List.nil_append, List.append_nil]
  have hstay2 : t2.queue 2 = (s.queue 2).filter fun p => !isOld s p := by
    rw [h.aged2.stay, List.nil_append, List.append_nil]
    exact hyoung.1
  have hup1 : t1.queue 0 = ((s.queue 1).filter (isOld s)).reverse ++ s.queue 0 := h.aged1.up
  have hup2 : t2.queue 1 = ((s.queue 2).filter (isOld s)).reverse ++ t1.queue 1 := by
    rw [← hold.1]
    exact h.aged2.up
  have hup3 : t3.queue 2 = ((s.queue 3).filter (isOld s)).reverse ++ t2.queue 2 := by
    rw [← hold.2]
    exact h.aged3.up
  rcases hl.cases with rfl | rfl | rfl | rfl
  · rw [h.aged3.other 0 (by decide) (by decide) (by decide),
      h.aged2.other 0 (by decide) (by decide) (by decide), hup1]
    rfl
  · rw [h.aged3.other 1 (by decide) (by decide) (by decide), hup2, hstay1]
    rfl
  · rw [hup3, hstay2]
    rfl
  · rw [h.aged3.stay, List.nil_append, List.append_nil]
    exact hyoung.2

theorem AgingPass.age_eq (h : AgingPass s t1 t2 t3)
    (hq : Queued s s.queue none) (r : Slot) : (t3.proc r).age =
      if r ∈ s.queue 1 ++ s.queue 2 ++ s.queue 3 then older s r else (s.proc r).age := by
  have hne : ∀ {k k' : ℤ}, IsLevel k → IsLevel k' → k ≠ k' → r ∈ s.queue k → r ∉ s.queue k' :=
    fun hk hk' hkk' hr hr' => hkk' (hq.level_unique hk hk' hr hr')
  simp only [List.mem_append]
  rw [h.aged3.age r, h.aged2.age r, h.aged1.age r]
  by_cases h3 : r ∈ s.queue 3
  · rw [if_pos h3, if_pos (Or.inr h3),
      h.aged2.older_eq (hne (by decide) (by decide) (by decide) h3),
      h.aged1.older_eq (hne (by decide) (by decide) (by decide) h3)]
  · rw [if_neg h3]
    by_cases h2 : r ∈ s.queue 2
    · rw [if_pos h2, if_pos (Or.inl (Or.inr h2)),
        h.aged1.older_eq (hne (by decide) (by decide) (by decide) h2)]
    · rw [if_neg h2]
      by_cases h1 : r ∈ s.queue 1
      · rw [if_pos h1, if_pos (Or.inl (Or.inl h1))]
      · rw [if_neg h1, if_neg]
        rintro ((hr | hr) | hr)
        · exact h1 hr
        · exact h2 hr
        · exact h3 hr

theorem Inv.agingPass (h : Inv s) (ht : Process.aging s = some t) :
    ∃ t1 t2, AgingPass s t1 t2 t := by
  obtain ⟨t1, t2, t3, hpass⟩ := aging_spec h.queue
  rw [hpass.aging_eq] at ht
  cases ht
  exact ⟨t1, t2, hpass⟩

/-- **The lists after a pass.**  The old processes of the level above come in at the head, in the
opposite order; of the others of the level the young ones stay. -/
theorem aging_queue (h : Inv s) (ht : aging s = some t) (hl : IsLevel l) :
    t.queue l = (promoted s (l + 1)).reverse ++ waiting s l := by
  obtain ⟨t1, t2, hpass⟩ := h.agingPass ht
  exact hpass.queue_eq h.queue hl

theorem visits_eq (h : Inv s) : visits s = s.queue 1 ++ s.queue 2 ++ s.queue 3 := by
  obtain ⟨t1, t2, t3, hpass⟩ := aging_spec h.queue
  rw [visits, hpass.trace_eq h.queue]

/-- The visited processes are the ones queued at a level from 1 on. -/
theorem mem_visits_iff (h : Inv s) :
    r ∈ visits s ↔ (s.proc r).state = .runnable ∧ 1 ≤ (s.proc r).nice := by
  rw [visits_eq h, List.mem_append, List.mem_append, h.mem_queue_iff (by decide),
    h.mem_queue_iff (by decide), h.mem_queue_iff (by decide)]
  constructor
  · rintro ((⟨hr, hn⟩ | ⟨hr, hn⟩) | ⟨hr, hn⟩) <;> exact ⟨hr, by omega⟩
  · rintro ⟨hr, hn⟩
    rcases (h.queue.nice r).cases with hl | hl | hl | hl
    · omega
    · exact Or.inl (Or.inl ⟨hr, hl⟩)
    · exact Or.inl (Or.inr ⟨hr, hl⟩)
    · exact Or.inr ⟨hr, hl⟩

theorem aging_age (h : Inv s) (ht : aging s = some t) (r : Slot) :
    (t.proc r).age = if r ∈ visits s then older s r else (s.proc r).age := by
  obtain ⟨t1, t2, hpass⟩ := h.agingPass ht
  rw [visits_eq h]
  exact hpass.age_eq h.queue r

/-- **Where a queued process stands after a pass.** -/
theorem aging_mem (h : Inv s) (ht : aging s = some t) (hl : IsLevel l) (hr : r ∈ s.queue l) :
    if 1 ≤ l ∧ isOld s r = true then r ∈ t.queue (l - 1) else r ∈ t.queue l := by
  by_cases hup : 1 ≤ l ∧ isOld s r = true
  · rw [if_pos hup]
    have hl' : IsLevel (l - 1) := ⟨by omega, by have := hl.2; omega⟩
    rw [aging_queue h ht hl', Int.sub_add_cancel, promoted, if_pos hl]
    refine List.mem_append_left _ (List.mem_reverse.mpr ?_)
    exact List.mem_filter.mpr ⟨hr, hup.2⟩
  · rw [if_neg hup, aging_queue h ht hl, waiting]
    refine List.mem_append_right _ ?_
    split_ifs with h1
    · refine List.mem_filter.mpr ⟨hr, ?_⟩
      simpa using fun hold => hup ⟨h1, hold⟩
    · exact hr

theorem aging_state_nice (h : Inv s) (ht : aging s = some t)
    (hr : (s.proc r).state = .runnable) : (t.proc r).state = .runnable ∧
      (t.proc r).nice = if 1 ≤ (s.proc r).nice ∧ isOld s r = true then (s.proc r).nice - 1
        else (s.proc r).nice := by
  have hlev := h.queue.nice r
  have hmem := aging_mem h ht hlev ((h.mem_queue_iff hlev).mpr ⟨hr, rfl⟩)
  have hi := (h.aging ht).1
  split_ifs at hmem ⊢ with hup
  · have hlev' : IsLevel ((s.proc r).nice - 1) := ⟨by omega, by have := hlev.2; omega⟩
    exact (hi.mem_queue_iff hlev').mp hmem
  · exact (hi.mem_queue_iff hlev).mp hmem

/-! ## The other sections -/

/-- The process that a section dispatches; `t` is the table after it. -/
def Label.dispatched (t : PTable) : Label → Option Slot
  | .dispatch c => t.cpu c
  | _ => none

theorem scheduler_proc {c : ℕ} (h : Inv s) (hs : scheduler c s = some t) :
    ∃ q, t.cpu c = some q ∧ (s.proc q).state = .runnable ∧
      (∀ r, r ≠ q → (t.proc r).core = (s.proc r).core ∧ (t.proc r).nice = (s.proc r).nice) ∧
      ∀ r, (t.proc r).clocks = (s.proc r).clocks := by
  obtain ⟨q, k, -, -, -, -, hq, -, rfl⟩ := scheduler_eq_some h hs
  refine ⟨q, ?_, hq, fun r hr => ?_, fun r => ?_⟩
  · rw [modProc_cpu, setCpu_cpu, if_pos rfl]
  · rw [modProc_proc, if_neg hr, setCpu_proc, removefromlevel_eq]
    exact ⟨rfl, rfl⟩
  · rw [modProc_field _ q r Proc.clocks, setCpu_proc, removefromlevel_eq]
    rfl

/-- **Only `aging` makes processes older.** -/
theorem step_age (h : Inv s) (ha : a ≠ .aging) (hs : step s a = some (t, e))
    (r : Slot) : (t.proc r).age = (s.proc r).age := by
  cases step_kind h hs with
  | plain hm => exact (Prod.mk.inj (hm.clocks r)).1
  | dispatch ht =>
    obtain ⟨q, -, -, -, hclocks⟩ := scheduler_proc h ht
    exact (Prod.mk.inj (hclocks r)).1
  | @tick c q => exact modProc_field s q r (·.age)
  | @expire c q _ _ _ _ hm =>
    rw [(Prod.mk.inj (hm.clocks r)).1, modProc_field _ q r (·.age)]
    exact modProc_field s q r (·.age)
  | aging => exact absurd rfl ha

/-- **Only the scheduler takes a process out of its level, and only `aging` moves it to
another.** -/
theorem step_stays (h : Inv s) (ha : a ≠ .aging) (hs : step s a = some (t, e))
    (hd : a.dispatched t ≠ some r) (hr : (s.proc r).state = .runnable) :
    (t.proc r).state = .runnable ∧ (t.proc r).nice = (s.proc r).nice := by
  have hticked : ∀ {c q}, s.cpu c = some q → r ≠ q ∧ (ticked s q).proc r = s.proc r := by
    intro c q hq
    have hrq : r ≠ q := by
      rintro rfl
      have hrun : (s.proc r).state = .running := h.cpu.running hq
      rw [hr] at hrun
      cases hrun
    exact ⟨hrq, by rw [ticked, modProc_proc, if_neg hrq]⟩
  cases step_kind h hs with
  | plain hm => exact hm.stays hr
  | dispatch ht =>
    obtain ⟨q, hq, -, hother, -⟩ := scheduler_proc h ht
    have hrq : r ≠ q := by
      rintro rfl
      exact hd hq
    obtain ⟨hcore, hnice⟩ := hother r hrq
    exact ⟨(congrArg Proc.state hcore).trans hr, hnice⟩
  | tick hc =>
    rw [(hticked hc).2]
    exact ⟨hr, rfl⟩
  | @expire c q _ hc _ _ hm =>
    have hproc : ((ticked s q).modProc q fun x => { x with ticksCount := 0 }).proc r =
        s.proc r := by rw [modProc_proc, if_neg (hticked hc).1, (hticked hc).2]
    rw [← hproc] at hr ⊢
    exact hm.stays hr
  | aging => exact absurd rfl ha

theorem step_aging (ha : a = .aging) (hs : step s a = some (t, e)) : aging s = some t := by
  subst ha
  obtain ⟨v, hv, heq⟩ := Option.map_eq_some_iff.mp hs
  cases heq
  exact hv

/-! ## A waiting process reaches level 0 -/

def PTable.allQueued (s : PTable) : List Slot :=
  s.queue 0 ++ s.queue 1 ++ s.queue 2 ++ s.queue 3

/-- One pass of `aging` from `s` to `t`, which visits the processes `visited`: no process twice,
each queued process moves by one level at most, and none is lost or duplicated. -/
structure FairPass (s t : PTable) (visited : List Slot) : Prop where
  run : aging s = some t
  trace : agingTrace s = some (t, visited)
  once : visited.Nodup
  level : ∀ k r, IsLevel k → r ∈ s.queue k →
    r ∈ t.queue k ∨ IsLevel (k - 1) ∧ r ∈ t.queue (k - 1)
  perm : t.allQueued.Perm s.allQueued
  nodup : t.allQueued.Nodup

theorem Inv.nodup_allQueued (h : Inv s) : s.allQueued.Nodup := by
  have hd : ∀ {k k' : ℤ}, IsLevel k → IsLevel k' → k ≠ k' →
      (s.queue k).Disjoint (s.queue k') := by
    intro k k' hk hk' hne r hr hr'
    exact hne (h.queue.level_unique hk hk' hr hr')
  have hnd : ∀ {k : ℤ}, IsLevel k → (s.queue k).Nodup := fun hk => (h.queue.isQueue _ hk).nodup
  refine List.Nodup.append (List.Nodup.append (List.Nodup.append ?_ ?_ ?_) ?_ ?_) ?_ ?_
  · exact hnd (by decide)
  · exact hnd (by decide)
  · exact hd (by decide) (by decide) (by decide)
  · exact hnd (by decide)
  · refine List.disjoint_append_left.mpr ⟨?_, ?_⟩ <;> exact hd (by decide) (by decide) (by decide)
  · exact hnd (by decide)
  · refine List.disjoint_append_left.mpr ⟨List.disjoint_append_left.mpr ⟨?_, ?_⟩, ?_⟩ <;>
      exact hd (by decide) (by decide) (by decide)

theorem count_promoted_add_waiting (hl : IsLevel l) (hl' : 1 ≤ l) (r : Slot) :
    (promoted s l).count r + (waiting s l).count r = (s.queue l).count r := by
  rw [promoted, waiting, if_pos hl, if_pos hl', ← List.count_append]
  exact (List.filter_append_perm (isOld s) (s.queue l)).count_eq r

theorem perm_aging (h : Inv s) (ht : aging s = some t) : t.allQueued.Perm s.allQueued := by
  refine List.perm_iff_count.mpr fun r => ?_
  have h1 := count_promoted_add_waiting (s := s) (l := 1) (by decide) (by decide) r
  have h2 := count_promoted_add_waiting (s := s) (l := 2) (by decide) (by decide) r
  have h3 := count_promoted_add_waiting (s := s) (l := 3) (by decide) (by decide) r
  have h0 : waiting s 0 = s.queue 0 := rfl
  have h4 : promoted s 4 = [] := rfl
  rw [PTable.allQueued, PTable.allQueued, aging_queue h ht (l := 0) (by decide),
    aging_queue h ht (l := 1) (by decide), aging_queue h ht (l := 2) (by decide),
    aging_queue h ht (l := 3) (by decide)]
  simp only [Int.reduceAdd, List.count_append, List.count_reverse, h0, h4, List.count_nil]
  omega

theorem exists_fairPass (h : Inv s) : ∃ t visited, FairPass s t visited := by
  obtain ⟨t1, t2, t, hpass⟩ := aging_spec h.queue
  have ht := hpass.aging_eq
  refine ⟨t, _, ht, hpass.trace_eq h.queue, ?_, ?_, perm_aging h ht,
    (h.aging ht).1.nodup_allQueued⟩
  · refine h.nodup_allQueued.sublist ?_
    rw [PTable.allQueued, List.append_assoc (s.queue 0), List.append_assoc (s.queue 0)]
    exact List.sublist_append_right _ _
  · intro k r hk hr
    have hmem := aging_mem h ht hk hr
    split_ifs at hmem with hup
    · exact Or.inr ⟨⟨by omega, by have := hk.2; omega⟩, hmem⟩
    · exact Or.inl hmem

/-- The step does not take the process out of its level. -/
def NotDispatched (p : Slot) (s : PTable) (a : Label) : Prop :=
  ∀ r ∈ step s a, a.dispatched r.1 ≠ some p

instance (p : Slot) (s : PTable) (a : Label) : Decidable (NotDispatched p s a) :=
  inferInstanceAs (Decidable (∀ r ∈ step s a, a.dispatched r.1 ≠ some p))

/-- The age of the process does not wrap around in the step. -/
def AgeKept (p : Slot) (s : PTable) (a : Label) : Prop :=
  ∀ r ∈ step s a, (s.proc p).age ≤ (r.1.proc p).age

instance (p : Slot) (s : PTable) (a : Label) : Decidable (AgeKept p s a) :=
  inferInstanceAs (Decidable (∀ r ∈ step s a, (s.proc p).age ≤ (r.1.proc p).age))

/-- What is known of a process that was queued at level `l` and has been waiting for `n` passes:
it is at level 0, or every pass has made it older and from the fifth on moved it up. -/
structure Waited (l : ℤ) (n : ℕ) (y : Proc) : Prop where
  runnable : y.state = .runnable
  level : y.nice = 0 ∨ n ≤ y.age ∧ y.nice + (n - (AGELIMIT - 1) : ℕ) ≤ l

theorem Waited.aging {n : ℕ} (h : Waited l n (s.proc p)) (hi : Inv s) (ht : aging s = some t)
    (hage : (s.proc p).age ≤ (t.proc p).age) : Waited l (n + 1) (t.proc p) := by
  obtain ⟨hstate, hnice⟩ := aging_state_nice hi ht h.runnable
  refine ⟨hstate, ?_⟩
  by_cases hn : 1 ≤ (s.proc p).nice
  · have hold := aging_age hi ht p
    rw [if_pos ((mem_visits_iff hi).mpr ⟨h.runnable, hn⟩), older] at hold
    obtain ⟨hlen, hle⟩ := h.level.resolve_left (by omega)
    have hgrow : (t.proc p).age = (s.proc p).age + 1 := by omega
    have hiff : isOld s p = true ↔ AGELIMIT ≤ (t.proc p).age := by
      rw [isOld, decide_eq_true_eq, older, hold]
    rw [hnice]
    simp only [hn, true_and, hiff, hgrow]
    have hlimit : AGELIMIT = 5 := rfl
    split_ifs with hup <;> omega
  · have hlev := (hi.queue.nice p).1
    rw [if_neg fun hup => hn hup.1] at hnice
    exact Or.inl (by omega)

/-- A process that stays queued, over a whole run. -/
theorem waited_exec (hi : Inv s) (hl : IsLevel l)
    (hp : p ∈ s.queue l) (h : exec step s as = some (t, es))
    (hstay : StepsMeet step (fun u a => NotDispatched p u a ∧ AgeKept p u a) s as) :
    Waited l (as.count .aging) (t.proc p) := by
  obtain ⟨hrun, hnice⟩ := (hi.mem_queue_iff hl).mp hp
  refine (exec_induction (P := fun as t _ =>
    StepsMeet step (fun u a => NotDispatched p u a ∧ AgeKept p u a) s as →
      Inv t ∧ Waited l (as.count .aging) (t.proc p)) ?_ ?_ h hstay).2
  · refine fun _ => ⟨hi, hrun, Or.inr ⟨Nat.zero_le _, ?_⟩⟩
    rw [hnice]
    simp
  · intro as t es a u e ht ih hu hmeet
    obtain ⟨hit, hw⟩ := ih hmeet.of_concat
    obtain ⟨hdisp, hage⟩ := hmeet.last ht
    refine ⟨hit.step hu, ?_⟩
    rw [List.count_append]
    by_cases ha : a = .aging
    · rw [ha, List.count_singleton_self]
      exact hw.aging hit (step_aging ha hu) (hage _ hu)
    · rw [List.count_singleton, if_neg (by simpa using ha), Nat.add_zero]
      obtain ⟨hstate, hnice'⟩ := step_stays hit ha hu (hdisp _ hu) hw.runnable
      refine ⟨hstate, ?_⟩
      rw [hnice', step_age hit ha hu]
      exact hw.level

/-- **Aging prevents starvation.**  From any reachable state, while a process stays queued and its
age does not wrap around, every pass of `aging` visits it at most once and moves it by one level at
most; from the fifth pass on each of them moves it up, until it is at level 0. -/
theorem level_le_of_waiting {as bs : List Label} {es es' : List Event}
    (hs : exec step PTable.boot as = some (s, es)) (hl : IsLevel l) (hp : p ∈ s.queue l)
    (ht : exec step s bs = some (t, es'))
    (hstay : StepsMeet step (fun u a => NotDispatched p u a ∧ AgeKept p u a) s bs) :
    (∀ bs1 bs2 u es1, bs = bs1 ++ .aging :: bs2 → exec step s bs1 = some (u, es1) →
      ∃ v visited, FairPass u v visited) ∧
    (∃ k, IsLevel k ∧ p ∈ t.queue k ∧
      k ≤ max 0 (l - max 0 ((bs.count .aging : ℤ) - (AGELIMIT - 1)))) ∧
    (AGELIMIT + PLEVELS - 2 ≤ bs.count .aging → p ∈ t.queue 0) := by
  have hi := inv_exec hs
  have hit : Inv t := exec_invariant (fun hi hs => hi.step hs) hi ht
  obtain ⟨hrun, hlevel⟩ := waited_exec hi hl hp ht hstay
  have hlev := hit.queue.nice p
  have hlt : l < 4 := hl.2
  have hlimit : AGELIMIT = 5 := rfl
  have hlevels : PLEVELS = 4 := rfl
  refine ⟨?_, ⟨(t.proc p).nice, hlev, (hit.mem_queue_iff hlev).mpr ⟨hrun, rfl⟩, ?_⟩, ?_⟩
  · intro bs1 bs2 u es1 _ hu
    exact exists_fairPass (exec_invariant (fun hi hs => hi.step hs) hi hu)
  · rw [hlimit] at hlevel ⊢
    omega
  · intro hcount
    refine (hit.mem_queue_iff (by decide)).mpr ⟨hrun, ?_⟩
    have := hlev.1
    rw [hlimit] at hlevel hcount
    rw [hlevels] at hcount
    omega

/-- Init has used up a quantum and waits at level 1 for seven passes. -/
theorem level_le_of_waiting_init : ∃ s es t es',
    exec step PTable.boot [.userinit, .dispatch 0, .tick 0, .tick 0, .tick 0] = some (s, es) ∧
    0 ∈ s.queue 1 ∧ exec step s (List.replicate 7 .aging) = some (t, es') ∧ 0 ∈ t.queue 0 := by
  have hrun : (exec step PTable.boot [.userinit, .dispatch 0, .tick 0, .tick 0, .tick 0]).map
      (fun r => decide (0 ∈ r.1.queue 1 ∧ (exec step r.1 (List.replicate 7 .aging)).isSome = true ∧
        StepsMeet step (fun u a => NotDispatched 0 u a ∧ AgeKept 0 u a)
          r.1 (List.replicate 7 .aging))) = some true := by decide +kernel
  obtain ⟨⟨s, es⟩, hs, hdec⟩ := Option.map_eq_some_iff.mp hrun
  obtain ⟨hp, hsome, hstay⟩ := of_decide_eq_true hdec
  obtain ⟨⟨t, es'⟩, ht⟩ := Option.isSome_iff_exists.mp hsome
  have hwait := level_le_of_waiting hs (by decide) hp ht hstay
  exact ⟨s, es, t, es', hs, hp, ht, hwait.2.2 (by decide)⟩

/-! ## The age is not the time of waiting -/

/-- The number of passes of `aging` in a run that find the process waiting in a level that they
visit. -/
def passes (p : Slot) : PTable → List Label → ℕ
  | _, [] => 0
  | s, a :: as =>
    (if a = .aging ∧ p ∈ visits s then 1 else 0) +
      match step s a with
      | none => 0
      | some (t, _) => passes p t as

theorem passes_concat (h : exec step s as = some (t, es)) (a : Label) : passes p s (as ++ [a]) =
      passes p s as + if a = .aging ∧ p ∈ visits t then 1 else 0 := by
  induction as generalizing s es with
  | nil =>
    cases h
    cases hstep : step t a <;> simp [passes, hstep]
  | cons b as ih =>
    obtain ⟨v, e, es1, hv, ht, -⟩ := exec_cons_iff.mp h
    rw [List.cons_append, passes, passes]
    simp only [hv]
    rw [ih ht, Nat.add_assoc]

/-- The process is in level `l` after the step. -/
def StaysIn (p : Slot) (l : ℤ) (s : PTable) (a : Label) : Prop := ∀ r ∈ step s a, p ∈ r.1.queue l

instance (p : Slot) (l : ℤ) (s : PTable) (a : Label) : Decidable (StaysIn p l s a) :=
  inferInstanceAs (Decidable (∀ r ∈ step s a, p ∈ r.1.queue l))

/-- From `s` on, a pass of `aging` moves the process `p` up from level `l` only after at least
`AGELIMIT` passes, itself among them, have found it waiting there. -/
def PromotedLate (p : Slot) (l : ℤ) (s : PTable) : Prop :=
  ∀ bs t es u e, exec step s bs = some (t, es) → StepsMeet step (StaysIn p l) s bs →
    step t .aging = some (u, e) → IsLevel (l - 1) → p ∈ u.queue (l - 1) →
    AGELIMIT ≤ passes p s (bs ++ [.aging])

/-- The step from `s` to `t` puts the process in level `l`. -/
def Places (p : Slot) (l : ℤ) (s t : PTable) : Prop := p ∈ t.queue l ∧ p ∉ s.queue l

theorem age_lt (h : exec step PTable.boot as = some (s, es)) (r : Slot) :
    (s.proc r).age < 2 ^ 32 := by
  refine (exec_invariant (I := fun u => Inv u ∧ ∀ r, (u.proc r).age < 2 ^ 32) ?_
    ⟨inv_boot, fun _ => ?_⟩ h).2 r
  · rintro u a v e ⟨hi, hlt⟩ hv
    refine ⟨hi.step hv, fun r => ?_⟩
    by_cases ha : a = .aging
    · rw [aging_age hi (step_aging ha hv)]
      split_ifs
      · exact Nat.mod_lt _ (by decide)
      · exact hlt r
    · rw [step_age hi ha hv]
      exact hlt r
  · show 0 < 2 ^ 32
    decide

/-- The passes that a process waits for at one level are what its age counts, modulo `2 ^ 32`. -/
theorem age_of_staysIn (hi : Inv s) (hl : IsLevel l)
    (hl' : 1 ≤ l) (hp : p ∈ s.queue l) (hage : (s.proc p).age < 2 ^ 32)
    (h : exec step s as = some (t, es)) (hstay : StepsMeet step (StaysIn p l) s as) :
    p ∈ t.queue l ∧ (t.proc p).age = ((s.proc p).age + passes p s as) % 2 ^ 32 := by
  refine (exec_induction (P := fun as t _ => StepsMeet step (StaysIn p l) s as →
    Inv t ∧ p ∈ t.queue l ∧ (t.proc p).age = ((s.proc p).age + passes p s as) % 2 ^ 32)
    ?_ ?_ h hstay).2
  · refine fun _ => ⟨hi, hp, ?_⟩
    rw [passes, Nat.add_zero, Nat.mod_eq_of_lt hage]
  · intro as t es a u e ht ih hu hmeet
    obtain ⟨hit, hpt, hold⟩ := ih hmeet.of_concat
    refine ⟨hit.step hu, hmeet.last ht _ hu, ?_⟩
    rw [passes_concat ht]
    obtain ⟨hrun, hnice⟩ := (hit.mem_queue_iff hl).mp hpt
    have hvisit : p ∈ visits t := (mem_visits_iff hit).mpr ⟨hrun, by omega⟩
    by_cases ha : a = .aging
    · rw [if_pos ⟨ha, hvisit⟩, aging_age hit (step_aging ha hu), if_pos hvisit, older, hold,
        Nat.mod_add_mod, Nat.add_assoc]
    · rw [if_neg fun hh => ha hh.1, step_age hit ha hu, hold, Nat.add_zero]

/-- A pass moves a process of level `l` up exactly when it is old. -/
theorem mem_queue_sub_one_iff (hi : Inv s) (ht : aging s = some t) (hl : IsLevel l)
    (hl' : IsLevel (l - 1)) (hp : p ∈ s.queue l) : p ∈ t.queue (l - 1) ↔ isOld s p = true := by
  have hmem := aging_mem hi ht hl hp
  have h1 : 1 ≤ l := by
    have := hl'.1
    omega
  constructor
  · intro hup
    by_contra hold
    rw [if_neg fun hh => hold hh.2] at hmem
    have := (hi.aging ht).1.queue.level_unique hl hl' hmem hup
    omega
  · intro hold
    rwa [if_pos ⟨h1, hold⟩] at hmem

/-- A young process waits for pass after pass until its age is `AGELIMIT - 1`. -/
theorem exec_replicate_aging (hi : Inv s) (hl : IsLevel l) (hl' : 1 ≤ l) (hp : p ∈ s.queue l)
    (hage : (s.proc p).age < 2 ^ 32) :
    ∀ n ≤ AGELIMIT - 1 - (s.proc p).age, ∃ t es,
      exec step s (List.replicate n .aging) = some (t, es) ∧ Inv t ∧
      StepsMeet step (StaysIn p l) s (List.replicate n .aging) ∧ p ∈ t.queue l ∧
      (t.proc p).age = (s.proc p).age + n ∧ passes p s (List.replicate n .aging) = n
  | 0, _ => ⟨s, [], rfl, hi, stepsMeet_nil, hp, rfl, rfl⟩
  | n + 1, hn => by
    obtain ⟨t, es, ht, hit, hstay, hpt, hold, hpasses⟩ :=
      exec_replicate_aging hi hl hl' hp hage n (by omega)
    have hlimit : AGELIMIT = 5 := rfl
    obtain ⟨u, _, hpass⟩ := exists_fairPass hit
    have hu : step t .aging = some (u, .none) := by rw [step, hpass.run]; rfl
    obtain ⟨hrun, hnice⟩ := (hit.mem_queue_iff hl).mp hpt
    have hvisit : p ∈ visits t := (mem_visits_iff hit).mpr ⟨hrun, by omega⟩
    have holder : older t p = (s.proc p).age + (n + 1) := by
      rw [older, hold]
      omega
    have hyoung : ¬ isOld t p = true := by
      rw [isOld, decide_eq_true_eq, holder]
      omega
    have hpu := aging_mem hit hpass.run hl hpt
    rw [if_neg fun hh => hyoung hh.2] at hpu
    refine ⟨u, es ++ [.none], ?_, hit.step hu, ?_, hpu, ?_, ?_⟩
    · rw [List.replicate_succ']
      exact exec_concat_iff.mpr ⟨t, es, .none, ht, hu, rfl⟩
    · rw [List.replicate_succ', stepsMeet_concat_iff ht]
      refine ⟨hstay, fun r hr => ?_⟩
      rw [hu] at hr
      cases hr
      exact hpu
    · rw [aging_age hit hpass.run, if_pos hvisit, holder]
    · rw [List.replicate_succ', passes_concat ht, hpasses, if_pos ⟨rfl, hvisit⟩]

/-- **When the age measures waiting.**  A process that a step of the kernel has just put in a level
is promoted only after `AGELIMIT` passes have found it waiting, exactly when it is at level 0, or
comes with the age 0, or with the age that the first pass makes 0. -/
theorem promotedLate_iff {as : List Label} {es : List Event} {a : Label}
    (hs : exec step PTable.boot as = some (s, es)) (ht : step s a = some (t, e)) (hl : IsLevel l)
    (hp : Places p l s t) :
    PromotedLate p l t ↔ l = 0 ∨ (t.proc p).age = 0 ∨ (t.proc p).age = 2 ^ 32 - 1 := by
  have hrun : exec step PTable.boot (as ++ [a]) = some (t, es ++ [e]) :=
    exec_concat_iff.mpr ⟨s, es, e, hs, ht, rfl⟩
  have hi := inv_exec hrun
  have hage := age_lt hrun p
  have hlimit : AGELIMIT = 5 := rfl
  have hl0 := hl.1
  constructor
  · intro hlate
    by_contra hne
    obtain ⟨hne1, hne2, hne3⟩ : l ≠ 0 ∧ (t.proc p).age ≠ 0 ∧ (t.proc p).age ≠ 2 ^ 32 - 1 := by
      simpa only [not_or] using hne
    have hl1 : 1 ≤ l := by omega
    have hl' : IsLevel (l - 1) := ⟨by omega, by have := hl.2; omega⟩
    -- wait until the age is `AGELIMIT - 1` at least; the next pass promotes the process
    obtain ⟨u, es', hu, hiu, hstay, hpu, hold, hpasses⟩ :=
      exec_replicate_aging hi hl hl1 hp.1 hage _ le_rfl
    obtain ⟨v, _, hpass⟩ := exists_fairPass hiu
    have hv : step u .aging = some (v, .none) := by rw [step, hpass.run]; rfl
    have hisOld : isOld u p = true := by
      rw [isOld, decide_eq_true_eq, older, hold]
      omega
    have hpv := (mem_queue_sub_one_iff hiu hpass.run hl hl' hpu).mpr hisOld
    have hle := hlate _ u es' v .none hu hstay hv hl' hpv
    have hvisit : (if Label.aging = .aging ∧ p ∈ visits u then 1 else 0) ≤ 1 := by
      split_ifs <;> omega
    rw [passes_concat hu, hpasses] at hle
    omega
  · intro hcond bs u es' v e' hu hstay hv hl' hpv
    have hl1 : 1 ≤ l := by
      have := hl'.1
      omega
    obtain ⟨hpu, hold⟩ := age_of_staysIn hi hl hl1 hp.1 hage hu hstay
    have hiu : Inv u := exec_invariant (fun hi hs => hi.step hs) hi hu
    obtain ⟨hrunu, hnice⟩ := (hiu.mem_queue_iff hl).mp hpu
    have hvisit : p ∈ visits u := (mem_visits_iff hiu).mpr ⟨hrunu, by omega⟩
    have hisOld := (mem_queue_sub_one_iff hiu (step_aging rfl hv) hl hl' hpu).mp hpv
    rw [isOld, decide_eq_true_eq, older, hold] at hisOld
    rw [passes_concat hu, if_pos ⟨rfl, hvisit⟩]
    omega

/-- The third tick puts init in level 1, with age 0. -/
theorem promotedLate_iff_init : ∃ s es t e,
    exec step PTable.boot [.userinit, .dispatch 0, .tick 0, .tick 0] = some (s, es) ∧
    step s (.tick 0) = some (t, e) ∧ Places 0 1 s t ∧ PromotedLate 0 1 t := by
  have hrun : (exec step PTable.boot [.userinit, .dispatch 0, .tick 0, .tick 0]).map
      (fun r => (step r.1 (.tick 0)).map fun r' => decide (0 ∈ r'.1.queue 1 ∧
        0 ∉ r.1.queue 1 ∧ (r'.1.proc 0).age = 0)) =
      some (some true) := by decide +kernel
  obtain ⟨⟨s, es⟩, hs, hstep⟩ := Option.map_eq_some_iff.mp hrun
  obtain ⟨⟨t, e⟩, ht, hdec⟩ := Option.map_eq_some_iff.mp hstep
  obtain ⟨hp, hp', hage⟩ := of_decide_eq_true hdec
  exact ⟨s, es, t, e, hs, ht, ⟨hp, hp'⟩,
    (promotedLate_iff hs ht (by decide) ⟨hp, hp'⟩).mpr (Or.inr (Or.inl hage))⟩

def twiceRun : List Label :=
  [.userinit, .dispatch 0, .tick 0, .tick 0, .tick 0, .dispatch 0, .tick 0, .tick 0, .tick 0,
    .aging, .aging, .aging, .aging]

/-- **One promotion right after the other.**  Init has used up two quanta and waits at level 2.
The fifth pass moves it to level 1, and the next one, the only one that has found it there, moves
it on. -/
theorem not_promotedLate_twice : ∃ s es t e, exec step PTable.boot twiceRun = some (s, es) ∧
    step s .aging = some (t, e) ∧ Places 0 1 s t ∧ ¬ PromotedLate 0 1 t := by
  have hrun : (exec step PTable.boot twiceRun).map
      (fun r => (step r.1 .aging).map fun r' => (decide (0 ∈ r'.1.queue 1 ∧
        0 ∉ r.1.queue 1 ∧ passes 0 r'.1 [.aging] < AGELIMIT),
        (step r'.1 .aging).map fun r'' => decide (0 ∈ r''.1.queue 0))) =
      some (some (true, some true)) := by decide +kernel
  obtain ⟨⟨s, es⟩, hs, hstep⟩ := Option.map_eq_some_iff.mp hrun
  obtain ⟨⟨t, e⟩, ht, hpair⟩ := Option.map_eq_some_iff.mp hstep
  obtain ⟨hdec, hnext⟩ := Prod.mk.inj hpair
  obtain ⟨hp, hp', hpasses⟩ := of_decide_eq_true hdec
  obtain ⟨⟨u, e'⟩, hu, hmem⟩ := Option.map_eq_some_iff.mp hnext
  refine ⟨s, es, t, e, hs, ht, ⟨hp, hp'⟩, fun hlate => ?_⟩
  have hle := hlate [] t [] u e' rfl stepsMeet_nil hu (by decide) (of_decide_eq_true hmem)
  exact absurd hle (Nat.not_le_of_lt hpasses)

/-! ## Processes that are promoted together -/

/-- In level `l`, `p` will be dequeued before `r`. -/
def LeavesBefore (s : PTable) (l : ℤ) (p r : Slot) : Prop := [r, p].Sublist (s.queue l)

/-- **When a pass keeps the order.**  The processes of a level that one pass promotes leave their
new level in the order in which they would have left the old one, for every two of them, exactly
when no level has two old processes. -/
theorem aging_keeps_order_iff {as : List Label} {es : List Event}
    (hs : exec step PTable.boot as = some (s, es)) (ht : aging s = some t) :
    (∀ l p r, IsLevel l → IsLevel (l - 1) → LeavesBefore s l p r → p ∈ t.queue (l - 1) →
      r ∈ t.queue (l - 1) → LeavesBefore t (l - 1) p r) ↔
    ∀ l, IsLevel l → 1 ≤ l → ((s.queue l).filter (isOld s)).length ≤ 1 := by
  have hi := inv_exec hs
  constructor
  · intro horder l hl hl1
    have hl' : IsLevel (l - 1) := ⟨by omega, by have := hl.2; omega⟩
    have hqueue : t.queue (l - 1) =
        ((s.queue l).filter (isOld s)).reverse ++ waiting s (l - 1) := by
      rw [aging_queue hi ht hl', Int.sub_add_cancel, promoted, if_pos hl]
    rcases hold : (s.queue l).filter (isOld s) with _ | ⟨r, _ | ⟨p, rest⟩⟩
    · simp
    · simp
    · -- `r` is newer than `p` before the pass and older after it
      exfalso
      have hsub : [r, p].Sublist ((s.queue l).filter (isOld s)) := by
        rw [hold]
        exact List.sublist_append_left [r, p] rest
      have hrev : [p, r].Sublist (t.queue (l - 1)) := by
        rw [hqueue]
        exact (List.reverse_sublist.mpr hsub).trans (List.sublist_append_left _ _)
      have hmem : ∀ x ∈ [p, r], x ∈ t.queue (l - 1) := fun x hx => hrev.subset hx
      have hkept := horder l p r hl hl' (hsub.trans List.filter_sublist) (hmem p (by simp))
        (hmem r (by simp))
      have hnd : (t.queue (l - 1)).Nodup := ((hi.aging ht).1.queue.isQueue _ hl').nodup
      exact not_sublist_swap hnd hrev hkept
  · intro hone l p r hl hl' hbefore hp hr
    exfalso
    have hl1 : 1 ≤ l := by
      have := hl'.1
      omega
    have hsub : ∀ x ∈ [r, p], x ∈ s.queue l := fun x hx => hbefore.subset hx
    have hnd : (s.queue l).Nodup := (hi.queue.isQueue l hl).nodup
    have hboth : [r, p].Sublist ((s.queue l).filter (isOld s)) := by
      have hfilter := hbefore.filter (isOld s)
      rwa [List.filter_cons_of_pos ((mem_queue_sub_one_iff hi ht hl hl' (hsub r (by simp))).mp hr),
        List.filter_cons_of_pos ((mem_queue_sub_one_iff hi ht hl hl' (hsub p (by simp))).mp hp),
        List.filter_nil] at hfilter
    have hlen := hboth.length_le
    have := hone l hl hl1
    rw [List.length_cons, List.length_singleton] at hlen
    omega

def oneOldRun : List Label :=
  [.userinit, .dispatch 0, .forkAlloc 0, .forkParent 0, .forkEnqueue 0, .tick 0, .tick 0, .tick 0,
    .aging, .dispatch 0, .tick 0, .tick 0, .tick 0, .aging, .aging, .aging]

/-- Init and its child wait at level 1, and init has waited for one pass more: the fifth pass since
then promotes init and leaves the child. -/
theorem aging_keeps_order_iff_oneOld : ∃ s es t,
    exec step PTable.boot oneOldRun = some (s, es) ∧ aging s = some t ∧
    LeavesBefore s 1 0 1 ∧ isOld s 0 = true ∧ isOld s 1 = false ∧
    ∀ l p r, IsLevel l → IsLevel (l - 1) → LeavesBefore s l p r → p ∈ t.queue (l - 1) →
      r ∈ t.queue (l - 1) → LeavesBefore t (l - 1) p r := by
  have hrun : (exec step PTable.boot oneOldRun).map (fun r => decide ((aging r.1).isSome = true ∧
        r.1.queue 1 = [1, 0] ∧ isOld r.1 0 = true ∧
        isOld r.1 1 = false ∧ r.1.queue 2 = [] ∧ r.1.queue 3 = [])) =
      some true := by decide +kernel
  obtain ⟨⟨s, es⟩, hs, hdec⟩ := Option.map_eq_some_iff.mp hrun
  obtain ⟨hsome, hqueue, hold, hnew, hqueue2, hqueue3⟩ := of_decide_eq_true hdec
  obtain ⟨t, ht⟩ := Option.isSome_iff_exists.mp hsome
  refine ⟨s, es, t, hs, ht, by rw [LeavesBefore, hqueue], hold, hnew,
    (aging_keeps_order_iff hs ht).mpr fun l hl hl1 => ?_⟩
  rcases hl.cases with rfl | rfl | rfl | rfl
  · omega
  · simp [hqueue, hold, hnew]
  · simp [hqueue2]
  · simp [hqueue3]

def bothOldRun : List Label :=
  [.userinit, .dispatch 0, .forkAlloc 0, .forkParent 0, .forkEnqueue 0, .tick 0, .tick 0, .tick 0,
    .dispatch 0, .tick 0, .tick 0, .tick 0, .aging, .aging, .aging, .aging]

/-- **Two promoted processes change places.**  Init and its child have used up a quantum each and
wait at level 1, init for longer.  After the fifth pass the child leaves level 0 first. -/
theorem aging_reverses_order : ∃ s es t,
    exec step PTable.boot bothOldRun = some (s, es) ∧ aging s = some t ∧
    LeavesBefore s 1 0 1 ∧ 0 ∈ t.queue 0 ∧ 1 ∈ t.queue 0 ∧ ¬ LeavesBefore t 0 0 1 := by
  have hrun : (exec step PTable.boot bothOldRun).map
      (fun r => (r.1.queue 1, (aging r.1).map fun t => t.queue 0)) =
      some ([1, 0], some [0, 1]) := by
    decide +kernel
  obtain ⟨⟨s, es⟩, hs, hpair⟩ := Option.map_eq_some_iff.mp hrun
  obtain ⟨hqueue, hnext⟩ := Prod.mk.inj hpair
  obtain ⟨t, ht, hqueue'⟩ := Option.map_eq_some_iff.mp hnext
  refine ⟨s, es, t, hs, ht, ?_, ?_, ?_, ?_⟩
  · rw [LeavesBefore, hqueue]
  · rw [hqueue']
    simp
  · rw [hqueue']
    simp
  · rw [LeavesBefore, hqueue']
    decide

end Xv6.Process
