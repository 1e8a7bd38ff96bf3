import Xv6.Lib.Fifo
import Xv6.Process.Aging

/-!
# The levels as first-in first-out queues

`Process.Queue` says what one call of `enqueue`, `dequeue` or `removefromlevel` does to the lists
that the pointers spell.  Here the calls are a machine of their own (`Call.run`), in any order and
on any processes, and the abstract machine beside it is `Lib.Fifos`: one list per level, to which
`enqueue` adds a newest process, from which `dequeue` takes the oldest and `removefromlevel`
deletes the given one.  Between the calls a process that is in no level may get another nice
value, as it does in `decreasepriority`, `increasepriority` and `nice`.

The abstract machine refuses a call that the list has no room for: a `dequeue` of an empty level, a
`removefromlevel` of a process that is not there and an `enqueue` of one that is there already.
As long as it accepts the calls, the pointers follow it (`exec_refines_fifos`).  The code does not
check for the last of the three, and a process that is queued twice takes others with it when it
leaves (`exec_run_lost`).
-/

namespace Xv6.Process

open PTable Lib

/-- The calls that work on the levels, and the change of a nice value. -/
inductive Call
  | enqueue (p : Slot)
  | dequeue (l : ℤ)
  | removefromlevel (p : Slot) (l : ℤ)
  | renice (p : Slot) (n : ℤ)
  deriving DecidableEq

/-- What a call does, and the process that `dequeue` returns. -/
def Call.run (s : PTable) : Call → Option (PTable × Option Slot)
  | .enqueue p => some (Process.enqueue p s, none)
  | .dequeue l => (Process.dequeue l s).map fun r => (r.2, some r.1)
  | .removefromlevel p l => some (Process.removefromlevel p l s, none)
  | .renice p n => some (s.modProc p fun x => { x with nice := n }, none)

/-- What a call should do. -/
def Call.spec (f : Fifos ℤ Slot) : Call → Option (Fifos ℤ Slot × Option Slot)
  | .enqueue p => (f.enqueue p).map fun g => (g, none)
  | .dequeue l => (f.dequeue l).map fun r => (r.2, some r.1)
  | .removefromlevel p l => (f.remove p l).map fun g => (g, none)
  | .renice p n => if IsLevel n then (f.rehome p n).map fun g => (g, none) else none

/-- The pointers of the table stand for the queues `f`. -/
structure Refines (s : PTable) (f : Fifos ℤ Slot) : Prop where
  spells : Spells s f.list
  nice : ∀ p, (s.proc p).nice = f.home p
  level : ∀ p, IsLevel (f.home p)
  wf : f.Wf

variable {s t : PTable} {f g : Fifos ℤ Slot} {p r : Slot} {l : ℤ} {q : ℤ → List Slot}
  {rest : List Slot}

theorem Refines.isLevel (h : Refines s f) (hp : p ∈ f.list l) : IsLevel l := by
  rw [← h.wf.home hp]
  exact h.level p

theorem Refines.enqueue (h : Refines s f) (hg : f.enqueue p = some g) :
    Refines (enqueue p s) g := by
  have hwf := h.wf.enqueue hg
  obtain ⟨hp, rfl⟩ := Fifos.enqueue_eq_some hg
  have hspells := h.spells.enqueue (p := p) (by rw [h.nice]; exact h.level p)
    fun k _ => h.wf.not_mem hp k
  refine ⟨?_, fun r => ?_, h.level, hwf⟩
  · convert hspells using 1
    funext k
    show upd f.list _ _ k = _
    rw [upd_apply, h.nice]
    split_ifs with hk
    · rw [hk]
    · rfl
  · rw [enqueue_field (·.nice) fun _ _ _ _ => rfl]
    exact h.nice r

theorem removefromlevel_nice (p r : Slot) (l : ℤ) (s : PTable) :
    ((removefromlevel p l s).proc r).nice = (s.proc r).nice := by
  rw [removefromlevel_eq]
  rfl

theorem Refines.remove (h : Refines s f) (hg : f.remove p l = some g) :
    Refines (removefromlevel p l s) g := by
  have hwf := h.wf.remove hg
  obtain ⟨hp, rfl⟩ := Fifos.remove_eq_some hg
  obtain ⟨a, b, hab⟩ := List.append_of_mem hp
  have hpa : p ∉ a := (nodup_split (hab ▸ h.wf.nodup l)).1
  have hspells := h.spells.removefromlevel (h.isLevel hp) hab
  refine ⟨?_, fun r => (removefromlevel_nice p r l s).trans (h.nice r), h.level, hwf⟩
  convert hspells using 1
  funext k
  show upd f.list _ _ k = _
  rw [upd_apply, hab, List.erase_append_right _ hpa, List.erase_cons_head]

theorem Refines.dequeue (h : Refines s f) (hg : f.dequeue l = some (p, g)) :
    dequeue l s = some (p, removefromlevel p l s) ∧ Refines (removefromlevel p l s) g := by
  have hwf := h.wf.dequeue hg
  obtain ⟨hq, rfl⟩ := Fifos.dequeue_eq_some hg
  have hl : IsLevel l := h.isLevel (p := p) (by rw [hq]; simp)
  have hspells := h.spells.removefromlevel hl hq
  rw [List.append_nil] at hspells
  refine ⟨h.spells.dequeue hl hq, ?_, fun r => (removefromlevel_nice p r l s).trans (h.nice r),
    h.level, hwf⟩
  exact hspells

theorem Refines.renice (h : Refines s f) {n : ℤ} (hn : IsLevel n) (hg : f.rehome p n = some g) :
    Refines (s.modProc p fun x => { x with nice := n }) g := by
  have hwf := h.wf.rehome hg
  obtain ⟨-, rfl⟩ := Fifos.rehome_eq_some hg
  have hlinks : (s.modProc p fun x => { x with nice := n }).links = s.links :=
    links_modProc fun _ => ⟨rfl, rfl⟩
  refine ⟨⟨fun k hk => ?_, h.spells.unique⟩, fun r => ?_, fun r => ?_, hwf⟩
  · rw [hlinks]
    exact h.spells.isQueue k hk
  · show _ = upd f.home p n r
    rw [modProc_proc, upd_apply]
    split_ifs
    · rfl
    · exact h.nice r
  · show IsLevel (upd f.home p n r)
    rw [upd_apply]
    split_ifs
    · exact hn
    · exact h.level r

/-- **One call.**  The code does what the queues do, and returns the same process. -/
theorem Refines.step (h : Refines s f) {a : Call} {o : Option Slot}
    (hg : a.spec f = some (g, o)) : ∃ t, a.run s = some (t, o) ∧ Refines t g := by
  cases a with
  | enqueue p =>
    obtain ⟨g', hg', heq⟩ := Option.map_eq_some_iff.mp hg
    cases heq
    exact ⟨_, rfl, h.enqueue hg'⟩
  | dequeue l =>
    obtain ⟨⟨p, g'⟩, hg', heq⟩ := Option.map_eq_some_iff.mp hg
    cases heq
    obtain ⟨hrun, href⟩ := h.dequeue hg'
    exact ⟨_, by rw [Call.run, hrun]; rfl, href⟩
  | removefromlevel p l =>
    obtain ⟨g', hg', heq⟩ := Option.map_eq_some_iff.mp hg
    cases heq
    exact ⟨_, rfl, h.remove hg'⟩
  | renice p n =>
    rw [Call.spec] at hg
    split_ifs at hg with hn
    obtain ⟨g', hg', heq⟩ := Option.map_eq_some_iff.mp hg
    cases heq
    exact ⟨_, rfl, h.renice hn hg'⟩

theorem Refines.exec (h : Refines s f) {as : List Call} {os : List (Option Slot)}
    (hg : exec Call.spec f as = some (g, os)) :
    ∃ t, exec Call.run s as = some (t, os) ∧ Refines t g := by
  refine exec_induction (P := fun as g os => ∃ t, Lib.exec Call.run s as = some (t, os) ∧
    Refines t g) ⟨s, rfl, h⟩ ?_ hg
  rintro as g' os' a u o - ⟨t, ht, href⟩ hu
  obtain ⟨t', ht', href'⟩ := href.step hu
  exact ⟨t', exec_concat_iff.mpr ⟨t, os', o, ht, ht', rfl⟩, href'⟩

/-! ## The scheduler -/

theorem Spells.firstLevel_eq (h : Spells s q) (hl : IsLevel l)
    (hne : q l ≠ []) (hlow : ∀ k, IsLevel k → k < l → q k = []) : firstLevel s = some l := by
  have hempty : ∀ k, IsLevel k → (isempty k s = true ↔ q k = []) := by
    intro k hk
    rw [isempty, Option.isNone_iff_eq_none]
    exact (h.isQueue k hk).head_eq_none_iff
  obtain ⟨n, rfl⟩ := Int.eq_ofNat_of_zero_le hl.1
  have hn : n < PLEVELS := Int.ofNat_lt.mp hl.2
  refine List.find?_eq_some_iff_getElem.mpr ⟨?_, n, ?_, ?_, ?_⟩
  · rw [Bool.not_eq_true', ← Bool.not_eq_true, hempty _ hl]
    exact hne
  · rw [List.length_map, List.length_range]
    exact hn
  · rw [List.getElem_map, List.getElem_range]
  · intro m hm
    have hm' : IsLevel (m : ℤ) := ⟨by omega, by omega⟩
    rw [List.getElem_map, List.getElem_range, Bool.not_not, hempty _ hm']
    exact hlow _ hm' (by omega)

/-- `scheduler` switches to the last process of the first level that has one. -/
theorem Spells.scheduler_eq (h : Spells s q) (hl : IsLevel l)
    (hlow : ∀ k, IsLevel k → k < l → q k = []) (hq : q l = rest ++ [p]) (c : ℕ) : scheduler c s =
      some (((Process.removefromlevel p l s).setCpu c (some p)).modProc p Proc.resume) := by
  have hfirst : firstLevel s = some l := h.firstLevel_eq hl (by rw [hq]; simp) hlow
  have hdeq := h.dequeue hl hq
  simp only [scheduler, hfirst, hdeq]

/-- The scheduler of CPU `c` runs the process `p` of level `l`, and takes it off that level. -/
structure Dispatches (c : ℕ) (s : PTable) (l : ℤ) (p : Slot) : Prop where
  run : ∃ t, scheduler c s = some t ∧ t.cpu c = some p ∧ (t.proc p).state = .running ∧
    t.queue l = (s.queue l).dropLast ∧ ∀ k, IsLevel k → k ≠ l → t.queue k = s.queue k

theorem Spells.queue_dispatch (h : Spells s q) (hl : IsLevel l)
    (hq : q l = rest ++ [p]) (c : ℕ) {k : ℤ} (hk : IsLevel k) :
    (((Process.removefromlevel p l s).setCpu c (some p)).modProc p Proc.resume).queue k =
      if k = l then rest else q k := by
  have hspells := h.removefromlevel hl hq
  rw [List.append_nil] at hspells
  have hlinks : (((Process.removefromlevel p l s).setCpu c (some p)).modProc p
      Proc.resume).links = (Process.removefromlevel p l s).links :=
    links_modProc fun _ => ⟨rfl, rfl⟩
  rw [PTable.queue, hlinks]
  exact hspells.queue_eq hk

theorem Spells.dispatches (h : Spells s q) (hl : IsLevel l)
    (hlow : ∀ k, IsLevel k → k < l → q k = []) (hq : q l = rest ++ [p])
    (c : ℕ) : Dispatches c s l p := by
  refine ⟨_, h.scheduler_eq hl hlow hq c, ?_, ?_, ?_, ?_⟩
  · rw [modProc_cpu, setCpu_cpu, if_pos rfl]
  · rw [modProc_proc_self]
    rfl
  · rw [h.queue_dispatch hl hq c hl, if_pos rfl, h.queue_eq hl, hq, List.dropLast_concat]
  · intro k hk hne
    rw [h.queue_dispatch hl hq c hk, if_neg hne, h.queue_eq hk]

/-! ## Runs of the kernel

The kernel makes the calls from inside its sections.  Seen from one section to the next, a level
gets new processes at its head, and the ones that stay keep their order. -/

/-- From `s` to `t` the list of level `l` gets new processes at its head and loses others. -/
def Follows (s t : PTable) (l : ℤ) : Prop :=
  ∃ new kept, t.queue l = new ++ kept ∧ kept.Sublist (s.queue l) ∧ ∀ r ∈ new, r ∉ s.queue l

/-- What comes in at the head was not there before. -/
theorem follows_of_append (new : List Slot) (hi : Inv t) (hl : IsLevel l)
    (h : t.queue l = new ++ s.queue l) : Follows s t l := by
  have hnd := (hi.queue.isQueue l hl).nodup
  rw [h] at hnd
  exact ⟨new, s.queue l, h, List.Sublist.refl _, fun r hr hr' =>
    (List.nodup_append.mp hnd).2.2 r hr r hr' rfl⟩

theorem step_follows (hi : Inv s) {a : Label} {e : Event} (hs : step s a = some (t, e))
    (hl : IsLevel l) : Follows s t l := by
  have hit := hi.step hs
  have hticked : ∀ p, Queued (ticked s p) s.queue none := fun p =>
    hi.queue.modProc (fun _ => ⟨rfl, rfl⟩) fun _ => ⟨rfl, rfl⟩
  cases step_kind hi hs with
  | plain hm =>
    obtain ⟨new, hnew⟩ := hm.queue hi.queue hl
    exact follows_of_append new hit hl hnew
  | @dispatch c _ ht =>
    obtain ⟨p, k, -, hk, -, hlast, -, -, rfl⟩ := scheduler_eq_some hi ht
    rw [(hi.queue.isQueue k hk).last_eq] at hlast
    have hq := (List.dropLast_append_getLast? p hlast).symm
    have hqueue := hi.queue.spells.queue_dispatch hk hq c hl
    by_cases hkl : l = k
    · subst hkl
      rw [if_pos rfl] at hqueue
      exact ⟨[], _, hqueue, List.dropLast_sublist _, fun r hr => absurd hr List.not_mem_nil⟩
    · rw [if_neg hkl] at hqueue
      exact ⟨[], _, hqueue, List.Sublist.refl _, fun r hr => absurd hr List.not_mem_nil⟩
  | @tick c p => exact follows_of_append [] hit hl ((hticked p).spells.queue_eq hl)
  | @expire c p _ _ _ _ hm =>
    have hreset : Queued ((ticked s p).modProc p fun x => { x with ticksCount := 0 })
        s.queue none := (hticked p).modProc (fun _ => ⟨rfl, rfl⟩) fun _ => ⟨rfl, rfl⟩
    obtain ⟨new, hnew⟩ := hm.queue hreset.queue hl
    rw [hreset.spells.queue_eq hl] at hnew
    exact follows_of_append new hit hl hnew
  | aging ht =>
    refine ⟨(promoted s (l + 1)).reverse, waiting s l, aging_queue hi ht hl, ?_, ?_⟩
    · unfold waiting
      split_ifs
      · exact List.filter_sublist
      · exact List.Sublist.refl _
    · intro r hr hr'
      rw [List.mem_reverse, promoted] at hr
      split_ifs at hr with hl'
      · have := hi.queue.level_unique hl hl' hr' (List.mem_filter.mp hr).1
        omega
      · cases hr

/-- Whoever leaves before a process that was there before was there before, too. -/
theorem Follows.leavesBefore (h : Follows s t l) (hr : r ∈ s.queue l)
    (hp : LeavesBefore t l p r) : LeavesBefore s l p r := by
  obtain ⟨new, kept, hqueue, hkept, hnew⟩ := h
  rw [LeavesBefore, hqueue, List.sublist_append_iff] at hp
  obtain ⟨l1, l2, heq, h1, h2⟩ := hp
  cases l1 with
  | nil =>
    rw [List.nil_append] at heq
    rw [LeavesBefore, heq]
    exact h2.trans hkept
  | cons x l1 =>
    obtain ⟨rfl, -⟩ := List.cons.inj heq
    exact absurd hr (hnew r (h1.subset List.mem_cons_self))

/-- Over a whole run: whoever leaves before a process that has stayed in the level has been there
for as long. -/
theorem leavesBefore_of_staysIn {bs : List Label} {es : List Event} (hi : Inv s) (hl : IsLevel l)
    (hr : r ∈ s.queue l) (h : exec step s bs = some (t, es))
    (hstay : StepsMeet step (StaysIn r l) s bs) (hp : LeavesBefore t l p r) :
    LeavesBefore s l p r := by
  refine (exec_induction (P := fun bs t _ => StepsMeet step (StaysIn r l) s bs → Inv t ∧
    r ∈ t.queue l ∧ ∀ p, LeavesBefore t l p r → LeavesBefore s l p r) ?_ ?_ h hstay).2.2 p hp
  · exact fun _ => ⟨hi, hr, fun _ h => h⟩
  · intro bs t es a u e ht ih hu hmeet
    obtain ⟨hit, hrt, hback⟩ := ih hmeet.of_concat
    refine ⟨hit.step hu, hmeet.last ht _ hu, fun q hq => hback q ?_⟩
    exact (step_follows hit hu hl).leavesBefore hrt hq

/-- **The levels are first-in first-out queues.**  Calls that the abstract queues accept run
without a panic and return the same processes, and the pointers spell the abstract lists
afterwards.  The scheduler then runs, from the first level that has a process, the one that was
queued there earliest.  In a run of the kernel, too, it is at the end of the list, and no process
has been in the level for longer. -/
theorem exec_refines_fifos {as : List Call} {os : List (Option Slot)} (h : Refines s f)
    (hg : exec Call.spec f as = some (g, os)) :
    (∃ t, exec Call.run s as = some (t, os) ∧ Refines t g ∧
      (∀ l, IsLevel l → t.queue l = g.list l) ∧
      ∀ c l p rest, IsLevel l → (∀ k, IsLevel k → k < l → t.queue k = []) →
        t.queue l = rest ++ [p] → Dispatches c t l p ∧ ∀ r ∈ rest, g.stamp p < g.stamp r) ∧
    ∀ bs1 u1 es1 bs2 u es2, exec step PTable.boot bs1 = some (u1, es1) →
      exec step u1 bs2 = some (u, es2) →
      ∀ c l p rest, IsLevel l → (∀ k, IsLevel k → k < l → u.queue k = []) →
        u.queue l = rest ++ [p] → Dispatches c u l p ∧
          ∀ r ∈ rest, r ∈ u1.queue l → StepsMeet step (StaysIn r l) u1 bs2 → p ∈ u1.queue l := by
  refine ⟨?_, ?_⟩
  · obtain ⟨t, ht, href⟩ := h.exec hg
    refine ⟨t, ht, href, fun l hl => href.spells.queue_eq hl, ?_⟩
    intro c l p rest hl hlow hq
    rw [href.spells.queue_eq hl] at hq
    refine ⟨href.spells.dispatches hl (fun k hk hkl => ?_) hq c,
      fun r hr => href.wf.stamp_lt hq hr⟩
    rw [← href.spells.queue_eq hk]
    exact hlow k hk hkl
  · intro bs1 u1 es1 bs2 u es2 hu1 hu c l p rest hl hlow hq
    have hi1 := inv_exec hu1
    have hi : Inv u := exec_invariant (fun hi hs => hi.step hs) hi1 hu
    refine ⟨hi.queue.spells.dispatches hl hlow hq c, fun r hr hr1 hstay => ?_⟩
    have hbefore : LeavesBefore u l p r := by
      rw [LeavesBefore, hq]
      exact List.Sublist.append (List.singleton_sublist.mpr hr) (List.Sublist.refl [p])
    have hsub := leavesBefore_of_staysIn hi1 hl hr1 hu hstay hbefore
    exact hsub.subset (by simp)

/-- The empty queues of a booting kernel. -/
def Fifos.boot : Fifos ℤ Slot := ⟨fun _ => 0, fun _ => [], 0, fun _ => 0⟩

theorem refines_boot : Refines PTable.boot Fifos.boot where
  spells := ⟨fun _ _ => isQueue_nil _, fun _ _ hp => absurd hp List.not_mem_nil⟩
  nice _ := rfl
  level _ := by
    show IsLevel 0
    decide
  wf := ⟨fun hp => absurd hp List.not_mem_nil, fun _ => List.Pairwise.nil,
    fun hp => absurd hp List.not_mem_nil⟩

/-- Three processes are queued, the one in the middle is taken out, and the oldest leaves. -/
theorem exec_refines_fifos_three : ∃ g os, exec Call.spec Fifos.boot
    [.enqueue 0, .enqueue 1, .enqueue 2, .removefromlevel 1 0, .dequeue 0] = some (g, os) ∧
    ∃ t, exec Call.run PTable.boot [.enqueue 0, .enqueue 1, .enqueue 2,
        .removefromlevel 1 0, .dequeue 0] = some (t, os) ∧ Refines t g := by
  have hrun : (exec Call.spec Fifos.boot [.enqueue 0, .enqueue 1, .enqueue 2,
        .removefromlevel 1 0, .dequeue 0]).isSome = true := by decide +kernel
  obtain ⟨⟨g, os⟩, hg⟩ := Option.isSome_iff_exists.mp hrun
  obtain ⟨⟨t, ht, href, -⟩, -⟩ := exec_refines_fifos refines_boot hg
  exact ⟨g, os, hg, t, ht, href⟩

/-- **A process that is queued twice takes others with it.**  Process 1 is queued once and never
taken out, and yet after these calls its level is empty and `dequeue` panics. -/
theorem exec_run_lost : ∃ t os, exec Call.run PTable.boot
    [.enqueue 0, .enqueue 1, .enqueue 0, .dequeue 0] =
      some (t, os) ∧ t.queue 0 = [] ∧ dequeue 0 t = none := by
  have hrun : (exec Call.run PTable.boot [.enqueue 0, .enqueue 1, .enqueue 0,
        .dequeue 0]).map (fun r => (r.1.queue 0, (dequeue 0 r.1).isNone)) = some ([], true) := by
    decide +kernel
  obtain ⟨⟨t, os⟩, ht, heq⟩ := Option.map_eq_some_iff.mp hrun
  obtain ⟨hqueue, hnone⟩ := Prod.mk.inj heq
  exact ⟨t, os, ht, hqueue, Option.isNone_iff_eq_none.mp hnone⟩

end Xv6.Process
