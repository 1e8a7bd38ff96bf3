import Xv6.Sem.References

/-!
# What `semget` promises its caller

`semget` raises a reference count under `sems.lock`, releases the lock, and then looks for a free
entry in the descriptors of the caller.  Between the two other processes run, but none of them
touches the descriptors of the caller (`desc_of_attaching`), so the outcome is settled in the first
half.

The checks of the first half do not settle it in favour of the caller.  `semcount > PROCMAXSEM` lets
a caller through whose entries are all taken; `semattach` then finds no entry, and its result is not
looked at.  `used > SYSMAXSEM` lets a `semget(-1, v)` through when no semaphore is free; `semcreate`
then returns -1, which `semget` writes to, attaches and returns.  Outside of these two cases the
promise is kept (`attaches_iff_of_exec`).
-/

namespace Xv6.Sem

open Process Lib

variable {s t u : State} {p q : Slot} {c : ℕ} {key v r semid : ℤ} {e : Event} {as : List Label}
  {es : List Event}

/-! ## The first half -/

section Get

variable {m m' : Sems} {d d' : Desc}

/-- The ways out of the section under `sems.lock`. -/
theorem semget_cases {x : Except ℤ ℤ} (h : semget m d key v = some (m', x)) :
    d.semcount > PROCMAXSEM ∧ x = .error ENSEM ∨
      d.semcount ≤ PROCMAXSEM ∧ (m.used > SYSMAXSEM ∧ x = .error ENSEMSYS ∨
        key ≠ -1 ∧ x = .error EINVAL ∨
        m.used ≤ SYSMAXSEM ∧ key ≤ SYSMAXSEM ∧ ∃ semid, x = .ok semid) := by
  unfold semget at h
  split_ifs at h with h1 h2 h3 h4
  · cases h
    exact Or.inl ⟨h1, rfl⟩
  · cases h
    exact Or.inr ⟨not_lt.mp h1, Or.inl ⟨h2, rfl⟩⟩
  · cases h
    refine Or.inr ⟨not_lt.mp h1, Or.inr (Or.inl ⟨?_, rfl⟩)⟩
    rintro rfl
    rcases h3 with h3 | h3 | ⟨h3, -⟩ <;> omega
  · cases h
    exact Or.inr ⟨not_lt.mp h1, Or.inr (Or.inr ⟨not_lt.mp h2, by omega, _, rfl⟩)⟩
  · split at h
    · cases h
    · obtain ⟨m1, -, heq⟩ := Option.map_eq_some_iff.mp h
      cases heq
      exact Or.inr ⟨not_lt.mp h1, Or.inr (Or.inr ⟨not_lt.mp h2, by omega, _, rfl⟩)⟩

theorem mem_of_semattach (h : semattach d semid = some d') (hne : semid ≠ -1) :
    semid ∈ d'.semids := by
  obtain ⟨l, hl, rfl⟩ := Option.map_eq_some_iff.mp h
  have hcount := count_replaceFirst hl semid
  rw [if_neg hne.symm, if_pos rfl] at hcount
  exact List.count_pos_iff.mp (show 0 < l.count semid by omega)

/-- A key that passes the check of `semdown` and `semup` passes the one of `semfree`. -/
theorem semfree_ne_einval (h : invalid m d key = false) :
    semfree m d key ≠ some (m', d', EINVAL) := by
  obtain ⟨h1, h2, h3, h4⟩ := not_invalid (by rw [h]; decide)
  have hcheck : ¬ (key < 0 ∨ key > SYSMAXSEM ∨ m.isfree key = true) := by
    rintro (hlt | hgt | hfree)
    · omega
    · omega
    · exact h3 (of_decide_eq_true hfree)
  unfold semfree
  rw [if_neg hcheck]
  cases hd : semdetach d key with
  | none =>
    rw [semdetach, Option.map_eq_none_iff, replaceFirst_eq_none_iff] at hd
    exact absurd h4 hd
  | some d1 =>
    intro heq
    obtain ⟨m1, -, heq⟩ := Option.map_eq_some_iff.mp heq
    cases heq

end Get

/-! ## Between the halves -/

/-- Until `p` has run `semattach`, no step moves it or touches its descriptors. -/
theorem step_of_attaching (h : SemInv s) (hpc : s.pc p = .attach semid) {a : Label}
    (hs : step s a = some (t, e)) (he : ∀ r, e ≠ .returned p r) :
    t.pc p = .attach semid ∧ t.desc p = s.desc p := by
  have hlive : (s.pt.proc p).state.Live := h.live (by rw [hpc]; nofun)
  -- a process that stands elsewhere is another one, and so is a slot in which nobody can act
  have hpt : ∀ {q : Slot} {x : Pc}, s.pc q = x → x ≠ .attach semid → p ≠ q := by
    rintro q x rfl hx rfl
    exact hx hpc
  have hdead : ∀ {q : Slot}, ¬ (s.pt.proc q).state.Live → p ≠ q := by
    rintro q hq rfl
    exact hq hlive
  have hstay : ∀ {u : State} {q : Slot} {x : Pc}, u.pc = s.pc → p ≠ q →
      (u.setPc q x).pc p = .attach semid := by
    intro u q x hu hne
    rw [setPc_pc, if_neg hne, hu, hpc]
  cases step_part hs with
  | proc => exact ⟨hpc, rfl⟩
  | @userinit q _ _ hps hq =>
    obtain ⟨q', hq', hunused, -⟩ := userinit_spec hps
    obtain rfl : q' = q := Option.some.inj (hq'.symm.trans hq)
    refine ⟨hpc, ?_⟩
    rw [setDesc_desc, if_neg (hdead fun hl => hl.ne.1 hunused)]
  | @forkInit c q np hf hq =>
    refine ⟨hstay rfl (hpt hq (by nofun)), (setDesc_desc _ np p _).trans (if_neg (hdead ?_))⟩
    exact h.not_live_child (child_of_forkingOn hf).2
  | forkFail _ hq => exact ⟨hstay rfl (hq.elim (hpt · (by nofun)) (hpt · (by nofun))), rfl⟩
  | forkParent _ hq => exact ⟨hstay rfl (hpt hq (by nofun)), rfl⟩
  | @copy c q np i m d hf hq =>
    refine ⟨hstay rfl (hpt hq (by nofun)), (setDesc_desc _ np p _).trans (if_neg (hdead ?_))⟩
    exact h.not_live_child (child_of_forkedOn hf).2
  | @copied c q np i hf hq =>
    refine ⟨hstay rfl (hpt hq (by nofun)), (setDesc_desc _ np p _).trans (if_neg (hdead ?_))⟩
    exact h.not_live_child (child_of_forkedOn hf).2
  | forkEnqueue _ hq => exact ⟨hstay rfl (hpt hq (by nofun)), rfl⟩
  | refused => exact ⟨hpc, rfl⟩
  | get hq => exact ⟨hstay rfl (hpt (caller_eq_some hq).2 (by nofun)), rfl⟩
  | @attach c q semid' _ hq =>
    have hne : p ≠ q := by
      rintro rfl
      exact he semid' rfl
    exact ⟨hstay rfl hne, (setDesc_desc _ q p _).trans (if_neg hne)⟩
  | @free c key q m d r hq =>
    exact ⟨hpc, (setDesc_desc _ q p d).trans (if_neg (hpt (caller_eq_some hq).2 (by nofun)))⟩
  | down _ _ hq => exact ⟨hstay rfl (hq.elim (hpt ·.1 (by nofun)) (hpt · (by nofun))), rfl⟩
  | slept _ _ hq => exact ⟨hstay rfl (hq.elim (hpt ·.1 (by nofun)) (hpt · (by nofun))), rfl⟩
  | up hq => exact ⟨hstay rfl (hpt (caller_eq_some hq).2 (by nofun)), rfl⟩
  | wakeup _ hq => exact ⟨hstay rfl (hpt hq (by nofun)), rfl⟩

theorem attachStep_of_attaching (hrun : runningAt s.pt c .user = some p)
    (hpc : s.pc p = .attach semid) : attachStep c s =
      some ((s.setDesc p ((semattach (s.desc p) semid).getD (s.desc p))).setPc p .idle,
        .returned p semid) := by
  unfold attachStep
  simp only [hrun, hpc]

theorem desc_of_attaching (h : SemInv s) (hpc : s.pc p = .attach semid)
    (hrun : exec step s as = some (t, es)) (hes : ∀ e ∈ es, ∀ r, e ≠ .returned p r) :
    SemInv t ∧ t.pc p = .attach semid ∧ t.desc p = s.desc p := by
  refine exec_induction (P := fun _ t es => (∀ e ∈ es, ∀ r, e ≠ .returned p r) →
    SemInv t ∧ t.pc p = .attach semid ∧ t.desc p = s.desc p) (fun _ => ⟨h, hpc, rfl⟩) ?_ hrun hes
  intro as t es a u e _ ih hs hes
  obtain ⟨hinv, hpc', hdesc⟩ := ih fun f hf => hes f (List.mem_append_left _ hf)
  obtain ⟨hu, hdesc'⟩ := step_of_attaching hinv hpc' hs
    (hes e (List.mem_append_right _ (List.mem_singleton_self e)))
  exact ⟨hinv.step hs, hu, hdesc'.trans hdesc⟩

/-! ## The promise -/

/-- A call of `semget` by `p`, of which the first half led to the state `s` with the event `e`,
returns `r` in the state `t`: at once, or after `semattach`, with any other steps before that. -/
inductive Returns (p : Slot) : State → Event → State → ℤ → Prop
  | failed {s : State} {r : ℤ} : Returns p s (.returned p r) s r
  | attached {s t u : State} {e : Event} {c : ℕ} {semid r : ℤ} {as : List Label} {es : List Event}
      (hpc : s.pc p = .attach semid) (hrun : exec step s as = some (u, es))
      (hes : ∀ e ∈ es, ∀ r, e ≠ .returned p r)
      (hlast : step u (.semattach c) = some (t, .returned p r)) : Returns p s e t r

/-- What the caller `p` of `semget` in the state `s` may expect when the first half led to `u` and
the call returned `r` in `t`. -/
structure Attaches (s u t : State) (p : Slot) (r : ℤ) : Prop where
  /-- the id is attached, and the next call with it does not return `EINVAL` -/
  attached : 0 ≤ r → r ∈ (t.desc p).semids ∧ invalid t.sems (t.desc p) r = false ∧
    ∀ m d, semfree t.sems (t.desc p) r ≠ some (m, d, EINVAL)
  unchanged : r < 0 → u.sems = s.sems ∧ t.desc p = s.desc p
  full : ¬ (s.desc p).hasFree → r = ENSEM

/-- `semget(key, v)` is refused for good, or there is an entry for the id, and an id. -/
def Roomy (s : State) (p : Slot) (key : ℤ) : Prop :=
  (s.desc p).semcount > PROCMAXSEM ∨
    (s.desc p).hasFree ∧
      (s.sems.used > SYSMAXSEM ∨ key ≠ -1 ∨ ∃ i ∈ ids, (s.sems.list i).references = 0)

instance (s : State) (p : Slot) (key : ℤ) : Decidable (Roomy s p key) :=
  inferInstanceAs (Decidable (_ ∨ _ ∧ (_ ∨ _ ∨ _)))

theorem attaches_of_error {m : Sems} (hg : semget s.sems (s.desc p) key v = some (m, .error r))
    (h : Roomy s p key) : Attaches s s s p r := by
  have hcases := semget_cases hg
  have hneg : r < 0 := by
    rcases hcases with ⟨-, hr⟩ | ⟨-, ⟨-, hr⟩ | ⟨-, hr⟩ | ⟨-, -, semid, hr⟩⟩ <;> cases hr <;> decide
  refine ⟨fun hr => absurd hr (by omega), fun _ => ⟨rfl, rfl⟩, fun hfull => ?_⟩
  rcases h with hcount | ⟨hfree, -⟩
  · rcases hcases with ⟨-, hr⟩ | ⟨hle, -⟩
    · exact Except.error.inj hr
    · omega
  · exact absurd hfree hfull

/-- An id that is attached to a process which can act has a reference. -/
theorem not_invalid_of_mem
    (h : exec step State.boot as = some (s, es)) (hlive : (s.pt.proc p).state.Live)
    (hmem : semid ∈ (s.desc p).semids) (h0 : 0 ≤ semid) (hle : semid ≤ SYSMAXSEM) :
    invalid s.sems (s.desc p) semid = false := by
  have href : s.sems.references semid ≠ 0 := by
    by_cases hlast : semid = SYSMAXSEM
    · rw [hlast, Sems.references, if_pos rfl]
      decide
    · have hid : IsId semid := ⟨h0, by omega⟩
      have hshare := share_le_references h hid p
      rw [share_of_live hlive] at hshare
      have hcount : 0 < (s.desc p).semids.count semid := List.count_pos_iff.mpr hmem
      rw [Sems.references_of_isId hid]
      omega
  simp only [invalid, Sems.isfree, isattached, decide_eq_false_iff_not, not_or, decide_eq_true_eq,
    not_lt, not_not]
  exact ⟨h0, hle, href, hmem⟩

theorem semid_of_ok {m : Sems} (hg : semget s.sems (s.desc p) key v = some (m, .ok semid)) :
    -1 ≤ semid ∧ semid ≤ SYSMAXSEM ∧ (semid = -1 → m.used ≠ s.sems.used) ∧
      (semid ≠ -1 ↔ key ≠ -1 ∨ ∃ i ∈ ids, (s.sems.list i).references = 0) := by
  have hle : key ≤ SYSMAXSEM := by
    rcases semget_cases hg with ⟨-, hr⟩ | ⟨-, ⟨-, hr⟩ | ⟨-, hr⟩ | ⟨-, hle, -⟩⟩
    · cases hr
    · cases hr
    · cases hr
    · exact hle
  obtain ⟨-, ⟨hkey, -, ⟨hid, hfree, -⟩ | ⟨rfl, hall, hused⟩⟩ | ⟨rfl, h0, -, -⟩⟩ := semget_eq_ok hg
  · have h1 := hid.1
    have h2 := hid.2
    exact ⟨by omega, by omega, fun hr => absurd hr (by omega),
      fun _ => Or.inr ⟨semid, mem_ids.mpr hid, hfree⟩, fun _ => by omega⟩
  · refine ⟨le_rfl, by decide, fun _ => by omega, fun hr => absurd rfl hr, ?_⟩
    rintro (hne | ⟨i, hi, hfree⟩)
    · exact absurd hkey hne
    · exact absurd hfree (hall i (mem_ids.mp hi))
  · exact ⟨by omega, hle, fun hr => absurd hr (by omega), fun _ => Or.inl (by omega),
      fun _ => by omega⟩

/-- A call that goes on to `semattach` with an id and finds a free entry. -/
theorem attaches_of_ok {m : Sems} (h : exec step State.boot as = some (s, es))
    (hs : step s (.semget c key v) =
      some (({ s with sems := m } : State).setPc p (.attach semid), e))
    (h0 : 0 ≤ semid) (hle : semid ≤ SYSMAXSEM) (hfree : (s.desc p).hasFree)
    (hret : Returns p (({ s with sems := m } : State).setPc p (.attach semid)) e t r)
    (he : ∀ r, e ≠ .returned p r) :
    Attaches s (({ s with sems := m } : State).setPc p (.attach semid)) t p r := by
  have hinv := (semInv_exec h).step hs
  have hself : ((({ s with sems := m } : State).setPc p (.attach semid))).pc p = .attach semid := by
    rw [setPc_pc, if_pos rfl]
  cases hret with
  | failed => exact absurd rfl (he r)
  | attached hpc hrun hes hlast =>
    rename_i u c' semid' as' es'
    obtain ⟨hinv', hpc', hdesc⟩ := desc_of_attaching hinv hself hrun hes
    obtain ⟨q, k, hat, hqpc, rfl, heq⟩ := attachStep_eq_some hlast
    cases heq
    obtain rfl : semid = r := Pc.attach.inj (hpc'.symm.trans hqpc)
    obtain ⟨d, hd⟩ : ∃ d, semattach (u.desc p) semid = some d := by
      rw [← Option.ne_none_iff_exists', ne_eq, semattach_eq_none_iff, not_not, hdesc]
      exact hfree
    have hnew :
      ((u.setDesc p ((semattach (u.desc p) semid).getD (u.desc p))).setPc p .idle).desc p =
        d := by
      show (u.setDesc p _).desc p = d
      rw [setDesc_desc, if_pos rfl, hd]
      rfl
    have hmem : semid ∈ d.semids := mem_of_semattach hd (by omega)
    have hlive := hinv'.live_of_cpu (runningAt_eq_some hat).1
    have hreach := exec_concat_iff.mpr
      ⟨u, _, _, exec_append (exec_concat_iff.mpr ⟨s, es, e, h, hs, rfl⟩) hrun, hlast, rfl⟩
    have hvalid := not_invalid_of_mem hreach hlive (by rwa [hnew]) h0 hle
    refine ⟨fun _ => ⟨by rwa [hnew], hvalid, fun m d => semfree_ne_einval hvalid⟩,
      fun hneg => absurd hneg (by omega), fun hfull => absurd hfree hfull⟩

/-- **`semget` either attaches or fails cleanly** in exactly the states that have room for it.  In a
reachable state every call that was let through returns an id that is attached, or an error without
having changed anything, and `ENSEM` to a caller whose entries are all taken, if and only if
`semcount` is above `PROCMAXSEM` already, or there is a free entry and, for a new semaphore, a free
id (or `used` is above `SYSMAXSEM`). -/
theorem attaches_iff_of_exec {as : List Label} {es : List Event}
    (h : exec step State.boot as = some (s, es)) (hp : s.caller c = some p)
    (hs : step s (.semget c key v) = some (u, e)) :
    (∀ t r, Returns p u e t r → Attaches s u t p r) ↔ Roomy s p key := by
  have hinv := semInv_exec h
  obtain ⟨hrun, hidle⟩ := caller_eq_some hp
  obtain ⟨q, hq, hcase⟩ := getStep_eq_some hs
  obtain rfl : p = q := Option.some.inj (hp.symm.trans hq)
  rcases hcase with ⟨m, r, hg, hu, rfl⟩ | ⟨m, semid, hg, rfl, rfl⟩
  · obtain rfl : s = u := hu.symm
    constructor
    · intro hall
      have hatt := hall s r .failed
      rcases semget_cases hg with ⟨hcount, -⟩ | ⟨hle, hr⟩
      · exact Or.inl hcount
      · have hne : r ≠ ENSEM := by
          rcases hr with ⟨-, hr⟩ | ⟨-, hr⟩ | ⟨-, -, semid, hr⟩ <;> cases hr <;> decide
        refine Or.inr ⟨not_not.mp fun hfull => hne (hatt.full hfull), ?_⟩
        rcases hr with ⟨hused, -⟩ | ⟨hkey, -⟩ | ⟨-, -, semid, hr⟩
        · exact Or.inl hused
        · exact Or.inr (Or.inl hkey)
        · cases hr
    · intro hroomy t r' hret
      cases hret with
      | failed => exact attaches_of_error hg hroomy
      | attached hpc => rw [hidle] at hpc; cases hpc
  · obtain ⟨hlow, hhigh, hlost, hkept⟩ := semid_of_ok hg
    have hcount : (s.desc p).semcount ≤ PROCMAXSEM ∧ s.sems.used ≤ SYSMAXSEM := by
      rcases semget_cases hg with ⟨-, hr⟩ | ⟨hle, ⟨-, hr⟩ | ⟨-, hr⟩ | ⟨hused, -⟩⟩
      · cases hr
      · cases hr
      · cases hr
      · exact ⟨hle, hused⟩
    constructor
    · intro hall
      -- `semattach` right after the first half
      have hself : ((({ s with sems := m } : State).setPc p (.attach semid))).pc p =
          .attach semid := by
        rw [setPc_pc, if_pos rfl]
      have hlast := attachStep_of_attaching
        (s := ({ s with sems := m } : State).setPc p (.attach semid)) hrun hself
      have hatt := hall _ semid (.attached hself (exec_nil _) (by nofun) hlast)
      refine Or.inr ⟨not_not.mp fun hfull => ?_, Or.inr (hkept.mp fun hneg => ?_)⟩
      · have := hatt.full hfull
        rw [ENSEM] at this
        omega
      · exact hlost hneg (congrArg Sems.used (hatt.unchanged (by omega)).1)
    · intro hroomy t r hret
      rcases hroomy with hgt | ⟨hfree, hroom⟩
      · omega
      · refine attaches_of_ok h hs ?_ hhigh hfree hret ?_
        · have hne := hkept.mpr (hroom.resolve_left (by omega))
          omega
        · intro r hr
          split_ifs at hr

/-- The first process asks for its first semaphore. -/
theorem attaches_of_first_semget : ∃ s u es e p,
    exec step State.boot [.userinit, .proc (.dispatch 0)] = some (s, es) ∧ s.caller 0 = some p ∧
      step s (.semget 0 (-1) 1) = some (u, e) ∧ ∀ t r, Returns p u e t r → Attaches s u t p r := by
  have hrun : ((exec step State.boot [.userinit, .proc (.dispatch 0)]).bind fun x =>
      (x.1.caller 0).bind fun p => (step x.1 (.semget 0 (-1) 1)).map fun _ =>
        decide (Roomy x.1 p (-1))) = some true := by
    decide +kernel
  obtain ⟨⟨s, es⟩, hs, hrun⟩ := Option.bind_eq_some_iff.mp hrun
  obtain ⟨p, hp, hrun⟩ := Option.bind_eq_some_iff.mp hrun
  obtain ⟨⟨u, e⟩, hu, hroomy⟩ := Option.map_eq_some_iff.mp hrun
  exact ⟨s, u, es, e, p, hs, hp, hu,
    (attaches_iff_of_exec hs hp hu).mpr (of_decide_eq_true hroomy)⟩

/-- Five calls of `semget(-1, 1)` by the first process. -/
def fiveSemgets : List Label :=
  [.userinit, .proc (.dispatch 0)] ++ (List.replicate 5 [.semget 0 (-1) 1, .semattach 0]).flatten

/-- **Counterexample.**  The sixth call creates semaphore 5 and returns its id.  It is not attached,
so that the caller can neither use nor free it. -/
theorem not_attached_after_five : ∃ s u t es e p,
    exec step State.boot fiveSemgets = some (s, es) ∧ ¬ (s.desc p).hasFree ∧
      step s (.semget 0 (-1) 1) = some (u, e) ∧ step u (.semattach 0) = some (t, .returned p 5) ∧
      5 ∉ (t.desc p).semids ∧ invalid t.sems (t.desc p) 5 = true ∧
      (t.sems.list 5).references = 1 := by
  have hrun : ((exec step State.boot fiveSemgets).bind fun x =>
      (step x.1 (.semget 0 (-1) 1)).bind fun y => (step y.1 (.semattach 0)).map fun z =>
        (z.2, decide (¬ (x.1.desc 0).hasFree),
          decide (5 ∉ (z.1.desc 0).semids),
          invalid z.1.sems (z.1.desc 0) 5, (z.1.sems.list 5).references)) =
      some (.returned 0 5, true, true, true, 1) := by
    decide +kernel
  obtain ⟨⟨s, es⟩, hs, hrun⟩ := Option.bind_eq_some_iff.mp hrun
  obtain ⟨⟨u, e⟩, hu, hrun⟩ := Option.bind_eq_some_iff.mp hrun
  obtain ⟨⟨t, e'⟩, ht, heq⟩ := Option.map_eq_some_iff.mp hrun
  simp only [Prod.mk.injEq, decide_eq_true_eq] at heq
  obtain ⟨rfl, hfull, hnot, hinvalid, href⟩ := heq
  exact ⟨s, u, t, es, e, 0, hs, hfull, hu, ht, hnot, hinvalid, href⟩

end Xv6.Sem
