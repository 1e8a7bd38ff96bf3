import Xv6.Sem.Invariant

/-!
# Reference counts of semaphores

`held s i` counts the references to semaphore `i` that somebody accounts for: the entries `i` in
the descriptors of the processes that can act, one for every `semget` that is about to attach
`i`, and the entries that a `fork` in progress has copied to its child so far.  The difference
between `references` and `held` never falls.  It grows in two steps only (`leaked`):

* `exit`, which closes files but leaves the semaphores of the process alone;
* the end of `semget` when the caller has no free descriptor, after the count has been raised.

`balance_step` is this equation.  It makes the counts exact in a run if and only if the run takes
neither of the two steps (`exact_iff_of_exec`).
-/

namespace Xv6.Sem

open Process Lib

variable {s t : State} {p np : Slot} {c k : ℕ} {i key semid : ℤ} {e : Process.Event}
  {pt' : PTable} {a : Label}
  {as : List Label} {es : List Event} {m : Sems} {d : Desc} {x : Pc}

/-- The references that a process at the point `x` has taken and not yet entered. -/
def Pc.pending (x : Pc) (semids : List ℤ) (i : ℤ) : ℕ :=
  match x with
  | .attach semid => if semid = i then 1 else 0
  | .copying k => (semids.take k).count i
  | .copied => semids.count i
  | _ => 0

/-- The references to `i` that `p` accounts for. -/
def share (s : State) (i : ℤ) (p : Slot) : ℤ :=
  if (s.pt.proc p).state.Live then
    ((s.desc p).semids.count i + (s.pc p).pending (s.desc p).semids i : ℕ)
  else 0

/-- The references to `i` that are accounted for. -/
def held (s : State) (i : ℤ) : ℤ := ∑ p, share s i p

/-- The references to `i` that the step loses track of. -/
def leaked (s : State) (a : Label) (i : ℤ) : ℤ :=
  match a with
  | .proc (.exit c) =>
    match s.pt.cpu c with
    | none => 0
    | some p => ((s.desc p).semids.count i : ℕ)
  | .semattach c =>
    match s.pt.cpu c with
    | none => 0
    | some p => if s.pc p = .attach i ∧ ¬ (s.desc p).hasFree then 1 else 0
  | _ => 0

theorem share_nonneg (s : State) (i : ℤ) (p : Slot) : 0 ≤ share s i p := by
  unfold share
  split_ifs <;> omega

theorem leaked_nonneg (s : State) (a : Label) (i : ℤ) : 0 ≤ leaked s a i := by
  unfold leaked
  split
  · split <;> omega
  · split
    · omega
    · split_ifs <;> omega
  · omega

/-! ## The balance -/

theorem share_of_live (h : (s.pt.proc p).state.Live) : share s i p =
    ((s.desc p).semids.count i + (s.pc p).pending (s.desc p).semids i : ℕ) := if_pos h

theorem share_of_not_live (h : ¬ (s.pt.proc p).state.Live) : share s i p = 0 := if_neg h

theorem share_congr (hlive : (t.pt.proc p).state.Live ↔ (s.pt.proc p).state.Live)
    (hdesc : t.desc p = s.desc p)
    (hpc : (t.pc p).pending (s.desc p).semids i = (s.pc p).pending (s.desc p).semids i) :
    share t i p = share s i p := by
  unfold share
  rw [hdesc, hpc]
  simp only [hlive]

/-- `references` less what is accounted for. -/
def balance (s : State) (i : ℤ) : ℤ := (s.sems.list i).references - held s i

theorem balance_congr (href : (t.sems.list i).references = (s.sems.list i).references)
    (hshare : ∀ q, share t i q = share s i q) : balance t i = balance s i := by
  unfold balance held
  rw [href, Finset.sum_congr rfl fun q _ => hshare q]

theorem balance_of_one {d : ℤ}
    (href : (t.sems.list i).references = (s.sems.list i).references + d)
    (hshare : ∀ q, q ≠ p → share t i q = share s i q) :
    balance t i = balance s i + (d - (share t i p - share s i p)) := by
  unfold balance held
  rw [href, sum_eq_add_of_eq_off hshare]
  omega

theorem share_procStep (h : SemInv s) {a : Process.Label}
    (hs : Process.step s.pt a = some (pt', e)) (ha : a.changesLife = false)
    (hpt : t.pt = pt') (hdesc : t.desc = s.desc)
    (hpc : ∀ q, (t.pc q).pending (s.desc q).semids i = (s.pc q).pending (s.desc q).semids i)
    (q : Slot) : share t i q = share s i q := by
  refine share_congr ?_ (by rw [hdesc]) (hpc q)
  rw [hpt]
  exact live_step h.pt hs ha q

theorem setPc_pc (s : State) (p q : Slot) (x : Pc) :
    (s.setPc p x).pc q = if q = p then x else s.pc q := Function.update_apply s.pc p x q

theorem setDesc_desc (s : State) (p q : Slot) (d : Desc) :
    (s.setDesc p d).desc q = if q = p then d else s.desc q := Function.update_apply s.desc p d q

theorem pending_setPc {l : List ℤ} {q : Slot} (h : q = p → x.pending l i = (s.pc p).pending l i) :
    ((s.setPc p x).pc q).pending l i = (s.pc q).pending l i := by
  rw [setPc_pc]
  split_ifs with hq
  · rw [hq]
    exact h hq
  · rfl

theorem references_add {m m' : Sems} (h : Referenced m m' key (m.references key + 1))
    (hi : IsId i) :
    (m'.list i).references = (m.list i).references + if key = i then 1 else 0 := by
  rw [h.references i hi]
  by_cases hik : i = key
  · rw [if_pos hik, if_pos hik.symm, ← hik, Sems.references_of_isId hi]
  · rw [if_neg hik, if_neg fun hh => hik hh.symm, add_zero]

/-! ### Processes -/

theorem balance_exit (h : SemInv s)
    (ha : s.allows (.exit c) = true) (hs : Process.step s.pt (.exit c) = some (pt', e)) :
    balance { s with pt := pt' } i = balance s i + leaked s (.proc (.exit c)) i := by
  obtain ⟨p, hc, -, hexit⟩ := exit_eq_some hs
  have hlive := live_exit hexit
  have hpc : s.pc p = .idle := idle_of_allows ha hc
  have hleak : leaked s (.proc (.exit c)) i = ((s.desc p).semids.count i : ℕ) := by
    simp only [leaked, hc]
  have hother : ∀ q, q ≠ p → share { s with pt := pt' } i q = share s i q := by
    intro q hq
    refine share_congr ?_ rfl rfl
    exact (hlive q).trans ⟨fun hh => hh.1, fun hh => ⟨hh, hq⟩⟩
  have hself : share { s with pt := pt' } i p = 0 :=
    share_of_not_live fun hl => ((hlive p).mp hl).2 rfl
  rw [balance_of_one (d := 0) (by simp) hother, hleak, hself, share_of_live (h.live_of_cpu hc), hpc]
  simp [Pc.pending]

theorem count_init (hi : IsId i) : (List.replicate PROCMAXSEM (-1)).count i = 0 := by
  rw [List.count_eq_zero]
  intro hmem
  rw [List.eq_of_mem_replicate hmem] at hi
  exact absurd hi.1 (by decide)

theorem balance_userinit (h : SemInv s) (hi : IsId i)
    (hps : Process.step s.pt .userinit = some (pt', e)) (hp : pt'.initproc = some p) :
    balance (({ s with pt := pt' } : State).setDesc p Desc.init) i = balance s i := by
  obtain ⟨q, hq, hunused, hlive⟩ := userinit_spec hps
  obtain rfl : q = p := Option.some.inj (hq.symm.trans hp)
  have hdead : ¬ (s.pt.proc q).state.Live := fun hl => hl.ne.1 hunused
  refine balance_congr rfl fun r => ?_
  by_cases hr : r = q
  · rw [hr, share_of_not_live (s := s) hdead]
    rw [share_of_live ((hlive q).mpr (Or.inr rfl)), setDesc_desc, if_pos rfl]
    rw [show ((({ s with pt := pt' } : State).setDesc q Desc.init)).pc q = s.pc q from rfl,
      h.idle q hdead, Desc.init, count_init hi]
    rfl
  · refine share_congr ?_ ?_ rfl
    · exact (hlive r).trans ⟨fun hh => hh.resolve_right hr, Or.inl⟩
    · rw [setDesc_desc, if_neg hr]

/-- The descriptors of a slot that is not in use do not count. -/
theorem balance_setChild (hdead : ¬ (s.pt.proc np).state.Live)
    (hx : x.pending (s.desc p).semids i = (s.pc p).pending (s.desc p).semids i) :
    balance ((s.setDesc np d).setPc p x) i = balance s i := by
  refine balance_congr rfl fun q => ?_
  by_cases hq : q = np
  · rw [hq, share_of_not_live hdead]
    exact share_of_not_live hdead
  · refine share_congr Iff.rfl ((setDesc_desc s np q _).trans (if_neg hq)) ?_
    refine pending_setPc (s := s) fun hh => ?_
    rw [hh]
    exact hx

/-- A section of `proc.c` that changes nobody's life, in a call of `p`. -/
theorem balance_actStep (h : SemInv s) {a : Process.Label}
    (hs : Process.step s.pt a = some (pt', e)) (ha : a.changesLife = false)
    (hx : ∀ l, x.pending l i = (s.pc p).pending l i) :
    balance (({ s with pt := pt' } : State).setPc p x) i = balance s i := by
  refine balance_congr rfl (share_procStep h hs ha rfl rfl fun q => ?_)
  exact pending_setPc (s := { s with pt := pt' }) fun _ => hx _

/-- The child takes over what its parent has copied for it. -/
theorem balance_forkEnqueue (h : SemInv s)
    (hf : forkedOn s.pt c = some (p, np)) (hpc : s.pc p = .copied)
    (hps : Process.step s.pt (.forkEnqueue c) = some (pt', e)) :
    balance (({ s with pt := pt' } : State).setPc p .idle) i = balance s i := by
  obtain ⟨hc, hchild⟩ := child_of_forkedOn hf
  have hlive := live_forkEnqueue hf hps
  have hdead := h.not_live_child hchild
  have hplive := h.live_of_cpu hc
  have hne : p ≠ np := by
    rintro rfl
    exact hdead hplive
  obtain ⟨-, n, hn, hids⟩ := h.copy p PROCMAXSEM (by rw [hpc]; rfl)
  obtain rfl : n = np := Option.some.inj (hn.symm.trans hchild)
  rw [Nat.sub_self, List.replicate_zero, List.append_nil, ← h.length p, List.take_length] at hids
  unfold balance held
  refine congrArg₂ (· - ·) rfl (sum_eq_of_move hne ?_ ?_)
  · intro q hqp hqn
    refine share_congr ?_ rfl ?_
    · exact (hlive q).trans ⟨fun hh => hh.resolve_right hqn, Or.inl⟩
    · exact pending_setPc (s := { s with pt := pt' }) fun hh => absurd hh hqp
  · rw [share_of_live (s := s) hplive, share_of_not_live (s := s) hdead,
      share_of_live ((hlive p).mpr (Or.inl hplive)), share_of_live ((hlive n).mpr (Or.inr rfl)),
      setPc_pc, setPc_pc, if_pos rfl, if_neg (Ne.symm hne), hpc]
    have hnidle : s.pc n = .idle := h.idle n hdead
    simp only [hnidle]
    show (((s.desc p).semids.count i + 0 : ℕ) : ℤ) + ((s.desc n).semids.count i + 0 : ℕ) =
      ((s.desc p).semids.count i + (s.desc p).semids.count i : ℕ) + 0
    rw [hids]
    omega

/-- A round of `semcopy` takes the reference that it enters. -/
theorem balance_copy (h : SemInv s) (hi : IsId i)
    (hf : forkedOn s.pt c = some (p, np)) (hpc : s.pc p = .copying k) (hk : k < PROCMAXSEM)
    (hcopy : semcopy s.sems (s.desc np) k ((s.desc p).semids.getD k (-1)) = some (m, d))
    (ht : t = (({ s with sems := m } : State).setDesc np d).setPc p (.copying (k + 1))) :
    balance t i = balance s i := by
  obtain ⟨hc, hchild⟩ := child_of_forkedOn hf
  have hdead := h.not_live_child hchild
  have hplive := h.live_of_cpu hc
  have hne : p ≠ np := by
    rintro rfl
    exact hdead hplive
  have hpt : t.pt = s.pt := by rw [ht]; rfl
  have hpcp : t.pc p = .copying (k + 1) := by rw [ht, setPc_pc, if_pos rfl]
  have hdp : t.desc p = s.desc p := by
    rw [ht]
    exact (setDesc_desc s np p d).trans (if_neg hne)
  have hother : ∀ q, q ≠ p → share t i q = share s i q := by
    intro q hq
    by_cases hqn : q = np
    · rw [hqn, share_of_not_live hdead, share_of_not_live (by rw [hpt]; exact hdead)]
    · refine share_congr (by rw [hpt]) ?_ ?_
      · rw [ht]
        exact (setDesc_desc s np q _).trans (if_neg hqn)
      · rw [ht]
        exact pending_setPc (s := s) fun hh => absurd hh hq
  have hself : share t i p - share s i p =
      if (s.desc p).semids.getD k (-1) = i then 1 else 0 := by
    rw [share_of_live hplive, share_of_live (s := t) (by rw [hpt]; exact hplive), hpcp, hdp, hpc]
    rw [← h.length p] at hk
    simp only [Pc.pending]
    rw [List.take_add_one, List.getElem?_eq_getElem hk, List.count_append,
      List.getD_eq_getElem?_getD, List.getElem?_eq_getElem hk, Option.getD_some,
      Option.toList_some, List.count_singleton]
    simp only [beq_iff_eq]
    split_ifs <;> omega
  have href : (t.sems.list i).references = (s.sems.list i).references +
      if (s.desc p).semids.getD k (-1) = i then 1 else 0 := by
    rw [show t.sems = m by rw [ht]; rfl]
    rcases semcopy_eq_some hcopy with ⟨hid, rfl, -⟩ | ⟨-, -, href⟩
    · rw [hid, if_neg (by have := hi.1; omega)]
      omega
    · exact references_add href hi
  rw [balance_of_one href hother, hself]
  omega

/-! ### Semaphore calls -/

/-- Only values change, and points with nothing pending. -/
theorem balance_setPc (href : (m.list i).references = (s.sems.list i).references)
    (hx : x.pending (s.desc p).semids i = (s.pc p).pending (s.desc p).semids i) :
    balance (({ s with sems := m } : State).setPc p x) i = balance s i := by
  refine balance_congr href fun q => share_congr Iff.rfl rfl ?_
  refine pending_setPc (s := s) fun hq => ?_
  rw [hq]
  exact hx

theorem balance_get (h : SemInv s) (hi : IsId i) {v : ℤ}
    (hp : s.caller c = some p) (hget : semget s.sems (s.desc p) key v = some (m, .ok semid))
    (ht : t = ({ s with sems := m } : State).setPc p (.attach semid)) :
    balance t i = balance s i := by
  obtain ⟨hrun, hpc⟩ := caller_eq_some hp
  have hlive := h.live_of_cpu (runningAt_eq_some hrun).1
  have href : (t.sems.list i).references = (s.sems.list i).references +
      if semid = i then 1 else 0 := by
    rw [show t.sems = m by rw [ht]; rfl]
    obtain ⟨-, ⟨-, hlist, hcase⟩ | ⟨rfl, -, -, href⟩⟩ := semget_eq_ok hget
    · rw [hlist]
      rcases hcase with ⟨-, hz, -⟩ | ⟨rfl, -⟩
      · by_cases hid : i = semid
        · rw [if_pos hid, if_pos hid.symm, hid, hz]
          rfl
        · rw [if_neg hid, if_neg fun hh => hid hh.symm]
          omega
      · have hid : i ≠ -1 := by
          have := hi.1
          omega
        rw [if_neg hid, if_neg fun hh => hid hh.symm]
        omega
    · exact references_add href hi
  have hother : ∀ q, q ≠ p → share t i q = share s i q := by
    intro q hq
    rw [ht]
    exact share_congr Iff.rfl rfl (pending_setPc (s := s) fun hh => absurd hh hq)
  have hself : share t i p - share s i p = if semid = i then 1 else 0 := by
    rw [share_of_live hlive, share_of_live (s := t) (by rw [ht]; exact hlive), hpc, ht, setPc_pc,
      if_pos rfl]
    show (((s.desc p).semids.count i + (if semid = i then 1 else 0) : ℕ) : ℤ) -
      ((s.desc p).semids.count i + 0 : ℕ) = _
    split_ifs <;> omega
  rw [balance_of_one href hother, hself]
  omega

theorem balance_attach (h : SemInv s) (hi : IsId i)
    (hrun : runningAt s.pt c .user = some p) (hpc : s.pc p = .attach semid)
    (ht : t = (s.setDesc p ((semattach (s.desc p) semid).getD (s.desc p))).setPc p .idle) :
    balance t i = balance s i + leaked s (.semattach c) i := by
  obtain ⟨hc, -⟩ := runningAt_eq_some hrun
  have hlive := h.live_of_cpu hc
  have hother : ∀ q, q ≠ p → share t i q = share s i q := by
    intro q hq
    rw [ht]
    refine share_congr Iff.rfl ?_ (pending_setPc (s := s) fun hh => absurd hh hq)
    exact (setDesc_desc s p q _).trans (if_neg hq)
  have hleak : leaked s (.semattach c) i =
      if semid = i ∧ ¬ (s.desc p).hasFree then 1 else 0 := by
    simp only [leaked, hc, hpc, Pc.attach.injEq]
  have hself : share t i p - share s i p = - leaked s (.semattach c) i := by
    rw [share_of_live hlive, share_of_live (s := t) (by rw [ht]; exact hlive), hpc, hleak, ht,
      setPc_pc, if_pos rfl,
      show ((s.setDesc p ((semattach (s.desc p) semid).getD (s.desc p))).setPc p .idle).desc p =
        (semattach (s.desc p) semid).getD (s.desc p) from
          (setDesc_desc s p p _).trans (if_pos rfl)]
    simp only [Pc.pending]
    cases hd : semattach (s.desc p) semid with
    | none =>
      have hfree := semattach_eq_none_iff.mp hd
      rw [Option.getD_none]
      simp only [hfree, not_false_eq_true, and_true]
      split_ifs <;> omega
    | some d =>
      have hfree : (s.desc p).hasFree := by
        by_contra hno
        rw [semattach_eq_none_iff.mpr hno] at hd
        cases hd
      have hcount := semattach_count hd hi
      rw [Option.getD_some]
      simp only [hfree, not_true_eq_false, and_false, if_false]
      omega
  rw [balance_of_one (d := 0) (by rw [ht]; simp [State.setPc, State.setDesc]) hother, hself]
  omega

theorem balance_free (h : SemInv s) (hi : IsId i) {r : ℤ}
    (hp : s.caller c = some p) (hfree : semfree s.sems (s.desc p) key = some (m, d, r))
    (ht : t = ({ s with sems := m } : State).setDesc p d) : balance t i = balance s i := by
  obtain ⟨hrun, hpc⟩ := caller_eq_some hp
  have hlive := h.live_of_cpu (runningAt_eq_some hrun).1
  have hother : ∀ q, q ≠ p → share t i q = share s i q := by
    intro q hq
    rw [ht]
    exact share_congr Iff.rfl ((setDesc_desc s p q _).trans (if_neg hq)) rfl
  have hself : share t i p - share s i p =
      (d.semids.count i : ℤ) - ((s.desc p).semids.count i : ℤ) := by
    rw [share_of_live hlive, share_of_live (s := t) (by rw [ht]; exact hlive), ht,
      show (({ s with sems := m } : State).setDesc p d).pc p = s.pc p from rfl, hpc,
      setDesc_desc, if_pos rfl]
    simp only [Pc.pending]
    omega
  have href : (t.sems.list i).references = (s.sems.list i).references +
      ((d.semids.count i : ℤ) - ((s.desc p).semids.count i : ℤ)) := by
    rw [show t.sems = m by rw [ht]; rfl]
    rcases semfree_eq_some hfree with ⟨rfl, rfl, -⟩ | ⟨-, -, hd, -, -, -, href⟩
    · omega
    · have hcount := semdetach_count hd hi
      rw [href i hi]
      by_cases hik : i = key
      · rw [if_pos hik]
        rw [if_pos hik.symm] at hcount
        omega
      · rw [if_neg hik]
        rw [if_neg fun hh => hik hh.symm] at hcount
        omega
  rw [balance_of_one href hother, hself]
  omega

theorem leaked_of_isTry (ha : a.isTry = true) : leaked s a i = 0 := by
  cases a <;> first | rfl | cases ha

/-- **The balance of a semaphore grows by what the step loses track of.** -/
theorem balance_step (h : SemInv s) (hi : IsId i) {e : Event}
    (hs : step s a = some (t, e)) : balance t i = balance s i + leaked s a i := by
  have hdown : ∀ {p : Slot} {key : ℤ} {P : Prop}, s.pc p = .idle ∧ P ∨ s.pc p = .down key →
      ∀ l : List ℤ, 0 = (s.pc p).pending l i := by
    rintro p key P (⟨hpc, -⟩ | hpc) l
    · rw [hpc]
      rfl
    · rw [hpc]
      rfl
  cases step_part hs with
  | @proc a pt' _ ha hps =>
    by_cases hlife : a.changesLife = false
    · have hleak : leaked s (.proc a) i = 0 := by
        cases a <;> first | rfl | cases hlife
      rw [hleak, add_zero]
      exact balance_congr rfl (share_procStep h hps hlife rfl rfl fun _ => rfl)
    · cases a with
      | exit c => exact balance_exit h ha hps
      | userinit => cases ha
      | forkEnqueue c => cases ha
      | _ => exact absurd rfl hlife
  | userinit hps hp => exact (balance_userinit h hi hps hp).trans (add_zero _).symm
  | forkInit hf hpc =>
    refine (balance_setChild (h.not_live_child (child_of_forkingOn hf).2) ?_).trans
      (add_zero _).symm
    rw [hpc]
    rfl
  | forkFail _ hpc hps =>
    refine (balance_actStep h hps rfl fun l => ?_).trans (add_zero _).symm
    rcases hpc with hpc | hpc
    · rw [hpc]
    · rw [hpc]
      rfl
  | forkParent _ hpc hps =>
    refine (balance_actStep h hps rfl fun l => ?_).trans (add_zero _).symm
    simp [hpc, Pc.pending]
  | copy hf hpc hk hcopy => exact (balance_copy h hi hf hpc hk hcopy rfl).trans (add_zero _).symm
  | @copied c p np k hf hpc hk =>
    refine (balance_setChild (h.not_live_child (child_of_forkedOn hf).2) ?_).trans (add_zero _).symm
    rw [hpc, Pc.pending, Pc.pending, List.take_of_length_le (by rwa [h.length p])]
  | forkEnqueue hf hpc hps => exact (balance_forkEnqueue h hf hpc hps).trans (add_zero _).symm
  | refused ha => rw [leaked_of_isTry ha, add_zero]
  | get hp hget => exact (balance_get h hi hp hget rfl).trans (add_zero _).symm
  | attach hrun hpc => exact balance_attach h hi hrun hpc rfl
  | free hp hfree => exact (balance_free h hi hp hfree rfl).trans (add_zero _).symm
  | down ha _ hpc _ =>
    rw [leaked_of_isTry ha, add_zero]
    exact balance_setPc Sems.setValue_references (hdown hpc _)
  | slept ha hrun hpc _ =>
    rw [leaked_of_isTry ha, add_zero]
    exact balance_actStep h (step_sleep _ hrun) rfl (hdown hpc)
  | up hp =>
    refine (balance_setPc Sems.setValue_references ?_).trans (add_zero _).symm
    rw [(caller_eq_some hp).2]
    split_ifs <;> rfl
  | @wakeup c p key _ hpc =>
    have hps : Process.step s.pt (.wakeup (.sem key)) =
        some (wakeup1 (some (.sem key)) s.pt, .none) := rfl
    generalize wakeup1 (some (.sem key)) s.pt = pt' at hps
    refine (balance_actStep h hps rfl fun l => ?_).trans (add_zero _).symm
    rw [hpc]
    rfl

/-! ## Exact counts -/

/-- No call of `semaphore.c` and no `fork` is in progress. -/
def Quiescent (s : State) : Prop :=
  (∀ p, s.pc p = .idle) ∧ ∀ p, (s.pt.proc p).context.child = none

instance (s : State) : Decidable (Quiescent s) := inferInstanceAs (Decidable (_ ∧ _))

/-- The number of pairs of a process `p` that is neither `UNUSED` nor `ZOMBIE` and an entry of
its descriptors that is `i`. -/
def holders (s : State) (i : ℤ) : ℕ :=
  ∑ p, if (s.pt.proc p).state ≠ .unused ∧ (s.pt.proc p).state ≠ .zombie then
    (s.desc p).semids.count i else 0

/-- Every reference count is the number of holders. -/
def Exact (s : State) : Prop := ∀ i, IsId i → (s.sems.list i).references = holders s i

/-- The step loses track of no reference: a process that exits has no semaphore attached, and
`semattach` finds a free descriptor. -/
def Clean (s : State) : Label → Prop
  | .proc (.exit c) => ∀ p, s.pt.cpu c = some p → ∀ i ∈ (s.desc p).semids, ¬ IsId i
  | .semattach c => ∀ p semid, s.pt.cpu c = some p → s.pc p = .attach semid → IsId semid →
      (s.desc p).hasFree
  | _ => True

theorem leaked_eq_zero_iff : (∀ i, IsId i → leaked s a i = 0) ↔ Clean s a := by
  unfold leaked Clean
  split
  · rename_i c
    cases hc : s.pt.cpu c with
    | none => simp
    | some p =>
      simp only [Option.some.injEq, forall_eq', Nat.cast_eq_zero, List.count_eq_zero]
      exact ⟨fun h i hmem hi => h i hi hmem, fun h i hi hmem => h i hmem hi⟩
  · rename_i c
    cases hc : s.pt.cpu c with
    | none => simp
    | some p =>
      dsimp only
      constructor
      · intro h q semid hq hpc hi
        cases hq
        by_contra hfree
        have := h semid hi
        rw [if_pos ⟨hpc, hfree⟩] at this
        cases this
      · intro h i hi
        rw [if_neg]
        rintro ⟨hpc, hfree⟩
        exact hfree (h p i rfl hpc hi)
  · simp

/-- With no call in progress, what is accounted for is what the holders hold. -/
theorem held_eq_holders (h : SemInv s) (hq : Quiescent s) (i : ℤ) : held s i = holders s i := by
  unfold held holders
  rw [Nat.cast_sum]
  refine Finset.sum_congr rfl fun p _ => ?_
  have hembryo : (s.pt.proc p).state ≠ .embryo := by
    intro he
    obtain ⟨q, hq'⟩ := h.pt.fork.claimed he
    rw [PTable.contexts, hq.2 q] at hq'
    cases hq'
  have hlive : (s.pt.proc p).state.Live ↔
      (s.pt.proc p).state ≠ .unused ∧ (s.pt.proc p).state ≠ .zombie := by
    unfold ProcState.Live
    revert hembryo
    cases (s.pt.proc p).state <;> simp
  unfold share
  rw [hq.1 p]
  by_cases hl : (s.pt.proc p).state.Live
  · rw [if_pos hl, if_pos (hlive.mp hl)]
    simp [Pc.pending]
  · rw [if_neg hl, if_neg fun hh => hl (hlive.mpr hh)]
    rfl

/-- In every run the balances are never negative, and they are all 0 exactly as long as no step
has lost track of a reference. -/
theorem balance_exec (h : exec step State.boot as = some (s, es)) :
    (∀ i, IsId i → 0 ≤ balance s i) ∧
      ((∀ i, IsId i → balance s i = 0) ↔ StepsMeet step Clean State.boot as) := by
  refine exec_induction (P := fun as s _ => (∀ i, IsId i → 0 ≤ balance s i) ∧
    ((∀ i, IsId i → balance s i = 0) ↔ StepsMeet step Clean State.boot as)) ?_ ?_ h
  · have hboot : ∀ i, balance State.boot i = 0 := by
      intro i
      unfold balance held
      rw [Finset.sum_eq_zero fun p _ => share_of_not_live fun hl => hl.ne.1 rfl]
      rfl
    exact ⟨fun i _ => (hboot i).ge, fun _ => stepsMeet_nil, fun _ i _ => hboot i⟩
  · intro as s es a t e hrun ih hs
    have hinv := semInv_exec hrun
    obtain ⟨hpos, hiff⟩ := ih
    refine ⟨fun i hi => ?_, ?_⟩
    · rw [balance_step hinv hi hs]
      exact add_nonneg (hpos i hi) (leaked_nonneg s a i)
    · rw [stepsMeet_concat_iff hrun, ← hiff, ← leaked_eq_zero_iff]
      constructor
      · intro hz
        refine ⟨fun i hi => ?_, fun i hi => ?_⟩ <;>
        · have h1 := balance_step hinv hi hs
          have h2 := hz i hi
          have h3 := hpos i hi
          have h4 := leaked_nonneg s a i
          omega
      · rintro ⟨hz, hl⟩ i hi
        rw [balance_step hinv hi hs, hz i hi, hl i hi]
        rfl

/-- A semaphore that some process accounts for has references. -/
theorem share_le_references
    (h : exec step State.boot as = some (s, es)) {i : ℤ} (hi : IsId i) (p : Slot) :
    share s i p ≤ (s.sems.list i).references := by
  have hpos := (balance_exec h).1 i hi
  have hle : share s i p ≤ held s i :=
    Finset.single_le_sum (fun q _ => share_nonneg s i q) (Finset.mem_univ p)
  unfold balance at hpos
  omega

/-- **The reference counts are exact in exactly the runs that lose track of no reference.**  At
any point where no call is in progress, every count is the number of descriptors that hold the
semaphore if and only if, up to there, no process has exited with a semaphore attached and no
`semget` has raised a count for a process without a free descriptor. -/
theorem exact_iff_of_exec {as : List Label} {es : List Event}
    (h : exec step State.boot as = some (s, es)) (hq : Quiescent s) :
    Exact s ↔ StepsMeet step Clean State.boot as := by
  rw [← (balance_exec h).2]
  refine forall_congr' fun i => imp_congr_right fun _ => ?_
  unfold balance
  rw [held_eq_holders (semInv_exec h) hq]
  omega

def freeRun : List Label :=
  [.userinit, .proc (.dispatch 0), .semget 0 (-1) 1, .semattach 0, .semdown 0 0, .semup 0 0,
    .semupWakeup 0, .semfree 0 0]

/-- A process that frees its semaphore keeps the counts exact. -/
theorem exact_iff_of_free_run : ∃ s es, exec step State.boot freeRun = some (s, es) ∧ Quiescent s ∧
    (Exact s ↔ StepsMeet step Clean State.boot freeRun) := by
  have hrun : ((exec step State.boot freeRun).map fun r => decide (Quiescent r.1)) = some true := by
    decide +kernel
  obtain ⟨⟨s, es⟩, hs, hq⟩ := Option.map_eq_some_iff.mp hrun
  exact ⟨s, es, hs, of_decide_eq_true hq, exact_iff_of_exec hs (of_decide_eq_true hq)⟩

def childExitRun : List Label :=
  [.userinit, .proc (.dispatch 0), .semget 0 (-1) 1, .semattach 0, .proc (.forkAlloc 0),
    .forkInit 0, .forkParent 0, .semcopy 0, .semcopy 0, .semcopy 0, .semcopy 0, .semcopy 0,
    .semcopy 0, .forkEnqueue 0, .proc (.dispatch 1), .proc (.exit 1)]

/-- init creates a semaphore and forks; the child exits.  Two references are left, one holder. -/
theorem not_exact_after_exit : ∃ s es, exec step State.boot childExitRun = some (s, es) ∧
    Quiescent s ∧ (s.sems.list 0).references = 2 ∧ holders s 0 = 1 ∧ ¬ Exact s := by
  have hrun : ((exec step State.boot childExitRun).map fun r =>
      (decide (Quiescent r.1), (r.1.sems.list 0).references, holders r.1 0)) =
      some (true, 2, 1) := by
    decide +kernel
  obtain ⟨⟨s, es⟩, hs, heq⟩ := Option.map_eq_some_iff.mp hrun
  obtain ⟨hq, heq'⟩ := Prod.mk.inj heq
  obtain ⟨href, hhold⟩ := Prod.mk.inj heq'
  refine ⟨s, es, hs, of_decide_eq_true hq, href, hhold, fun hexact => ?_⟩
  have := hexact 0 (by decide)
  rw [href, hhold] at this
  exact absurd this (by decide)

/-! ## What a step does to the semaphore table -/

/-- The event reports no change of the semaphore table. -/
def Event.isPlain : Event → Bool
  | .none => true
  | .proc _ => true
  | .returned _ _ => true
  | .slept _ _ => true
  | _ => false

/-- How a step that reports `e` takes the table `m` to `m'`. -/
inductive SemsEffect (m : Sems) : Sems → Event → Prop
  /-- The table stays as it is. -/
  | same {e : Event} (he : e.isPlain = true) : SemsEffect m m e
  /-- `semget` makes a semaphore from one without references; or it finds none and writes before
  the table. -/
  | created {m' : Sems} {semid v : ℤ} (used : m.used ≤ SYSMAXSEM)
      (list : ∀ k, m'.list k = if k = semid then ⟨v, 1⟩ else m.list k)
      (found : IsId semid ∧ (m.list semid).references = 0 ∧ m'.used = m.used + 2 ∨
        semid = -1 ∧ ∀ i, IsId i → 0 < (m.list i).references) :
      SemsEffect m m' (.created semid v)
  /-- `semget` or `semcopy` adds a reference to a semaphore that has some. -/
  | referenced {m' : Sems} {key : ℤ} {e : Event} (pos : IsId key → 0 < (m.list key).references)
      (step : Referenced m m' key (m.references key + 1)) (he : e = .referenced key ∨ e = .none) :
      SemsEffect m m' e
  /-- `semfree` gives up a reference. -/
  | dropped {m' : Sems} {key : ℤ} {e : Event} (isId : IsId key)
      (pos : 0 < (m.list key).references)
      (used : m'.used = m.used - if (m.list key).references = 1 then 1 else 0)
      (value : ∀ i, IsId i → (m'.list i).value = (m.list i).value)
      (references : ∀ i, IsId i → (m'.list i).references =
        (m.list i).references - if i = key then 1 else 0)
      (he : (m.list key).references = 1 ∧ e = .freed key ∨
        (m.list key).references ≠ 1 ∧ e.isPlain = true) : SemsEffect m m' e
  /-- `semdown` decrements a positive value. -/
  | down {p : Slot} {key : ℤ} (pos : 0 < m.value key) :
      SemsEffect m (m.setValue key (m.value key - 1)) (.down p key)
  /-- `semup` increments. -/
  | up {p : Slot} {key : ℤ} : SemsEffect m (m.setValue key (m.value key + 1)) (.up p key)

/-- **Every step has one of these effects**, in a state in which every semaphore that a process
accounts for has references. -/
theorem semsEffect_step (h : SemInv s)
    (hle : ∀ i p, IsId i → share s i p ≤ (s.sems.list i).references) {e : Event}
    (hs : step s a = some (t, e)) : SemsEffect s.sems t.sems e := by
  have hnonneg : ∀ i, IsId i → 0 ≤ (s.sems.list i).references := by
    intro i hi
    exact le_trans (share_nonneg s i _) (hle i 0 hi)
  cases step_part hs with
  | proc => exact .same rfl
  | userinit => exact .same rfl
  | forkInit => exact .same rfl
  | forkFail => exact .same rfl
  | forkParent => exact .same rfl
  | copied => exact .same rfl
  | forkEnqueue => exact .same rfl
  | refused => exact .same rfl
  | attach => exact .same rfl
  | slept => exact .same rfl
  | @wakeup c p key =>
    generalize wakeup1 (some (.sem key)) s.pt = pt'
    exact .same rfl
  | down _ _ _ hv => exact .down hv
  | up => exact .up
  | @copy c p np k m d hf _ hk hcopy =>
    rcases semcopy_eq_some hcopy with ⟨-, rfl, -⟩ | ⟨-, -, href⟩
    · exact .same rfl
    · -- the parent holds what it copies
      refine .referenced (fun hid => ?_) href (Or.inr rfl)
      refine lt_of_lt_of_le ?_ (hle _ p hid)
      rw [share_of_live (h.live_of_cpu (child_of_forkedOn hf).1)]
      rw [← h.length p] at hk
      have hmem : (s.desc p).semids.getD k (-1) ∈ (s.desc p).semids := by
        rw [List.getD_eq_getElem?_getD, List.getElem?_eq_getElem hk]
        exact List.getElem_mem hk
      have := List.count_pos_iff.mpr hmem
      omega
  | @get c key v p m semid _ hget =>
    obtain ⟨hused, ⟨rfl, hlist, hcase⟩ | ⟨rfl, hkey, hne, href⟩⟩ := semget_eq_ok hget
    · refine .created hused hlist (hcase.imp id fun hh => ⟨hh.1, fun i hi => ?_⟩)
      exact lt_of_le_of_ne (hnonneg i hi) (Ne.symm (hh.2.1 i hi))
    · rw [if_neg (show ¬ semid = -1 by omega)]
      refine .referenced (fun hid => ?_) href (Or.inl rfl)
      rw [Sems.references_of_isId hid] at hne
      exact lt_of_le_of_ne (hnonneg semid hid) (Ne.symm hne)
  | @free c key p m d r _ hfree =>
    rcases semfree_eq_some hfree with ⟨rfl, -, rfl⟩ | ⟨hid, hne, -, rfl, hu, hval, href⟩
    · rw [if_neg fun hh => absurd hh.1 (by decide)]
      exact .same rfl
    · refine .dropped hid (lt_of_le_of_ne (hnonneg key hid) (Ne.symm hne)) hu hval href ?_
      rw [Sems.references_of_isId hid]
      by_cases hone : (s.sems.list key).references = 1
      · exact Or.inl ⟨hone, if_pos ⟨rfl, hone⟩⟩
      · refine Or.inr ⟨hone, ?_⟩
        rw [if_neg fun hh => hone hh.2]
        rfl

theorem semsEffect_of_exec (h : exec step State.boot as = some (s, es)) {e : Event}
    (hs : step s a = some (t, e)) : SemsEffect s.sems t.sems e :=
  semsEffect_step (semInv_exec h) (fun _ p hi => share_le_references h hi p) hs

end Xv6.Sem
