import Xv6.Lib.Trace
import Xv6.Sem.Attach

/-!
# Which words of `sems.list` the calls access

The functions of `semaphore.c` once more, with a record of the indices at which they access
`sems.list`.  Each of them computes what the function of `Sem.Table` computes (the lemmas `val_…`),
so the record is one of the same code.

A key above `SYSMAXSEM` or below -1 is turned away before it is used.  The key `SYSMAXSEM` is not,
and neither is the -1 that `semcreate` returns when no semaphore is free.  With an index in range a
call reaches no word outside of the array; with `SYSMAXSEM` it reaches `sems.used` and `sems.lock`.
So a call is in bounds exactly if it is not one of these two (`accesses_iff_of_exec`).
-/

namespace Xv6.Sem

open Process Lib Traced

variable {s t : State} {p np : Slot} {c : ℕ} {key v : ℤ} {e : Event}

/-! ## The calls with a record -/

section Calls

variable (m : Sems) (d : Desc)

def isfreeAt (key : ℤ) : Traced ℤ Bool := access key (m.isfree key)

/-- The loop of `semcreate`, over the ids that are left. -/
def semcreateAt : List ℤ → Traced ℤ (ℤ × Sems)
  | [] => pure (-1, m)
  | i :: l => do
    if ← isfreeAt m i then return (i, { m with used := m.used + 1 })
    else semcreateAt l

def semsetAt (semid value references : ℤ) : Traced ℤ Sems :=
  access semid (m.semset semid value references)

/-- `sems.list[key].references = n`. -/
def setReferencesAt (key n : ℤ) : Traced ℤ (Option Sems) := access key (m.setReferences key n)

/-- `semget` up to the release of `sems.lock`. -/
def semgetAt (key init_value : ℤ) : Traced ℤ (Option (Sems × Except ℤ ℤ)) :=
  if d.semcount > PROCMAXSEM then pure (some (m, .error ENSEM))
  else if m.used > SYSMAXSEM then pure (some (m, .error ENSEMSYS))
  else if key < -1 ∨ key > SYSMAXSEM then pure (some (m, .error EINVAL))
  else if key = -1 then do
    let r ← semcreateAt m ids
    let m ← semsetAt r.2 r.1 init_value 1
    pure (some ({ m with used := m.used + 1 }, .ok r.1))
  else do
    if ← isfreeAt m key then pure (some (m, .error EINVAL))
    else
      let n ← access key (m.references key)
      match incr n with
      | none => pure none
      | some n =>
        let m ← setReferencesAt m key n
        pure (m.map fun m => (m, .ok key))

def semfreeAt (key : ℤ) : Traced ℤ (Option (Sems × Desc × ℤ)) :=
  if key < 0 ∨ key > SYSMAXSEM then pure (some (m, d, EINVAL))
  else do
    if ← isfreeAt m key then pure (some (m, d, EINVAL))
    else
      match semdetach d key with
      | none => pure (some (m, d, EINVAL))
      | some d =>
        let n ← access key (m.references key)
        let m ← setReferencesAt m key (n - 1)
        pure (m.map fun m => (if n - 1 = 0 then { m with used := m.used - 1 } else m, d, 0))

/-- The check at the start of `semdown` and `semup`. -/
def invalidAt (key : ℤ) : Traced ℤ Bool :=
  if key < 0 ∨ key > SYSMAXSEM then pure true
  else do
    if ← isfreeAt m key then pure true else pure (!isattached d key)

def semdownAt (key : ℤ) : Traced ℤ (Option Sems) := do
  let n ← access key (m.value key)
  if n > 0 then access key (some (m.setValue key (n - 1))) else pure none

def semupAt (key : ℤ) : Traced ℤ (Option (Sems × ℤ)) := do
  let n ← access key (m.value key)
  match incr n with
  | none => pure none
  | some v => access key (some (m.setValue key v, n))

/-- `semdown` and `semup`: the check, and then the rest of the section. -/
def checkedAt {α : Type} (key : ℤ) (body : Traced ℤ (Option α)) : Traced ℤ (Option α) := do
  if ← invalidAt m d key then pure none else body

def semcopyAt (child : Desc) (i : ℕ) (semid : ℤ) : Traced ℤ (Option (Sems × Desc)) :=
  if semid ≠ -1 then do
    let n ← access semid (m.references semid)
    match incr n with
    | none => pure none
    | some n =>
      let m ← setReferencesAt m semid n
      pure (m.map fun m => (m, { child with semids := child.semids.set i semid }))
  else pure (some (m, child))

end Calls

/-! ## They are the calls -/

section Val

variable (m : Sems) (d : Desc)

theorem val_semcreateAt (l : List ℤ) : (semcreateAt m l).val =
    match l.find? m.isfree with
    | some i => (i, { m with used := m.used + 1 })
    | none => (-1, m) := by
  induction l with
  | nil => rfl
  | cons i l ih =>
    rw [semcreateAt, val_bind, List.find?_cons]
    cases hi : m.isfree i with
    | true => simp [isfreeAt, hi]
    | false => simpa [isfreeAt, hi] using ih

theorem val_semgetAt (key v : ℤ) : (semgetAt m d key v).val = semget m d key v := by
  unfold semgetAt semget
  by_cases h1 : d.semcount > PROCMAXSEM
  · rw [if_pos h1, if_pos h1, val_pure]
  rw [if_neg h1, if_neg h1]
  by_cases h2 : m.used > SYSMAXSEM
  · rw [if_pos h2, if_pos h2, val_pure]
  rw [if_neg h2, if_neg h2]
  by_cases h3 : key < -1 ∨ key > SYSMAXSEM
  · rw [if_pos h3, if_pos (by tauto), val_pure]
  rw [if_neg h3]
  by_cases h4 : key = -1
  · subst h4
    rw [if_pos rfl, if_neg (by rintro (h | h | ⟨h, -⟩) <;> omega), if_pos rfl, val_bind,
      val_semcreateAt]
    rfl
  · rw [if_neg h4, val_bind]
    by_cases h5 : m.isfree key = true
    · rw [isfreeAt, val_access, if_pos h5, if_pos (Or.inr (Or.inr ⟨by omega, h5⟩)), val_pure]
    · rw [isfreeAt, val_access, if_neg h5, if_neg (by tauto), if_neg h4, val_bind, val_access]
      cases incr (m.references key) with
      | none => rfl
      | some n => rfl

theorem val_semfreeAt (key : ℤ) : (semfreeAt m d key).val = semfree m d key := by
  unfold semfreeAt semfree
  by_cases h1 : key < 0 ∨ key > SYSMAXSEM
  · rw [if_pos h1, if_pos (by tauto), val_pure]
  rw [if_neg h1, val_bind, isfreeAt, val_access]
  by_cases h2 : m.isfree key = true
  · rw [if_pos h2, if_pos (Or.inr (Or.inr h2)), val_pure]
  rw [if_neg h2, if_neg (by tauto)]
  cases semdetach d key with
  | none => rfl
  | some d => rfl

theorem val_invalidAt (key : ℤ) : (invalidAt m d key).val = invalid m d key := by
  unfold invalidAt invalid
  by_cases h1 : key < 0 ∨ key > SYSMAXSEM
  · rw [if_pos h1, val_pure, eq_comm, decide_eq_true_eq]
    tauto
  rw [if_neg h1, val_bind, isfreeAt, val_access]
  rw [not_or] at h1
  by_cases h2 : m.isfree key = true
  · simp [h2]
  · simp [h1.1, h1.2, h2]

theorem val_semdownAt (key : ℤ) : (semdownAt m key).val = semdown m key := by
  unfold semdownAt semdown
  rw [val_bind, val_access]
  split_ifs <;> rfl

theorem val_semupAt (key : ℤ) : (semupAt m key).val = semup m key := by
  unfold semupAt semup
  rw [val_bind, val_access]
  cases incr (m.value key) with
  | none => rfl
  | some v => rfl

theorem val_semcopyAt (child : Desc) (i : ℕ) (semid : ℤ) :
    (semcopyAt m child i semid).val = semcopy m child i semid := by
  unfold semcopyAt semcopy
  split_ifs
  · rw [val_bind, val_access]
    cases incr (m.references semid) with
    | none => rfl
    | some n => rfl
  · rfl

end Val

/-! ## Where they go -/

section Within

variable {m : Sems} {d : Desc}

theorem within_semcreateAt {l : List ℤ} (hl : ∀ i ∈ l, IsId i) : Within IsId (semcreateAt m l) := by
  induction l with
  | nil => exact within_pure
  | cons i l ih =>
    rw [semcreateAt, within_bind]
    refine ⟨within_access.mpr (hl i List.mem_cons_self), ?_⟩
    split_ifs
    · exact within_pure
    · exact ih fun j hj => hl j (List.mem_cons_of_mem i hj)

theorem within_semgetAt_iff : Within IsId (semgetAt m d key v) ↔
    d.semcount > PROCMAXSEM ∨ m.used > SYSMAXSEM ∨
      key ≠ SYSMAXSEM ∧ (key = -1 → ∃ i ∈ ids, (m.list i).references = 0) := by
  unfold semgetAt
  by_cases h1 : d.semcount > PROCMAXSEM
  · rw [if_pos h1]
    exact iff_of_true within_pure (Or.inl h1)
  rw [if_neg h1]
  by_cases h2 : m.used > SYSMAXSEM
  · rw [if_pos h2]
    exact iff_of_true within_pure (Or.inr (Or.inl h2))
  rw [if_neg h2]
  by_cases h3 : key < -1 ∨ key > SYSMAXSEM
  · rw [if_pos h3]
    exact iff_of_true within_pure (Or.inr (Or.inr ⟨by omega, fun hk => absurd hk (by omega)⟩))
  rw [if_neg h3, or_iff_right h1, or_iff_right h2]
  by_cases h4 : key = -1
  · rw [if_pos h4, within_bind, within_bind, semsetAt, within_access]
    have hfirst := within_semcreateAt (m := m) (l := ids) fun i hi => mem_ids.mp hi
    have hval : (semcreateAt m ids).val = m.semcreate := val_semcreateAt m ids
    rw [hval]
    rcases hc : m.semcreate with ⟨r, m1⟩
    rcases Sems.semcreate_eq hc with ⟨hr, hz, -⟩ | ⟨rfl, -, hall⟩
    · exact iff_of_true ⟨hfirst, hr, within_pure⟩
        ⟨by rw [h4]; decide, fun _ => ⟨r, mem_ids.mpr hr, hz⟩⟩
    · refine iff_of_false (fun h => absurd h.2.1 (show ¬ IsId (-1) by decide)) fun h => ?_
      obtain ⟨i, hi, hz⟩ := h.2 h4
      exact hall i (mem_ids.mp hi) hz
  · rw [if_neg h4, within_bind, isfreeAt, within_access]
    constructor
    · rintro ⟨hid, -⟩
      exact ⟨by have := hid.2; omega, fun hk => absurd hk h4⟩
    · rintro ⟨hne, -⟩
      have hid : IsId key := ⟨by omega, by omega⟩
      refine ⟨hid, ?_⟩
      split_ifs
      · exact within_pure
      · rw [within_bind]
        refine ⟨within_access.mpr hid, ?_⟩
        split
        · exact within_pure
        · exact within_bind.mpr ⟨within_access.mpr hid, within_pure⟩

theorem within_semfreeAt_iff : Within IsId (semfreeAt m d key) ↔ key ≠ SYSMAXSEM := by
  unfold semfreeAt
  by_cases h1 : key < 0 ∨ key > SYSMAXSEM
  · rw [if_pos h1]
    exact iff_of_true within_pure (by omega)
  rw [if_neg h1, within_bind, isfreeAt, within_access]
  constructor
  · rintro ⟨hid, -⟩
    have := hid.2
    omega
  · intro hne
    have hid : IsId key := ⟨by omega, by omega⟩
    refine ⟨hid, ?_⟩
    split_ifs
    · exact within_pure
    · split
      · exact within_pure
      · exact within_bind.mpr ⟨within_access.mpr hid,
          within_bind.mpr ⟨within_access.mpr hid, within_pure⟩⟩

theorem within_semdownAt_iff : Within IsId (semdownAt m key) ↔ IsId key := by
  rw [semdownAt, within_bind, within_access, and_iff_left_iff_imp]
  intro hid
  split_ifs
  · exact within_access.mpr hid
  · exact within_pure

theorem within_semupAt_iff : Within IsId (semupAt m key) ↔ IsId key := by
  rw [semupAt, within_bind, within_access, and_iff_left_iff_imp]
  intro hid
  split
  · exact within_pure
  · exact within_access.mpr hid

theorem within_checkedAt_iff {α : Type} {body : Traced ℤ (Option α)}
    (h : Within IsId body ↔ IsId key) : Within IsId (checkedAt m d key body) ↔ key ≠ SYSMAXSEM := by
  rw [checkedAt, within_bind, val_invalidAt]
  unfold invalidAt
  by_cases h1 : key < 0 ∨ key > SYSMAXSEM
  · have hinvalid : invalid m d key = true := by
      rw [invalid, decide_eq_true_eq]
      tauto
    rw [if_pos h1, if_pos hinvalid]
    exact iff_of_true ⟨within_pure, within_pure⟩ (by omega)
  rw [if_neg h1, within_bind, isfreeAt, within_access]
  constructor
  · rintro ⟨⟨hid, -⟩, -⟩
    have := hid.2
    omega
  · intro hne
    have hid : IsId key := ⟨by omega, by omega⟩
    refine ⟨⟨hid, ?_⟩, ?_⟩
    · split_ifs <;> exact within_pure
    · split_ifs
      · exact within_pure
      · exact h.mpr hid

theorem within_semcopyAt_iff {i : ℕ} {semid : ℤ} :
    Within IsId (semcopyAt m d i semid) ↔ (semid ≠ -1 → IsId semid) := by
  unfold semcopyAt
  split_ifs with hne
  · rw [within_bind, within_access, forall_prop_of_true hne, and_iff_left_iff_imp]
    intro hid
    split
    · exact within_pure
    · exact within_bind.mpr ⟨within_access.mpr hid, within_pure⟩
  · exact iff_of_true within_pure fun h => absurd h hne

end Within

/-! ## What the ids can be -/

/-- The ids that the descriptors and the calls in progress hold. -/
structure Ranged (s : State) : Prop where
  desc : ∀ p, ∀ i ∈ (s.desc p).semids, -1 ≤ i ∧ i ≤ SYSMAXSEM
  attach : ∀ p semid, s.pc p = .attach semid → -1 ≤ semid ∧ semid ≤ SYSMAXSEM
  down : ∀ p key, s.pc p = .down key → 0 ≤ key ∧ key ≤ SYSMAXSEM

theorem ranged_boot : Ranged State.boot where
  desc _ i hi := by
    rw [(List.mem_replicate.mp hi).2]
    decide
  attach _ _ h := by cases h
  down _ _ h := by cases h

namespace Ranged

theorem frame (h : Ranged s) (m : Sems) (pt : PTable) : Ranged { s with pt := pt, sems := m } :=
  ⟨h.desc, h.attach, h.down⟩

theorem setDesc (h : Ranged s) {d : Desc} (hd : ∀ i ∈ d.semids, -1 ≤ i ∧ i ≤ SYSMAXSEM) :
    Ranged (s.setDesc p d) := by
  refine ⟨fun q i hi => ?_, h.attach, h.down⟩
  rw [setDesc_desc] at hi
  split_ifs at hi
  · exact hd i hi
  · exact h.desc q i hi

theorem setPc (h : Ranged s) {x : Pc} (hattach : ∀ semid, x = .attach semid → -1 ≤ semid ∧
    semid ≤ SYSMAXSEM) (hdown : ∀ key, x = .down key → 0 ≤ key ∧ key ≤ SYSMAXSEM) :
    Ranged (s.setPc p x) := by
  refine ⟨h.desc, fun q semid hq => ?_, fun q key hq => ?_⟩
  · rw [setPc_pc] at hq
    split_ifs at hq
    · exact hattach semid hq
    · exact h.attach q semid hq
  · rw [setPc_pc] at hq
    split_ifs at hq
    · exact hdown key hq
    · exact h.down q key hq

theorem setPc_of_ne (h : Ranged s) {x : Pc} (hattach : ∀ semid, x ≠ .attach semid)
    (hdown : ∀ key, x ≠ .down key) : Ranged (s.setPc p x) :=
  h.setPc (fun semid hx => absurd hx (hattach semid)) fun key hx => absurd hx (hdown key)

theorem init : ∀ i ∈ Desc.init.semids, -1 ≤ i ∧ i ≤ SYSMAXSEM := by decide

theorem step (h : Ranged s) {a : Label} (hs : Sem.step s a = some (t, e)) : Ranged t := by
  cases step_part hs with
  | proc => exact h.frame s.sems _
  | userinit => exact (h.frame s.sems _).setDesc init
  | forkInit => exact (h.setDesc init).setPc_of_ne (by nofun) (by nofun)
  | forkFail => exact (h.frame s.sems _).setPc_of_ne (by nofun) (by nofun)
  | forkParent => exact (h.frame s.sems _).setPc_of_ne (by nofun) (by nofun)
  | @copy c q np i m d _ _ _ hcopy =>
    refine ((h.frame m s.pt).setDesc ?_).setPc_of_ne (by nofun) (by nofun)
    rcases semcopy_eq_some hcopy with ⟨-, -, rfl⟩ | ⟨hne, rfl, -⟩
    · exact h.desc np
    · intro j hj
      rcases List.mem_or_eq_of_mem_set hj with hj | rfl
      · exact h.desc np j hj
      · exact h.desc q _ (mem_of_getD_ne hne)
  | @copied c q np =>
    refine (h.setDesc ?_).setPc_of_ne (by nofun) (by nofun)
    exact h.desc np
  | forkEnqueue => exact (h.frame s.sems _).setPc_of_ne (by nofun) (by nofun)
  | refused => exact h
  | get _ hg =>
    obtain ⟨h1, h2, -, -⟩ := semid_of_ok hg
    refine (h.frame _ s.pt).setPc (fun k hk => ?_) (by nofun)
    obtain rfl := Pc.attach.inj hk
    exact ⟨h1, h2⟩
  | @attach c q semid _ hpc =>
    refine (h.setDesc fun i hi => ?_).setPc_of_ne (by nofun) (by nofun)
    cases hd : Sem.semattach (s.desc q) semid with
    | none =>
      rw [hd] at hi
      exact h.desc q i hi
    | some d =>
      rw [hd] at hi
      obtain ⟨l, hl, rfl⟩ := Option.map_eq_some_iff.mp hd
      rcases mem_of_replaceFirst hl hi with rfl | hi
      · exact h.attach q _ hpc
      · exact h.desc q i hi
  | @free c key q m d r _ hfree =>
    refine (h.frame m s.pt).setDesc fun i hi => ?_
    rcases semfree_eq_some hfree with ⟨-, rfl, -⟩ | ⟨-, -, hd, -⟩
    · exact h.desc q i hi
    · obtain ⟨l, hl, rfl⟩ := Option.map_eq_some_iff.mp hd
      rcases mem_of_replaceFirst hl hi with rfl | hi
      · decide
      · exact h.desc q i hi
  | down => exact (h.frame _ s.pt).setPc_of_ne (by nofun) (by nofun)
  | @slept _ c p key _ _ hpc =>
    refine (h.frame s.sems _).setPc (by nofun) fun k hk => ?_
    obtain rfl := Pc.down.inj hk
    rcases hpc with ⟨-, hinv⟩ | hpc
    · exact ⟨(not_invalid hinv).1, (not_invalid hinv).2.1⟩
    · exact h.down p key hpc
  | up => refine (h.frame _ s.pt).setPc_of_ne ?_ ?_ <;> intro k hk <;> split_ifs at hk
  | wakeup => exact (h.frame s.sems _).setPc_of_ne (by nofun) (by nofun)

end Ranged

theorem ranged_exec {as : List Label} {es : List Event}
    (h : exec step State.boot as = some (s, es)) : Ranged s :=
  exec_invariant (fun hr hs => hr.step hs) ranged_boot h

/-! ## The accesses of a step -/

/-- The indices at which the step accesses `sems.list`. -/
def accesses (s : State) : Label → List ℤ
  | .semget c key v =>
    match s.caller c with
    | none => []
    | some p => (semgetAt s.sems (s.desc p) key v).log
  | .semfree c key =>
    match s.caller c with
    | none => []
    | some p => (semfreeAt s.sems (s.desc p) key).log
  | .semdown c key =>
    match s.caller c with
    | none => []
    | some p => (checkedAt s.sems (s.desc p) key (semdownAt s.sems key)).log
  | .semdownRetry c =>
    match runningAt s.pt c .user with
    | none => []
    | some p =>
      match s.pc p with
      | .down key => (semdownAt s.sems key).log
      | _ => []
  | .semup c key =>
    match s.caller c with
    | none => []
    | some p => (checkedAt s.sems (s.desc p) key (semupAt s.sems key)).log
  | .semcopy c =>
    match forkedOn s.pt c with
    | none => []
    | some (p, np) =>
      match s.pc p with
      | .copying i =>
        if i < PROCMAXSEM then
          (semcopyAt s.sems (s.desc np) i ((s.desc p).semids.getD i (-1))).log
        else []
      | _ => []
  | _ => []

/-- The step does not use the id `SYSMAXSEM`, and does not create a semaphore when none is free. -/
def InRange (s : State) : Label → Prop
  | .semget c key _ => ∀ p, s.caller c = some p → (s.desc p).semcount > PROCMAXSEM ∨
      s.sems.used > SYSMAXSEM ∨
      key ≠ SYSMAXSEM ∧ (key = -1 → ∃ i ∈ ids, (s.sems.list i).references = 0)
  | .semfree c key | .semdown c key | .semup c key => s.caller c = none ∨ key ≠ SYSMAXSEM
  | .semdownRetry c => ∀ p, runningAt s.pt c .user = some p → s.pc p ≠ .down SYSMAXSEM
  | .semcopy c => ∀ p np i, forkedOn s.pt c = some (p, np) → s.pc p = .copying i → i < PROCMAXSEM →
      (s.desc p).semids.getD i (-1) ≠ SYSMAXSEM
  | _ => True

/-- **Which steps stay inside of `sems.list`.**  In every reachable state a step of `semget`,
`semfree`, `semdown`, `semup` or `semcopy` accesses the array at indices in range only, if and only
if it is in range. -/
theorem accesses_iff_of_exec {as : List Label} {es : List Event}
    (h : exec step State.boot as = some (s, es)) (a : Label) :
    (∀ i ∈ accesses s a, IsId i) ↔ InRange s a := by
  have hr := ranged_exec h
  have hcall : ∀ {c : ℕ} {key : ℤ} {f : Slot → List ℤ},
    (∀ p, (∀ i ∈ f p, IsId i) ↔ key ≠ SYSMAXSEM) →
      ((∀ i ∈ (match s.caller c with | none => [] | some p => f p), IsId i) ↔
        s.caller c = none ∨ key ≠ SYSMAXSEM) := by
    intro c key f hf
    cases s.caller c with
    | none => exact iff_of_true (fun i hi => absurd hi List.not_mem_nil) (Or.inl rfl)
    | some p =>
      rw [or_iff_right (by nofun)]
      exact hf p
  cases a with
  | semget c key v =>
    simp only [accesses, InRange]
    cases hc : s.caller c with
    | none => exact iff_of_true (fun i hi => absurd hi List.not_mem_nil) fun p hp => by cases hp
    | some p =>
      simp only [Option.some.injEq, forall_eq']
      exact within_semgetAt_iff
  | semfree c key => exact hcall fun p => within_semfreeAt_iff
  | semdown c key => exact hcall fun p => within_checkedAt_iff within_semdownAt_iff
  | semup c key => exact hcall fun p => within_checkedAt_iff within_semupAt_iff
  | semdownRetry c =>
    simp only [accesses, InRange]
    cases hc : runningAt s.pt c .user with
    | none => exact iff_of_true (fun i hi => absurd hi List.not_mem_nil) fun p hp => by cases hp
    | some p =>
      simp only [Option.some.injEq, forall_eq']
      cases hpc : s.pc p with
      | down key =>
        obtain ⟨h1, h2⟩ := hr.down p key hpc
        refine within_semdownAt_iff.trans ⟨?_, fun hne => ⟨h1, lt_of_le_of_ne h2 fun hkey => ?_⟩⟩
        · rintro hid hkey
          obtain rfl := Pc.down.inj hkey
          exact lt_irrefl _ hid.2
        · exact hne (congrArg Pc.down hkey)
      | _ => exact iff_of_true (fun i hi => absurd hi List.not_mem_nil) (by nofun)
  | semcopy c =>
    simp only [accesses, InRange]
    cases hc : forkedOn s.pt c with
    | none =>
      exact iff_of_true (fun i hi => absurd hi List.not_mem_nil) fun p np i hp => by cases hp
    | some x =>
      obtain ⟨p, np⟩ := x
      cases hpc : s.pc p with
      | copying i =>
        by_cases hi : i < PROCMAXSEM
        · simp only [hpc, if_pos hi]
          refine within_semcopyAt_iff.trans ⟨?_, fun hne hid => ?_⟩
          · rintro hid p' np' j hp hj - hlast
            cases hp
            cases hpc.symm.trans hj
            have hlt := (hid (by rw [hlast]; decide)).2
            rw [hlast] at hlt
            exact lt_irrefl _ hlt
          · obtain ⟨h1, h2⟩ := hr.desc p _ (mem_of_getD_ne hid)
            exact ⟨by omega, lt_of_le_of_ne h2 (hne p np i rfl hpc hi)⟩
        · simp only [hpc, if_neg hi]
          refine iff_of_true (fun i hi => absurd hi List.not_mem_nil) fun p' np' j hp hj hlt => ?_
          cases hp
          cases hpc.symm.trans hj
          exact absurd hlt hi
      | _ =>
        simp only [hpc]
        refine iff_of_true (fun i hi => absurd hi List.not_mem_nil) fun p' np' j hp hj => ?_
        cases hp
        rw [hpc] at hj
        cases hj
  | _ => exact iff_of_true (fun i hi => absurd hi List.not_mem_nil) trivial

/-- The first process asks for its first semaphore. -/
theorem accesses_of_first_semget : ∃ s es,
    exec step State.boot [.userinit, .proc (.dispatch 0)] = some (s, es) ∧
      s.caller 0 = some 0 ∧ ∀ i ∈ accesses s (.semget 0 (-1) 1), IsId i := by
  have hrun : ((exec step State.boot [.userinit, .proc (.dispatch 0)]).map fun x =>
      (x.1.caller 0, decide (∃ i ∈ ids, (x.1.sems.list i).references = 0))) =
      some (some 0, true) := by
    decide +kernel
  obtain ⟨⟨s, es⟩, hs, heq⟩ := Option.map_eq_some_iff.mp hrun
  obtain ⟨hcaller, hfree⟩ := Prod.mk.inj heq
  exact ⟨s, es, hs, hcaller, (accesses_iff_of_exec hs _).mpr fun p _ =>
    Or.inr (Or.inr ⟨by decide, fun _ => of_decide_eq_true hfree⟩)⟩

/-- **Counterexample.**  `semget(SYSMAXSEM, 0)` succeeds, and then `semup(SYSMAXSEM)` increments
`sems.used`: no semaphore has been created. -/
theorem accesses_sysmaxsem : ∃ s t es e,
    exec step State.boot
      [.userinit, .proc (.dispatch 0), .semget 0 SYSMAXSEM 0, .semattach 0] = some (s, es) ∧
      (SYSMAXSEM : ℤ) ∈ accesses s (.semup 0 SYSMAXSEM) ∧ ¬ IsId SYSMAXSEM ∧
      step s (.semup 0 SYSMAXSEM) = some (t, e) ∧ s.sems.used = 0 ∧ t.sems.used = 1 := by
  have hrun : ((exec step State.boot
      [.userinit, .proc (.dispatch 0), .semget 0 SYSMAXSEM 0, .semattach 0]).bind fun x =>
      (step x.1 (.semup 0 SYSMAXSEM)).map fun y =>
        (decide ((SYSMAXSEM : ℤ) ∈ accesses x.1 (.semup 0 SYSMAXSEM)), x.1.sems.used,
          y.1.sems.used)) = some (true, 0, 1) := by
    decide +kernel
  obtain ⟨⟨s, es⟩, hs, hrun⟩ := Option.bind_eq_some_iff.mp hrun
  obtain ⟨⟨t, e⟩, ht, heq⟩ := Option.map_eq_some_iff.mp hrun
  obtain ⟨hmem, heq⟩ := Prod.mk.inj heq
  obtain ⟨hused, hused'⟩ := Prod.mk.inj heq
  exact ⟨s, t, es, e, hs, of_decide_eq_true hmem, by decide, ht, hused, hused'⟩

end Xv6.Sem
