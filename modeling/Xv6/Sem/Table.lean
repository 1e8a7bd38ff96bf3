import Xv6.Param
import Xv6.Lib.Tally

/-!
# The semaphore table of `semaphore.c`

The struct `sems` and the descriptors of a process, with the functions of `semaphore.c` that run
under `sems.lock` or on the caller's own descriptors.

The checks of the source let the key `SYSMAXSEM` through, one past the end of `sems.list`.  The
words that follow the array are `sems.used` and the `locked` word of `sems.lock`, so
`sems.list[SYSMAXSEM].value` is `used`, and `sems.list[SYSMAXSEM].references` is `locked`: 1
while the lock is held, and cleared when it is released.  `release` panics if it finds it cleared
already, which is what `semfree(SYSMAXSEM)` runs into.  The accessors below spell this out.

`semcreate` returns -1 when no semaphore is free and `semget` goes on with it, to the cell before
the array; `list (-1)` stands for that memory.

A signed overflow has no defined result in C.  `incr` has none either, so that a run never goes
past one.
-/

namespace Xv6.Sem

open Lib

/-- There isn't a semaphore with that key. -/
def EINVAL : ℤ := -2

/-- Too many semaphores in use by this process. -/
def ENSEM : ℤ := -3

/-- Too many semaphores in use on the system. -/
def ENSEMSYS : ℤ := -4

structure Semaphore where
  value : ℤ := 0
  references : ℤ := 0
  deriving DecidableEq

@[ext]
structure Sems where
  list : ℤ → Semaphore
  used : ℤ

def IsId (key : ℤ) : Prop := 0 ≤ key ∧ key < SYSMAXSEM

instance (key : ℤ) : Decidable (IsId key) := inferInstanceAs (Decidable (_ ∧ _))

/-- The ids, in the order in which `semcreate` tries them. -/
def ids : List ℤ := (List.range SYSMAXSEM).map fun (n : ℕ) => (n : ℤ)

theorem mem_ids {key : ℤ} : key ∈ ids ↔ IsId key := by
  simp only [ids, List.mem_map, List.mem_range, IsId]
  constructor
  · rintro ⟨n, hn, rfl⟩
    omega
  · rintro ⟨h1, h2⟩
    exact ⟨key.toNat, by omega, by omega⟩

/-- `x + 1` in a C `int`. -/
def incr (x : ℤ) : Option ℤ := if x < 2 ^ 31 - 1 then some (x + 1) else none

theorem incr_eq_some {x y : ℤ} (h : incr x = some y) : y = x + 1 ∧ x < 2 ^ 31 - 1 := by
  unfold incr at h
  split_ifs at h with hx
  exact ⟨(Option.some.inj h).symm, hx⟩

/-! ## Access with `sems.lock` held -/

namespace Sems

def boot : Sems := ⟨fun _ => {}, 0⟩

variable (m : Sems) (key i x : ℤ)

/-- `sems.list[key].value`. -/
def value : ℤ := if key = SYSMAXSEM then m.used else (m.list key).value

/-- `sems.list[key].references`. -/
def references : ℤ := if key = SYSMAXSEM then 1 else (m.list key).references

/-- `sems.list[key].value = x`. -/
def setValue : Sems :=
  if key = SYSMAXSEM then { m with used := x }
  else { m with list := fun k => if k = key then { m.list k with value := x } else m.list k }

/-- `sems.list[key].references = x`, up to the next `release`. -/
def setReferences : Option Sems :=
  if key = SYSMAXSEM then if x = 0 then none else some m
  else some { m with
    list := fun k => if k = key then { m.list k with references := x } else m.list k }

def isfree : Bool := m.references key = 0

/-- Find a semaphore that is free; -1 if there is none. -/
def semcreate : ℤ × Sems :=
  match ids.find? m.isfree with
  | some i => (i, { m with used := m.used + 1 })
  | none => (-1, m)

/-- Set the value and the reference count. -/
def semset (semid value references : ℤ) : Sems :=
  { m with list := fun k => if k = semid then ⟨value, references⟩ else m.list k }

variable {m key i x}

theorem value_of_isId (h : IsId key) : m.value key = (m.list key).value :=
  if_neg (by have := h.2; omega)

theorem references_of_isId (h : IsId key) : m.references key = (m.list key).references :=
  if_neg (by have := h.2; omega)

theorem isfree_iff (h : IsId key) : m.isfree key = true ↔ (m.list key).references = 0 := by
  rw [isfree, decide_eq_true_eq, references_of_isId h]

theorem setValue_references : ((m.setValue key x).list i).references = (m.list i).references := by
  unfold setValue
  split_ifs
  · rfl
  · dsimp only
    split_ifs <;> rfl

theorem setValue_value (h : IsId i) :
    ((m.setValue key x).list i).value = if i = key then x else (m.list i).value := by
  unfold setValue
  split_ifs with hk hi hi
  · rw [IsId] at h
    omega
  · rfl
  · simp [hi]
  · simp [hi]

/-- Writing another word of the table than `value` of `SYSMAXSEM` leaves `used` alone. -/
theorem setValue_used (h : key ≠ SYSMAXSEM) : (m.setValue key x).used = m.used := by
  rw [setValue, if_neg h]

theorem setReferences_eq_some {m' : Sems} (h : m.setReferences key x = some m') :
    m'.used = m.used ∧ ∀ i, IsId i → (m'.list i).value = (m.list i).value ∧
      (m'.list i).references = if i = key then x else (m.list i).references := by
  unfold setReferences at h
  split_ifs at h with hk hx
  · cases h
    refine ⟨rfl, fun i hi => ⟨rfl, ?_⟩⟩
    rw [if_neg (by have := hi.2; omega)]
  · cases h
    refine ⟨rfl, fun i _ => ?_⟩
    dsimp only
    split_ifs <;> exact ⟨rfl, rfl⟩

theorem semcreate_eq {r : ℤ} {m' : Sems} (h : m.semcreate = (r, m')) :
    (IsId r ∧ (m.list r).references = 0 ∧ m' = { m with used := m.used + 1 }) ∨
      r = -1 ∧ m' = m ∧ ∀ i, IsId i → (m.list i).references ≠ 0 := by
  unfold semcreate at h
  cases hf : ids.find? m.isfree with
  | some i =>
    rw [hf] at h
    cases h
    have hid := mem_ids.mp (List.mem_of_find?_eq_some hf)
    exact Or.inl ⟨hid, (isfree_iff hid).mp (List.find?_some hf), rfl⟩
  | none =>
    rw [hf] at h
    cases h
    refine Or.inr ⟨rfl, rfl, fun i hi hz => ?_⟩
    exact List.find?_eq_none.mp hf i (mem_ids.mpr hi) ((isfree_iff hi).mpr hz)

end Sems

/-! ## The descriptors of a process -/

/-- `semids` and `semcount` of `struct proc`. -/
structure Desc where
  semids : List ℤ
  semcount : ℤ
  deriving DecidableEq

/-- The descriptors as `allocproc` initialises them. -/
def Desc.init : Desc := ⟨List.replicate PROCMAXSEM (-1), 0⟩

/-- Put the semaphore into the first free spot, if there is one. -/
def semattach (d : Desc) (semid : ℤ) : Option Desc :=
  (replaceFirst (-1) semid d.semids).map fun l => ⟨l, d.semcount + 1⟩

/-- Remove the first entry of the semaphore, if there is one. -/
def semdetach (d : Desc) (semid : ℤ) : Option Desc :=
  (replaceFirst semid (-1) d.semids).map fun l => ⟨l, d.semcount - 1⟩

/-- Is the semaphore attached to the process? -/
def isattached (d : Desc) (semid : ℤ) : Bool := semid ∈ d.semids

/-- Has the process a free spot for a semaphore? -/
def Desc.hasFree (d : Desc) : Prop := -1 ∈ d.semids

instance (d : Desc) : Decidable d.hasFree := inferInstanceAs (Decidable (_ ∈ _))

variable {semid : ℤ}

theorem semattach_eq_none_iff {d : Desc} : semattach d semid = none ↔ ¬ d.hasFree := by
  rw [semattach, Option.map_eq_none_iff, replaceFirst_eq_none_iff, Desc.hasFree]

theorem semattach_count {d d' : Desc} {i : ℤ} (h : semattach d semid = some d')
    (hi : IsId i) : d'.semids.count i = d.semids.count i + if semid = i then 1 else 0 := by
  obtain ⟨l, hl, rfl⟩ := Option.map_eq_some_iff.mp h
  have := count_replaceFirst hl i
  rw [if_neg (show (-1 : ℤ) ≠ i by have := hi.1; omega)] at this
  exact this

theorem semdetach_count {d d' : Desc} {i : ℤ} (h : semdetach d semid = some d')
    (hi : IsId i) : d'.semids.count i + (if semid = i then 1 else 0) = d.semids.count i := by
  obtain ⟨l, hl, rfl⟩ := Option.map_eq_some_iff.mp h
  have := count_replaceFirst hl i
  rw [if_neg (show (-1 : ℤ) ≠ i by have := hi.1; omega)] at this
  exact this

/-! ## The system calls -/

/-- `semget` up to the release of `sems.lock`: an error, or the id to attach. -/
def semget (m : Sems) (d : Desc) (key init_value : ℤ) : Option (Sems × Except ℤ ℤ) :=
  if d.semcount > PROCMAXSEM then some (m, .error ENSEM)
  else if m.used > SYSMAXSEM then some (m, .error ENSEMSYS)
  else if key < -1 ∨ key > SYSMAXSEM ∨ (key ≥ 0 ∧ m.isfree key = true) then
    some (m, .error EINVAL)
  else if key = -1 then
    let r := m.semcreate
    let m := r.2.semset r.1 init_value 1
    some ({ m with used := m.used + 1 }, .ok r.1)
  else
    match incr (m.references key) with
    | none => none
    | some n => (m.setReferences key n).map fun m => (m, .ok key)

def semfree (m : Sems) (d : Desc) (key : ℤ) : Option (Sems × Desc × ℤ) :=
  if key < 0 ∨ key > SYSMAXSEM ∨ m.isfree key = true then some (m, d, EINVAL)
  else
    match semdetach d key with
    | none => some (m, d, EINVAL)
    | some d =>
      let n := m.references key - 1
      (m.setReferences key n).map fun m =>
        (if n = 0 then { m with used := m.used - 1 } else m, d, 0)

/-- The check at the start of `semdown` and `semup`. -/
def invalid (m : Sems) (d : Desc) (key : ℤ) : Bool :=
  key < 0 ∨ key > SYSMAXSEM ∨ m.isfree key = true ∨ isattached d key = false

/-- The body of the loop of `semdown`; `none` is to sleep. -/
def semdown (m : Sems) (key : ℤ) : Option Sems :=
  if m.value key > 0 then some (m.setValue key (m.value key - 1)) else none

/-- The increment of `semup`, with the old value. -/
def semup (m : Sems) (key : ℤ) : Option (Sems × ℤ) :=
  (incr (m.value key)).map fun v => (m.setValue key v, m.value key)

/-- One round of the loop of `semcopy`, for the entry `semid` of the parent. -/
def semcopy (m : Sems) (child : Desc) (i : ℕ) (semid : ℤ) : Option (Sems × Desc) :=
  if semid ≠ -1 then
    match incr (m.references semid) with
    | none => none
    | some n => (m.setReferences semid n).map fun m =>
      (m, { child with semids := child.semids.set i semid })
  else some (m, child)

/-! ## What the calls do to the semaphores -/

variable {m m' : Sems} {d d' : Desc} {key v : ℤ}

/-- `m'` is `m` with another reference count of `key`. -/
structure Referenced (m m' : Sems) (key n : ℤ) : Prop where
  used : m'.used = m.used
  value : ∀ i, IsId i → (m'.list i).value = (m.list i).value
  references : ∀ i, IsId i →
    (m'.list i).references = if i = key then n else (m.list i).references

theorem Sems.referenced_of_setReferences {n : ℤ} (h : m.setReferences key n = some m') :
    Referenced m m' key n := by
  obtain ⟨h1, h2⟩ := Sems.setReferences_eq_some h
  exact ⟨h1, fun i hi => (h2 i hi).1, fun i hi => (h2 i hi).2⟩

/-- A failing `semget` changes nothing, and says why. -/
theorem semget_eq_error {r : ℤ} (h : semget m d key v = some (m', .error r)) :
    m' = m ∧ (r = ENSEM ∧ d.semcount > PROCMAXSEM ∨ r = ENSEMSYS ∧ m.used > SYSMAXSEM ∨
      r = EINVAL) := by
  unfold semget at h
  split_ifs at h with h1 h2 h3 h4
  · obtain ⟨rfl, hr⟩ := Prod.mk.inj (Option.some.inj h)
    exact ⟨rfl, Or.inl ⟨(Except.error.inj hr).symm, h1⟩⟩
  · obtain ⟨rfl, hr⟩ := Prod.mk.inj (Option.some.inj h)
    exact ⟨rfl, Or.inr (Or.inl ⟨(Except.error.inj hr).symm, h2⟩)⟩
  · obtain ⟨rfl, hr⟩ := Prod.mk.inj (Option.some.inj h)
    exact ⟨rfl, Or.inr (Or.inr (Except.error.inj hr).symm)⟩
  · cases (Prod.mk.inj (Option.some.inj h)).2
  · split at h
    · cases h
    · obtain ⟨m1, -, heq⟩ := Option.map_eq_some_iff.mp h
      cases (Prod.mk.inj heq).2

/-- The two ends of a `semget` that goes on to attach: a new semaphore, or one more reference. -/
theorem semget_eq_ok (h : semget m d key v = some (m', .ok semid)) :
    m.used ≤ SYSMAXSEM ∧
      (key = -1 ∧ (∀ k, m'.list k = if k = semid then ⟨v, 1⟩ else m.list k) ∧
          (IsId semid ∧ (m.list semid).references = 0 ∧ m'.used = m.used + 2 ∨
            semid = -1 ∧ (∀ i, IsId i → (m.list i).references ≠ 0) ∧ m'.used = m.used + 1) ∨
        semid = key ∧ 0 ≤ key ∧ m.references key ≠ 0 ∧
          Referenced m m' key (m.references key + 1)) := by
  unfold semget at h
  split_ifs at h with h1 h2 h3 h4
  · cases (Prod.mk.inj (Option.some.inj h)).2
  · cases (Prod.mk.inj (Option.some.inj h)).2
  · cases (Prod.mk.inj (Option.some.inj h)).2
  · obtain ⟨hm, hid⟩ := Prod.mk.inj (Option.some.inj h)
    obtain rfl := Except.ok.inj hid
    refine ⟨by omega, Or.inl ⟨h4, ?_⟩⟩
    rcases hc : m.semcreate with ⟨r, m1⟩
    rw [hc] at hm
    rcases Sems.semcreate_eq hc with ⟨hr, hz, rfl⟩ | ⟨rfl, rfl, hall⟩
    · rw [← hm]
      refine ⟨fun _ => rfl, Or.inl ⟨hr, hz, ?_⟩⟩
      show m.used + 1 + 1 = m.used + 2
      omega
    · rw [← hm]
      exact ⟨fun _ => rfl, Or.inr ⟨rfl, hall, rfl⟩⟩
  · split at h
    · cases h
    · rename_i n hn
      obtain ⟨m1, hm1, heq⟩ := Option.map_eq_some_iff.mp h
      obtain ⟨rfl, hid⟩ := Prod.mk.inj heq
      obtain rfl := Except.ok.inj hid
      obtain ⟨rfl, -⟩ := incr_eq_some hn
      have hfree : ¬ m.references key = 0 := by
        intro hz
        exact h3 (Or.inr (Or.inr ⟨by omega, decide_eq_true hz⟩))
      exact ⟨by omega, Or.inr ⟨rfl, by omega, hfree, Sems.referenced_of_setReferences hm1⟩⟩

/-- `semfree` fails and changes nothing, or gives up one reference of a semaphore; the key
`SYSMAXSEM` panics. -/
theorem semfree_eq_some {r : ℤ} (h : semfree m d key = some (m', d', r)) :
    (m' = m ∧ d' = d ∧ r = EINVAL) ∨
      (IsId key ∧ (m.list key).references ≠ 0 ∧ semdetach d key = some d' ∧ r = 0 ∧
        m'.used = m.used - (if (m.list key).references = 1 then 1 else 0) ∧
        (∀ i, IsId i → (m'.list i).value = (m.list i).value) ∧
        ∀ i, IsId i → (m'.list i).references =
          (m.list i).references - if i = key then 1 else 0) := by
  unfold semfree at h
  split_ifs at h with hinv
  · obtain ⟨rfl, hr⟩ := Prod.mk.inj (Option.some.inj h)
    cases hr
    exact Or.inl ⟨rfl, rfl, rfl⟩
  · split at h
    · obtain ⟨rfl, hr⟩ := Prod.mk.inj (Option.some.inj h)
      cases hr
      exact Or.inl ⟨rfl, rfl, rfl⟩
    · rename_i d1 hd1
      obtain ⟨m1, hm1, heq⟩ := Option.map_eq_some_iff.mp h
      obtain ⟨hm, hr⟩ := Prod.mk.inj heq
      cases hr
      have hkey : key ≠ SYSMAXSEM := by
        rintro rfl
        simp [Sems.setReferences, Sems.references] at hm1
      have hid : IsId key := ⟨by omega, by omega⟩
      rw [Sems.references_of_isId hid] at hm1 hm
      have hne : (m.list key).references ≠ 0 := by
        intro hz
        exact hinv (Or.inr (Or.inr ((Sems.isfree_iff hid).mpr hz)))
      have hset := Sems.referenced_of_setReferences hm1
      have hlist : m'.list = m1.list := by
        rw [← hm]
        split_ifs <;> rfl
      refine Or.inr ⟨hid, hne, hd1, rfl, ?_, ?_, ?_⟩
      · rw [← hm, ← hset.used]
        split_ifs with h1 h2 h2
        · rfl
        · omega
        · omega
        · simp
      · intro i hi
        rw [hlist]
        exact hset.value i hi
      · intro i hi
        rw [hlist, hset.references i hi]
        split_ifs with hik
        · rw [hik]
        · omega

theorem semdown_eq_some (h : semdown m key = some m') :
    m.value key > 0 ∧ m' = m.setValue key (m.value key - 1) := by
  unfold semdown at h
  split_ifs at h with hv
  exact ⟨hv, (Option.some.inj h).symm⟩

theorem semdown_eq_none_iff : semdown m key = none ↔ m.value key ≤ 0 := by
  unfold semdown
  split_ifs with hv
  · simp [hv]
  · simp
    omega

theorem semup_eq_some {old : ℤ} (h : semup m key = some (m', old)) :
    old = m.value key ∧ m' = m.setValue key (m.value key + 1) ∧
      m.value key < 2 ^ 31 - 1 := by
  obtain ⟨x, hx, heq⟩ := Option.map_eq_some_iff.mp h
  cases heq
  obtain ⟨rfl, hlt⟩ := incr_eq_some hx
  exact ⟨rfl, rfl, hlt⟩

theorem semcopy_eq_some {i : ℕ} (h : semcopy m d i semid = some (m', d')) :
    (semid = -1 ∧ m' = m ∧ d' = d) ∨
      (semid ≠ -1 ∧ d' = ⟨d.semids.set i semid, d.semcount⟩ ∧
        Referenced m m' semid (m.references semid + 1)) := by
  unfold semcopy at h
  split_ifs at h with hid
  · split at h
    · cases h
    · rename_i n hn
      obtain ⟨m1, hm1, heq⟩ := Option.map_eq_some_iff.mp h
      cases heq
      obtain ⟨rfl, -⟩ := incr_eq_some hn
      exact Or.inr ⟨hid, rfl, Sems.referenced_of_setReferences hm1⟩
  · cases h
    exact Or.inl ⟨not_not.mp hid, rfl, rfl⟩

theorem not_invalid (h : ¬ invalid m d key = true) :
    0 ≤ key ∧ key ≤ SYSMAXSEM ∧ m.references key ≠ 0 ∧ key ∈ d.semids := by
  simp only [invalid, Sems.isfree, isattached, decide_eq_true_eq, not_or, not_lt,
    decide_eq_false_iff_not, not_not] at h
  exact ⟨h.1, h.2.1, h.2.2.1, h.2.2.2⟩

end Xv6.Sem
