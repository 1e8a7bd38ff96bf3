import Mathlib.Algebra.BigOperators.Pi
import Xv6.Lib.Tally
import Xv6.Vm.Kalloc

/-!
# Page tables

The two levels of an x86 page table: a directory of 1024 entries, each of which may point to a table
of 1024 entries.  The directory and the tables sit in pages of the allocator, whose numbers are kept
in `frame`; their contents are data here.  A virtual address enters as a page number, so `PDX` and
`PTX` are its quotient and remainder by 1024.  The flags of an entry are the three that the kernel
uses.

The books of a directory are `owned`, the pages that it and its tables sit in, and, over the part
below `KERNBASE`, `refs`, the pages that its present entries map, and `writes`, those that they map
writable.  `DirOk` puts them on top of any other books: `K`, `U` and `W` are what the rest of the
system holds.
-/

namespace Xv6.Vm

open Lib

/-- A page table entry: `PTE_P`, `PTE_W`, `PTE_U` and the page. -/
structure Pte where
  present : Bool := false
  writable : Bool := false
  user : Bool := false
  addr : Frame := 0
  deriving DecidableEq

/-- `*pte &= ~PTE_W`. -/
def Pte.clearW (x : Pte) : Pte := { x with writable := false }

/-- `*pte |= PTE_W`. -/
def Pte.setW (x : Pte) : Pte := { x with writable := true }

/-- `*pte &= ~PTE_U`. -/
def Pte.clearU (x : Pte) : Pte := { x with user := false }

structure Table where
  frame : Frame
  pte : ℕ → Pte

/-- A page directory with the page tables that it points to. -/
structure PageDir where
  frame : Frame
  tab : ℕ → Option Table

/-- Page directory entries per page directory, and page table entries per page table. -/
def NPDENTRIES : ℕ := 1024

/-- `memset(pgdir, 0, PGSIZE)`. -/
def PageDir.empty (f : Frame) : PageDir := { frame := f, tab := fun _ => none }

/-- `walkpgdir` with `alloc = 0`: the entry of page `v`, if its table exists. -/
def walkpgdir (d : PageDir) (v : ℕ) : Option Pte :=
  (d.tab (v / NPDENTRIES)).map fun t => t.pte (v % NPDENTRIES)

/-- Point the directory entry `i` to an empty table in the page `f`. -/
def PageDir.addTab (d : PageDir) (i : ℕ) (f : Frame) : PageDir :=
  { d with tab := Function.update d.tab i (some { frame := f, pte := fun _ => {} }) }

/-- `walkpgdir` with `alloc ≠ 0`: create the table of page `v` if it does not exist. -/
def walkpgdirAlloc (k : Kmem) (d : PageDir) (v : ℕ) : Option (Kmem × PageDir) :=
  match d.tab (v / NPDENTRIES) with
  | some _ => some (k, d)
  | none =>
    match kalloc k with
    | none => none
    | some (f, k) => some (k, d.addTab (v / NPDENTRIES) f)

/-- Store an entry through the pointer that `walkpgdir` gives. -/
def PageDir.setPte (d : PageDir) (v : ℕ) (x : Pte) : PageDir :=
  match d.tab (v / NPDENTRIES) with
  | none => d
  | some t =>
    { d with
      tab := Function.update d.tab (v / NPDENTRIES)
        (some { t with pte := Function.update t.pte (v % NPDENTRIES) x }) }

/-- Create entries for `n` pages from page `v` on that refer to the physical pages from `pa` on.
The result says whether there was memory for the tables; there is none if an entry is in use. -/
def mappages (writable user : Bool) :
    ℕ → Kmem → PageDir → ℕ → Frame → Option (Bool × Kmem × PageDir)
  | 0, k, d, _, _ => some (true, k, d)
  | n + 1, k, d, v, pa =>
    match walkpgdirAlloc k d v with
    | none => some (false, k, d)
    | some (k, d) =>
      if ((walkpgdir d v).getD {}).present then none
      else
        mappages writable user n k
          (d.setPte v { present := true, writable := writable, user := user, addr := pa })
          (v + 1) (pa + 1)

/-! ## Entries -/

/-- The entry of page `v`; one that does not exist maps nothing. -/
def PageDir.pte (d : PageDir) (v : ℕ) : Pte := (walkpgdir d v).getD {}

variable {L : Layout} {dom : Frame → Prop} {k k' : Kmem} {K U W : Frame → ℕ} {d d' : PageDir}
  {f : Frame} {u v : ℕ} {x : Pte}

theorem PageDir.pte_of_walkpgdir (h : walkpgdir d v = some x) : d.pte v = x := by
  rw [PageDir.pte, h]
  rfl

theorem PageDir.pte_of_walkpgdir_none (h : walkpgdir d v = none) : d.pte v = {} := by
  rw [PageDir.pte, h]
  rfl

theorem PageDir.walkpgdir_of_present (h : (d.pte v).present = true) :
    walkpgdir d v = some (d.pte v) := by
  cases hw : walkpgdir d v with
  | none =>
    rw [d.pte_of_walkpgdir_none hw] at h
    cases h
  | some x => rw [d.pte_of_walkpgdir hw]

theorem PageDir.isSome_walkpgdir (h : (d.pte v).present = true) : (walkpgdir d v).isSome := by
  rw [PageDir.walkpgdir_of_present h]
  rfl

theorem divMod_ne (h : u ≠ v) (hq : u / NPDENTRIES = v / NPDENTRIES) :
    u % NPDENTRIES ≠ v % NPDENTRIES := by
  intro hr
  apply h
  rw [← Nat.div_add_mod u NPDENTRIES, ← Nat.div_add_mod v NPDENTRIES, hq, hr]

theorem walkpgdir_setPte (hw : (walkpgdir d v).isSome) (x : Pte) (u : ℕ) :
    walkpgdir (d.setPte v x) u = if u = v then some x else walkpgdir d u := by
  unfold walkpgdir at hw ⊢
  rw [Option.isSome_map] at hw
  obtain ⟨t, ht⟩ := Option.isSome_iff_exists.mp hw
  rw [PageDir.setPte, ht]
  change (Function.update d.tab _ _ _).map _ = _
  by_cases hq : u / NPDENTRIES = v / NPDENTRIES
  · rw [hq, Function.update_self, ht, Option.map_some, Option.map_some]
    change some (Function.update t.pte _ x _) = _
    by_cases huv : u = v
    · rw [if_pos huv, huv, Function.update_self]
    · rw [if_neg huv, Function.update_of_ne (divMod_ne huv hq)]
  · rw [Function.update_of_ne hq, if_neg]
    rintro rfl
    exact hq rfl

theorem PageDir.pte_setPte (hw : (walkpgdir d v).isSome) (x : Pte) (u : ℕ) :
    (d.setPte v x).pte u = if u = v then x else d.pte u := by
  rw [PageDir.pte, walkpgdir_setPte hw]
  split_ifs <;> rfl

theorem isSome_setPte (hw : (walkpgdir d v).isSome) (x : Pte) (u : ℕ) :
    (walkpgdir (d.setPte v x) u).isSome = (walkpgdir d u).isSome := by
  rw [walkpgdir_setPte hw]
  split_ifs with huv
  · rw [huv, hw]
    rfl
  · rfl

theorem PageDir.setPte_setPte (d : PageDir) (v : ℕ) (x y : Pte) :
    (d.setPte v x).setPte v y = d.setPte v y := by
  unfold PageDir.setPte
  cases ht : d.tab (v / NPDENTRIES) with
  | none =>
    change (match d.tab (v / NPDENTRIES) with
      | none => d
      | some t => _) = d
    rw [ht]
  | some t =>
    change (match Function.update d.tab _ _ _ with
      | none => _
      | some t => _) = _
    rw [Function.update_self]
    simp only [Function.update_idem]

/-- An empty table maps nothing, as no table does. -/
theorem PageDir.pte_addTab (ht : d.tab (v / NPDENTRIES) = none) (f : Frame) (u : ℕ) :
    (d.addTab (v / NPDENTRIES) f).pte u = d.pte u := by
  unfold PageDir.pte walkpgdir
  change ((Function.update d.tab _ _ _).map _).getD _ = _
  by_cases hq : u / NPDENTRIES = v / NPDENTRIES
  · rw [hq, ht, Function.update_self]
    rfl
  · rw [Function.update_of_ne hq]

theorem isSome_addTab (d : PageDir) (v : ℕ) (f : Frame) :
    (walkpgdir (d.addTab (v / NPDENTRIES) f) v).isSome := by
  change ((Function.update d.tab _ _ _).map _).isSome = true
  rw [Function.update_self]
  rfl

/-! ## The books of a directory -/

def ownedTab : Option Table → Frame → ℕ
  | none => 0
  | some t => Pi.single t.frame 1

/-- The page that a present entry maps. -/
def Pte.ref (x : Pte) : Frame → ℕ := if x.present then Pi.single x.addr 1 else 0

/-- The page that a present entry maps writable. -/
def Pte.write (x : Pte) : Frame → ℕ := if x.present && x.writable then Pi.single x.addr 1 else 0

/-- The pages of the directory and of its tables. -/
def owned (d : PageDir) : Frame → ℕ :=
  Pi.single d.frame 1 + ∑ i ∈ Finset.range NPDENTRIES, ownedTab (d.tab i)

/-- How often the present entries for user memory map each page. -/
def refs (d : PageDir) : Frame → ℕ := ∑ v ∈ Finset.range UPAGES, (d.pte v).ref

/-- How often they map each page writable. -/
def writes (d : PageDir) : Frame → ℕ := ∑ v ∈ Finset.range UPAGES, (d.pte v).write

theorem Pte.ref_of_present (h : x.present = true) : x.ref = Pi.single x.addr 1 := by
  rw [Pte.ref, if_pos h]

theorem Pte.ref_of_not_present (h : x.present = false) : x.ref = 0 := by
  rw [Pte.ref, h]
  rfl

theorem Pte.write_of_writable (hp : x.present = true) (hw : x.writable = true) :
    x.write = Pi.single x.addr 1 := by
  rw [Pte.write, hp, hw]
  rfl

theorem Pte.write_of_not_writable (h : x.writable = false) : x.write = 0 := by
  rw [Pte.write, h, Bool.and_false]
  rfl

theorem Pte.write_of_not_present (h : x.present = false) : x.write = 0 := by
  rw [Pte.write, h]
  rfl

theorem Pte.write_le_ref (x : Pte) (f : Frame) : x.write f ≤ x.ref f := by
  unfold Pte.write Pte.ref
  cases x.present <;> cases x.writable <;> simp

theorem writes_le_refs (d : PageDir) (f : Frame) : writes d f ≤ refs d f := by
  rw [writes, refs, Finset.sum_apply, Finset.sum_apply]
  exact Finset.sum_le_sum fun v _ => (d.pte v).write_le_ref f

theorem refs_congr (h : ∀ v < UPAGES, d'.pte v = d.pte v) : refs d' = refs d :=
  Finset.sum_congr rfl fun v hv => by rw [h v (Finset.mem_range.mp hv)]

theorem writes_congr (h : ∀ v < UPAGES, d'.pte v = d.pte v) : writes d' = writes d :=
  Finset.sum_congr rfl fun v hv => by rw [h v (Finset.mem_range.mp hv)]

theorem refs_eq_zero (h : ∀ v < UPAGES, (d.pte v).present = false) : refs d = 0 :=
  Finset.sum_eq_zero fun v hv => Pte.ref_of_not_present (h v (Finset.mem_range.mp hv))

theorem writes_eq_zero (h : ∀ v < UPAGES, (d.pte v).present = false) : writes d = 0 :=
  Finset.sum_eq_zero fun v hv => Pte.write_of_not_present (h v (Finset.mem_range.mp hv))

theorem refs_pos (hv : v < UPAGES) (hp : (d.pte v).present = true) :
    0 < refs d (d.pte v).addr := by
  rw [refs, Finset.sum_apply]
  refine lt_of_lt_of_le ?_ (Finset.single_le_sum (f := fun v => (d.pte v).ref _)
    (fun _ _ => Nat.zero_le _) (Finset.mem_range.mpr hv))
  simp [Pte.ref_of_present hp]

theorem writes_pos (hv : v < UPAGES) (hp : (d.pte v).present = true)
    (hw : (d.pte v).writable = true) : 0 < writes d (d.pte v).addr := by
  rw [writes, Finset.sum_apply]
  refine lt_of_lt_of_le ?_ (Finset.single_le_sum (f := fun v => (d.pte v).write _)
    (fun _ _ => Nat.zero_le _) (Finset.mem_range.mpr hv))
  simp [Pte.write_of_writable hp hw]

theorem two_le_refs (hu : u < UPAGES) (hv : v < UPAGES) (huv : u ≠ v)
    (hpu : (d.pte u).present = true) (hpv : (d.pte v).present = true)
    (he : (d.pte u).addr = (d.pte v).addr) : 2 ≤ refs d (d.pte v).addr := by
  have hsub : ({u, v} : Finset ℕ) ⊆ Finset.range UPAGES := by
    intro w hw
    rcases Finset.mem_insert.mp hw with rfl | hw
    · exact Finset.mem_range.mpr hu
    · rw [Finset.mem_singleton.mp hw]
      exact Finset.mem_range.mpr hv
  have hle := Finset.sum_le_sum_of_subset (f := fun w => (d.pte w).ref (d.pte v).addr) hsub
  rw [Finset.sum_pair huv, Pte.ref_of_present hpu, Pte.ref_of_present hpv, he] at hle
  rw [refs, Finset.sum_apply]
  simpa using hle

theorem exists_of_refs_pos (h : 0 < refs d f) :
    ∃ v < UPAGES, (d.pte v).present = true ∧ (d.pte v).addr = f := by
  rw [refs, Finset.sum_apply] at h
  obtain ⟨v, hv, hpos⟩ := Finset.exists_ne_zero_of_sum_ne_zero (Nat.ne_of_gt h)
  refine ⟨v, Finset.mem_range.mp hv, ?_⟩
  unfold Pte.ref at hpos
  split_ifs at hpos with hp
  · refine ⟨hp, ?_⟩
    by_contra hne
    exact hpos (Pi.single_eq_of_ne (Ne.symm hne) _)
  · exact absurd rfl hpos

theorem exists_of_writes_pos (h : 0 < writes d f) :
    ∃ v < UPAGES, (d.pte v).present = true ∧ (d.pte v).writable = true ∧ (d.pte v).addr = f := by
  rw [writes, Finset.sum_apply] at h
  obtain ⟨v, hv, hpos⟩ := Finset.exists_ne_zero_of_sum_ne_zero (Nat.ne_of_gt h)
  refine ⟨v, Finset.mem_range.mp hv, ?_⟩
  unfold Pte.write at hpos
  split_ifs at hpos with hp
  · rw [Bool.and_eq_true] at hp
    refine ⟨hp.1, hp.2, ?_⟩
    by_contra hne
    exact hpos (Pi.single_eq_of_ne (Ne.symm hne) _)
  · exact absurd rfl hpos

theorem refs_setPte (hv : v < UPAGES) (hw : (walkpgdir d v).isSome) (x : Pte) :
    refs (d.setPte v x) + (d.pte v).ref = refs d + x.ref := by
  have h := sum_add_eq_of_eq_off (f := fun u => ((d.setPte v x).pte u).ref)
    (g := fun u => (d.pte u).ref) (Finset.mem_range.mpr hv) fun u _ huv => by
      rw [PageDir.pte_setPte hw, if_neg huv]
  rwa [PageDir.pte_setPte hw, if_pos rfl] at h

theorem writes_setPte (hv : v < UPAGES) (hw : (walkpgdir d v).isSome) (x : Pte) :
    writes (d.setPte v x) + (d.pte v).write = writes d + x.write := by
  have h := sum_add_eq_of_eq_off (f := fun u => ((d.setPte v x).pte u).write)
    (g := fun u => (d.pte u).write) (Finset.mem_range.mpr hv) fun u _ huv => by
      rw [PageDir.pte_setPte hw, if_neg huv]
  rwa [PageDir.pte_setPte hw, if_pos rfl] at h

theorem frame_setPte (d : PageDir) (v : ℕ) (x : Pte) : (d.setPte v x).frame = d.frame := by
  unfold PageDir.setPte
  cases d.tab (v / NPDENTRIES) <;> rfl

theorem ownedTab_setPte (d : PageDir) (v : ℕ) (x : Pte) (i : ℕ) :
    ownedTab ((d.setPte v x).tab i) = ownedTab (d.tab i) := by
  unfold PageDir.setPte
  cases ht : d.tab (v / NPDENTRIES) with
  | none => rfl
  | some t =>
    change ownedTab (Function.update d.tab _ _ i) = _
    by_cases hi : i = v / NPDENTRIES
    · rw [hi, Function.update_self, ht]
      rfl
    · rw [Function.update_of_ne hi]

theorem owned_setPte (d : PageDir) (v : ℕ) (x : Pte) : owned (d.setPte v x) = owned d := by
  rw [owned, owned, frame_setPte, Finset.sum_congr rfl fun i _ => ownedTab_setPte d v x i]

theorem owned_addTab {i : ℕ} (hi : i < NPDENTRIES) (ht : d.tab i = none) (f : Frame) :
    owned (d.addTab i f) = owned d + Pi.single f 1 := by
  have hself : ownedTab ((d.addTab i f).tab i) = Pi.single f 1 := by
    change ownedTab (Function.update d.tab i _ i) = _
    rw [Function.update_self]
    rfl
  have hsum := sum_add_eq_of_eq_off (f := fun j => ownedTab ((d.addTab i f).tab j))
    (g := fun j => ownedTab (d.tab j)) (Finset.mem_range.mpr hi) fun j _ hj =>
      congrArg ownedTab (Function.update_of_ne hj ..)
  have hframe : (d.addTab i f).frame = d.frame := rfl
  have hnone : ownedTab none = 0 := rfl
  rw [hself, ht, hnone, add_zero] at hsum
  rw [owned, owned, hframe, add_assoc, hsum]

theorem owned_empty (f : Frame) : owned (PageDir.empty f) = Pi.single f 1 := by
  have hsum : ∑ i ∈ Finset.range NPDENTRIES, ownedTab ((PageDir.empty f).tab i) = 0 :=
    Finset.sum_eq_zero fun i _ => rfl
  rw [owned, hsum, add_zero]
  rfl

end Xv6.Vm
