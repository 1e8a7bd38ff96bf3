import Xv6.Lib.Ledger
import Xv6.Param

/-!
# The page allocator

`kalloc.c`: a free list of physical pages, and for each page an `unsigned char` with the number of
its users.  Pages are named by their number (`V2P(v) / PGSIZE`).  What a page holds is here only for
pages of user memory; page tables and pipes, which the kernel keeps in such pages, are data of their
own.

`Kmem.Ok` is the ledger of the allocator: kernel owners, present user mappings, and those of them
that are writable.  Every function has one rule, for any books around it.
-/

namespace Xv6.Vm

open Lib

/-- The number of a physical page. -/
abbrev Frame := ℕ

abbrev Page := ℕ → UInt8

def PGSIZE : ℕ := 4096

def KERNBASE : ℕ := 0x80000000

/-- The number of the first page above user memory. -/
def UPAGES : ℕ := KERNBASE / PGSIZE

/-- The number of pages of the whole address space. -/
def VPAGES : ℕ := 2 ^ 20

/-- An entry of `kmap`, in pages. -/
structure KMap where
  virt : ℕ
  phys : Frame
  pages : ℕ
  writable : Bool

/-- What the linker and the machine decide: the first page after the kernel, the number of pages,
and the kernel's mappings. -/
structure Layout where
  first : ℕ
  numpages : ℕ
  kmap : List KMap
  first_pos : 0 < first
  first_le : first ≤ numpages
  kmap_kern : ∀ e ∈ kmap, UPAGES ≤ e.virt ∧ e.virt + e.pages ≤ VPAGES
  kmap_sorted : kmap.Pairwise fun e e' => e.virt + e.pages ≤ e'.virt

/-- The pages that are handed to the allocator. -/
def Layout.Dom (L : Layout) (f : Frame) : Prop := L.first ≤ f ∧ f < L.numpages

instance (L : Layout) (f : Frame) : Decidable (L.Dom f) := inferInstanceAs (Decidable (_ ∧ _))

/-- `kmem`, and the contents of the pages. -/
structure Kmem where
  freelist : List Frame
  count : Frame → UInt8
  mem : Frame → Page

/-- Allocate one page of physical memory. -/
def kalloc (k : Kmem) : Option (Frame × Kmem) :=
  match k.freelist with
  | [] => none
  | f :: l => some (f, { k with freelist := l, count := Function.update k.count f 1 })

/-- Free the page `f`, filling it with junk.  For a page that is not the allocator's this panics. -/
def kfree (L : Layout) (f : Frame) (k : Kmem) : Option Kmem :=
  if L.Dom f then
    some {
      freelist := f :: k.freelist
      count := Function.update k.count f 0
      mem := Function.update k.mem f fun _ => 1 }
  else none

/-- Increase the reference count for the page. -/
def incref (f : Frame) (k : Kmem) : Kmem :=
  { k with count := Function.update k.count f (k.count f + 1) }

/-- Decrease the reference count for the page. -/
def decref (f : Frame) (k : Kmem) : Kmem :=
  { k with count := Function.update k.count f (k.count f - 1) }

def refcount (f : Frame) (k : Kmem) : ℕ := (k.count f).toNat

def Kmem.store (k : Kmem) (f : Frame) (x : Page) : Kmem :=
  { k with mem := Function.update k.mem f x }

/-! ## The ledger -/

/-- The allocator agrees with the books: kernel owners `K`, user mappings `U`, writable ones `W`. -/
def Kmem.Ok (dom : Frame → Prop) (k : Kmem) (K U W : Frame → ℕ) : Prop :=
  Ledger dom k.freelist (fun f => refcount f k) K U W

variable {L : Layout} {dom : Frame → Prop} {k k' : Kmem} {K U W W' : Frame → ℕ} {f : Frame}

theorem refcount_update (k : Kmem) (f : Frame) (x : UInt8) :
    (fun g => (Function.update k.count f x g).toNat) =
      Function.update (fun g => refcount g k) f x.toNat := by
  funext g
  by_cases hg : g = f
  · rw [hg, Function.update_self, Function.update_self]
  · rw [Function.update_of_ne hg, Function.update_of_ne hg]
    rfl

theorem Kmem.Ok.store (h : k.Ok dom K U W) (f : Frame) (x : Page) : (k.store f x).Ok dom K U W := h

theorem kalloc_spec (h : k.Ok dom K U W) (hs : kalloc k = some (f, k')) :
    k'.Ok dom (K + Pi.single f 1) U W ∧ k'.mem = k.mem ∧ K f = 0 ∧ U f = 0 := by
  unfold kalloc at hs
  split at hs
  · cases hs
  · rename_i g l hl
    cases hs
    unfold Kmem.Ok at h ⊢
    rw [hl] at h
    refine ⟨?_, rfl, h.of_mem_free List.mem_cons_self⟩
    have := h.alloc
    rwa [← UInt8.toNat_one, ← refcount_update] at this

theorem kfree_eq_some (hs : kfree L f k = some k') : L.Dom f ∧ k' =
    { freelist := f :: k.freelist
      count := Function.update k.count f 0
      mem := Function.update k.mem f fun _ => 1 } := by
  unfold kfree at hs
  split_ifs at hs with hd
  exact ⟨hd, (Option.some.inj hs).symm⟩

theorem kfree_mem (hs : kfree L f k = some k') {g : Frame} (hg : g ≠ f) : k'.mem g = k.mem g := by
  obtain ⟨-, rfl⟩ := kfree_eq_some hs
  exact Function.update_of_ne hg ..

theorem Layout.Dom.ne_zero (h : L.Dom f) : f ≠ 0 :=
  Nat.pos_iff_ne_zero.mp (lt_of_lt_of_le L.first_pos h.1)

theorem kfree_total (h : L.Dom f) (k : Kmem) : ∃ k', kfree L f k = some k' := by
  unfold kfree
  rw [if_pos h]
  exact ⟨_, rfl⟩

/-- The kernel frees a page of its own. -/
theorem kfree_spec (h : k.Ok dom (K + Pi.single f 1) U W) (hs : kfree L f k = some k') :
    k'.Ok dom K U W := by
  obtain ⟨-, rfl⟩ := kfree_eq_some hs
  have := Ledger.giveBack h
  rwa [← UInt8.toNat_zero, ← refcount_update] at this

/-- One more mapping of a page that nobody may write; the count must not be at its limit. -/
theorem incref_spec (h : k.Ok dom K U W) (hU : 0 < U f) (hW : W f = 0) (hlt : refcount f k < 255) :
    (incref f k).Ok dom K (U + Pi.single f 1) W := by
  have hone : (k.count f + 1).toNat = refcount f k + 1 := by
    unfold refcount at hlt ⊢
    rw [UInt8.toNat_add, UInt8.toNat_one]
    omega
  have := Ledger.share h hU hW
  rwa [← hone, ← refcount_update] at this

/-- What `deallocuvm` does with the page of a mapping. -/
def unref (L : Layout) (f : Frame) (k : Kmem) : Option Kmem :=
  if refcount f k = 1 then kfree L f k else some (decref f k)

theorem decref_spec (h : k.Ok dom K (U + Pi.single f 1) W) (hne : refcount f k ≠ 1)
    (hW : ∀ g, W' g ≤ W g) : (decref f k).Ok dom K U W' := by
  have hpos : 0 < refcount f k := by
    have hone := add_single_self U f
    have hd := Ledger.dom_of_pos h (Or.inr (Or.inr (show 0 < (U + Pi.single f 1 : Frame → ℕ) f by
      omega)))
    have := Ledger.count_eq h hd
    omega
  have hpred : (k.count f - 1).toNat = refcount f k - 1 := by
    unfold refcount at hpos ⊢
    rw [UInt8.toNat_sub_of_le]
    · rfl
    · rw [UInt8.le_iff_toNat_le]
      exact hpos
  have := Ledger.drop h hne hW
  rwa [← hpred, ← refcount_update] at this

/-- A mapping goes away, with its page if it was the only one. -/
theorem unref_spec (h : k.Ok dom K (U + Pi.single f 1) W) (hW : ∀ g, W' g ≤ W g)
    (hWf : W' f ≤ U f) (hs : unref L f k = some k') :
    k'.Ok dom K U W' ∧ ∀ g, 0 < U g → k'.mem g = k.mem g := by
  unfold unref at hs
  split_ifs at hs with hone
  · have hf : U f = 0 := by
      have h1 := add_single_self U f
      have hd := Ledger.dom_of_pos h (Or.inr (Or.inr (show 0 < (U + Pi.single f 1 : Frame → ℕ) f by
        omega)))
      have := Ledger.count_eq h hd
      omega
    refine ⟨?_, fun g hg => kfree_mem hs ?_⟩
    · obtain ⟨-, rfl⟩ := kfree_eq_some hs
      have := Ledger.dropLast h hone hW hWf
      rwa [← UInt8.toNat_zero, ← refcount_update] at this
    · rintro rfl
      omega
  · cases hs
    exact ⟨decref_spec h hone hW, fun g _ => rfl⟩

end Xv6.Vm
