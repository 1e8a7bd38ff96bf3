import Mathlib.Algebra.Group.Pi.Basic
import Mathlib.Algebra.GroupWithZero.Nat
import Mathlib.Algebra.Order.Group.Nat
import Mathlib.Data.List.Count

/-!
# Ledgers for reference-counted resources

A pool of resources `a : α` with a free list and a reference count for each of them.  A resource is
free, or it has one exclusive owner, or it is shared by those who hold references to it; some of the
references may come with the right to write.  The books are three functions: `K a` exclusive owners
of `a`, `U a` references to it, and `W a` references with the right to write.

`Ledger` says that the books are in order: every resource of the pool is in exactly one of the three
situations, its count is what the books say, and a writer is alone.  The rules below are the
entries that can be made, each with the operation on free list and counts that goes with it.  They
are stated for whole books, so what an entry does not mention is a frame: `K + Pi.single a 1` is any
book in which `a` has an owner.
-/

namespace Xv6.Lib

variable {α : Type*} [DecidableEq α]

/-- The books `K`, `U`, `W` are in order. -/
structure Ledger (dom : α → Prop) (free : List α) (count K U W : α → ℕ) : Prop where
  /-- A resource of the pool is free, owned or shared. -/
  cover : ∀ {a}, dom a → free.count a + K a + min (U a) 1 = 1
  /-- Its count is the number of owners and references. -/
  count_eq : ∀ {a}, dom a → count a = K a + U a
  /-- There are no books about anything else. -/
  outside : ∀ {a}, ¬ dom a → free.count a = 0 ∧ count a = 0 ∧ K a = 0 ∧ U a = 0
  le : ∀ a, W a ≤ U a
  excl : ∀ {a}, 0 < W a → U a = 1

variable {dom : α → Prop} {free : List α} {count K U W W' : α → ℕ} {a : α}

theorem add_single_self (K : α → ℕ) (a : α) : (K + Pi.single a 1 : α → ℕ) a = K a + 1 := by
  rw [Pi.add_apply, Pi.single_eq_same]

theorem pos_add_single (K : α → ℕ) (a : α) : 0 < (K + Pi.single a 1 : α → ℕ) a := by
  rw [add_single_self]
  exact Nat.succ_pos _

theorem add_single_of_ne (K : α → ℕ) {a b : α} (h : b ≠ a) :
    (K + Pi.single a 1 : α → ℕ) b = K b := by
  rw [Pi.add_apply, Pi.single_eq_of_ne h, add_zero]

/-- An entry changes the books at one resource only, and the rest of the books stay in order. -/
theorem Ledger.change {free' : List α} {count' K' U' : α → ℕ} (h : Ledger dom free count K U W)
    (hd : dom a)
    (hoff : ∀ b, b ≠ a → free'.count b = free.count b ∧ count' b = count b ∧ K' b = K b ∧
      U' b = U b ∧ W' b ≤ W b)
    (hcover : free'.count a + K' a + min (U' a) 1 = 1) (hcount : count' a = K' a + U' a)
    (hle : W' a ≤ U' a) (hexcl : 0 < W' a → U' a = 1) : Ledger dom free' count' K' U' W' := by
  constructor
  · intro b hb
    by_cases hba : b = a
    · rw [hba]
      exact hcover
    · obtain ⟨h1, -, h3, h4, -⟩ := hoff b hba
      rw [h1, h3, h4]
      exact h.cover hb
  · intro b hb
    by_cases hba : b = a
    · rw [hba]
      exact hcount
    · obtain ⟨-, h2, h3, h4, -⟩ := hoff b hba
      rw [h2, h3, h4]
      exact h.count_eq hb
  · intro b hb
    have hba : b ≠ a := by
      rintro rfl
      exact hb hd
    obtain ⟨h1, h2, h3, h4, -⟩ := hoff b hba
    rw [h1, h2, h3, h4]
    exact h.outside hb
  · intro b
    by_cases hba : b = a
    · rw [hba]
      exact hle
    · obtain ⟨-, -, -, h4, h5⟩ := hoff b hba
      rw [h4]
      exact h5.trans (h.le b)
  · intro b hb
    by_cases hba : b = a
    · rw [hba] at hb ⊢
      exact hexcl hb
    · obtain ⟨-, -, -, h4, h5⟩ := hoff b hba
      rw [h4]
      exact h.excl (lt_of_lt_of_le hb h5)

theorem Ledger.dom_of_pos (h : Ledger dom free count K U W)
    (ha : 0 < free.count a ∨ 0 < K a ∨ 0 < U a) : dom a := by
  by_contra hd
  obtain ⟨h1, -, h3, h4⟩ := h.outside hd
  omega

theorem Ledger.alloc (h : Ledger dom (a :: free) count K U W) :
    Ledger dom free (Function.update count a 1) (K + Pi.single a 1) U W := by
  have hd := h.dom_of_pos (a := a) (Or.inl (by rw [List.count_cons_self]; omega))
  have hcov := h.cover hd
  rw [List.count_cons_self] at hcov
  have hle := h.le a
  refine h.change hd (fun b hb => ⟨?_, ?_, ?_, rfl, le_rfl⟩) ?_ ?_ hle h.excl
  · rw [List.count_cons_of_ne (Ne.symm hb)]
  · exact Function.update_of_ne hb ..
  · exact add_single_of_ne K hb
  · rw [add_single_self]
    omega
  · rw [Function.update_self, add_single_self]
    omega

theorem Ledger.giveBack (h : Ledger dom free count (K + Pi.single a 1) U W) :
    Ledger dom (a :: free) (Function.update count a 0) K U W := by
  have hone := add_single_self K a
  have hd := h.dom_of_pos (a := a) (Or.inr (Or.inl (by omega)))
  have hcov := h.cover hd
  have hle := h.le a
  refine h.change hd (fun b hb => ⟨?_, ?_, ?_, rfl, le_rfl⟩) ?_ ?_ hle h.excl
  · rw [List.count_cons_of_ne (Ne.symm hb)]
  · exact Function.update_of_ne hb ..
  · exact (add_single_of_ne K hb).symm
  · rw [List.count_cons_self]
    omega
  · rw [Function.update_self]
    omega

/-- An owner becomes the only holder of a reference, perhaps with the right to write. -/
theorem Ledger.publish (h : Ledger dom free count (K + Pi.single a 1) U W)
    (hW : ∀ b, b ≠ a → W' b ≤ W b) (hWa : W' a ≤ 1) :
    Ledger dom free count K (U + Pi.single a 1) W' := by
  have hone := add_single_self K a
  have hone' := add_single_self U a
  have hd := h.dom_of_pos (a := a) (Or.inr (Or.inl (by omega)))
  have hcov := h.cover hd
  have hcnt := h.count_eq hd
  refine h.change hd (fun b hb => ⟨rfl, rfl, ?_, ?_, hW b hb⟩) ?_ ?_ ?_ ?_
  · exact (add_single_of_ne K hb).symm
  · exact add_single_of_ne U hb
  all_goals omega

/-- A resource that nobody may write gets one more reference. -/
theorem Ledger.share (h : Ledger dom free count K U W) (hU : 0 < U a) (hW : W a = 0) :
    Ledger dom free (Function.update count a (count a + 1)) K (U + Pi.single a 1) W := by
  have hone := add_single_self U a
  have hd := h.dom_of_pos (a := a) (Or.inr (Or.inr hU))
  have hcov := h.cover hd
  have hcnt := h.count_eq hd
  refine h.change hd (fun b hb => ⟨rfl, ?_, rfl, ?_, le_rfl⟩) ?_ ?_ ?_ ?_
  · exact Function.update_of_ne hb ..
  · exact add_single_of_ne U hb
  · omega
  · rw [Function.update_self]
    omega
  all_goals omega

theorem Ledger.drop (h : Ledger dom free count K (U + Pi.single a 1) W) (hcount : count a ≠ 1)
    (hW : ∀ b, W' b ≤ W b) :
    Ledger dom free (Function.update count a (count a - 1)) K U W' := by
  have hone := add_single_self U a
  have hd := h.dom_of_pos (a := a) (Or.inr (Or.inr (by omega)))
  have hcov := h.cover hd
  have hcnt := h.count_eq hd
  -- a writer would have been alone
  have hWa : W' a = 0 := by
    by_contra hne
    have := h.excl (lt_of_lt_of_le (Nat.pos_of_ne_zero hne) (hW a))
    omega
  refine h.change hd (fun b hb => ⟨rfl, ?_, rfl, ?_, hW b⟩) ?_ ?_ ?_ ?_
  · exact Function.update_of_ne hb ..
  · exact (add_single_of_ne U hb).symm
  · omega
  · rw [Function.update_self]
    omega
  all_goals omega

/-- The last reference is dropped, and the resource is free. -/
theorem Ledger.dropLast (h : Ledger dom free count K (U + Pi.single a 1) W) (hcount : count a = 1)
    (hW : ∀ b, W' b ≤ W b) (hWa : W' a ≤ U a) :
    Ledger dom (a :: free) (Function.update count a 0) K U W' := by
  have hone := add_single_self U a
  have hd := h.dom_of_pos (a := a) (Or.inr (Or.inr (by omega)))
  have hcov := h.cover hd
  have hcnt := h.count_eq hd
  refine h.change hd (fun b hb => ⟨?_, ?_, rfl, ?_, hW b⟩) ?_ ?_ hWa ?_
  · rw [List.count_cons_of_ne (Ne.symm hb)]
  · exact Function.update_of_ne hb ..
  · exact (add_single_of_ne U hb).symm
  · rw [List.count_cons_self]
    omega
  · rw [Function.update_self]
    omega
  · omega

variable (h : Ledger dom free count K U W)

include h

/-- The holder of the only reference gets the right to write. -/
theorem Ledger.grant (hU : 0 < U a) (hcount : count a ≤ 1)
    (hW : ∀ b, b ≠ a → W' b ≤ W b) (hWa : W' a ≤ 1) : Ledger dom free count K U W' := by
  have hd := h.dom_of_pos (a := a) (Or.inr (Or.inr hU))
  have hcov := h.cover hd
  have hcnt := h.count_eq hd
  refine h.change hd (fun b hb => ⟨rfl, rfl, rfl, rfl, hW b hb⟩) hcov hcnt ?_ ?_
  all_goals omega

theorem Ledger.revoke (hW : ∀ b, W' b ≤ W b) : Ledger dom free count K U W' :=
  ⟨h.cover, h.count_eq, h.outside, fun b => (hW b).trans (h.le b),
    fun hb => h.excl (lt_of_lt_of_le hb (hW _))⟩

theorem Ledger.not_both (hK : 0 < K a) : U a = 0 := by
  have := h.cover (h.dom_of_pos (Or.inr (Or.inl hK)))
  omega

theorem Ledger.of_mem_free (ha : a ∈ free) : K a = 0 ∧ U a = 0 := by
  have hpos := List.count_pos_iff.mpr ha
  have := h.cover (h.dom_of_pos (Or.inl hpos))
  omega

end Xv6.Lib
