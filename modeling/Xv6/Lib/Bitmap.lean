import Xv6.Lib.Bytes

/-!
# A free map and the pointers that it accounts for

A store of `size` blocks, the first `nmeta` of which are reserved.  Each of the others is free, or
is held by one pointer.  The pointers are indexed by an arbitrary type; a pointer with the value
zero points nowhere.  `Exact` says that the free map agrees with the pointers: a block is marked
as in use when it is reserved or some pointer holds it, and no two pointers hold the same block.

Allocating (`Exact.alloc`) and freeing (`Exact.free`) keep it so, and a block that a pointer holds
is marked as in use (`Exact.used_of_ptr`).
-/

namespace Xv6.Lib

variable {ι : Type*}

/-- The map `used` is exact for the pointers `ptr`. -/
structure Exact (size nmeta : ℕ) (used : ℕ → Bool) (ptr : ι → ℕ) : Prop where
  /-- block zero is reserved -/
  reserved : 0 < nmeta
  /-- no block is held twice -/
  inj : ∀ p q, ptr p ≠ 0 → ptr p = ptr q → p = q
  /-- a pointer holds a block that is not reserved -/
  range : ∀ p, ptr p ≠ 0 → nmeta ≤ ptr p ∧ ptr p < size
  /-- the blocks in use are the reserved ones and those that are held -/
  used_iff : ∀ b, b < size → (used b = true ↔ b < nmeta ∨ ∃ p, ptr p ≠ 0 ∧ ptr p = b)

namespace Exact

variable {size nmeta b : ℕ} {used : ℕ → Bool} {ptr : ι → ℕ} {p : ι}
  (h : Exact size nmeta used ptr)

include h

theorem congr {ptr' : ι → ℕ} {used' : ℕ → Bool}
    (hused : ∀ b, b < size → used' b = used b) (hptr : ∀ p, ptr' p = ptr p) :
    Exact size nmeta used' ptr' := by
  obtain rfl : ptr' = ptr := funext hptr
  exact ⟨h.reserved, h.inj, h.range, fun b hb => by rw [hused b hb, h.used_iff b hb]⟩

theorem used_of_ptr (hp : ptr p ≠ 0) : used (ptr p) = true :=
  (h.used_iff _ (h.range p hp).2).mpr (Or.inr ⟨p, hp, rfl⟩)

theorem used_of_lt (hs : b < size) (hb : b < nmeta) : used b = true :=
  (h.used_iff b hs).mpr (Or.inl hb)

theorem nmeta_le (hs : b < size) (hb : used b = false) : nmeta ≤ b := by
  by_contra hlt
  rw [h.used_of_lt hs (not_le.mp hlt)] at hb
  cases hb

theorem ne_zero (hs : b < size) (hb : used b = false) : b ≠ 0 :=
  Nat.pos_iff_ne_zero.mp (lt_of_lt_of_le h.reserved (h.nmeta_le hs hb))

theorem ptr_ne (hb : used b = false) (hp : ptr p ≠ 0) : ptr p ≠ b := by
  rintro rfl
  rw [h.used_of_ptr hp] at hb
  cases hb

variable [DecidableEq ι]

/-- A pointer that points nowhere takes a block that is not in use. -/
theorem alloc (hp : ptr p = 0) (hs : b < size) (hb : used b = false) :
    Exact size nmeta (fun b' => used b' || decide (b' = b)) (upd ptr p b) := by
  have hfree : ∀ q, q ≠ p → ptr q ≠ 0 → ptr q ≠ b := fun q _ hq => h.ptr_ne hb hq
  refine ⟨h.reserved, ?_, ?_, ?_⟩
  · intro q r hq hqr
    by_cases hqp : q = p
    · by_cases hrp : r = p
      · rw [hqp, hrp]
      · subst hqp
        rw [upd_self] at hq hqr
        rw [upd_of_ne hrp] at hqr
        exact absurd hqr.symm (hfree r hrp (by rw [← hqr]; exact hq))
    · rw [upd_of_ne hqp] at hq hqr
      by_cases hrp : r = p
      · subst hrp
        rw [upd_self] at hqr
        exact absurd hqr (hfree q hqp hq)
      · rw [upd_of_ne hrp] at hqr
        exact h.inj q r hq hqr
  · intro q hq
    by_cases hqp : q = p
    · rw [hqp, upd_self]
      exact ⟨h.nmeta_le hs hb, hs⟩
    · rw [upd_of_ne hqp] at hq ⊢
      exact h.range q hq
  · intro b' hb'
    rw [Bool.or_eq_true, decide_eq_true_iff, h.used_iff b' hb']
    constructor
    · rintro ((hm | ⟨q, hq, rfl⟩) | rfl)
      · exact Or.inl hm
      · have hqp : q ≠ p := by
          rintro rfl
          exact hq hp
        exact Or.inr ⟨q, by rwa [upd_of_ne hqp], upd_of_ne hqp⟩
      · exact Or.inr ⟨p, by rw [upd_self]; exact h.ne_zero hs hb, upd_self⟩
    · rintro (hm | ⟨q, hq, rfl⟩)
      · exact Or.inl (Or.inl hm)
      · by_cases hqp : q = p
        · exact Or.inr (by rw [hqp, upd_self])
        · rw [upd_of_ne hqp] at hq ⊢
          exact Or.inl (Or.inr ⟨q, hq, rfl⟩)

/-- A pointer lets go of its block, which is free after that. -/
theorem free (hp : ptr p ≠ 0) :
    Exact size nmeta (fun b' => used b' && !decide (b' = ptr p)) (upd ptr p 0) := by
  have hother : ∀ {q}, upd ptr p 0 q ≠ 0 → q ≠ p ∧ upd ptr p 0 q = ptr q := by
    intro q hq
    have hqp : q ≠ p := by
      rintro rfl
      exact hq upd_self
    exact ⟨hqp, upd_of_ne hqp⟩
  refine ⟨h.reserved, ?_, ?_, ?_⟩
  · intro q r hq hqr
    have hr : upd ptr p 0 r ≠ 0 := by rwa [← hqr]
    have heq := (hother hq).2
    rw [heq, (hother hr).2] at hqr
    rw [heq] at hq
    exact h.inj q r hq hqr
  · intro q hq
    have heq := (hother hq).2
    rw [heq] at hq ⊢
    exact h.range q hq
  · intro b hb
    rw [Bool.and_eq_true, Bool.not_eq_true', decide_eq_false_iff_not, h.used_iff b hb]
    constructor
    · rintro ⟨hm | ⟨q, hq, rfl⟩, hne⟩
      · exact Or.inl hm
      · have hqp : q ≠ p := by
          rintro rfl
          exact hne rfl
        exact Or.inr ⟨q, by rwa [upd_of_ne hqp], upd_of_ne hqp⟩
    · rintro (hm | ⟨q, hq, rfl⟩)
      · have hrange := (h.range p hp).1
        exact ⟨Or.inl hm, fun hbp => by omega⟩
      · obtain ⟨hqp, heq⟩ := hother hq
        rw [heq] at hq ⊢
        exact ⟨Or.inr ⟨q, hq, rfl⟩, fun hbp => hqp (h.inj q p hq hbp)⟩

end Exact

end Xv6.Lib
