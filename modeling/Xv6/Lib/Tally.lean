import Mathlib.Algebra.BigOperators.Fin
import Mathlib.Algebra.Order.BigOperators.Group.Finset
import Mathlib.Tactic.Abel
import Xv6.Lib.Bytes

/-!
# Tallies over small tables

A few facts behind every "the counter equals the number of entries" invariant.

* `replaceFirst a b l`: overwrite the first entry `a` of a table by `b`, if there is one, with
  `count_replaceFirst` for what this does to the number of entries of each kind.
* `set_take_append_replicate`: a table that is copied entry by entry.
* `sum_count_eq_countP`: the entries of some kind, counted by what they are.
* `sum_eq_add_of_eq_off`: a sum over a finite index type when one summand changes, and
  `sum_eq_of_move` when two of them change and cancel.
* `sum_add_eq_of_eq_off`: the same over a finite set, for sums that cannot be subtracted, and
  `sum_upd` for a table with one entry replaced.
* `eq_of_sum_le_one`: mutual exclusion from a sum.
-/

namespace Xv6.Lib

/-! ## Overwriting the first entry -/

section ReplaceFirst

variable {α : Type*} [DecidableEq α] {a b : α} {l : List α}

/-- Overwrite the first entry `a` by `b`. -/
def replaceFirst (a b : α) : List α → Option (List α)
  | [] => none
  | x :: l => if x = a then some (b :: l) else (replaceFirst a b l).map (x :: ·)

theorem replaceFirst_eq_none_iff : replaceFirst a b l = none ↔ a ∉ l := by
  induction l with
  | nil => simp [replaceFirst]
  | cons x l ih =>
    rw [replaceFirst]
    split_ifs with hx
    · simp [hx]
    · rw [Option.map_eq_none_iff, ih, List.mem_cons, not_or]
      exact ⟨fun h => ⟨fun hh => hx hh.symm, h⟩, fun h => h.2⟩

theorem length_replaceFirst {l' : List α} (h : replaceFirst a b l = some l') :
    l'.length = l.length := by
  induction l generalizing l' with
  | nil => cases h
  | cons x l ih =>
    rw [replaceFirst] at h
    split_ifs at h
    · rw [← Option.some.inj h]
      rfl
    · obtain ⟨m, hm, rfl⟩ := Option.map_eq_some_iff.mp h
      rw [List.length_cons, List.length_cons, ih hm]

theorem count_replaceFirst {l' : List α} (h : replaceFirst a b l = some l') (i : α) :
    l'.count i + (if a = i then 1 else 0) = l.count i + (if b = i then 1 else 0) := by
  induction l generalizing l' with
  | nil => cases h
  | cons x l ih =>
    rw [replaceFirst] at h
    split_ifs at h with hx
    · rw [← Option.some.inj h, List.count_cons, List.count_cons, hx]
      simp only [beq_iff_eq]
      omega
    · obtain ⟨m, hm, rfl⟩ := Option.map_eq_some_iff.mp h
      have := ih hm
      rw [List.count_cons, List.count_cons]
      omega

theorem mem_of_replaceFirst {l' : List α} (h : replaceFirst a b l = some l') {i : α} (hi : i ∈ l') :
    i = b ∨ i ∈ l := by
  have hcount := count_replaceFirst h i
  have hpos := List.count_pos_iff.mpr hi
  by_cases hb : b = i
  · exact Or.inl hb.symm
  · rw [if_neg hb] at hcount
    exact Or.inr (List.count_pos_iff.mp (by omega))

end ReplaceFirst

/-! ## Copying a table entry by entry -/

section Copy

variable {α : Type*} {a : α} {l : List α} {i : ℕ}

theorem take_succ_append_replicate (hi : i < l.length) :
    l.take (i + 1) ++ List.replicate (l.length - (i + 1)) a =
      l.take i ++ l.getD i a :: List.replicate (l.length - (i + 1)) a := by
  rw [List.take_add_one, List.getD_eq_getElem?_getD, List.getElem?_eq_getElem hi,
    List.append_assoc]
  rfl

theorem set_take_append_replicate (hi : i < l.length) :
    (l.take i ++ List.replicate (l.length - i) a).set i (l.getD i a) =
      l.take (i + 1) ++ List.replicate (l.length - (i + 1)) a := by
  have hrep : List.replicate (l.length - i) a = a :: List.replicate (l.length - (i + 1)) a := by
    rw [← List.replicate_succ]
    congr 1
    omega
  have hlen : (l.take i).length = i := by
    rw [List.length_take]
    omega
  rw [take_succ_append_replicate hi, hrep, List.set_append_right _ _ (by omega), hlen,
    Nat.sub_self, List.set_cons_zero]

theorem mem_of_getD_ne (h : l.getD i a ≠ a) : l.getD i a ∈ l := by
  by_cases hi : i < l.length
  · rw [List.getD_eq_getElem _ _ hi]
    exact List.getElem_mem hi
  · exact absurd (List.getD_eq_default _ _ (not_lt.mp hi)) h

/-- Entry `i` is the one that stands in the copy already. -/
theorem take_append_replicate_of_getD_eq (hi : i < l.length) (ha : l.getD i a = a) :
    l.take i ++ List.replicate (l.length - i) a =
      l.take (i + 1) ++ List.replicate (l.length - (i + 1)) a := by
  rw [take_succ_append_replicate hi, ha, ← List.replicate_succ]
  congr 2
  omega

end Copy

/-! ## Counting by kind -/

/-- The entries of a list that are `f p` for some `p`, counted for each `p`. -/
theorem sum_count_eq_countP {ι α : Type*} [Fintype ι] [DecidableEq ι] [DecidableEq α] {f : ι → α}
    [∀ x, Decidable (∃ p, x = f p)] (hf : Function.Injective f) (l : List α) :
    ∑ p, l.count (f p) = l.countP fun x => decide (∃ p, x = f p) := by
  induction l with
  | nil => simp
  | cons x l ih =>
    simp only [List.count_cons, List.countP_cons, Finset.sum_add_distrib, ih, beq_iff_eq,
      decide_eq_true_eq]
    congr 1
    by_cases hx : ∃ p, x = f p
    · obtain ⟨p, rfl⟩ := hx
      simp [hf.eq_iff]
    · rw [if_neg hx]
      exact Finset.sum_eq_zero fun p _ => if_neg fun h => hx ⟨p, h⟩

/-! ## Sums in which few summands change -/

section Sums

variable {ι : Type*} [Fintype ι] [DecidableEq ι] {f g : ι → ℤ} {p q : ι}

theorem sum_eq_add_of_eq_off (h : ∀ r, r ≠ p → f r = g r) :
    ∑ r, f r = ∑ r, g r + (f p - g p) := by
  have hf := Finset.add_sum_erase Finset.univ f (Finset.mem_univ p)
  have hg := Finset.add_sum_erase Finset.univ g (Finset.mem_univ p)
  have hrest : ∑ r ∈ Finset.univ.erase p, f r = ∑ r ∈ Finset.univ.erase p, g r :=
    Finset.sum_congr rfl fun r hr => h r (Finset.ne_of_mem_erase hr)
  omega

/-- What one summand loses another one gains. -/
theorem sum_eq_of_move (hpq : p ≠ q) (h : ∀ r, r ≠ p → r ≠ q → f r = g r)
    (hmove : f p + f q = g p + g q) : ∑ r, f r = ∑ r, g r := by
  have h1 := sum_eq_add_of_eq_off (f := f) (g := Function.update g q (f q)) (p := p) fun r hr => by
    by_cases hrq : r = q
    · rw [hrq, Function.update_self]
    · rw [Function.update_of_ne hrq]
      exact h r hr hrq
  have h2 := sum_eq_add_of_eq_off (f := Function.update g q (f q)) (g := g) (p := q) fun r hr =>
    Function.update_of_ne hr _ _
  rw [Function.update_of_ne hpq] at h1
  rw [Function.update_self] at h2
  omega

/-- At most one summand of a sum that is at most 1 is positive, if none is negative. -/
theorem eq_of_sum_le_one (hf : ∀ r, 0 ≤ f r) (hsum : ∑ r, f r ≤ 1) (hp : 0 < f p)
    (hq : 0 < f q) : p = q := by
  by_contra hpq
  have h1 := Finset.add_sum_erase Finset.univ f (Finset.mem_univ p)
  have h2 := Finset.add_sum_erase (Finset.univ.erase p) f
    (Finset.mem_erase.mpr ⟨Ne.symm hpq, Finset.mem_univ q⟩)
  have h3 : 0 ≤ ∑ r ∈ (Finset.univ.erase p).erase q, f r := Finset.sum_nonneg fun r _ => hf r
  omega

end Sums

/-- One summand of a sum changes: what is lost on the one side is added on the other. -/
theorem sum_add_eq_of_eq_off {ι M : Type*} [DecidableEq ι] [AddCommMonoid M] {s : Finset ι}
    {f g : ι → M} {a : ι} (ha : a ∈ s) (h : ∀ b ∈ s, b ≠ a → f b = g b) :
    ∑ b ∈ s, f b + g a = ∑ b ∈ s, g b + f a := by
  have hrest : ∑ b ∈ s.erase a, f b = ∑ b ∈ s.erase a, g b :=
    Finset.sum_congr rfl fun b hb => h b (Finset.mem_of_mem_erase hb) (Finset.ne_of_mem_erase hb)
  rw [← Finset.add_sum_erase s f ha, ← Finset.add_sum_erase s g ha, hrest]
  abel

theorem sum_upd {ι β M : Type*} [DecidableEq ι] [Fintype ι] [AddCommMonoid M] (F : β → M)
    (t : ι → β) (a : ι) (b : β) : ∑ x, F (upd t a b x) + F (t a) = ∑ x, F (t x) + F b := by
  have h := sum_add_eq_of_eq_off (s := Finset.univ) (f := fun x => F (upd t a b x))
    (g := fun x => F (t x)) (Finset.mem_univ a) fun x _ hx => congrArg F (upd_of_ne hx)
  rwa [upd_self] at h

/-- One summand of a sum changes, and no other grows. -/
theorem sum_add_le_of_le_off {ι : Type*} [DecidableEq ι] [Fintype ι] {f g : ι → ℕ} (a : ι)
    (h : ∀ b, b ≠ a → f b ≤ g b) : ∑ b, f b + g a ≤ ∑ b, g b + f a := by
  have hrest : ∑ b ∈ Finset.univ.erase a, f b ≤ ∑ b ∈ Finset.univ.erase a, g b :=
    Finset.sum_le_sum fun b hb => h b (Finset.ne_of_mem_erase hb)
  rw [← Finset.add_sum_erase _ f (Finset.mem_univ a),
    ← Finset.add_sum_erase _ g (Finset.mem_univ a)]
  omega

end Xv6.Lib
