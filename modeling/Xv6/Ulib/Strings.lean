import Mathlib.Data.List.Basic

/-!
# Strings of the user library

`strchr` of `user/ulib.c`.  A C string is the list of its bytes, and what follows the end of the
list is the terminator; a zero in the list ends the string earlier.
-/

namespace Xv6.Ulib

/-- The offset of the first `c` in the string `s`. -/
def strchr : List UInt8 → UInt8 → Option ℕ
  | [], _ => none
  | d :: s, c => if d = 0 then none else if d = c then some 0 else (strchr s c).map (· + 1)

section Strchr

variable {s : List UInt8} {c : UInt8} {k : ℕ}

theorem strchr_eq_none_iff (h : 0 ∉ s) : strchr s c = none ↔ c ∉ s := by
  induction s with
  | nil => exact iff_of_true rfl nofun
  | cons d s ih =>
    rw [List.mem_cons, not_or] at h
    rw [strchr, if_neg (Ne.symm h.1), List.mem_cons, not_or]
    by_cases hd : d = c
    · rw [if_pos hd]
      exact iff_of_false nofun fun hn => hn.1 hd.symm
    · rw [if_neg hd, Option.map_eq_none_iff, ih h.2]
      exact ⟨fun hs => ⟨Ne.symm hd, hs⟩, And.right⟩

theorem exists_of_strchr_eq_some (h : strchr s c = some k) :
    ∃ u v, s = u ++ c :: v ∧ c ∉ u ∧ u.length = k := by
  induction s generalizing k with
  | nil => cases h
  | cons d s ih =>
    rw [strchr] at h
    split_ifs at h with hz hd
    · cases h
      exact ⟨[], s, by rw [hd, List.nil_append], nofun, rfl⟩
    · obtain ⟨j, hj, rfl⟩ := Option.map_eq_some_iff.mp h
      obtain ⟨u, v, rfl, hu, rfl⟩ := ih hj
      refine ⟨d :: u, v, rfl, fun hmem => ?_, rfl⟩
      rcases List.mem_cons.mp hmem with rfl | hmem
      · exact hd rfl
      · exact hu hmem

end Strchr

end Xv6.Ulib
