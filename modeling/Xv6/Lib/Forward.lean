import Mathlib.Data.List.Nodup
import Xv6.Lib.Bytes

/-!
# Lists linked forward

A list whose links live in its nodes, with a pointer `head` to the first of them.  `Linked next head
xs` says that they spell `xs`.  To append a node, one goes along the places that hold a pointer,
first the head and then the links, to the first that holds null (`endOf`), and writes the node
there.
-/

namespace Xv6.Lib

variable {α : Type*}

/-- The pointer `head` and the links `next` spell the list. -/
def Linked (next : α → Option α) : Option α → List α → Prop
  | head, [] => head = none
  | head, x :: xs => head = some x ∧ Linked next (next x) xs

/-- What a place holds: `none` is the place of the head, `some x` is the link of the node `x`. -/
def held (next : α → Option α) (head : Option α) : Option α → Option α
  | none => head
  | some x => next x

/-- The first place from `pp` on that holds null, if it is met within `n` places. -/
def endOf (next : α → Option α) (head : Option α) : ℕ → Option α → Option (Option α)
  | 0, _ => none
  | n + 1, pp =>
    match held next head pp with
    | none => some pp
    | some x => endOf next head n (some x)

variable {next : α → Option α} {head : Option α} {xs : List α}

theorem Linked.head_eq (h : Linked next head xs) : head = xs.head? := by
  cases xs with
  | nil => exact h
  | cons x xs => exact h.1

/-- A list does not see the links of other nodes. -/
theorem Linked.congr {next' : α → Option α} (h : Linked next head xs)
    (hnext : ∀ x ∈ xs, next' x = next x) : Linked next' head xs := by
  induction xs generalizing head with
  | nil => exact h
  | cons x xs ih =>
    refine ⟨h.1, ?_⟩
    rw [hnext x List.mem_cons_self]
    exact ih h.2 fun y hy => hnext y (List.mem_cons_of_mem x hy)

/-- **The walk ends at the link of the last node**, or at the head of an empty list. -/
theorem endOf_eq {n : ℕ} (pp : Option α) (h : Linked next (held next head pp) xs)
    (hn : xs.length < n) : endOf next head n pp = some (xs.getLast?.or pp) := by
  induction xs generalizing n pp with
  | nil =>
    obtain ⟨m, rfl⟩ := Nat.exists_eq_succ_of_ne_zero hn.ne'
    rw [endOf, show held next head pp = none from h]
    rfl
  | cons x xs ih =>
    rw [List.length_cons] at hn
    obtain ⟨m, rfl⟩ := Nat.exists_eq_succ_of_ne_zero (Nat.ne_zero_of_lt hn)
    rw [endOf, h.1]
    dsimp only
    rw [ih (some x) h.2 (Nat.lt_of_succ_lt_succ hn), List.getLast?_cons]
    cases xs.getLast? <;> rfl

variable [DecidableEq α]

theorem Linked.concat {y z : α} (h : Linked next head xs) (hnodup : xs.Nodup) (hy : y ∉ xs)
    (hnull : next y = none) (hz : xs.getLast? = some z) :
    Linked (upd next z (some y)) head (xs ++ [y]) := by
  induction xs generalizing head with
  | nil => cases hz
  | cons x xs ih =>
    rw [List.nodup_cons] at hnodup
    have hyx : y ≠ x := fun hh => hy (hh ▸ List.mem_cons_self)
    refine ⟨h.1, ?_⟩
    rw [List.getLast?_cons] at hz
    cases hlast : xs.getLast? with
    | none =>
      rw [hlast] at hz
      obtain rfl : x = z := Option.some.inj hz
      rw [List.getLast?_eq_none_iff.mp hlast, upd_self]
      exact ⟨rfl, (upd_of_ne hyx).trans hnull⟩
    | some w =>
      rw [hlast] at hz
      obtain rfl : w = z := Option.some.inj hz
      have hne : x ≠ w := fun hh => hnodup.1 (hh ▸ List.mem_of_getLast? hlast)
      rw [upd_of_ne hne]
      exact ih h.2 hnodup.2 (fun hm => hy (List.mem_cons_of_mem x hm)) hlast

end Xv6.Lib
