import Mathlib.Data.List.GetD
import Mathlib.Data.Nat.ModEq

/-!
# Ring buffers with free-running counters

A ring of `N` cells with a read counter and a write counter that only ever grow, modulo `M`.  The
cell of a counter is its remainder by `N`; for `N ∣ M` a counter that wraps around goes on in the
right cell, and for `N < M` the counters tell an empty ring from a full one.

`RingBuf.Ok l k` says that the list `l` has been written so far, and that its first `k` entries have
been read.

* `Ok.empty_iff`, `Ok.full_iff`: what the comparisons of the counters mean.
* `Ok.push`, `Ok.pop`: one more entry is written, one more is read.
-/

namespace Xv6.Lib

structure RingBuf (α : Type*) where
  cell : ℕ → α
  r : ℕ
  w : ℕ

namespace RingBuf

variable {α : Type*} {N M : ℕ}

def push (N M : ℕ) (q : RingBuf α) (a : α) : RingBuf α :=
  { q with cell := Function.update q.cell (q.w % N) a, w := (q.w + 1) % M }

def front (N : ℕ) (q : RingBuf α) : α := q.cell (q.r % N)

def pop (M : ℕ) (q : RingBuf α) : RingBuf α := { q with r := (q.r + 1) % M }

/-- The list `l` has been written, and `k` entries of it have been read. -/
structure Ok (N M : ℕ) (q : RingBuf α) (l : List α) (k : ℕ) : Prop where
  le : k ≤ l.length
  le_add : l.length ≤ k + N
  r_eq : q.r = k % M
  w_eq : q.w = l.length % M
  cell_eq : ∀ {j}, k ≤ j → ∀ hj : j < l.length, q.cell (j % N) = l[j]

variable {q : RingBuf α} {l : List α} {k : ℕ} {a : α}

/-- The counters differ by the number of entries. -/
theorem Ok.sub_mod (h : Ok N M q l k) (hNM : N < M) : (q.w + M - q.r) % M = l.length - k := by
  have hr := Nat.mod_lt k (show 0 < M by omega)
  have hw : (l.length % M + M - k % M) % M = (l.length - k) % M := by
    apply Nat.ModEq.add_right_cancel' (k % M)
    rw [Nat.sub_add_cancel (by omega)]
    calc l.length % M + M ≡ l.length [MOD M] := by
          rw [Nat.ModEq, Nat.add_mod_right, Nat.mod_mod]
      _ = l.length - k + k := (Nat.sub_add_cancel h.le).symm
      _ ≡ l.length - k + k % M [MOD M] := (Nat.ModEq.refl _).add (Nat.mod_modEq k M).symm
  rw [h.r_eq, h.w_eq, hw]
  apply Nat.mod_eq_of_lt
  have := h.le_add
  omega

theorem Ok.empty_iff (h : Ok N M q l k) (hNM : N < M) : q.r = q.w ↔ k = l.length := by
  constructor
  · intro heq
    have := h.sub_mod hNM
    rw [heq, Nat.add_sub_cancel_left, Nat.mod_self] at this
    have := h.le
    omega
  · rintro rfl
    rw [h.r_eq, h.w_eq]

theorem Ok.full_iff (h : Ok N M q l k) (hNM : N < M) :
    q.w = (q.r + N) % M ↔ l.length = k + N := by
  rw [h.r_eq, h.w_eq, Nat.mod_add_mod]
  constructor
  · intro heq
    have hle := h.le
    have hmod : (l.length - k) % M = N % M := by
      apply Nat.ModEq.add_right_cancel' k
      rw [Nat.sub_add_cancel hle, Nat.add_comm N]
      exact heq
    have hadd := h.le_add
    rw [Nat.mod_eq_of_lt (by omega), Nat.mod_eq_of_lt hNM] at hmod
    omega
  · rintro heq
    rw [heq]

theorem Ok.nil (cell : ℕ → α) : Ok N M ⟨cell, 0, 0⟩ [] 0 :=
  ⟨le_rfl, Nat.zero_le _, (Nat.zero_mod M).symm, (Nat.zero_mod M).symm, fun _ hj =>
    absurd hj (Nat.not_lt_zero _)⟩

/-- **An entry is written** if there is room. -/
theorem Ok.push (h : Ok N M q l k) (hdvd : N ∣ M) (hlt : l.length < k + N) :
    Ok N M (q.push N M a) (l ++ [a]) k := by
  have hw : q.w % N = l.length % N := by rw [h.w_eq, Nat.mod_mod_of_dvd _ hdvd]
  have hle := h.le
  refine ⟨?_, ?_, h.r_eq, ?_, fun {j} hkj hj => ?_⟩
  · rw [List.length_append]
    omega
  · rw [List.length_append, List.length_singleton]
    omega
  · change (q.w + 1) % M = _
    rw [h.w_eq, Nat.mod_add_mod, List.length_append, List.length_singleton]
  · change Function.update q.cell (q.w % N) a (j % N) = _
    rw [List.length_append, List.length_singleton] at hj
    rw [hw]
    by_cases hjl : j = l.length
    · subst hjl
      rw [Function.update_self, List.getElem_append_right le_rfl]
      simp only [Nat.sub_self, List.getElem_cons_zero]
    · -- the other entries are less than `N` away, so they are in other cells
      have hne : j % N ≠ l.length % N := by
        intro heq
        have hN := (Nat.modEq_iff_dvd' (show j ≤ l.length by omega)).mp heq
        have := Nat.le_of_dvd (by omega) hN
        omega
      rw [Function.update_of_ne hne, h.cell_eq hkj (by omega), List.getElem_append_left]

theorem Ok.pop (h : Ok N M q l k) (hdvd : N ∣ M) (hlt : k < l.length) :
    Ok N M (q.pop M) l (k + 1) ∧ l.take (k + 1) = l.take k ++ [q.front N] := by
  have hadd := h.le_add
  refine ⟨⟨hlt, by omega, ?_, h.w_eq, fun {j} hkj hj => h.cell_eq (by omega) hj⟩, ?_⟩
  · change (q.r + 1) % M = _
    rw [h.r_eq, Nat.mod_add_mod]
  · have hr : q.r % N = k % N := by rw [h.r_eq, Nat.mod_mod_of_dvd _ hdvd]
    rw [front, hr, h.cell_eq le_rfl hlt, List.take_add_one, List.getElem?_eq_getElem hlt]
    rfl

end RingBuf

end Xv6.Lib
