import Xv6.Lib.Bytes
import Xv6.Param

/-!
# The two `memmove`s

`memmove` of the kernel (`string.c`) and of the user library (`user/ulib.c`), on a memory of bytes.
The kernel's copies downwards where the destination starts inside the source; the user library's
copies upwards always.  Addresses are numbers of 32 bits, and so is `n`, which the user library
takes for an `int`.

The upward loop is described for any two regions: where the destination starts inside the source,
what it leaves there repeats the first bytes of the source.
-/

namespace Xv6

open Lib

/-- `while(n-- > 0) *d++ = *s++;` -/
def copyUp (m : ℕ → UInt8) (d s : ℕ) : ℕ → ℕ → UInt8
  | 0 => m
  | n + 1 => copyUp (upd m d (m s)) ((d + 1) % 2 ^ 32) ((s + 1) % 2 ^ 32) n

/-- `while(n-- > 0) *--d = *--s;` -/
def copyDown (m : ℕ → UInt8) (d s : ℕ) : ℕ → ℕ → UInt8
  | 0 => m
  | n + 1 =>
    let d := (d + 2 ^ 32 - 1) % 2 ^ 32
    let s := (s + 2 ^ 32 - 1) % 2 ^ 32
    copyDown (upd m d (m s)) d s n

def Kernel.memmove (m : ℕ → UInt8) (dst src n : ℕ) : ℕ → UInt8 :=
  if src < dst ∧ (src + n) % 2 ^ 32 > dst then
    copyDown m ((dst + n) % 2 ^ 32) ((src + n) % 2 ^ 32) n
  else copyUp m dst src n

def Ulib.memmove (m : ℕ → UInt8) (dst src n : ℕ) : ℕ → UInt8 := copyUp m dst src (int32 n).toNat

variable {m m' : ℕ → UInt8} {dst src n : ℕ}

theorem eq_blit_slice_iff : m' = blit m dst (slice m src n) ↔
    ∀ x, m' x = if dst ≤ x ∧ x < dst + n then m (src + (x - dst)) else m x := by
  rw [funext_iff]
  refine forall_congr' fun x => ?_
  rw [blit, length_slice]
  split_ifs with hx
  · rw [List.getD_eq_getElem?_getD, getElem?_slice m src (by omega), Option.getD_some]
  · exact Iff.rfl

theorem copyUp_succ {d s : ℕ} (hd : d + n < 2 ^ 32) (hs : s + n < 2 ^ 32) :
    copyUp m d s (n + 1) = upd (copyUp m d s n) (d + n) (copyUp m d s n (s + n)) := by
  induction n generalizing m d s with
  | zero => rfl
  | succ n ih =>
    have hd' : (d + 1) % 2 ^ 32 = d + 1 := Nat.mod_eq_of_lt (by omega)
    have hs' : (s + 1) % 2 ^ 32 = s + 1 := Nat.mod_eq_of_lt (by omega)
    rw [copyUp, hd', hs', ih (by omega) (by omega), Nat.add_right_comm d, Nat.add_right_comm s,
      copyUp, hd', hs']
    rfl

/-- **The upward loop.**  What it copies is what was there before, or what it has put there. -/
theorem copyUp_apply {d s : ℕ} (hd : d + n ≤ 2 ^ 32) (hs : s + n ≤ 2 ^ 32) (x : ℕ) :
    copyUp m d s n x =
      if d ≤ x ∧ x < d + n then m (s + if s < d then (x - d) % (d - s) else x - d) else m x := by
  induction n generalizing x with
  | zero => rw [copyUp, if_neg (by omega)]
  | succ n ih =>
    rw [copyUp_succ (by omega) (by omega)]
    by_cases hx : x = d + n
    · rw [hx, upd_self, ih (by omega) (by omega),
        if_pos (show d ≤ d + n ∧ d + n < d + (n + 1) by omega), Nat.add_sub_cancel_left]
      by_cases hlt : s < d
      · rw [if_pos hlt, if_pos hlt]
        by_cases hn : d - s ≤ n
        · rw [if_pos (by omega), show s + n - d = n - (d - s) by omega, Nat.mod_eq_sub_mod hn]
        · rw [if_neg (by omega), Nat.mod_eq_of_lt (by omega)]
      · rw [if_neg (show ¬ (d ≤ s + n ∧ s + n < d + n) by omega), if_neg hlt]
    · rw [upd_of_ne hx, ih (by omega) (by omega)]
      congr 1
      rw [eq_iff_iff]
      omega

/-- **The downward loop**, to a higher address. -/
theorem copyDown_apply (h : src < dst) (hdst : dst + n ≤ 2 ^ 32) (m : ℕ → UInt8) (x : ℕ) :
    copyDown m ((dst + n) % 2 ^ 32) ((src + n) % 2 ^ 32) n x =
      if dst ≤ x ∧ x < dst + n then m (src + (x - dst)) else m x := by
  induction n generalizing m with
  | zero => rw [copyDown, if_neg (by omega)]
  | succ n ih =>
    -- the pointers of the next round are those that the loop starts with for one byte less
    have hd : ((dst + (n + 1)) % 2 ^ 32 + 2 ^ 32 - 1) % 2 ^ 32 = (dst + n) % 2 ^ 32 := by omega
    have hs : ((src + (n + 1)) % 2 ^ 32 + 2 ^ 32 - 1) % 2 ^ 32 = (src + n) % 2 ^ 32 := by omega
    rw [copyDown, hd, hs, ih (by omega), Nat.mod_eq_of_lt (show dst + n < 2 ^ 32 by omega),
      Nat.mod_eq_of_lt (show src + n < 2 ^ 32 by omega)]
    by_cases hx : dst ≤ x ∧ x < dst + n
    · rw [if_pos hx, if_pos (by omega), upd_of_ne (by omega)]
    · rw [if_neg hx]
      by_cases hxn : x = dst + n
      · rw [if_pos (by omega), hxn, upd_self, Nat.add_sub_cancel_left]
      · rw [if_neg (by omega), upd_of_ne hxn]

section Move

variable (hdst : dst + n ≤ 2 ^ 32) (hsrc : src + n ≤ 2 ^ 32)
include hdst hsrc

/-- The upward loop moves the bytes where they repeat themselves. -/
theorem copyUp_eq_iff : copyUp m dst src n = blit m dst (slice m src n) ↔
    (src < dst → ∀ k < n, m (src + k) = m (src + k % (dst - src))) := by
  rw [eq_blit_slice_iff]
  constructor
  · intro h hlt k hk
    have hx := h (dst + k)
    have hmem : dst ≤ dst + k ∧ dst + k < dst + n := by omega
    rw [copyUp_apply hdst hsrc, if_pos hmem, if_pos hmem, if_pos hlt,
      Nat.add_sub_cancel_left] at hx
    exact hx.symm
  · intro h x
    rw [copyUp_apply hdst hsrc]
    split_ifs with hx hlt
    · exact (h hlt (x - dst) (by omega)).symm
    · rfl
    · rfl

/-- **The kernel's `memmove` moves the bytes**, with any overlap. -/
theorem Kernel.memmove_eq : Kernel.memmove m dst src n = blit m dst (slice m src n) := by
  rw [Kernel.memmove]
  split_ifs with hover
  · exact eq_blit_slice_iff.mpr (copyDown_apply hover.1 hdst m)
  · refine (copyUp_eq_iff hdst hsrc).mpr fun hlt k hk => ?_
    rw [Nat.mod_eq_of_lt (show src + n < 2 ^ 32 by omega)] at hover
    rw [Nat.mod_eq_of_lt (by omega)]

/-- **The two `memmove`s**, for regions that do not wrap around.  Both leave at `dst` the bytes that
were at `src`, and nothing else is changed, unless the destination starts inside the source, at a
distance at which the source does not repeat itself. -/
theorem memmoves_move_iff (hn : n < 2 ^ 31) :
    Kernel.memmove m dst src n = blit m dst (slice m src n) ∧
        Ulib.memmove m dst src n = blit m dst (slice m src n) ↔
      ¬ (src < dst ∧ dst < src + n ∧ ∃ k < n, m (src + k) ≠ m (src + k % (dst - src))) := by
  rw [and_iff_right (Kernel.memmove_eq hdst hsrc), Ulib.memmove,
    int32_eq_self (by omega) (by omega), Int.toNat_natCast, copyUp_eq_iff hdst hsrc]
  constructor
  · rintro h ⟨hlt, -, k, hk, hne⟩
    exact hne (h hlt k hk)
  · intro h hlt k hk
    by_contra hne
    refine h ⟨hlt, ?_, k, hk, hne⟩
    by_contra hout
    exact hne (by rw [Nat.mod_eq_of_lt (by omega)])

end Move

/-- Three bytes are moved down by one. -/
theorem memmoves_move_down : Kernel.memmove UInt8.ofNat 0 1 3 = blit UInt8.ofNat 0 [1, 2, 3] ∧
    Ulib.memmove UInt8.ofNat 0 1 3 = blit UInt8.ofNat 0 [1, 2, 3] :=
  (memmoves_move_iff (by decide) (by decide) (by decide)).mpr fun h => absurd h.1 (by decide)

/-- **Two bytes are moved up by one**: the user library writes the first one twice. -/
theorem memmoves_differ : Kernel.memmove UInt8.ofNat 1 0 2 2 = 1 ∧
    Ulib.memmove UInt8.ofNat 1 0 2 2 = 0 ∧
    Ulib.memmove UInt8.ofNat 1 0 2 ≠ blit UInt8.ofNat 1 (slice UInt8.ofNat 0 2) := by
  refine ⟨by decide, by decide, fun h => ?_⟩
  have := congrFun h 2
  revert this
  decide

end Xv6
