import Mathlib.Data.List.Basic
import Mathlib.Data.List.GetD
import Mathlib.Tactic.Ring

/-!
# Bytes, little-endian numbers and byte memories

A number of a fixed width is stored as a list of bytes, the least significant byte first
(`leBytes`), and read back from one (`leNat`).  A byte memory is a function `ℕ → UInt8`; `slice`
reads a range of it and `blit` copies a list into it.

A record on a disk is a list of bytes at an address, so two lemmas carry every statement about
stored records: a range that was just written reads back as it was written
(`slice_blit_self`), and a range that the write does not meet reads as before
(`slice_blit_of_disjoint`).
-/

namespace Xv6.Lib

/-! ## Little-endian numbers -/

/-- The number that a list of bytes spells. -/
def leNat : List UInt8 → ℕ
  | [] => 0
  | b :: l => b.toNat + 256 * leNat l

def leBytes : ℕ → ℕ → List UInt8
  | 0, _ => []
  | n + 1, v => UInt8.ofNat v :: leBytes n (v / 256)

@[simp] theorem length_leBytes (n v : ℕ) : (leBytes n v).length = n := by
  induction n generalizing v with
  | zero => rfl
  | succ n ih => rw [leBytes, List.length_cons, ih]

theorem leNat_leBytes (n v : ℕ) : leNat (leBytes n v) = v % 256 ^ n := by
  induction n generalizing v with
  | zero => rw [leBytes, leNat, pow_zero, Nat.mod_one]
  | succ n ih =>
    rw [leBytes, leNat, ih, pow_succ', Nat.mod_mul, UInt8.toNat_ofNat']

variable {n : ℕ}

theorem leNat_leBytes_of_lt {v : ℕ} (h : v < 256 ^ n) : leNat (leBytes n v) = v := by
  rw [leNat_leBytes, Nat.mod_eq_of_lt h]

theorem leNat_replicate_zero (n : ℕ) : leNat (List.replicate n 0) = 0 := by
  induction n with
  | zero => rfl
  | succ n ih => rw [List.replicate_succ, leNat, ih]; rfl

/-! ## Fields of a record -/

/-- One of many pieces of the same width is found at the multiple of that width. -/
theorem take_drop_flatMap {α β : Type*} (f : α → List β) {w : ℕ} (l : List α)
    (hw : ∀ a ∈ l, (f a).length = w) (r : List β) {k : ℕ} (hk : k < l.length) :
    ((l.flatMap f ++ r).drop (w * k)).take w = f l[k] := by
  induction l generalizing k with
  | nil => cases hk
  | cons a l ih =>
    rw [List.flatMap_cons, List.append_assoc]
    cases k with
    | zero => exact List.take_left' (hw a List.mem_cons_self)
    | succ k =>
      have hdrop : w * (k + 1) = (f a).length + w * k := by rw [hw a List.mem_cons_self]; ring
      rw [hdrop, ← List.drop_drop, List.drop_left]
      exact ih (fun b hb => hw b (List.mem_cons_of_mem a hb)) (Nat.lt_of_succ_lt_succ hk)

/-! ## One changed place of a function

`Function.update` moves the new value along a proof that the place is the one changed.  Here the
values have one type, and without the proof a stored state can be evaluated. -/

/-- The function `f` with the value `v` at the place `a`. -/
def upd {α β : Type*} [DecidableEq α] (f : α → β) (a : α) (v : β) : α → β := fun x =>
  if x = a then v else f x

section Upd

variable {α β : Type*} [DecidableEq α] {f : α → β} {a x : α} {v w : β}

@[simp] theorem upd_self : upd f a v a = v := if_pos rfl

@[simp] theorem upd_of_ne (h : x ≠ a) : upd f a v x = f x := if_neg h

theorem upd_apply : upd f a v x = if x = a then v else f x := rfl

/-- What holds at the changed place and at all others. -/
theorem forall_upd {P : α → β → Prop} (h : P a v) (h' : ∀ x, x ≠ a → P x (f x)) (x : α) :
    P x (upd f a v x) := by
  by_cases hx : x = a
  · rw [hx, upd_self]
    exact h
  · rw [upd_of_ne hx]
    exact h' x hx

@[simp] theorem upd_upd : upd (upd f a v) a w = upd f a w := by
  funext x
  by_cases h : x = a
  · rw [h, upd_self, upd_self]
  · rw [upd_of_ne h, upd_of_ne h, upd_of_ne h]

theorem upd_comm {b : α} (h : a ≠ b) : upd (upd f a v) b w = upd (upd f b w) a v := by
  funext x
  by_cases hxb : x = b
  · rw [hxb, upd_self, upd_of_ne h.symm, upd_self]
  · rw [upd_of_ne hxb]
    by_cases hxa : x = a
    · rw [hxa, upd_self, upd_self]
    · rw [upd_of_ne hxa, upd_of_ne hxa, upd_of_ne hxb]

@[simp] theorem upd_eq_self : upd f a (f a) = f := by
  funext x
  by_cases h : x = a
  · rw [h, upd_self]
  · rw [upd_of_ne h]

end Upd

/-! ## Ranges of a byte memory -/

def slice (m : ℕ → UInt8) (a n : ℕ) : List UInt8 := (List.range n).map fun k => m (a + k)

/-- The memory after the bytes `l` were copied to the address `a`. -/
def blit (m : ℕ → UInt8) (a : ℕ) (l : List UInt8) : ℕ → UInt8 := fun x =>
  if a ≤ x ∧ x < a + l.length then l.getD (x - a) 0 else m x

@[simp] theorem length_slice (m : ℕ → UInt8) (a n : ℕ) : (slice m a n).length = n := by
  rw [slice, List.length_map, List.length_range]

theorem getElem?_slice (m : ℕ → UInt8) (a : ℕ) {k : ℕ} (hk : k < n) :
    (slice m a n)[k]? = some (m (a + k)) := by
  rw [slice, List.getElem?_map, List.getElem?_range hk, Option.map_some]

variable {m : ℕ → UInt8}

theorem slice_congr {m' : ℕ → UInt8} {a : ℕ} (h : ∀ x, a ≤ x → x < a + n → m x = m' x) :
    slice m a n = slice m' a n := by
  refine List.map_congr_left fun k hk => ?_
  have hk' := List.mem_range.mp hk
  exact h (a + k) (Nat.le_add_right a k) (by omega)

theorem slice_add (m : ℕ → UInt8) (a n k : ℕ) :
    slice m a (n + k) = slice m a n ++ slice m (a + n) k := by
  rw [slice, slice, slice, List.range_add, List.map_append, List.map_map]
  congr 2
  funext x
  exact congrArg m (Nat.add_assoc a n x).symm

theorem take_slice (m : ℕ → UInt8) (a n k : ℕ) : (slice m a n).take k = slice m a (min k n) := by
  rw [slice, slice, ← List.map_take, List.take_range]

theorem drop_slice (m : ℕ → UInt8) (a n k : ℕ) :
    (slice m a n).drop k = slice m (a + k) (n - k) := by
  by_cases hk : k ≤ n
  · obtain ⟨r, rfl⟩ := Nat.exists_eq_add_of_le hk
    rw [slice_add, List.drop_left' (length_slice m a k), Nat.add_sub_cancel_left]
  · have hzero : n - k = 0 := by omega
    rw [hzero, List.drop_eq_nil_of_le (by rw [length_slice]; omega)]
    rfl

variable {l : List UInt8}

theorem slice_getD (h : n ≤ l.length) : slice (fun k => l.getD k 0) 0 n = l.take n := by
  refine List.ext_getElem? fun k => ?_
  by_cases hk : k < n
  · rw [getElem?_slice _ _ hk, List.getElem?_take_of_lt hk, Nat.zero_add,
      List.getD_eq_getElem _ _ (by omega), List.getElem?_eq_getElem (by omega)]
  · rw [List.getElem?_eq_none (by rw [length_slice]; omega),
      List.getElem?_eq_none (by rw [List.length_take]; omega)]

/-- The list `l` with the bytes of `m` at the place `off`. -/
def splice (l : List UInt8) (off : ℕ) (m : List UInt8) : List UInt8 :=
  l.take off ++ (m ++ l.drop (off + m.length))

theorem length_splice {m : List UInt8} {off : ℕ} (h : off ≤ l.length) :
    (splice l off m).length = max l.length (off + m.length) := by
  rw [splice, List.length_append, List.length_append, List.length_drop, List.length_take_of_le h]
  omega

theorem splice_nil (l : List UInt8) (off : ℕ) : splice l off [] = l := by
  rw [splice, List.nil_append, List.length_nil, Nat.add_zero, List.take_append_drop]

/-- Two runs of bytes, the second right after the first. -/
theorem splice_append {m m' : List UInt8} {off : ℕ} (h : off ≤ l.length) :
    splice (splice l off m) (off + m.length) m' = splice l off (m ++ m') := by
  have hlen : (l.take off ++ m).length = off + m.length := by
    rw [List.length_append, List.length_take_of_le h]
  have hfirst : splice l off m = (l.take off ++ m) ++ l.drop (off + m.length) := by
    rw [splice, List.append_assoc]
  rw [hfirst, splice, splice, List.take_left' hlen, ← List.drop_drop, List.drop_left' hlen,
    List.drop_drop, List.length_append, List.append_assoc, List.append_assoc, Nat.add_assoc]

/-- A memory that agrees with another one outside a range, and holds `src` in it, read up to the
end of the range or further. -/
theorem slice_eq_splice {m' src : ℕ → UInt8} {size off : ℕ} (hoff : off ≤ size)
    (hout : ∀ x, x < size → x < off ∨ off + n ≤ x → m' x = m x)
    (hin : ∀ k, k < n → m' (off + k) = src k) :
    slice m' 0 (max size (off + n)) = splice (slice m 0 size) off (slice src 0 n) := by
  have hsize : max size (off + n) = off + (n + (size - (off + n))) := by omega
  rw [splice, take_slice, drop_slice, length_slice, hsize, slice_add, slice_add,
    Nat.min_eq_left hoff]
  congr 1
  · exact slice_congr fun x _ hx => hout x (by omega) (Or.inl (by omega))
  · congr 1
    · refine List.map_congr_left fun k hk => ?_
      rw [Nat.zero_add, Nat.zero_add, hin k (List.mem_range.mp hk)]
    · rw [Nat.zero_add, Nat.zero_add]
      exact slice_congr fun x _ hx => hout x (by omega) (Or.inr (by omega))

theorem blit_of_mem {a x : ℕ} (h1 : a ≤ x)
    (h2 : x < a + l.length) : blit m a l x = l.getD (x - a) 0 := if_pos ⟨h1, h2⟩

theorem blit_of_not_mem {a x : ℕ} (h : x < a ∨ a + l.length ≤ x) : blit m a l x = m x := by
  rw [blit, if_neg]
  omega

theorem slice_blit_self (m : ℕ → UInt8) (a : ℕ) (l : List UInt8) :
    slice (blit m a l) a l.length = l := by
  refine List.ext_getElem? fun k => ?_
  by_cases hk : k < l.length
  · rw [getElem?_slice _ _ hk, blit_of_mem (Nat.le_add_right a k) (by omega),
      Nat.add_sub_cancel_left, List.getD_eq_getElem _ _ hk, List.getElem?_eq_getElem hk]
  · rw [List.getElem?_eq_none (by rw [length_slice]; omega), List.getElem?_eq_none (by omega)]

theorem slice_blit_of_disjoint {a b : ℕ}
    (h : b + n ≤ a ∨ a + l.length ≤ b) : slice (blit m a l) b n = slice m b n :=
  slice_congr fun x h1 h2 => blit_of_not_mem (by omega)

end Xv6.Lib
