import Xv6.Lib.Bytes
import Xv6.Lib.Trace
import Xv6.Vm.Kalloc

/-!
# System call arguments (`syscall.c`)

The arguments of a system call lie on the user's stack, above the word that the saved `%esp` points
to.  The kernel reads them with the page table of the process in place, so nothing but the checks of
`syscall.c` stands between the user and the kernel's own memory.

The functions here record the addresses that they read.  `fetchint` computes `addr+4`, and `argptr`
computes `i+size`, in 32 bits.  The sums do not wrap around because both summands are below
`KERNBASE` once the first check has passed, so that whatever the functions accept lies below `sz`
(`arguments_confined`).
-/

namespace Xv6.Syscall

open Lib Traced Vm

/-- What the functions use of the calling process: its size, the saved `%esp`, and the memory as the
process sees it. -/
structure User where
  sz : UInt32
  esp : UInt32
  mem : UInt32 → UInt8

namespace User

variable (u : User)

def load (a : UInt32) : Traced UInt32 UInt8 := access a (u.mem a)

/-- Fetch the int at `addr` from the current process. -/
def fetchint (addr : UInt32) : Traced UInt32 (Option Int32) :=
  if addr ≥ u.sz ∨ addr + 4 > u.sz then pure none
  else do
    let b0 ← u.load addr
    let b1 ← u.load (addr + 1)
    let b2 ← u.load (addr + 2)
    let b3 ← u.load (addr + 3)
    pure (some (UInt32.ofNat (leNat [b0, b1, b2, b3])).toInt32)

/-- The loop of `fetchstr`, from `s` on, for at most `n` rounds. -/
def scan (pp : UInt32) : ℕ → UInt32 → Traced UInt32 (Option UInt32)
  | 0, _ => pure none
  | n + 1, s =>
    if s < u.sz then do
      if (← u.load s) = 0 then pure (some (s - pp)) else scan pp n (s + 1)
    else pure none

/-- Fetch the nul-terminated string at `addr`: where it is, and its length without the nul. -/
def fetchstr (addr : UInt32) : Traced UInt32 (Option (UInt32 × UInt32)) :=
  if addr ≥ u.sz then pure none
  else do
    let n ← u.scan addr u.sz.toNat addr
    pure (n.map fun n => (addr, n))

def argAddr (n : Int32) : UInt32 := u.esp + 4 + (4 * n).toUInt32

def argint (n : Int32) : Traced UInt32 (Option Int32) := u.fetchint (u.argAddr n)

/-- Fetch the `n`th argument as a pointer to a block of memory of `size` bytes. -/
def argptr (n size : Int32) : Traced UInt32 (Option UInt32) := do
  match ← u.argint n with
  | none => pure none
  | some i =>
    if size < 0 ∨ i.toUInt32 ≥ u.sz ∨ i.toUInt32 + size.toUInt32 > u.sz then pure none
    else pure (some i.toUInt32)

/-- Fetch the `n`th argument as a pointer to a string. -/
def argstr (n : Int32) : Traced UInt32 (Option (UInt32 × UInt32)) := do
  match ← u.argint n with
  | none => pure none
  | some addr => u.fetchstr addr.toUInt32

def Mine (a : UInt32) : Prop := a < u.sz

end User

section Confined

variable {u : User} {addr p s : UInt32}

/-! ## Words -/

theorem toNat_add_of_lt {a b : UInt32} (h : a.toNat + b.toNat < 2 ^ 32) :
    (a + b).toNat = a.toNat + b.toNat := by
  rw [UInt32.toNat_add, Nat.mod_eq_of_lt h]

theorem fetchint_check_iff (hsz : u.sz.toNat < KERNBASE) :
    ¬ (addr ≥ u.sz ∨ addr + 4 > u.sz) ↔ addr.toNat + 4 ≤ u.sz.toNat := by
  rw [KERNBASE] at hsz
  rw [not_or, ge_iff_le, gt_iff_lt, UInt32.le_iff_toNat_le, UInt32.lt_iff_toNat_lt, not_le, not_lt]
  constructor
  · rintro ⟨h1, h2⟩
    rwa [toNat_add_of_lt (show addr.toNat + 4 < 2 ^ 32 by omega)] at h2
  · intro h
    refine ⟨by omega, ?_⟩
    rw [toNat_add_of_lt (show addr.toNat + 4 < 2 ^ 32 by omega)]
    exact h

theorem within_fetchint (hsz : u.sz.toNat < KERNBASE) (addr : UInt32) :
    Within u.Mine (u.fetchint addr) := by
  unfold User.fetchint
  split_ifs with hc
  · exact within_pure
  · have hle := (fetchint_check_iff hsz).mp hc
    rw [KERNBASE] at hsz
    have hmine : ∀ k : UInt32, k.toNat < 4 → u.Mine (addr + k) := by
      intro k hk
      rw [User.Mine, UInt32.lt_iff_toNat_lt, toNat_add_of_lt (by omega)]
      omega
    simp only [within_bind, User.load, within_access, within_pure, and_true]
    exact ⟨by simpa using hmine 0 (by decide), hmine 1 (by decide), hmine 2 (by decide),
      hmine 3 (by decide)⟩

/-- `fetchint` succeeds exactly if the four bytes belong to the process. -/
theorem fetchint_isSome_iff (hsz : u.sz.toNat < KERNBASE) :
    (u.fetchint addr).val.isSome = true ↔ addr.toNat + 4 ≤ u.sz.toNat := by
  rw [← fetchint_check_iff hsz]
  unfold User.fetchint
  split_ifs with hc
  · exact iff_of_false (by decide) (not_not.mpr hc)
  · exact iff_of_true rfl hc

/-! ## Strings -/

theorem within_scan (pp : UInt32) (n : ℕ) (s : UInt32) : Within u.Mine (u.scan pp n s) := by
  induction n generalizing s with
  | zero => exact within_pure
  | succ n ih =>
    rw [User.scan]
    split_ifs with hs
    · refine within_bind.mpr ⟨within_access.mpr hs, ?_⟩
      split_ifs
      · exact within_pure
      · exact ih (s + 1)
    · exact within_pure

theorem succ_toNat (hs : s < u.sz) : (s + 1).toNat = s.toNat + 1 := by
  have hlt := UInt32.lt_iff_toNat_lt.mp hs
  have hsz := u.sz.toNat_lt
  exact toNat_add_of_lt (show s.toNat + 1 < 2 ^ 32 by omega)

/-- What the loop of `fetchstr` finds is the first nul. -/
theorem scan_eq_some {pp k : UInt32} {n : ℕ} (h : (u.scan pp n s).val = some k) :
    ∃ e : UInt32, k = e - pp ∧ s.toNat ≤ e.toNat ∧ e < u.sz ∧ u.mem e = 0 ∧
      ∀ x : UInt32, s.toNat ≤ x.toNat → x.toNat < e.toNat → u.mem x ≠ 0 := by
  induction n generalizing s with
  | zero => cases h
  | succ n ih =>
    rw [User.scan] at h
    split_ifs at h with hs
    · rw [val_bind, User.load, val_access] at h
      split_ifs at h with h0
      · cases h
        exact ⟨s, rfl, le_rfl, hs, h0, fun x h1 h2 => absurd h1 (not_le.mpr h2)⟩
      · obtain ⟨e, hk, hle, he, hz, hfirst⟩ := ih h
        rw [succ_toNat hs] at hle hfirst
        refine ⟨e, hk, by omega, he, hz, fun x h1 h2 => ?_⟩
        rcases Nat.eq_or_lt_of_le h1 with heq | hlt
        · rw [← UInt32.toNat_inj.mp heq]
          exact h0
        · exact hfirst x hlt h2

theorem scan_eq_none {pp : UInt32} {n : ℕ} (hn : u.sz.toNat ≤ s.toNat + n)
    (h : (u.scan pp n s).val = none) {x : UInt32} (hx : s.toNat ≤ x.toNat) (hlt : x < u.sz) :
    u.mem x ≠ 0 := by
  have hlt' := UInt32.lt_iff_toNat_lt.mp hlt
  induction n generalizing s with
  | zero => omega
  | succ n ih =>
    rw [User.scan] at h
    have hs : s < u.sz := UInt32.lt_iff_toNat_lt.mpr (by omega)
    rw [if_pos hs, val_bind, User.load, val_access] at h
    split_ifs at h with h0
    rcases Nat.eq_or_lt_of_le hx with heq | hgt
    · rw [← UInt32.toNat_inj.mp heq]
      exact h0
    · exact ih (by rw [succ_toNat hs]; omega) h (by rw [succ_toNat hs]; omega)

theorem within_fetchstr (addr : UInt32) : Within u.Mine (u.fetchstr addr) := by
  unfold User.fetchstr
  split_ifs
  · exact within_pure
  · exact within_bind.mpr ⟨within_scan addr _ addr, within_pure⟩

/-- **`fetchstr`** succeeds exactly if there is a nul between `addr` and the end of the process, and
returns the distance to the first one. -/
theorem fetchstr_eq_some_iff {n : UInt32} : (u.fetchstr addr).val = some (p, n) ↔
    p = addr ∧ addr.toNat + n.toNat < u.sz.toNat ∧ u.mem (addr + n) = 0 ∧
      ∀ x : UInt32, addr.toNat ≤ x.toNat → x.toNat < addr.toNat + n.toNat → u.mem x ≠ 0 := by
  have hbound := u.sz.toNat_lt
  unfold User.fetchstr
  by_cases hc : addr ≥ u.sz
  · rw [if_pos hc]
    have hge := UInt32.le_iff_toNat_le.mp hc
    exact iff_of_false (by nofun) fun h => by omega
  have hlt : addr.toNat < u.sz.toNat := by
    rwa [ge_iff_le, UInt32.le_iff_toNat_le, not_le] at hc
  rw [if_neg hc, val_bind, val_pure, Option.map_eq_some_iff]
  constructor
  · rintro ⟨k, hk, heq⟩
    cases heq
    obtain ⟨e, rfl, hle, he, hz, hfirst⟩ := scan_eq_some hk
    have hlen : (e - addr).toNat = e.toNat - addr.toNat :=
      UInt32.toNat_sub_of_le e addr (UInt32.le_iff_toNat_le.mpr hle)
    have he' := UInt32.lt_iff_toNat_lt.mp he
    have hsum : addr + (e - addr) = e := by
      rw [← UInt32.toNat_inj, toNat_add_of_lt (by omega)]
      omega
    refine ⟨rfl, by omega, by rwa [hsum], fun x h1 h2 => hfirst x h1 (by omega)⟩
  · rintro ⟨rfl, hin, hz, hfirst⟩
    have hsum : (p + n).toNat = p.toNat + n.toNat := toNat_add_of_lt (by omega)
    cases hk : (u.scan p u.sz.toNat p).val with
    | none =>
      have hmine : p + n < u.sz := UInt32.lt_iff_toNat_lt.mpr (by rwa [hsum])
      exact absurd hz (scan_eq_none (Nat.le_add_left _ _) hk (by omega) hmine)
    | some k =>
      obtain ⟨e, rfl, hle, he, hz', hfirst'⟩ := scan_eq_some hk
      have heq : e.toNat = p.toNat + n.toNat := by
        rcases Nat.lt_trichotomy e.toNat (p.toNat + n.toNat) with h | h | h
        · exact absurd hz' (hfirst e hle h)
        · exact h
        · exact absurd hz (hfirst' _ (by omega) (by omega))
      have hlen : (e - p).toNat = e.toNat - p.toNat :=
        UInt32.toNat_sub_of_le e p (UInt32.le_iff_toNat_le.mpr hle)
      refine ⟨e - p, rfl, ?_⟩
      rw [show e - p = n from UInt32.toNat_inj.mp (by omega)]

/-! ## Arguments -/

theorem toNat_toUInt32_of_nonneg {x : Int32} (h : 0 ≤ x.toInt) :
    (x.toUInt32.toNat : ℤ) = x.toInt := by
  show (x.toBitVec.toNat : ℤ) = x.toBitVec.toInt
  change 0 ≤ x.toBitVec.toInt at h
  rw [BitVec.toInt_eq_toNat_cond] at h ⊢
  split_ifs at h ⊢
  · rfl
  · have hlt := x.toBitVec.isLt
    omega

/-- The check of `argptr`, without the wraparound. -/
theorem argptr_check {i size : Int32} (hsz : u.sz.toNat < KERNBASE)
    (h : ¬ (size < 0 ∨ i.toUInt32 ≥ u.sz ∨ i.toUInt32 + size.toUInt32 > u.sz)) :
    0 ≤ size.toInt ∧ i.toUInt32.toNat < u.sz.toNat ∧
      (i.toUInt32.toNat : ℤ) + size.toInt ≤ u.sz.toNat := by
  rw [KERNBASE] at hsz
  rw [not_or, not_or, ge_iff_le, gt_iff_lt, Int32.lt_iff_toInt_lt, UInt32.le_iff_toNat_le,
    UInt32.lt_iff_toNat_lt, not_lt, not_le, not_lt] at h
  obtain ⟨h1, h2, h3⟩ := h
  have hsize := toNat_toUInt32_of_nonneg h1
  have hlt := size.toInt_lt
  rw [toNat_add_of_lt (by omega)] at h3
  exact ⟨h1, h2, by omega⟩

theorem within_argptr (hsz : u.sz.toNat < KERNBASE) (n size : Int32) :
    Within u.Mine (u.argptr n size) := by
  unfold User.argptr
  refine within_bind.mpr ⟨within_fetchint hsz _, ?_⟩
  split
  · exact within_pure
  · split_ifs <;> exact within_pure

theorem argptr_eq_some {n size : Int32} (hsz : u.sz.toNat < KERNBASE)
    (h : (u.argptr n size).val = some p) :
    0 ≤ size.toInt ∧ p.toNat < u.sz.toNat ∧ (p.toNat : ℤ) + size.toInt ≤ u.sz.toNat := by
  unfold User.argptr at h
  rw [val_bind] at h
  split at h
  · cases h
  · split_ifs at h with hc
    cases h
    exact argptr_check hsz hc

theorem within_argstr (hsz : u.sz.toNat < KERNBASE) (n : Int32) : Within u.Mine (u.argstr n) := by
  unfold User.argstr
  refine within_bind.mpr ⟨within_fetchint hsz _, ?_⟩
  split
  · exact within_pure
  · exact within_fetchstr _

theorem argstr_eq_some {n : Int32} {k : UInt32} (h : (u.argstr n).val = some (p, k)) :
    p.toNat + k.toNat < u.sz.toNat ∧ u.mem (p + k) = 0 := by
  unfold User.argstr at h
  rw [val_bind] at h
  split at h
  · cases h
  · obtain ⟨rfl, hlt, hz, -⟩ := fetchstr_eq_some_iff.mp h
    exact ⟨hlt, hz⟩

/-- **The checks confine the kernel to the memory of the process**, whatever the saved `%esp`, the
number of the argument and the size.  All bytes that the functions read belong to the process,
whether they succeed or not; and if they succeed, so does the whole region that they hand back,
without a sum that wraps around.  A negative size fails. -/
theorem arguments_confined (u : User) (hsz : u.sz.toNat < KERNBASE) :
    (∀ addr, Within u.Mine (u.fetchint addr) ∧
      ∀ v, (u.fetchint addr).val = some v → addr.toNat + 4 ≤ u.sz.toNat) ∧
    (∀ addr, Within u.Mine (u.fetchstr addr) ∧
      ∀ p k, (u.fetchstr addr).val = some (p, k) →
        p.toNat + k.toNat < u.sz.toNat ∧ u.mem (p + k) = 0) ∧
    (∀ n, Within u.Mine (u.argint n) ∧
      ∀ v, (u.argint n).val = some v → (u.argAddr n).toNat + 4 ≤ u.sz.toNat) ∧
    (∀ n size, Within u.Mine (u.argptr n size) ∧
      (size < 0 → (u.argptr n size).val = none) ∧
      ∀ p, (u.argptr n size).val = some p →
        p.toNat < u.sz.toNat ∧ (p.toNat : ℤ) + size.toInt ≤ u.sz.toNat) ∧
    ∀ n, Within u.Mine (u.argstr n) ∧
      ∀ p k, (u.argstr n).val = some (p, k) →
        p.toNat + k.toNat < u.sz.toNat ∧ u.mem (p + k) = 0 := by
  have hint : ∀ addr v, (u.fetchint addr).val = some v → addr.toNat + 4 ≤ u.sz.toNat :=
    fun addr v h => (fetchint_isSome_iff hsz).mp (by rw [h]; rfl)
  refine ⟨fun addr => ⟨within_fetchint hsz addr, hint addr⟩,
    fun addr => ⟨within_fetchstr addr, fun p k h => ?_⟩,
    fun n => ⟨within_fetchint hsz _, hint _⟩,
    fun n size => ⟨within_argptr hsz n size, fun hneg => ?_, fun p h => (argptr_eq_some hsz h).2⟩,
    fun n => ⟨within_argstr hsz n, fun p k => argstr_eq_some⟩⟩
  · obtain ⟨rfl, hlt, hz, -⟩ := fetchstr_eq_some_iff.mp h
    exact ⟨hlt, hz⟩
  · rw [Option.eq_none_iff_forall_ne_some]
    intro p hp
    have hnonneg := (argptr_eq_some hsz hp).1
    rw [Int32.lt_iff_toInt_lt] at hneg
    exact absurd hneg (not_lt.mpr hnonneg)

/-- A process of one page, whose stack holds the address of the string `a` and the number 100. -/
def onePage : User where
  sz := 4096
  esp := 4000
  mem a := if a = 4004 then 0x10 else if a = 4005 then 0x0F else if a = 4008 then 100
    else if a = 0xF10 then 97 else 0

/-- Both of its arguments are accepted, the first as a string and the second as a number. -/
theorem arguments_confined_onePage :
    (onePage.argstr 0).val = some (0xF10, 1) ∧ (onePage.argint 1).val = some 100 ∧
      Within onePage.Mine (onePage.argstr 0) ∧ Within onePage.Mine (onePage.argint 1) := by
  obtain ⟨-, -, hint, -, hstr⟩ := arguments_confined onePage (by decide)
  exact ⟨by decide +kernel, by decide +kernel, (hstr 0).1, (hint 1).1⟩

end Confined

end Xv6.Syscall
