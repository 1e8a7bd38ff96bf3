import Xv6.Lib.Bytes

/-!
# The MP configuration table

`mpconfig` and `mpinit` of `mp.c`.  The table is the memory from `conf` on: its bytes are named by
their offset, and an entry that starts before the end of the table may reach beyond it.  The search
for the floating pointer structure is left out; it gives the table, or none.  So is the switch of
the interrupt mode after the loop.

The loop of `mpinit` has no bound of its own, so it is run with fuel, and that it ends means that
some amount of fuel is enough.
-/

namespace Xv6.Mp

open Lib

/-- The bytes from the start of the table on. -/
abbrev Table := ℕ → UInt8

/-- The processors that there is room for. -/
def NCPU : ℕ := 8

/-- The type of an entry, its first byte. -/
def MPPROC : UInt8 := 0
def MPBUS : UInt8 := 1
def MPIOAPIC : UInt8 := 2
def MPIOINTR : UInt8 := 3
def MPLINTR : UInt8 := 4

/-- `sizeof(struct mpconf)`. -/
def confSize : ℕ := 44

def Table.length (t : Table) : ℕ := leNat (slice t 4 2)

/-- The sum of the first bytes, as a byte. -/
def sum (t : Table) (len : ℕ) : UInt8 := (slice t 0 len).foldl (· + ·) 0

/-- Check the signature, the version and the checksum. -/
def mpconfig (t : Table) : Bool :=
  slice t 0 4 = [80, 67, 77, 80] ∧ (t 6 = 1 ∨ t 6 = 4) ∧ sum t t.length = 0

/-- What `mpinit` sets: the local APIC, the APIC ids of the processors, and the id of the I/O
APIC. -/
structure State where
  lapic : ℕ
  cpus : List UInt8 := []
  ioapicid : UInt8 := 0
  ismp : Bool := true

/-- One round of the loop at the entry `p`: the place where the next one starts, and the state.  The
`break` of an unknown type leaves the `switch` and not the loop. -/
def entry (t : Table) (p : ℕ) (s : State) : ℕ × State :=
  if t p = MPPROC then
    (p + 20, if s.cpus.length < NCPU then { s with cpus := s.cpus ++ [t (p + 1)] } else s)
  else if t p = MPIOAPIC then (p + 8, { s with ioapicid := t (p + 1) })
  else if t p = MPBUS ∨ t p = MPIOINTR ∨ t p = MPLINTR then (p + 8, s)
  else (p, { s with ismp := false })

/-- The loop, with fuel for `n` rounds. -/
def scan (t : Table) : ℕ → ℕ → State → Option State
  | 0, _, _ => none
  | n + 1, p, s => if p < t.length then scan t n (entry t p s).1 (entry t p s).2 else some s

/-- `mpinit`, with fuel for its loop.  A panic is an error. -/
def mpinit (conf : Option Table) (n : ℕ) : Option (Except String State) :=
  match conf.filter mpconfig with
  | none => some (.error "Expect to run on an SMP")
  | some t => (scan t n confSize { lapic := leNat (slice t 36 4) }).map fun s =>
      if s.ismp then .ok s else .error "Didn't find a suitable machine"

/-- A type that the kernel knows. -/
def Known (b : UInt8) : Prop :=
  b = MPPROC ∨ b = MPIOAPIC ∨ b = MPBUS ∨ b = MPIOINTR ∨ b = MPLINTR

/-- The places where entries start, one behind the other, up to the first of an unknown type. -/
inductive Reached (t : Table) : ℕ → Prop
  | first : Reached t confSize
  | next {p : ℕ} : Reached t p → p < t.length → Known (t p) →
      Reached t (p + if t p = MPPROC then 20 else 8)

variable {t : Table} {p n : ℕ} {s r : State}

/-- A round with a known entry goes on behind it, and keeps to the room for processors. -/
theorem entry_of_known (h : Known (t p)) :
    (entry t p s).1 = p + (if t p = MPPROC then 20 else 8) ∧
      (s.cpus.length ≤ NCPU → (entry t p s).2.cpus.length ≤ NCPU) := by
  unfold entry
  split_ifs with h1 h2 h3 h4
  · refine ⟨rfl, fun _ => ?_⟩
    rw [List.length_append]
    exact h2
  · exact ⟨rfl, id⟩
  · exact ⟨rfl, id⟩
  · exact ⟨rfl, id⟩
  · exact absurd (h.resolve_left h1) (not_or.mpr ⟨h3, h4⟩)

/-- A round with an unknown entry stays where it is. -/
theorem entry_of_not_known (h : ¬ Known (t p)) : (entry t p s).1 = p := by
  rw [Known, not_or, not_or] at h
  rw [entry, if_neg h.1, if_neg h.2.1, if_neg h.2.2]

/-- **At an unknown entry the loop does not end.** -/
theorem scan_of_not_known (hp : p < t.length) (h : ¬ Known (t p)) (n : ℕ) (s : State) :
    scan t n p s = none := by
  induction n generalizing s with
  | zero => rfl
  | succ n ih => rw [scan, if_pos hp, entry_of_not_known h, ih]

/-- A loop that ends has come through every place that is reached. -/
theorem exists_scan_of_reached (h : scan t n confSize s = some r) (hp : Reached t p) :
    ∃ n s, scan t n p s = some r := by
  induction hp with
  | first => exact ⟨n, s, h⟩
  | next _ hlt hk ih =>
    obtain ⟨n, s, hscan⟩ := ih
    cases n with
    | zero => cases hscan
    | succ n =>
      rw [scan, if_pos hlt, (entry_of_known hk).1] at hscan
      exact ⟨n, _, hscan⟩

/-- **With known entries only, the loop ends**: every round goes on by at least eight bytes. -/
theorem exists_scan_eq_some (h : ∀ q, Reached t q → q < t.length → Known (t q)) (hp : Reached t p)
    (hn : t.length ≤ p + 8 * n) (hs : s.cpus.length ≤ NCPU) :
    ∃ r, scan t (n + 1) p s = some r ∧ r.cpus.length ≤ NCPU := by
  induction n generalizing p s with
  | zero => exact ⟨s, if_neg (by omega), hs⟩
  | succ n ih =>
    rw [scan]
    split_ifs with hlt
    · have hk := h p hp hlt
      obtain ⟨hnext, hs'⟩ := entry_of_known (s := s) hk
      rw [hnext]
      refine ih (.next hp hlt hk) ?_ (hs' hs)
      split_ifs <;> omega
    · exact ⟨s, rfl, hs⟩

/-- **The scan of the table.**  It ends, with at most `NCPU` processors or with the panic, exactly
for the tables in which it meets no entry of an unknown type. -/
theorem mpinit_ends_iff (h : mpconfig t = true) :
    (∃ n o, mpinit (some t) n = some o ∧
        ((∃ s, o = .ok s ∧ s.cpus.length ≤ NCPU) ∨ o = .error "Didn't find a suitable machine")) ↔
      ∀ p, Reached t p → p < t.length → Known (t p) := by
  have heq :
    ∀ n, mpinit (some t) n = (scan t n confSize { lapic := leNat (slice t 36 4) }).map fun s =>
      if s.ismp then .ok s else .error "Didn't find a suitable machine" := by
    intro n
    rw [mpinit, Option.filter_some_pos h]
  constructor
  · rintro ⟨n, o, ho, -⟩ p hp hlt
    by_contra hk
    rw [heq] at ho
    obtain ⟨r, hr, -⟩ := Option.map_eq_some_iff.mp ho
    obtain ⟨n', s, hscan⟩ := exists_scan_of_reached hr hp
    rw [scan_of_not_known hlt hk] at hscan
    cases hscan
  · intro hk
    obtain ⟨r, hr, hle⟩ := exists_scan_eq_some (n := t.length)
      (s := { lapic := leNat (slice t 36 4) }) hk .first (by omega) (Nat.zero_le NCPU)
    refine ⟨_, _, (heq _).trans (congrArg _ hr), ?_⟩
    dsimp only
    split_ifs
    · exact Or.inl ⟨r, rfl, hle⟩
    · exact Or.inr rfl

def tableOf (l : List UInt8) : Table := fun p => l.getD p 0

def plainTable : Table := tableOf ([80, 67, 77, 80, 64, 0, 1, 143] ++ List.replicate 56 0)

theorem plainTable_known : mpconfig plainTable = true ∧
    ∀ p, Reached plainTable p → p < plainTable.length → Known (plainTable p) := by
  have h : mpconfig plainTable = true := by decide +kernel
  have hrun : (mpinit (some plainTable) 2).map (fun o => o.toOption.map State.cpus) =
    some (some [0]) := by
    decide +kernel
  obtain ⟨o, ho, hcpus⟩ := Option.map_eq_some_iff.mp hrun
  refine ⟨h, (mpinit_ends_iff h).mp ⟨2, o, ho, Or.inl ?_⟩⟩
  cases o with
  | error _ => cases hcpus
  | ok s =>
    refine ⟨s, rfl, ?_⟩
    rw [Option.some.inj hcpus]
    decide

/-- A table with one entry, of the type 5. -/
def strangeTable : Table := tableOf ([80, 67, 77, 80, 45, 0, 1, 157] ++ List.replicate 36 0 ++ [5])

/-- **The kernel hangs** on a table that it has accepted, and does not panic. -/
theorem mpinit_hangs : mpconfig strangeTable = true ∧ ∀ n, mpinit (some strangeTable) n = none := by
  have h : mpconfig strangeTable = true := by decide +kernel
  have hlt : confSize < strangeTable.length := by decide +kernel
  have hk : ¬ Known (strangeTable confSize) := by
    unfold Known
    decide +kernel
  refine ⟨h, fun n => ?_⟩
  rw [mpinit, Option.filter_some_pos h]
  exact Option.map_eq_none_iff.mpr (scan_of_not_known hlt hk n _)

end Xv6.Mp
