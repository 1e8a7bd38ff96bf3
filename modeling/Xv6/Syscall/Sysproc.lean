import Xv6.Sem.Attach
import Xv6.Syscall.Arguments

/-!
# The wrappers of `sysproc.c`

`sys_nice`, `sys_semget`, `sys_semfree`, `sys_semdown` and `sys_semup` fetch their arguments with
`argint` into local variables and do not look at its result.  If an argument cannot be fetched, the
call goes on with whatever the variable holds.  `Locals` is what the local variables hold at the
start.

So an argument that cannot be fetched is an error only if the variable happens to hold a number that
the call itself rejects (`rejects_iff`).
-/

namespace Xv6.Syscall

open Lib Sem

variable {u : User} {s : State} {c : ℕ} {p : Slot} {x : ℤ}

/-- What is on the stack of the kernel where the local variables are. -/
structure Locals where
  first : Int32
  second : Int32

/-- What a local variable that held `x` holds after `argint(n, &x)`, whose result is not looked
at. -/
def User.argOr (u : User) (n x : Int32) : ℤ := ((u.argint n).val.getD x).toInt

inductive Sys
  | nice
  | semget
  | semfree
  | semdown
  | semup
  deriving DecidableEq

namespace Sys

def call (f : Sys) (u : User) (l : Locals) (c : ℕ) : Sem.Label :=
  let x := u.argOr 0 l.first
  match f with
  | nice => .proc (.nice c x)
  | semget => .semget c x (u.argOr 1 l.second)
  | semfree => .semfree c x
  | semdown => .semdown c x
  | semup => .semup c x

/-- The call of the wrapper by `p` returns a negative number at once, and the tables are as
before. -/
def Rejects (f : Sys) (u : User) (l : Locals) (c : ℕ) (p : Slot) (s : State) : Prop :=
  match f with
  | nice => ∃ r < 0, Process.nice p (u.argOr 0 l.first) s.pt = (s.pt, r)
  | _ => ∃ r < 0, step s (f.call u l c) = some (s, .returned p r)

/-- The call rejects `x` as its first argument. -/
def Refuses (f : Sys) (x : ℤ) (p : Slot) (s : State) : Prop :=
  match f with
  | nice => int32 ((s.pt.proc p).nice + x) < 0 ∨ int32 ((s.pt.proc p).nice + x) > (PLEVELS : ℤ) - 1
  | semget => (s.desc p).semcount > PROCMAXSEM ∨ s.sems.used > SYSMAXSEM ∨ x < -1 ∨ x > SYSMAXSEM ∨
      x ≥ 0 ∧ s.sems.isfree x = true
  | semfree | semdown | semup => invalid s.sems (s.desc p) x = true

instance (f : Sys) (x : ℤ) (p : Slot) (s : State) : Decidable (f.Refuses x p s) := by
  cases f <;> unfold Refuses <;> infer_instance

end Sys

/-- The `n`th argument does not lie in the memory of the process. -/
def User.Outside (u : User) (n : Int32) : Prop := ¬ (u.argAddr n).toNat + 4 ≤ u.sz.toNat

/-! ## One wrapper at a time -/

/-- An argument that cannot be fetched leaves the variable as it was. -/
theorem argOr_of_outside (hsz : u.sz.toNat < Vm.KERNBASE) {n x : Int32} (h : u.Outside n) :
    u.argOr n x = x.toInt := by
  have hnone : (u.argint n).val = none := by
    rw [← Option.not_isSome_iff_eq_none]
    exact fun hsome => h ((fetchint_isSome_iff hsz).mp hsome)
  rw [User.argOr, hnone]
  rfl

theorem nice_rejects_iff : (∃ r < 0, Process.nice p x s.pt = (s.pt, r)) ↔
    Sys.nice.Refuses x p s := by
  unfold Process.nice Sys.Refuses
  dsimp only
  split_ifs with hc
  · exact iff_of_true ⟨-1, by decide, rfl⟩ hc
  · refine iff_of_false ?_ hc
    rintro ⟨r, hr, heq⟩
    have hval := (Prod.mk.inj heq).2
    omega

theorem semget_rejects_iff (hp : s.caller c = some p) {v : ℤ} :
    (∃ r < 0, step s (.semget c x v) = some (s, .returned p r)) ↔ Sys.semget.Refuses x p s := by
  constructor
  · rintro ⟨r, -, hs⟩
    obtain ⟨q, hq, ⟨m, r', hg, -, -⟩ | ⟨m, semid, -, -, he⟩⟩ := getStep_eq_some hs
    · obtain rfl : p = q := Option.some.inj (hp.symm.trans hq)
      by_contra hnot
      simp only [Sys.Refuses, not_or, not_lt, gt_iff_lt] at hnot
      obtain ⟨h1, h2, h3, h4, h5⟩ := hnot
      unfold semget at hg
      rw [if_neg (not_lt.mpr h1), if_neg (not_lt.mpr h2), if_neg] at hg
      · split_ifs at hg
        · cases hg
        · split at hg
          · cases hg
          · obtain ⟨m1, -, heq⟩ := Option.map_eq_some_iff.mp hg
            cases heq
      · rintro (h | h | h)
        · omega
        · omega
        · exact h5 h
    · split_ifs at he
  · intro h
    have herror : ∃ r < 0, semget s.sems (s.desc p) x v = some (s.sems, .error r) := by
      unfold semget
      split_ifs with h1 h2 h3 h4
      · exact ⟨ENSEM, by decide, rfl⟩
      · exact ⟨ENSEMSYS, by decide, rfl⟩
      · exact ⟨EINVAL, by decide, rfl⟩
      · exact absurd (h.resolve_left h1 |>.resolve_left h2) h3
      · exact absurd (h.resolve_left h1 |>.resolve_left h2) h3
    obtain ⟨r, hr, hg⟩ := herror
    refine ⟨r, hr, ?_⟩
    show getStep c x v s = _
    unfold getStep
    simp only [hp, hg]

theorem setDesc_self : ({ s with sems := s.sems } : State).setDesc p (s.desc p) = s := by
  show ({ s with desc := Function.update s.desc p (s.desc p) } : State) = s
  rw [Function.update_eq_self]

theorem semfree_rejects_iff (hp : s.caller c = some p) :
    (∃ r < 0, step s (.semfree c x) = some (s, .returned p r)) ↔ Sys.semfree.Refuses x p s := by
  show (∃ r < 0, freeStep c x s = some (s, .returned p r)) ↔ invalid s.sems (s.desc p) x = true
  constructor
  · rintro ⟨r, hr, hs⟩
    obtain ⟨q, m, d, r', hq, hfree, -, he⟩ := freeStep_eq_some hs
    obtain rfl : p = q := Option.some.inj (hp.symm.trans hq)
    by_contra hvalid
    rcases semfree_eq_some hfree with ⟨rfl, rfl, rfl⟩ | ⟨-, -, -, rfl, -⟩
    · exact semfree_ne_einval (Bool.not_eq_true _ ▸ hvalid) hfree
    · split_ifs at he
      cases he
      exact lt_irrefl 0 hr
  · intro h
    refine ⟨EINVAL, by decide, ?_⟩
    have hfree : semfree s.sems (s.desc p) x = some (s.sems, s.desc p, EINVAL) := by
      simp only [invalid, decide_eq_true_eq] at h
      unfold semfree
      split_ifs with hc
      · rfl
      · have hdetach : semdetach (s.desc p) x = none := by
          rw [semdetach, Option.map_eq_none_iff, replaceFirst_eq_none_iff]
          rcases h with h | h | h | h
          · exact absurd (Or.inl h) hc
          · exact absurd (Or.inr (Or.inl h)) hc
          · exact absurd (Or.inr (Or.inr h)) hc
          · exact of_decide_eq_false h
        rw [hdetach]
    unfold freeStep
    simp only [hp, hfree]
    rw [setDesc_self, if_neg fun h => absurd h.1 (by decide)]

theorem semdown_rejects_iff (hp : s.caller c = some p) :
    (∃ r < 0, step s (.semdown c x) = some (s, .returned p r)) ↔ Sys.semdown.Refuses x p s := by
  show (∃ r < 0, downStep c x s = some (s, .returned p r)) ↔ invalid s.sems (s.desc p) x = true
  unfold downStep
  simp only [hp]
  split_ifs with hc
  · exact iff_of_true ⟨EINVAL, by decide, rfl⟩ hc
  · refine iff_of_false ?_ hc
    rintro ⟨r, -, heq⟩
    rcases downBody_cases c p x s with ⟨-, hbody⟩ | ⟨-, hbody⟩
    · rw [hbody] at heq
      cases (Prod.mk.inj (Option.some.inj heq)).2
    · rw [hbody] at heq
      cases (Prod.mk.inj (Option.some.inj heq)).2

theorem semup_rejects_iff (hp : s.caller c = some p) :
    (∃ r < 0, step s (.semup c x) = some (s, .returned p r)) ↔ Sys.semup.Refuses x p s := by
  show (∃ r < 0, upStep c x s = some (s, .returned p r)) ↔ invalid s.sems (s.desc p) x = true
  unfold upStep
  simp only [hp]
  split_ifs with hc
  · exact iff_of_true ⟨EINVAL, by decide, rfl⟩ hc
  · refine iff_of_false ?_ hc
    rintro ⟨r, -, heq⟩
    split at heq
    · cases heq
    · cases (Prod.mk.inj (Option.some.inj heq)).2

/-- **Arguments that cannot be fetched.**  For every process with its size below `KERNBASE`, every
saved `%esp` and whatever the local variables hold: the wrapper returns a negative number and leaves
the tables alone if and only if the call refuses what its first variable holds in the end, which is
what it held at the start if the first argument lies outside of the process. -/
theorem rejects_iff (hsz : u.sz.toNat < Vm.KERNBASE) (hp : s.caller c = some p) (f : Sys)
    (l : Locals) :
    (u.Outside 0 → u.argOr 0 l.first = l.first.toInt) ∧
      (f.Rejects u l c p s ↔ f.Refuses (u.argOr 0 l.first) p s) := by
  refine ⟨argOr_of_outside hsz, ?_⟩
  cases f with
  | nice => exact nice_rejects_iff
  | semget => exact semget_rejects_iff hp
  | semfree => exact semfree_rejects_iff hp
  | semdown => exact semdown_rejects_iff hp
  | semup => exact semup_rejects_iff hp

/-- A process that makes a system call with `%esp` at the top of its memory. -/
def topOfMemory : User := ⟨4096, 4096, fun _ => 0⟩

/-- If the variable holds -1, `sys_semdown` fails as it should. -/
theorem rejects_of_lucky_local : ∃ s es p,
    exec step State.boot [.userinit, .proc (.dispatch 0)] = some (s, es) ∧ s.caller 0 = some p ∧
      topOfMemory.Outside 0 ∧ Sys.semdown.Rejects topOfMemory ⟨-1, 0⟩ 0 p s := by
  have hrun : ((exec step State.boot [.userinit, .proc (.dispatch 0)]).bind fun x =>
      (x.1.caller 0).map fun p =>
        decide (Sys.semdown.Refuses (topOfMemory.argOr 0 (-1)) p x.1)) = some true := by
    decide +kernel
  obtain ⟨⟨s, es⟩, hs, hrun⟩ := Option.bind_eq_some_iff.mp hrun
  obtain ⟨p, hp, hrefuses⟩ := Option.map_eq_some_iff.mp hrun
  exact ⟨s, es, p, hs, hp, by unfold User.Outside; decide +kernel,
    (rejects_iff (by decide) hp .semdown ⟨-1, 0⟩).2.mpr (of_decide_eq_true hrefuses)⟩

/-- **Counterexample.**  None of the arguments can be fetched.  If the variable holds 0, `sys_nice`
returns 0; if the variables hold -1 and 1, `sys_semget` creates a semaphore. -/
theorem not_rejected_outside : ∃ s t es p,
    exec step State.boot [.userinit, .proc (.dispatch 0)] = some (s, es) ∧ s.caller 0 = some p ∧
      topOfMemory.Outside 0 ∧ topOfMemory.Outside 1 ∧
      (Process.nice p (topOfMemory.argOr 0 0) s.pt).2 = 0 ∧
      step s (Sys.semget.call topOfMemory ⟨-1, 1⟩ 0) = some (t, .created 0 1) := by
  have hrun : ((exec step State.boot [.userinit, .proc (.dispatch 0)]).bind fun x =>
      (x.1.caller 0).bind fun p => (step x.1 (Sys.semget.call topOfMemory ⟨-1, 1⟩ 0)).map fun y =>
        ((Process.nice p (topOfMemory.argOr 0 0) x.1.pt).2, y.2)) = some (0, .created 0 1) := by
    decide +kernel
  obtain ⟨⟨s, es⟩, hs, hrun⟩ := Option.bind_eq_some_iff.mp hrun
  obtain ⟨p, hp, hrun⟩ := Option.bind_eq_some_iff.mp hrun
  obtain ⟨⟨t, e⟩, ht, heq⟩ := Option.map_eq_some_iff.mp hrun
  obtain ⟨hnice, rfl⟩ := Prod.mk.inj heq
  exact ⟨s, t, es, p, hs, hp, by unfold User.Outside; decide +kernel,
    by unfold User.Outside; decide +kernel, hnice, ht⟩

end Xv6.Syscall
