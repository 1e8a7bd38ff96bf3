import Xv6.Lib.Run
import Xv6.Vm.Cow

/-!
# Page faults inside a system call

`trap` and `syscall`, with the trap frames of one process on its kernel stack.  A trap from user
mode builds its frame at the top of the stack, position 0; a trap in kernel mode builds one further
down.  When `trap` returns, `trapret` restores the registers from the frame of that trap, wherever
`p->tf` points.

`trap` sets `p->tf` for a system call and for a page fault, and never sets it back.  A system call
that writes to a page of the process which is shared copy-on-write faults in kernel mode, and from
then on `p->tf` points to the frame of the fault, which is gone.

* C does not say whether `curproc->tf->eax = syscalls[num]()` loads `curproc->tf` before or after
  the call; `early` is the choice of the compiler.
* `work` stands for everything else that happens meanwhile: the rest of the handler and interrupts
  overwrite the stack below the frame of the system call, and all processes change the memory.
* Of a trap frame, `%eax` is left: nothing else is read here.
-/

namespace Xv6.Trap

open Lib Vm

structure TrapFrame where
  eax : ℕ

inductive Pc
  /-- In user mode, with this `%eax`. -/
  | user (eax : ℕ)
  /-- In `syscalls[num]()`.  `dest` is the position of the frame for the result, if it has been
  loaded. -/
  | handler (dest : Option ℕ)
  /-- After `syscall()` in `trap`. -/
  | trapEnd
  /-- In `exit`. -/
  | exited
  deriving DecidableEq

/-- A process with its kernel stack, and the memory. -/
structure State where
  pc : Pc
  tf : ℕ
  stack : ℕ → TrapFrame
  killed : Bool
  kmem : Kmem
  pgdir : PageDir

inductive Label
  /-- `INT T_SYSCALL`, up to the call of the handler. -/
  | int
  /-- The handler writes to `va`, which is shared copy-on-write; the frame of the fault is built
  `depth` positions below that of the system call, with the registers of the handler. -/
  | fault (depth : ℕ) (x : TrapFrame) (va : ℕ)
  | work (depth : ℕ) (x : TrapFrame) (k : Kmem) (d : PageDir)
  /-- Somebody kills the process. -/
  | kill
  /-- The handler returns. -/
  | ret (r : ℕ)
  /-- The end of `trap`, and `trapret`. -/
  | trapret
  /-- A page fault in user mode. -/
  | userFault (va : ℕ)

/-- The number of entries of `syscalls`; all but the first are set. -/
def NSYSCALLS : ℕ := 29

/-- A write to this address faults because of the protection of a user page. -/
def Protected (d : PageDir) (va : ℕ) : Prop :=
  va < KERNBASE ∧ ∃ pte, walkpgdir d (va / PGSIZE) = some pte ∧
    pte.present = true ∧ pte.user = true ∧ pte.writable = false

instance (d : PageDir) (va : ℕ) : Decidable (Protected d va) :=
  match h : walkpgdir d (va / PGSIZE) with
  | none => isFalse (by rintro ⟨-, pte, hpte, -⟩; rw [h] at hpte; cases hpte)
  | some pte =>
    decidable_of_iff (va < KERNBASE ∧ pte.present = true ∧ pte.user = true ∧ pte.writable = false)
      (by simp [Protected, h])

/-- `trap(tf)` with `tf->trapno == T_PGFLT`, for the frame `x` at the position `pos`. -/
def pgflt (s : State) (pos : ℕ) (x : TrapFrame) (va : ℕ) : State :=
  match handlepgflt s.kmem s.pgdir va with
  | (killed, k, d) =>
    { s with
      stack := Function.update s.stack pos x
      tf := pos
      killed := s.killed || killed
      kmem := k
      pgdir := d }

/-- `syscall`, up to the call of the handler. -/
def syscall (early : Bool) (s : State) : State :=
  let num := (s.stack s.tf).eax
  if 0 < num ∧ num < NSYSCALLS then
    { s with pc := .handler (if early then some s.tf else none) }
  else
    -- -1
    { s with pc := .trapEnd, stack := Function.update s.stack s.tf ⟨2 ^ 32 - 1⟩ }

def step (early : Bool) (s : State) : Label → Option (State × Unit)
  | .int =>
    match s.pc with
    | .user eax =>
      if s.killed then some ({ s with pc := .exited }, ())
      else
        some (syscall early { s with stack := Function.update s.stack 0 ⟨eax⟩, tf := 0 }, ())
    | _ => none
  | .fault depth x va =>
    match s.pc with
    | .handler _ =>
      if Protected s.pgdir va then some (pgflt s (depth + 1) x va, ()) else none
    | _ => none
  | .work depth x k d =>
    match s.pc with
    | .handler _ =>
      some ({ s with stack := Function.update s.stack (depth + 1) x, kmem := k, pgdir := d }, ())
    | _ => none
  | .kill => some ({ s with killed := true }, ())
  | .ret r =>
    match s.pc with
    | .handler dest =>
      some ({ s with
        pc := .trapEnd
        stack := Function.update s.stack (dest.getD s.tf) ⟨r⟩ }, ())
    | _ => none
  | .trapret =>
    match s.pc with
    | .trapEnd =>
      if s.killed then some ({ s with pc := .exited }, ())
      else some ({ s with pc := .user (s.stack 0).eax }, ())
    | _ => none
  | .userFault va =>
    match s.pc with
    | .user eax => some (pgflt s 0 ⟨eax⟩ va, ())
    | _ => none

/-- The steps that are taken while the handler runs. -/
def Label.inside : Label → Prop
  | .fault _ _ _ | .work _ _ _ _ | .kill => True
  | _ => False

def Label.isFault : Label → Prop
  | .fault _ _ _ => True
  | _ => False

instance : DecidablePred Label.isFault := fun a => by
  cases a <;> unfold Label.isFault <;> infer_instance

/-- The system call has not been disturbed: `p->tf` is the frame that `trapret` will restore, and
this holds the value `r` that the handler has returned. -/
def Undisturbed (s : State) (r : ℕ) : Prop := s.tf = 0 ∧ (s.stack 0).eax = r

variable {early : Bool} {s t : State} {a : Label} {u : Unit} {r : ℕ} {as : List Label}
  {us : List Unit}

/-! ## While the handler runs -/

/-- What the steps inside a handler leave alone, and what is lost with a fault. -/
structure Handles (s t : State) (faulted : Prop) : Prop where
  pc : t.pc = s.pc
  frame : t.stack 0 = s.stack 0
  tf : ¬ faulted → t.tf = s.tf
  lost : faulted → t.tf ≠ 0

theorem Handles.trans {v : State} {F G : Prop} (h : Handles s t F) (h' : Handles t v G) :
    Handles s v (F ∨ G) where
  pc := h'.pc.trans h.pc
  frame := h'.frame.trans h.frame
  tf hno := (h'.tf fun hG => hno (Or.inr hG)).trans (h.tf fun hF => hno (Or.inl hF))
  lost hor := by
    by_cases hG : G
    · exact h'.lost hG
    · rw [h'.tf hG]
      exact h.lost (hor.resolve_right hG)

theorem update_frame (stack : ℕ → TrapFrame) (depth : ℕ) (x : TrapFrame) :
    Function.update stack (depth + 1) x 0 = stack 0 :=
  Function.update_of_ne (Nat.succ_ne_zero depth).symm x stack

theorem pgflt_handles (s : State) (depth : ℕ) (x : TrapFrame) (va : ℕ) :
    Handles s (pgflt s (depth + 1) x va) True := by
  unfold pgflt
  exact ⟨rfl, update_frame s.stack depth x, fun hno => absurd trivial hno,
    fun _ => Nat.succ_ne_zero depth⟩

theorem step_handles (ha : a.inside) (hs : step early s a = some (t, u)) :
    Handles s t a.isFault := by
  cases a with
  | fault depth x va =>
    simp only [step] at hs
    split at hs
    · split_ifs at hs
      cases hs
      exact pgflt_handles s depth x va
    · cases hs
  | work depth x k d =>
    simp only [step] at hs
    split at hs
    · cases hs
      exact ⟨rfl, update_frame s.stack depth x, fun _ => rfl, nofun⟩
    · cases hs
  | kill =>
    cases hs
    exact ⟨rfl, rfl, fun _ => rfl, nofun⟩
  | _ => exact absurd ha id

/-- **Any number of steps inside a handler.** -/
theorem exec_handles (has : ∀ a ∈ as, a.inside) (h : exec (step early) s as = some (t, us)) :
    Handles s t (∃ a ∈ as, a.isFault) := by
  refine exec_induction (P := fun as t _ => (∀ a ∈ as, a.inside) →
    Handles s t (∃ a ∈ as, a.isFault)) ?_ ?_ h has
  · intro _
    exact ⟨rfl, rfl, fun _ => rfl, by rintro ⟨a, ha, -⟩; cases ha⟩
  · intro as t _ a v u _ ih hv has
    have hboth := (ih fun b hb => has b (List.mem_append_left _ hb)).trans
      (step_handles (has a (List.mem_append_right _ (List.mem_singleton_self a))) hv)
    have hiff : (∃ b ∈ as ++ [a], b.isFault) ↔ (∃ b ∈ as, b.isFault) ∨ a.isFault := by
      simp [or_and_right, exists_or]
    exact propext hiff ▸ hboth

/-! ## The whole call -/

theorem ret_eq_some (hs : step early s (.ret r) = some (t, u)) :
    ∃ dest, s.pc = .handler dest ∧ t.tf = s.tf ∧
      t.stack = Function.update s.stack (dest.getD s.tf) ⟨r⟩ := by
  simp only [step] at hs
  split at hs
  · rename_i dest hpc
    cases hs
    exact ⟨dest, hpc, rfl, rfl⟩
  · cases hs

theorem int_eq_some {dest : Option ℕ} (hs : step early s .int = some (t, u))
    (hpc : t.pc = .handler dest) :
    t.tf = 0 ∧ dest = (if early then some 0 else none) ∧
      s.pc = .user (t.stack 0).eax := by
  simp only [step] at hs
  split at hs
  · rename_i eax hu
    split_ifs at hs
    · cases hs
      cases hpc
    · unfold syscall at hs
      dsimp only at hs
      have hframe : Function.update s.stack 0 ⟨eax⟩ 0 = ⟨eax⟩ := Function.update_self ..
      by_cases hnum : 0 < (Function.update s.stack 0 ⟨eax⟩ 0).eax ∧
          (Function.update s.stack 0 ⟨eax⟩ 0).eax < NSYSCALLS
      · rw [if_pos hnum] at hs
        cases hs
        refine ⟨rfl, (Pc.handler.inj hpc).symm, ?_⟩
        change s.pc = .user (Function.update s.stack 0 ⟨eax⟩ 0).eax
        rw [hframe]
        exact hu
      · rw [if_neg hnum] at hs
        cases hs
        cases hpc
  · cases hs

/-- **A system call is undisturbed if and only if it takes no page fault**, whatever else happens in
the meantime and whenever the compiler loads `curproc->tf`. -/
theorem undisturbed_iff_of_exec (has : ∀ a ∈ as, a.inside)
    (h : exec (step early) s (.int :: (as ++ [.ret r])) = some (t, us)) :
    Undisturbed t r ↔ ∀ a ∈ as, ¬ a.isFault := by
  obtain ⟨s1, u, us1, hint, hrest, -⟩ := exec_cons_iff.mp h
  obtain ⟨s2, us2, u', hin, hret, -⟩ := exec_concat_iff.mp hrest
  have hh := exec_handles has hin
  obtain ⟨dest, hpc, htf, hstack⟩ := ret_eq_some hret
  obtain ⟨htf1, hdest, -⟩ := int_eq_some hint (hh.pc ▸ hpc)
  unfold Undisturbed
  rw [htf, hstack]
  constructor
  · rintro ⟨h0, -⟩ a ha hf
    exact hh.lost ⟨a, ha, hf⟩ h0
  · intro hno
    have h0 : s2.tf = 0 := by
      rw [hh.tf fun ⟨a, ha, hf⟩ => hno a ha hf, htf1]
    have hd : dest.getD s2.tf = 0 := by
      rw [hdest, h0]
      split_ifs <;> rfl
    rw [hd, Function.update_self]
    exact ⟨h0, rfl⟩

/-- A process in user mode, about to call `read` (`SYS_read` is 5); its page 0 is shared with
another process, and the page 9 is free. -/
def forked : State where
  pc := .user 5
  tf := 0
  stack _ := ⟨0⟩
  killed := false
  kmem := { freelist := [9], count := fun f => if f = 7 then 2 else 0, mem := fun _ _ => 0 }
  pgdir := (PageDir.addTab (.empty 3) 0 4).setPte 0
    { present := true, user := true, writable := false, addr := 7 }

theorem undisturbed_of_forked :
    ∃ t us, exec (step false) forked (.int ::
        ([.work 2 ⟨3⟩ forked.kmem forked.pgdir] ++ [.ret 1])) = some (t, us) ∧
      Undisturbed t 1 := by
  obtain ⟨⟨t, us⟩, h⟩ := Option.isSome_iff_exists.mp (show (exec (step false) forked
    (.int :: ([.work 2 ⟨3⟩ forked.kmem forked.pgdir] ++ [.ret 1]))).isSome = true by decide)
  refine ⟨t, us, h, (undisturbed_iff_of_exec ?_ h).mpr ?_⟩
  · intro a ha
    rw [List.mem_singleton.mp ha]
    trivial
  · intro a ha
    rw [List.mem_singleton.mp ha]
    exact id

/-- **Counterexample.**  `read` writes one byte to the shared page and returns 1.  `p->tf` then
points to the frame of the fault, and the process sees 5. -/
theorem disturbed_after_fault :
    ∃ t us, exec (step false) forked (.int :: ([.fault 2 ⟨0⟩ 16] ++ [.ret 1])) = some (t, us) ∧
      t.tf = 3 ∧ ¬ Undisturbed t 1 ∧
      ∃ t' us', exec (step false) t [.trapret] = some (t', us') ∧ t'.pc = .user 5 := by
  have hrun : ((exec (step false) forked (.int :: ([.fault 2 ⟨0⟩ 16] ++ [.ret 1]))).bind fun x =>
      (exec (step false) x.1 [.trapret]).map fun y => (x.1.tf, y.1.pc)) = some (3, .user 5) := by
    decide
  obtain ⟨⟨t, us⟩, ht, hrun⟩ := Option.bind_eq_some_iff.mp hrun
  obtain ⟨⟨t', us'⟩, ht', heq⟩ := Option.map_eq_some_iff.mp hrun
  obtain ⟨htf, hpc⟩ := Prod.mk.inj heq
  refine ⟨t, us, ht, htf, fun hu => ?_, t', us', ht', hpc⟩
  have h0 := hu.1
  rw [show t.tf = 3 from htf] at h0
  cases h0

end Xv6.Trap
