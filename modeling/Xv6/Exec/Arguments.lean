import Xv6.Exec.Outcome

/-!
# Arguments are passed to the program

The arguments of `exec` come to the new program as they were given, if they fit into the page of the
stack.  If they do not, `exec` fails: the page below the stack is in the way.  Both are consequences
of what `Xv6.Vm.Arguments` says about the copies; what remains is to follow `exec` through its two
parts.
-/

namespace Xv6.Exec

open Lib Vm

variable {s s0 : State} {L : Layout} {K U W : Frame → ℕ} {c : Fs.Icache → ℕ} {m : ℕ} {d : PageDir}
  {sz g : ℕ} {argv : List (List UInt8)}

/-- The arguments take what they need, and the page below the stack decides. -/
theorem stackArgs_guarded (h : Guarded d g) (hsz : sz = (g + 2) * PGSIZE) (hneed : need argv ≤ sz)
    (s : State) :
    wp (stackArgs argv sz d) s
      (fun r _ => (PGSIZE < need argv → r = none) ∧
        (argv.length ≤ MAXARG → need argv ≤ PGSIZE → r ≠ none))
      (fun _ => False) := by
  have hle := h.le
  have hP : PGSIZE = 4096 := rfl
  have hU : UPAGES = 524288 := rfl
  have h0 : g * PGSIZE = 4096 * g := by rw [hP, Nat.mul_comm]
  have h1 : (g + 1) * PGSIZE = 4096 * g + 4096 := by rw [Nat.succ_mul, h0, hP]
  have h2 : (g + 2) * PGSIZE = 4096 * g + 8192 := by rw [Nat.succ_mul, h1, hP]
  obtain ⟨o, k1, hargs, hres, hfit⟩ := h.pushArgs s.kmem [] (show sz % 4 = 0 by omega)
    (by omega) hsz.le (show strings argv ≤ sz by unfold need at hneed; omega)
  rw [stackArgs, pushArgs, wp_bind, wp_bind, wp_get]
  refine wp_call hargs ?_
  cases o with
  | none =>
    refine ⟨fun _ => rfl, fun hlen hroom => absurd rfl (hfit ?_ ?_)⟩
    · rwa [List.length_nil, Nat.zero_add]
    · unfold need at hroom
      omega
  | some r =>
    obtain ⟨sp, us⟩ := r
    obtain ⟨hsp, hus, hlo⟩ := hres sp us rfl
    rw [List.length_nil, Nat.zero_add] at hus
    have hlen : (ustack sp us).length = (3 + argv.length + 1) * 4 := by
      unfold ustack
      rw [length_flatMap_uintBytes, List.length_append, List.length_append, hus]
      show 4 * (3 + argv.length + 1) = _
      omega
    have hesp : (sp + (2 ^ 32 - ustackSize us)) % 2 ^ 32 = sz - need argv ∧
        sz - need argv + (ustack sp us).length = sp := by
      unfold ustackSize
      unfold need at hneed ⊢
      rw [hus]
      omega
    show wp (copyout d ((sp + (2 ^ 32 - ustackSize us)) % 2 ^ 32) (ustack sp us) >>= _)
      { s with kmem := k1 } _ _
    rw [hesp.1, copyout, wp_bind, wp_bind, wp_get]
    by_cases hbig : PGSIZE < need argv
    · obtain ⟨k2, hk2⟩ := h.copyout_across k1 (show (ustack sp us).length ≠ 0 by omega)
        (show sz - need argv < _ by omega) (by omega)
      refine wp_call hk2 ?_
      exact ⟨fun _ => rfl, fun _ hroom => absurd hbig (by omega)⟩
    · obtain ⟨k2, hk2⟩ := h.copyout_above k1 (ustack sp us)
        (show _ ≤ sz - need argv by omega) (by omega)
      refine wp_call hk2 ?_
      exact ⟨fun hgt => absurd hgt hbig, fun _ _ => Option.some_ne_none _⟩

/-- The stack of a loaded program: it is refused if the arguments do not fit, and otherwise made if
there are pages for it. -/
theorem stack_guarded (h : Apart L K U W c m s0 s d) (hsp : (view s.kmem d).Spans (pgroundup sz))
    (hneed : need argv ≤ (pgroundup sz + 2) * PGSIZE) :
    wp (stack L argv sz d) s
      (fun r s' => Apart L K U W c m s0 s' r.2 ∧ (PGSIZE < need argv → r.1 = none) ∧
        (argv.length ≤ MAXARG → need argv ≤ PGSIZE → r.1 = none →
          ∃ d1 s1, stackPages L sz d s = .ok ((0, d1), s1)))
      (fun _ => False) := by
  obtain ⟨⟨sz1, d1⟩, s1, hpages, h1, hdone⟩ := (stackPages_spec h hsp).exists_ok
  rw [stack, wp, bind_ok hpages, ← wp]
  by_cases hzero : sz1 = 0
  · subst hzero
    exact ⟨h1, fun _ => rfl, fun _ _ _ => ⟨d1, s1, hpages⟩⟩
  · obtain ⟨hsz1, -, hguard, -⟩ := hdone hzero
    rw [← hsz1] at hneed
    have hnone := stackArgs_guarded hguard hsz1 hneed s1
    show wp (if sz1 = 0 then _ else _) s1 _ _
    rw [if_neg hzero]
    refine ((stackArgs_spec h1).and hnone).chain (fun _ he => he.2) ?_
    rintro (_ | esp) s2 ⟨⟨h2, -⟩, hbig, hfit⟩
    · exact ⟨h2, fun _ => rfl, fun hlen hroom _ => absurd rfl (hfit hlen hroom)⟩
    · exact ⟨h2, fun hgt => absurd (hbig hgt) (Option.some_ne_none _), fun _ _ hr => by cases hr⟩

theorem exec_of_load {s1 : State} {cwd : Fs.Icache} {path : Fs.Name} {eip : ℕ}
    (hload : load L cwd path s = .ok (some (eip, sz, d), s1)) :
    exec L cwd path argv s = (do
      match ← stack L argv sz d with
      | (none, pgdir) => bad L (some pgdir) none
      | (some (sz, esp), pgdir) => commit L path eip sz esp pgdir : Op ℤ) s1 := by
  unfold exec
  exact bind_ok hload

/-- **Arguments are passed, or refused.**  If the strings and the pointers fit into a page, the
program finds them at its stack pointer after a successful `exec`, and `exec` is successful if the
program could be loaded and there were pages for the stack.  If they do not fit, but the new image
is larger than what they need, `exec` returns -1. -/
theorem exec_passes_args {cwd : Fs.Icache} {path : Fs.Name}
    (h : DirOk L.Dom K U W s.kmem s.proc.pgdir) :
    (argv.length < MAXARG → need argv ≤ PGSIZE →
      (∀ s', exec L cwd path argv s = .ok (0, s') →
        ∃ p, Passed (view s'.kmem s'.proc.pgdir) s'.proc.sz s'.proc.esp argv p) ∧
      ∀ eip sz d s1, load L cwd path s = .ok (some (eip, sz, d), s1) →
        (∃ s', exec L cwd path argv s = .ok (0, s')) ∨
          ∃ d1 s2, stackPages L sz d s1 = .ok ((0, d1), s2)) ∧
    (∀ eip sz d s1, load L cwd path s = .ok (some (eip, sz, d), s1) →
      PGSIZE < need argv → need argv ≤ (pgroundup sz + 2) * PGSIZE →
      ∃ s', exec L cwd path argv s = .ok (-1, s')) := by
  have hle : ∀ f, (W + writes s.proc.pgdir : Frame → ℕ) f ≤ (U + refs s.proc.pgdir : Frame → ℕ) f :=
    fun f => Nat.add_le_add (h.le f) (writes_le_refs _ f)
  have hstart := Intact.start h
  have hP : PGSIZE = 4096 := rfl
  refine ⟨fun hlen hfit => ⟨fun s' hrun => ?_, fun eip sz d s1 hload => ?_⟩,
    fun eip sz d s1 hload hbig hneed => ?_⟩
  · rcases (exec_spec h hstart.counts cwd path argv).ok hrun with ⟨hret, -⟩ | ⟨-, hrep⟩
    · cases hret
    · obtain ⟨⟨n, hn⟩, hlt, σ, sp, us, ρ, hargs, hesp, hcopy⟩ := hrep.stacked
      have hK : KERNBASE = 2 ^ 31 := rfl
      rw [hP] at hn
      obtain ⟨-, hpassed⟩ := passed_of_copyout hargs hesp hcopy (by omega) (by omega) (by omega)
      exact ⟨_, hpassed hfit⟩
  · obtain ⟨h1, hsp1, -⟩ := (load_spec hstart hle cwd path).ok hload
    have hneed : need argv ≤ (pgroundup sz + 2) * PGSIZE := by
      rw [hP] at hfit ⊢
      omega
    obtain ⟨⟨o, d2⟩, s2, hrun2, h2, -, hnone⟩ := (stack_guarded h1 hsp1 hneed).exists_ok
    cases o with
    | none => exact Or.inr (hnone hlen.le hfit rfl)
    | some r =>
      obtain ⟨sz2, esp⟩ := r
      obtain ⟨r, s3, hrun3, rfl, -⟩ := (commit_spec path eip sz2 esp h.le h.wf h2).exists_ok
      refine Or.inl ⟨s3, ?_⟩
      rw [exec_of_load hload, bind_ok hrun2]
      exact hrun3
  · obtain ⟨h1, hsp1, -⟩ := (load_spec hstart hle cwd path).ok hload
    obtain ⟨⟨o, d2⟩, s2, hrun2, h2, hrefuse, -⟩ := (stack_guarded h1 hsp1 hneed).exists_ok
    obtain rfl : o = none := hrefuse hbig
    obtain ⟨r, s3, hrun3, rfl, -⟩ := (bad_closed_spec h2).exists_ok
    refine ⟨s3, ?_⟩
    rw [exec_of_load hload, bind_ok hrun2]
    exact hrun3

/-- A program gets two arguments, of two and of five characters. -/
theorem exec_passes_args_two :
    let L := smallLayout 12 (by decide)
    let argv : List (List UInt8) := [[65, 66], [67, 68, 69, 70, 71]]
    ∃ s' p, exec L 0 [Fs.slash, 98] argv (small L) = .ok (0, s') ∧
      Passed (view s'.kmem s'.proc.pgdir) s'.proc.sz s'.proc.esp argv p := by
  intro L argv
  have hrun : returned (exec L 0 [Fs.slash, 98] argv) (small L) = some 0 := by
    decide +kernel
  obtain ⟨s', hs'⟩ := ok_of_returned hrun
  obtain ⟨p, hp⟩ := ((exec_passes_args (running_ok (by decide))).1 (by decide) (by decide)).1 s' hs'
  exact ⟨s', p, hs', hp⟩

end Xv6.Exec
