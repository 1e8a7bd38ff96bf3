import Xv6.Exec.Arguments

/-!
# An argument that is larger than the image

`exec` takes the length of a string away from the stack pointer and does not look whether the result
is below zero.  A string that is a little larger than the image therefore goes to the top of the
address space, where the devices are; the user may not access these pages, and `copyout` returns -1.
A string that is more than the 32 MiB of the devices larger goes to addresses that have no page
table, and there `uva2ka` dereferences the null pointer that `walkpgdir` returns.
-/

namespace Xv6.Exec

open Lib Vm

variable {s s1 s2 : State} {L : Layout} {K U W : Frame → ℕ} {d d' : PageDir} {ip : Fs.Icache}
  {i n off sz sz' eip : ℕ} {cwd : Fs.Icache} {path : Fs.Name} {fs : Fs.State} {α : Type}

/-! ## Entries without a table -/

theorem allocuvm_tab (h : d.tab i = none) (hi : UPAGES / NPDENTRIES ≤ i) (oldsz newsz : ℕ) :
    wp (allocuvm L d oldsz newsz) s (fun r _ => r.2.tab i = none) fun _ => True := by
  rw [allocuvm, wp_bind, wp_get]
  exact wp_call_cases trivial fun r hr => Vm.allocuvm_tab h hi hr

theorem loadSegments_tab (h : d.tab i = none) (hi : UPAGES / NPDENTRIES ≤ i) :
    wp (loadSegments L ip n off sz d) s (fun r _ => r.2.tab i = none) fun _ => True := by
  induction n generalizing off sz d s with
  | zero => exact h
  | succ n ih =>
    rw [loadSegments]
    refine wp_any.bind fun o s1 _ => ?_
    cases o with
    | none => exact h
    | some bs =>
      dsimp only
      generalize Proghdr.parse bs = ph
      rw [wp_ite]
      refine ⟨fun _ => ih h, fun _ => ?_⟩
      rw [wp_ite]
      refine ⟨fun _ => h, fun _ => ?_⟩
      rw [wp_ite]
      refine ⟨fun _ => h, fun _ => ?_⟩
      refine (allocuvm_tab h hi sz ph.limit).bind ?_
      rintro ⟨sz1, d1⟩ s2 h1
      dsimp only at h1 ⊢
      rw [wp_ite]
      refine ⟨fun _ => h1, fun _ => ?_⟩
      rw [wp_ite]
      refine ⟨fun _ => h1, fun _ => ?_⟩
      refine wp_any.bind fun ok s3 _ => ?_
      rw [wp_ite]
      exact ⟨fun _ => ih h1, fun _ => h1⟩

theorem stackPages_tab (h : d.tab i = none) (hi : UPAGES / NPDENTRIES ≤ i) :
    wp (stackPages L sz d) s (fun r _ => r.2.tab i = none) fun _ => True := by
  rw [stackPages]
  refine (allocuvm_tab h hi _ _).bind ?_
  rintro ⟨sz1, d1⟩ s1 h1
  dsimp only at h1 ⊢
  rw [wp_ite]
  exact ⟨fun _ => h1, fun _ => wp_call_cases trivial fun d2 hd2 => clearpteu_tab h1 hd2⟩

/-- The directory of a loaded program has the tables of the kernel and those below `KERNBASE`. -/
theorem load_tab
    (hout : ∀ k d k', Vm.setupkvm L k = some (some d, k') → d.tab i = none)
    (hi : UPAGES / NPDENTRIES ≤ i) :
    wp (load L cwd path) s (fun o _ => ∀ r, o = some r → r.2.2.tab i = none) fun _ => True := by
  rw [load]
  refine wp_any.bind fun _ s1 _ => wp_any.bind fun o s2 _ => ?_
  cases o with
  | none => exact wp_any.bind fun _ s3 _ _ hr => by cases hr
  | some ip =>
    refine wp_any.bind fun _ s3 _ => wp_any.bind fun o s4 _ => ?_
    cases o with
    | none => exact wp_any.bind fun _ s5 _ _ hr => by cases hr
    | some hdr =>
      dsimp only
      rw [wp_ite]
      refine ⟨fun _ => wp_any.bind fun _ s5 _ _ hr => (by cases hr), fun _ => ?_⟩
      have hset : wp (setupkvm L) s4 (fun o _ => ∀ d, o = some d → d.tab i = none)
          fun _ => True := by
        rw [setupkvm, wp_bind, wp_get]
        refine wp_call_cases trivial ?_
        rintro ⟨o, k⟩ hs d rfl
        exact hout _ _ _ hs
      refine hset.bind fun o s5 h5 => ?_
      cases o with
      | none => exact wp_any.bind fun _ s6 _ _ hr => by cases hr
      | some d =>
        refine (loadSegments_tab (h5 d rfl) hi).bind ?_
        rintro ⟨_ | sz, d6⟩ s6 h6
        · exact wp_any.bind fun _ s7 _ _ hr => by cases hr
        · refine wp_any.bind fun _ s7 _ => wp_any.bind fun _ s8 _ r hr => ?_
          cases hr
          exact h6

/-! ## The null pointer -/

theorem pushArgs_none {argv : List (List UInt8)} (h : Vm.pushArgs d argv sz [] s.kmem = none) :
    pushArgs d argv sz s = .error .null := by
  rw [pushArgs, bind_ok (show (get : Op State) s = .ok (s, s) from rfl)]
  refine bind_error ?_
  rw [h, call]
  rfl

/-- **A long argument.**  A string that is more than 32 MiB larger than the image, but not so large
that it reaches the kernel's memory, is put where there is no page table: `copyout` is not safe
there, and `exec` stops at the null pointer. -/
theorem exec_null (hload : load pc cwd path s = .ok (some (eip, sz, d), s1))
    (hpages : stackPages pc sz d s1 = .ok ((sz', d'), s2)) (hne : sz' ≠ 0) (hlt : sz' < KERNBASE)
    {a : List UInt8} (argv : List (List UInt8)) (hlo : sz' + (2 ^ 32 - DEVSPACE) < a.length + 1)
    (hhi : a.length + 1 ≤ sz' + (2 ^ 32 - (KERNBASE + PHYSTOP))) :
    ¬ CopyoutSafe s2.kmem d' (pushDown sz' (a.length + 1)) (a ++ [0]) ∧
      exec pc cwd path (a :: argv) s = .error .null := by
  have hK : KERNBASE = 0x80000000 := rfl
  have hT : PHYSTOP = 0xE000000 := rfl
  have hD : DEVSPACE = 0xFE000000 := rfl
  have hsz : sz' < 0x80000000 := hlt
  rw [hD] at hlo
  rw [hK, hT] at hhi
  have hva : KERNBASE + PHYSTOP ≤ pushDown sz' (a.length + 1) ∧
      pushDown sz' (a.length + 1) < DEVSPACE := by
    rw [hK, hT, hD]
    unfold pushDown
    omega
  generalize hsp : pushDown sz' (a.length + 1) = va at hva ⊢
  -- there is no table at this address
  have htab : d'.tab (va / PGSIZE / NPDENTRIES) = none := by
    have hi : UPAGES / NPDENTRIES ≤ va / PGSIZE / NPDENTRIES :=
      Nat.div_le_div_right (Nat.div_le_div_right (le_trans (Nat.le_add_right _ _) hva.1))
    have hout : ∀ k d k', Vm.setupkvm pc k = some (some d, k') →
        d.tab (va / PGSIZE / NPDENTRIES) = none := fun k d k' hs => by
      refine setupkvm_pc_tab ?_ ?_ hs
      · unfold UPAGES PGSIZE
        rw [hK, hT] at *
        omega
      · unfold PGSIZE
        rw [hD] at *
        omega
    have hd : d.tab (va / PGSIZE / NPDENTRIES) = none := (load_tab hout hi).ok hload _ rfl
    exact (stackPages_tab hd hi).ok hpages
  have hva32 : va < 2 ^ 32 := by
    rw [hD] at hva
    omega
  have hwalk : ¬ Walkable d' va (a ++ [0]).length := by
    intro hw
    have hlen : (a ++ [0]).length ≠ 0 := by
      rw [List.length_append]
      exact Nat.succ_ne_zero _
    have h0 := hw 0 (pages_pos hlen va) fun j hj => absurd hj (Nat.not_lt_zero j)
    rw [pageAt_zero hva32, walkpgdir, htab] at h0
    cases h0
  have hnone : Vm.copyout s2.kmem d' va (a ++ [0]) = none := (copyout_eq_none_iff hva32).mpr hwalk
  refine ⟨?_, ?_⟩
  · rintro ⟨ok, k', hs, -⟩
    rw [hnone] at hs
    cases hs
  · have hargs : Vm.pushArgs d' (a :: argv) sz' [] s2.kmem = none := by
      rw [Vm.pushArgs, if_neg (by decide)]
      show (Vm.copyout s2.kmem d' (pushDown sz' (a.length + 1)) (a ++ [0]) >>= _) = none
      rw [hsp, hnone]
      rfl
    have hstack : stack pc (a :: argv) sz d s1 = .error .null := by
      rw [stack, bind_ok hpages]
      dsimp only
      rw [if_neg hne]
      exact bind_error (bind_error (pushArgs_none hargs))
    rw [exec_of_load hload]
    exact bind_error hstack

/-! ## A program without segments -/

def after {α : Type} (p : Fs.Op α) (fs : Fs.State) : Fs.State :=
  match p fs with
  | .ok (_, fs') => fs'
  | .error _ => fs

theorem ok_after {p : Fs.Op α} {a : α}
    (h : (p fs).toOption.map Prod.fst = some a) : p fs = .ok (a, after p fs) := by
  unfold after
  cases hp : p fs with
  | error e =>
    rw [hp] at h
    cases h
  | ok r =>
    rw [hp] at h
    cases h
    rfl

theorem fsys_ok {p : Fs.Op α} {a : α} (h : p s.fs = .ok (a, fs)) :
    fsys p s = .ok (a, { s with fs := fs }) := by
  unfold fsys
  rw [h]

theorem readAll_ok {bs : List UInt8}
    (h : Fs.readi ip (UInt32.ofNat off) (UInt32.ofNat n) s.fs = .ok (some bs, fs))
    (hlen : bs.length = n) : readAll ip off n s = .ok (some bs, { s with fs := fs }) := by
  rw [readAll, bind_ok (fsys_ok h)]
  show Except.ok (if bs.length = n then some bs else none, _) = _
  rw [if_pos hlen]

theorem setupkvm_ok {k : Kmem} {o : Option PageDir} (h : Vm.setupkvm L s.kmem = some (o, k)) :
    setupkvm L s = .ok (o, { s with kmem := k }) := by
  rw [setupkvm, bind_ok (show (get : Op State) s = .ok (s, s) from rfl), h, call]
  rfl

theorem load_of_header {fs1 fs2 fs3 fs4 fs5 fs6 : Fs.State} {hdr : List UInt8} {k : Kmem}
    (h1 : Fs.beginOp s.fs = .ok ((), fs1)) (h2 : Fs.namei cwd path fs1 = .ok (some ip, fs2))
    (h3 : Fs.ilock ip fs2 = .ok ((), fs3))
    (h4 : Fs.readi ip (UInt32.ofNat 0) (UInt32.ofNat ELFHDRSIZE) fs3 = .ok (some hdr, fs4))
    (hlen : hdr.length = ELFHDRSIZE) (hmagic : (Elfhdr.parse hdr).magic = ELF_MAGIC)
    (hphnum : (Elfhdr.parse hdr).phnum = 0) (hset : Vm.setupkvm L s.kmem = some (some d, k))
    (h5 : Fs.iunlockput ip fs4 = .ok ((), fs5)) (h6 : Fs.endOp fs5 = .ok ((), fs6)) :
    load L cwd path s = .ok (some (entry hdr, 0, d), ⟨fs6, k, s.proc⟩) := by
  rw [load, bind_ok (fsys_ok h1), bind_ok (fsys_ok h2)]
  dsimp only
  rw [bind_ok (fsys_ok h3), bind_ok (readAll_ok h4 hlen)]
  dsimp only
  rw [if_neg (not_ne_iff.mpr hmagic), bind_ok (setupkvm_ok (s := ⟨fs4, s.kmem, s.proc⟩) hset)]
  dsimp only
  rw [hphnum, bind_ok (show loadSegments L ip 0 _ 0 d _ = .ok ((some 0, d), _) from rfl)]
  dsimp only
  rw [bind_ok (fsys_ok h5), bind_ok (fsys_ok h6)]
  rfl

theorem stackPages_room (h : Room 2 s.kmem d)
    (hsz : pgroundup sz * PGSIZE + 2 * PGSIZE < KERNBASE) :
    wp (stackPages L sz d) s (fun r _ => r.1 = pgroundup sz * PGSIZE + 2 * PGSIZE)
      fun _ => True := by
  have hpages : pgroundup (pgroundup sz * PGSIZE + 2 * PGSIZE) - pgroundup (pgroundup sz * PGSIZE) =
      2 := by
    rw [← Nat.add_mul, pgroundup_mul, pgroundup_mul]
    omega
  have halloc : wp (allocuvm L d (pgroundup sz * PGSIZE) (pgroundup sz * PGSIZE + 2 * PGSIZE)) s
      (fun r _ => r.1 = pgroundup sz * PGSIZE + 2 * PGSIZE) fun _ => True := by
    rw [allocuvm, wp_bind, wp_get]
    refine wp_call_cases trivial fun r hr => ?_
    refine (Room.allocuvm (m := 0) ?_ hsz (Nat.le_add_right _ _) hr).1
    rw [hpages, Nat.add_zero]
    exact h
  rw [stackPages]
  refine halloc.bind ?_
  rintro ⟨sz1, d1⟩ s1 hsz1
  dsimp only at hsz1 ⊢
  rw [wp_ite]
  refine ⟨fun hzero => ?_, fun _ => wp_call_cases trivial fun d2 _ => hsz1⟩
  rw [hzero] at hsz1
  exact hsz1

/-- A string of 40 MiB for a program without segments. -/
theorem copyout_not_safe : ∃ eip d s1 d' s2,
    load pc 0 [Fs.slash, 97] (small pc) = .ok (some (eip, 0, d), s1) ∧
    stackPages pc 0 d s1 = .ok ((2 * PGSIZE, d'), s2) ∧
    ¬ CopyoutSafe s2.kmem d' (pushDown (2 * PGSIZE) (40 * 2 ^ 20 + 1))
      (List.replicate (40 * 2 ^ 20) 65 ++ [0]) ∧
    exec pc 0 [Fs.slash, 97] [List.replicate (40 * 2 ^ 20) 65] (small pc) = .error .null := by
  have hok : DirOk pc.Dom 0 0 0 (running pc) (PageDir.empty pc.first) := running_ok (by decide)
  have hstart := Intact.start (s := small pc) hok
  have hle : ∀ f, (0 + writes (PageDir.empty pc.first) : Frame → ℕ) f ≤
      (0 + refs (PageDir.empty pc.first) : Frame → ℕ) f :=
    fun f => Nat.add_le_add le_rfl (writes_le_refs _ f)
  -- the directory of the kernel
  obtain ⟨o, k, hset, -⟩ := Vm.setupkvm_spec hok.ok hle
  have hlen : NPDENTRIES + 2 + 1 ≤ (running pc).freelist.length := by
    show _ ≤ (List.range' _ _).length
    rw [List.length_range']
    decide
  obtain ⟨d, rfl, hroom⟩ := setupkvm_room hlen hset
  -- the calls of the file system
  let fs1 := after Fs.beginOp (small pc).fs
  let fs2 := after (Fs.namei 0 [Fs.slash, 97]) fs1
  let fs3 := after (Fs.ilock 1) fs2
  let fs4 := after (Fs.readi 1 (UInt32.ofNat 0) (UInt32.ofNat ELFHDRSIZE)) fs3
  let fs5 := after (Fs.iunlockput 1) fs4
  have h2 : Fs.namei 0 [Fs.slash, 97] fs1 = .ok (some 1, fs2) :=
    ok_after (by decide +kernel)
  have h3 : Fs.ilock 1 fs2 = .ok ((), fs3) := ok_after (by decide +kernel)
  have h4 : Fs.readi 1 (UInt32.ofNat 0) (UInt32.ofNat ELFHDRSIZE) fs3 =
      .ok (some ((program 0).take 52), fs4) := ok_after (by decide +kernel)
  have h5 : Fs.iunlockput 1 fs4 = .ok ((), fs5) := ok_after (by decide +kernel)
  have hload := load_of_header (L := pc) (s := small pc) rfl h2 h3 h4 (by decide) (by decide)
    (by decide) hset h5 rfl
  -- the pages of the stack
  obtain ⟨h1, hsp1, -⟩ := (load_spec hstart hle _ _).ok hload
  obtain ⟨⟨sz', d'⟩, s2, hpages, -, -⟩ := (stackPages_spec h1 hsp1).exists_ok
  obtain rfl : sz' = 2 * PGSIZE := (stackPages_room hroom (by decide)).ok hpages
  have hlen' : (List.replicate (40 * 2 ^ 20) (65 : UInt8)).length = 40 * 2 ^ 20 :=
    List.length_replicate
  obtain ⟨hbad, hnull⟩ := exec_null hload hpages (by decide) (by decide) []
    (a := List.replicate (40 * 2 ^ 20) 65) (by rw [hlen']; decide +kernel)
    (by rw [hlen']; decide +kernel)
  rw [hlen'] at hbad
  exact ⟨_, d, _, d', s2, hload, hpages, hbad, hnull⟩

end Xv6.Exec
