import Xv6.Exec.Loader
import Xv6.Vm.Arguments
import Xv6.Vm.Fork

/-!
# What a call of `exec` leaves behind

A call of `exec` ends in one of two ways.  It fails, and everything is as it was (`Intact`): the
process, the memory, the references to inodes and the operations of the log.  Or it succeeds, and
the process has the new directory in the place of the old one.  Each of the ways to the label `bad`
has its own part of the state to release.

The theorem about the whole call (`exec_spec`) follows the text of the program.
-/

namespace Xv6.Exec

open Lib Vm

variable {s s0 s' : State} {L : Layout} {K U W : Frame → ℕ} {c : Fs.Icache → ℕ}
  {m : ℕ} {d : PageDir}
  {ip : Fs.Icache} {sz : ℕ} {argv : List (List UInt8)}

/-- Nothing has happened since `s0`: the books of the allocator are `K`, `U` and `W`, the pages in
them hold what they held, the process is the same, and the file system has the counts `c` and
`m`. -/
structure Intact (L : Layout) (K U W : Frame → ℕ) (c : Fs.Icache → ℕ) (m : ℕ) (s0 s : State) :
    Prop where
  ok : s.kmem.Ok L.Dom K U W
  keeps : Keeps U s0.kmem s.kmem
  proc : s.proc = s0.proc
  counts : Fs.Counts s.fs c m

/-! ## Setting up and releasing -/

theorem setupkvm_spec (h : Intact L K U W c m s0 s) (hle : ∀ f, W f ≤ U f) :
    wp (setupkvm L) s
      (fun o s' => match o with
        | none => Intact L K U W c m s0 s'
        | some d => Apart L K U W c m s0 s' d ∧ (view s'.kmem d).Spans 0)
      (fun _ => False) := by
  obtain ⟨o, k, hs, hkeep, hnone, hsome⟩ := Vm.setupkvm_spec h.ok hle
  rw [setupkvm, wp_bind, wp_get]
  refine wp_call hs ?_
  cases o with
  | none => exact ⟨hnone rfl, h.keeps.trans hkeep, h.proc, h.counts⟩
  | some d =>
    obtain ⟨hd, hempty⟩ := hsome d rfl
    refine ⟨⟨⟨hd, fun v hv hp => ?_, h.keeps.trans hkeep⟩, h.proc, h.counts⟩, fun v => ?_⟩
    · rw [hempty v hv] at hp
      cases hp
    · refine ⟨fun hv => absurd hv (Nat.not_lt_zero v), fun _ => ?_⟩
      exact congrFun (view_of_empty (σ := fun _ => none) hempty) v

/-- **`freevm`** of the new directory leaves nothing of it. -/
theorem freevm_spec (h : Apart L K U W c m s0 s d) :
    wp (freevm L d) s (fun _ s' => Intact L K U W c m s0 s') (fun _ => False) := by
  obtain ⟨k, hs, hok, hkeep⟩ := Vm.freevm_spec h.fresh.dir
  rw [freevm, wp_bind, wp_get]
  exact wp_call hs ⟨hok, h.fresh.keeps.trans hkeep, h.proc, h.counts⟩

theorem Intact.of_eq {c' : Fs.Icache → ℕ} {m' : ℕ} (h : Intact L K U W c m s0 s)
    (hc : Fs.Counts s'.fs c' m') (hk : s'.kmem = s.kmem) (hp : s'.proc = s.proc) :
    Intact L K U W c' m' s0 s' :=
  ⟨by rw [hk]; exact h.ok, by rw [hk]; exact h.keeps, hp.trans h.proc, hc⟩

theorem bad_none_spec (h : Intact L K U W (c + Pi.single ip 1) (m + 1) s0 s) :
    wp (bad L none (some ip)) s (fun r s' => r = -1 ∧ Intact L K U W c m s0 s') Stop.OfFs := by
  show wp (fsys (Fs.iunlockput ip) >>= fun _ => fsys Fs.endOp >>= fun _ => pure (-1)) s _ _
  refine (wp_fsys (Fs.iunlockput_counts h.counts)).bind ?_
  rintro _ s1 ⟨h1, hk1, hp1⟩
  refine (wp_fsys (Fs.endOp_counts h1)).bind ?_
  rintro _ s2 ⟨h2, hk2, hp2⟩
  exact ⟨rfl, h.of_eq h2 (hk2.trans hk1) (hp2.trans hp1)⟩

/-- **`bad`** with the directory, while the file is open. -/
theorem bad_open_spec (h : Apart L K U W (c + Pi.single ip 1) (m + 1) s0 s d) :
    wp (bad L (some d) (some ip)) s (fun r s' => r = -1 ∧ Intact L K U W c m s0 s') Stop.OfFs := by
  show wp (freevm L d >>= fun _ => bad L none (some ip)) s _ _
  refine (freevm_spec h).chain (fun _ he => he.elim) ?_
  exact fun _ s1 h1 => bad_none_spec h1

/-- **`bad`** with the directory, after the file was closed. -/
theorem bad_closed_spec (h : Apart L K U W c m s0 s d) :
    wp (bad L (some d) none) s (fun r s' => r = -1 ∧ Intact L K U W c m s0 s')
      (fun _ => False) := by
  show wp (freevm L d >>= fun _ => pure (-1)) s _ _
  exact (freevm_spec h).bind fun _ s1 h1 => ⟨rfl, h1⟩

/-! ## The file -/

/-- **The part of `exec` that has to do with the file.** -/
theorem load_spec (h : Intact L K U W c m s0 s) (hle : ∀ f, W f ≤ U f) (cwd : Fs.Icache)
    (path : Fs.Name) :
    wp (load L cwd path) s
      (fun o s' => match o with
        | none => Intact L K U W c m s0 s'
        | some (_, sz, d) => Apart L K U W c m s0 s' d ∧ (view s'.kmem d).Spans (pgroundup sz) ∧
            sz < KERNBASE)
      Stop.OfFs := by
  rw [load]
  refine (wp_fsys (Fs.beginOp_counts h.counts)).bind ?_
  rintro _ s1 ⟨hc1, hk1, hp1⟩
  have h1 := h.of_eq hc1 hk1 hp1
  refine (wp_fsys (Fs.namei_counts hc1 cwd path)).bind ?_
  rintro (_ | ip) s2 ⟨hc2, hk2, hp2⟩
  · refine (wp_fsys (Fs.endOp_counts hc2)).bind ?_
    rintro _ s3 ⟨hc3, hk3, hp3⟩
    exact h1.of_eq hc3 (hk3.trans hk2) (hp3.trans hp2)
  refine (wp_fsys (Fs.quiet_ilock ip hc2)).bind ?_
  rintro _ s3 ⟨hc3, hk3, hp3⟩
  have h3 := h1.of_eq hc3 (hk3.trans hk2) (hp3.trans hp2)
  have hread : wp (readAll ip 0 ELFHDRSIZE) s3
      (fun _ s' => Intact L K U W (c + Pi.single ip 1) (m + 1) s0 s') Stop.OfFs := by
    refine (wp_fsys (Fs.quiet_readi ip _ _ hc3)).bind ?_
    rintro (_ | bs) s4 ⟨hc4, hk4, hp4⟩
    · exact h3.of_eq hc4 hk4 hp4
    · exact h3.of_eq hc4 hk4 hp4
  refine hread.bind fun o s4 h4 => ?_
  cases o with
  | none => exact (bad_none_spec h4).bind fun _ _ hq => hq.2
  | some hdr =>
    dsimp only
    rw [wp_ite]
    refine ⟨fun _ => (bad_none_spec h4).bind fun _ _ hq => hq.2, fun _ => ?_⟩
    refine (setupkvm_spec h4 hle).chain (fun _ he => he.elim) ?_
    rintro (_ | d) s5 h5
    · exact (bad_none_spec h5).bind fun _ _ hq => hq.2
    · obtain ⟨h5, hsp5⟩ := h5
      have hzero : (view s5.kmem d).Spans (pgroundup 0) := hsp5
      refine (loadSegments_spec h5 hzero (by decide)).bind ?_
      rintro ⟨_ | sz, d6⟩ s6 ⟨h6, hdone⟩
      · exact (bad_open_spec h6).bind fun _ _ hq => hq.2
      · obtain ⟨hsp6, hlt⟩ := hdone sz rfl
        refine (wp_fsys (Fs.iunlockput_counts h6.counts)).bind ?_
        rintro _ s7 ⟨hc7, hk7, hp7⟩
        refine (wp_fsys (Fs.endOp_counts hc7)).bind ?_
        rintro _ s8 ⟨hc8, hk8, hp8⟩
        have hk := hk8.trans hk7
        refine ⟨⟨?_, (hp8.trans hp7).trans h6.proc, hc8⟩, ?_, hlt⟩
        · rw [hk]
          exact h6.fresh
        · rw [hk]
          exact hsp6

/-! ## The stack -/

/-- The memory `τ` is `σ` with the arguments put below the address `sz`. -/
def Pushed (argv : List (List UInt8)) (sz : ℕ) (σ : Space) (esp : ℕ) (τ : Space) : Prop :=
  ∃ sp us ρ, Space.pushArgs argv sz [] σ = some (sp, us, ρ) ∧
    esp = (sp + (2 ^ 32 - ustackSize us)) % 2 ^ 32 ∧
    Space.copyout (ustack sp us).length ρ esp (ustack sp us) = some τ

/-- An image of the size `sz`, with the arguments at its end. -/
structure Stacked (argv : List (List UInt8)) (sz esp : ℕ) (τ : Space) : Prop where
  size : ∃ n, sz = (n + 2) * PGSIZE
  lt : sz < KERNBASE
  args : ∃ σ, Pushed argv sz σ esp τ

theorem pgroundup_mul (n : ℕ) : pgroundup (n * PGSIZE) = n := by
  unfold pgroundup PGSIZE
  omega

section Stack

variable (h : Apart L K U W c m s0 s d)

include h

theorem pushArgs_spec {sp : ℕ} :
    wp (pushArgs d argv sp) s
      (fun o s' => Apart L K U W c m s0 s' d ∧ ∀ sp' us, o = some (sp', us) →
        Space.pushArgs argv sp [] (view s.kmem d) = some (sp', us, view s'.kmem d))
      (fun e => e = .null) := by
  rw [pushArgs, wp_bind, wp_get]
  refine wp_call_cases rfl ?_
  rintro ⟨o, k⟩ hs
  obtain ⟨hfresh, hres⟩ := Vm.pushArgs_spec h.fresh hs
  exact ⟨⟨hfresh, h.proc, h.counts⟩, hres⟩

theorem copyout_spec {va : ℕ} {buf : List UInt8} :
    wp (copyout d va buf) s
      (fun ok s' => Apart L K U W c m s0 s' d ∧
        (ok = true → Space.copyout buf.length (view s.kmem d) va buf = some (view s'.kmem d)))
      (fun e => e = .null) := by
  rw [copyout, wp_bind, wp_get]
  refine wp_call_cases rfl ?_
  rintro ⟨ok, k⟩ hs
  obtain ⟨hfresh, hres⟩ := copyoutLoop_spec h.fresh hs
  exact ⟨⟨hfresh, h.proc, h.counts⟩, hres⟩

theorem stackPages_spec
    (hsp : (view s.kmem d).Spans (pgroundup sz)) :
    wp (stackPages L sz d) s
      (fun r s' => Apart L K U W c m s0 s' r.2 ∧ (r.1 ≠ 0 → r.1 = (pgroundup sz + 2) * PGSIZE ∧
        r.1 < KERNBASE ∧ Guarded r.2 (pgroundup sz) ∧ view s'.kmem r.2 =
          ((view s.kmem d).fill (pgroundup sz) (pgroundup sz + 2)).guard (pgroundup sz)))
      (fun _ => False) := by
  rw [stackPages]
  rw [← pgroundup_mul (pgroundup sz)] at hsp
  refine (allocuvm_spec h hsp (pgroundup sz * PGSIZE + 2 * PGSIZE)).bind ?_
  rintro ⟨sz1, d1⟩ s1 ⟨h1, hdone⟩
  dsimp only at h1 hdone ⊢
  rw [wp_ite]
  refine ⟨fun _ => ⟨h1, fun hne => absurd rfl hne⟩, fun hne => ?_⟩
  obtain ⟨hlim, hmax, hsp1, hview1⟩ := hdone hne
  have hsz1 : sz1 = (pgroundup sz + 2) * PGSIZE := by
    rw [hmax, Nat.add_mul]
    omega
  rw [hsz1, pgroundup_mul] at hsp1
  rw [pgroundup_mul, ← Nat.add_mul, pgroundup_mul] at hview1
  -- the page below the stack
  have hguard : (sz1 - 2 * PGSIZE) / PGSIZE = pgroundup sz := by
    rw [hsz1]
    unfold PGSIZE
    omega
  obtain ⟨hlt, hp, -⟩ := hsp1.accessible (v := pgroundup sz) (by omega)
  rw [hguard]
  obtain ⟨d2, hclear⟩ : ∃ d2, clearpteu d1 (pgroundup sz) = some d2 := by
    rw [clearpteu, PageDir.walkpgdir_of_present hp]
    exact ⟨_, rfl⟩
  obtain ⟨hfresh2, hview2⟩ := clearpteu_spec h1.fresh hlt hp hclear
  refine wp_call hclear ⟨⟨hfresh2, h1.proc, h1.counts⟩, fun _ => ⟨hsz1, by omega, ?_, ?_⟩⟩
  · exact clearpteu_guarded hsp1 hclear
  · rw [hview2, hview1]

theorem stackArgs_spec :
    wp (stackArgs argv sz d) s
      (fun r s' => Apart L K U W c m s0 s' d ∧ ∀ esp, r = some esp →
        Pushed argv sz (view s.kmem d) esp (view s'.kmem d))
      (fun e => e = .null) := by
  rw [stackArgs]
  refine (pushArgs_spec h).bind ?_
  rintro (_ | ⟨sp, us⟩) s1 ⟨h1, hres1⟩
  · exact ⟨h1, nofun⟩
  · dsimp only
    refine (copyout_spec h1).bind ?_
    rintro ok s2 ⟨h2, hres2⟩
    rw [wp_ite]
    refine ⟨fun hok => ⟨h2, fun esp hr => ?_⟩, fun _ => ⟨h2, nofun⟩⟩
    cases hr
    exact ⟨sp, us, view s1.kmem d, hres1 sp us rfl, rfl, hres2 hok⟩

/-- **The part of `exec` that makes the stack.** -/
theorem stack_spec (hsp : (view s.kmem d).Spans (pgroundup sz)) :
    wp (stack L argv sz d) s
      (fun r s' => Apart L K U W c m s0 s' r.2 ∧ ∀ sz' esp, r.1 = some (sz', esp) →
        Stacked argv sz' esp (view s'.kmem r.2))
      (fun e => e = .null) := by
  rw [stack]
  refine (stackPages_spec h hsp).chain (fun _ he => he.elim) ?_
  rintro ⟨sz1, d1⟩ s1 ⟨h1, hdone⟩
  dsimp only at h1 hdone ⊢
  rw [wp_ite]
  refine ⟨fun _ => ⟨h1, nofun⟩, fun hne => ?_⟩
  obtain ⟨hsz1, hlt, -, -⟩ := hdone hne
  refine (stackArgs_spec h1).bind ?_
  rintro (_ | esp) s2 ⟨h2, hres⟩
  · exact ⟨h2, nofun⟩
  · refine ⟨h2, fun sz' esp' hr => ?_⟩
    cases hr
    exact ⟨⟨_, hsz1⟩, hlt, _, hres esp rfl⟩

end Stack

/-! ## The whole call -/

/-- What a successful call leaves: the new directory in the place of the old one, with the size and
the stack pointer. -/
structure Replaced (L : Layout) (K U W : Frame → ℕ) (c : Fs.Icache → ℕ) (m : ℕ)
    (argv : List (List UInt8)) (s : State) : Prop where
  dir : DirOk L.Dom K U W s.kmem s.proc.pgdir
  counts : Fs.Counts s.fs c m
  stacked : Stacked argv s.proc.sz s.proc.esp (view s.kmem s.proc.pgdir)

theorem commit_spec (path : Fs.Name) (eip sz esp : ℕ) (hle : ∀ f, W f ≤ U f)
    (hwf : s0.proc.pgdir.Wf)
    (h : Apart L (K + owned s0.proc.pgdir) (U + refs s0.proc.pgdir) (W + writes s0.proc.pgdir) c m
      s0 s d) :
    wp (commit L path eip sz esp d) s
      (fun r s' => r = 0 ∧ DirOk L.Dom K U W s'.kmem s'.proc.pgdir ∧ Fs.Counts s'.fs c m ∧
        s'.proc.pgdir = d ∧ s'.proc.sz = sz ∧ s'.proc.esp = esp ∧
        view s'.kmem d = view s.kmem d)
      (fun _ => False) := by
  have hold : DirOk L.Dom (K + owned d) (U + refs d) (W + writes d) s.kmem s0.proc.pgdir :=
    h.fresh.dir.swap hle hwf
  obtain ⟨k, hs, hok, hkeep⟩ := Vm.freevm_spec hold
  rw [commit, wp_bind, wp_get, wp_bind, wp_modify, wp_bind, freevm, wp_bind, wp_get, h.proc]
  refine wp_call hs ?_
  refine ⟨rfl, ⟨hok, hle, h.fresh.dir.wf⟩, h.counts, rfl, rfl, rfl, ?_⟩
  exact hkeep.view fun f => by rw [Pi.add_apply]; omega

/-- **`exec`** fails and changes nothing, or it succeeds and replaces the image of the process.
Apart from a stop of the file system, the only way in which it does not return is the null pointer
in `copyout`. -/
theorem exec_spec (h : DirOk L.Dom K U W s.kmem s.proc.pgdir) (hc : Fs.Counts s.fs c m)
    (cwd : Fs.Icache) (path : Fs.Name) (argv : List (List UInt8)) :
    wp (exec L cwd path argv) s
      (fun r s' => r = -1 ∧ Intact L (K + owned s.proc.pgdir) (U + refs s.proc.pgdir)
          (W + writes s.proc.pgdir) c m s s' ∨
        r = 0 ∧ Replaced L K U W c m argv s')
      (fun e => e.OfFs ∨ e = .null) := by
  have hle : ∀ f, (W + writes s.proc.pgdir : Frame → ℕ) f ≤ (U + refs s.proc.pgdir : Frame → ℕ) f :=
    fun f => Nat.add_le_add (h.le f) (writes_le_refs _ f)
  have hstart : Intact L (K + owned s.proc.pgdir) (U + refs s.proc.pgdir)
      (W + writes s.proc.pgdir) c m s s := ⟨h.ok, .rfl, rfl, hc⟩
  rw [exec]
  refine (load_spec hstart hle cwd path).chain (fun _ he => Or.inl he) ?_
  rintro (_ | ⟨eip, sz, d⟩) s1 h1
  · exact Or.inl ⟨rfl, h1⟩
  obtain ⟨h1, hsp1, -⟩ := h1
  refine (stack_spec h1 hsp1).chain (fun _ he => Or.inr he) ?_
  rintro ⟨_ | ⟨sz2, esp⟩, d2⟩ s2 ⟨h2, hres⟩
  · exact (bad_closed_spec h2).mono (fun _ _ hq => Or.inl hq) fun _ he => he.elim
  · refine (commit_spec path eip sz2 esp h.le h.wf h2).mono ?_ fun _ he => he.elim
    rintro r s3 ⟨rfl, hdir, hcounts, hd, hsz, hesp, hview⟩
    refine Or.inr ⟨rfl, hdir, hcounts, ?_⟩
    dsimp only at hd hview
    rw [hsz, hesp, hd, hview]
    exact hres sz2 esp rfl

theorem Intact.start (h : DirOk L.Dom K U W s.kmem s.proc.pgdir) :
    Intact L (K + owned s.proc.pgdir) (U + refs s.proc.pgdir) (W + writes s.proc.pgdir)
      (fun ip => (s.fs.inode ip).ref) s.fs.outstanding s s :=
  ⟨h.ok, .rfl, rfl, fun _ => rfl, rfl⟩

/-- The pages that others map, and those of the process itself, hold what they held. -/
theorem Intact.view (h : Intact L (K + owned s.proc.pgdir) (U + refs s.proc.pgdir)
    (W + writes s.proc.pgdir) c m s s') :
    view s'.kmem s'.proc.pgdir = view s.kmem s.proc.pgdir := by
  rw [h.proc]
  exact h.keeps.view fun f => by rw [Pi.add_apply]; omega

/-- **A failing `exec` leaves the caller intact.**  Whatever the file holds, wherever memory runs
out and whatever the arguments are: when `exec` returns -1, the process is what it was, with its
directory, size, name and registers, its memory holds what it held, the free pages and the counts
are the same, and so are the references to inodes and the number of operations. -/
theorem exec_failed_intact {s' : State} {cwd : Fs.Icache} {path : Fs.Name}
    {argv : List (List UInt8)} (h : DirOk L.Dom K U W s.kmem s.proc.pgdir)
    (hrun : exec L cwd path argv s = .ok (-1, s')) :
    s'.proc = s.proc ∧ Vm.view s'.kmem s'.proc.pgdir = Vm.view s.kmem s.proc.pgdir ∧
      s'.kmem.freelist.Perm s.kmem.freelist ∧
      (∀ f, refcount f s'.kmem = refcount f s.kmem) ∧
      (∀ ip, (s'.fs.inode ip).ref = (s.fs.inode ip).ref) ∧
      s'.fs.outstanding = s.fs.outstanding := by
  rcases (exec_spec h (Intact.start h).counts cwd path argv).ok hrun with ⟨-, hint⟩ | ⟨hret, -⟩
  · obtain ⟨hfree, hcount⟩ := h.ok.unique hint.ok
    exact ⟨hint.proc, hint.view, hfree, hcount, hint.counts.ref, hint.counts.ops⟩
  · cases hret

/-- Memory runs out while the stack is made. -/
theorem exec_failed_intact_small :
    let L := smallLayout 7 (by decide)
    ∃ s', exec L 0 [Fs.slash, 98] [[65, 66]] (small L) = .ok (-1, s') ∧
      s'.kmem.freelist.Perm [2, 3, 4, 5, 6] ∧ s'.fs.outstanding = 0 := by
  intro L
  have hrun : returned (exec L 0 [Fs.slash, 98] [[65, 66]]) (small L) = some (-1) := by
    decide +kernel
  obtain ⟨s', hs'⟩ := ok_of_returned hrun
  obtain ⟨-, -, hfree, -, -, hops⟩ := exec_failed_intact (running_ok (by decide)) hs'
  exact ⟨s', hs', hfree, hops⟩

/-! ## Program headers of any kind -/

/-- A header that has passed the checks of `exec`, except the one for alignment, which comes
later. -/
structure Checked (ph : Proghdr) : Prop where
  memsz_lt : ph.memsz < 2 ^ 32
  file : ¬ ph.memsz < ph.filesz
  wrap : ¬ ph.limit < ph.vaddr

/-- A call of `loaduvm` for the header `ph` in the state `s`, for an image of the size `sz`: it does
not panic, and writes only to pages of the image, which nobody else has. -/
def LoadsInside (U : Frame → ℕ) (d : PageDir) (sz : ℕ) (ip : Fs.Icache) (ph : Proghdr) (s : State) :
    Prop :=
  wp (loaduvm d ph.vaddr ip ph.off ph.filesz) s
    (fun _ s' => ∀ f, s'.kmem.mem f ≠ s.kmem.mem f →
      ∃ v, ph.vaddr / PGSIZE ≤ v ∧ v < pgroundup sz ∧ v < UPAGES ∧ d.Accessible v ∧
        (d.pte v).addr = f ∧ U f = 0)
    Stop.OfFs

theorem Apart.loadsInside {ph : Proghdr} {oldsz : ℕ} (h : Apart L K U W c m s0 s d)
    (hsp : (view s.kmem d).Spans (pgroundup sz)) (hph : Checked ph) (ha : ph.vaddr % PGSIZE = 0)
    (hsz : sz = max oldsz ph.limit) : LoadsInside U d sz ip ph s := by
  have hend : ph.vaddr + ph.filesz ≤ sz := by
    have := Proghdr.limit_eq hph.memsz_lt hph.wrap
    have := hph.file
    omega
  refine (loaduvm_spec h hsp ha hend).mono ?_ fun _ he => he
  rintro _ s' ⟨-, -, hin⟩ f hf
  obtain ⟨v, hlo, hhi, rfl⟩ := hin f hf
  obtain ⟨hlt, hacc⟩ := hsp.accessible hhi
  exact ⟨v, hlo, hhi, hlt, hacc, rfl, h.fresh.dir.alone hlt hacc.1 (h.fresh.priv v hlt hacc.1)⟩

/-- **The loader is safe on any file.**  `exec` reaches no panic of `loaduvm`, `mappages`,
`clearpteu` or `kfree`.  After any number of headers, whether or not they were accepted, the
directory gives the user no page at or above `KERNBASE`, and neither does it with the pages of the
stack.  And when the next header has been read and has passed the checks, `loaduvm` writes to pages
of the new image only. -/
theorem exec_loads_safely (h : DirOk L.Dom K U W s.kmem s.proc.pgdir) :
    (∀ cwd path argv, exec L cwd path argv s ≠ .error .panic) ∧
    ∀ d s1, setupkvm L s = .ok (some d, s1) → ∀ ip n off o d2 s2,
      loadSegments L ip n off 0 d s1 = .ok ((o, d2), s2) →
      (∀ v, UPAGES ≤ v → (d2.pte v).user = false) ∧ ∀ sz, o = some sz →
        (∀ sz3 d3 s3, stackPages L sz d2 s2 = .ok ((sz3, d3), s3) →
          ∀ v, UPAGES ≤ v → (d3.pte v).user = false) ∧
        ∀ off3 b s3, readAll ip off3 PROGHDRSIZE s2 = .ok (b, s3) → ∀ ph, Checked ph →
          ∀ sz4 d4 s4, allocuvm L d2 sz ph.limit s3 = .ok ((sz4, d4), s4) →
            sz4 ≠ 0 → ph.vaddr % PGSIZE = 0 →
            LoadsInside (U + refs s.proc.pgdir) d4 sz4 ip ph s4 := by
  have hle : ∀ f, (W + writes s.proc.pgdir : Frame → ℕ) f ≤ (U + refs s.proc.pgdir : Frame → ℕ) f :=
    fun f => Nat.add_le_add (h.le f) (writes_le_refs _ f)
  refine ⟨fun cwd path argv hrun => ?_, fun d s1 hset ip n off o d2 s2 hrun => ?_⟩
  · rcases (exec_spec h (Intact.start h).counts cwd path argv).error hrun with ⟨e, he⟩ | he
    · cases he
    · cases he
  · obtain ⟨h1, hsp1⟩ := (setupkvm_spec (Intact.start h) hle).ok hset
    have hzero : (view s1.kmem d).Spans (pgroundup 0) := hsp1
    obtain ⟨h2, hdone2⟩ := (loadSegments_spec h1 hzero (by decide)).ok hrun
    refine ⟨h2.fresh.dir.wf.kern, fun sz ho => ?_⟩
    obtain ⟨hsp2, -⟩ := hdone2 sz ho
    refine ⟨fun sz3 d3 s3 hpages => ?_, fun off3 b s3 hread ph hph sz4 d4 s4 halloc hne ha => ?_⟩
    · exact ((stackPages_spec h2 hsp2).ok hpages).1.fresh.dir.wf.kern
    · obtain ⟨h3, hk3⟩ := (readAll_spec h2 off3 PROGHDRSIZE).ok hread
      rw [← hk3] at hsp2
      obtain ⟨h4, hdone4⟩ := (allocuvm_spec h3 hsp2 ph.limit).ok halloc
      obtain ⟨-, hmax, hsp4, -⟩ := hdone4 hne
      exact h4.loadsInside hsp4 hph ha hmax

/-- `exec` opens the file `b`. -/
def openB : Fs.Op Fs.Icache := do
  Fs.beginOp
  match ← Fs.namei 0 [Fs.slash, 98] with
  | none => throw .hang
  | some ip =>
    Fs.ilock ip
    return ip

/-- The second header of the program, after the first was loaded: its bytes go to a page of the new
image. -/
theorem exec_loads_safely_second :
    let L := smallLayout 12 (by decide)
    ∃ ip s d s1 d2 s2 bs s3 d4 s4, fsys openB (small L) = .ok (ip, s) ∧
      setupkvm L s = .ok (some d, s1) ∧ loadSegments L ip 1 52 0 d s1 = .ok ((some 8, d2), s2) ∧
      readAll ip 84 PROGHDRSIZE s2 = .ok (some bs, s3) ∧
      allocuvm L d2 8 (Proghdr.parse bs).limit s3 = .ok ((4104, d4), s4) ∧
      LoadsInside (refs s.proc.pgdir) d4 4104 ip (Proghdr.parse bs) s4 := by
  intro L
  have hrun :
    returned (fsys openB >>= fun ip => setupkvm L >>= fun o => o.elim (throw .panic) fun d =>
      loadSegments L ip 1 52 0 d >>= fun r => readAll ip 84 PROGHDRSIZE >>= fun b =>
      b.elim (throw .panic) fun bs => allocuvm L r.2 8 (Proghdr.parse bs).limit >>= fun x =>
      pure (r.1, (Proghdr.parse bs).vaddr, (Proghdr.parse bs).filesz,
        (Proghdr.parse bs).memsz, x.1))
      (small L) = some (some 8, 4096, 4, 8, 4104) := by decide +kernel
  obtain ⟨ip, s, hopen, hrun⟩ := returned_bind hrun
  obtain ⟨_ | d, s1, hset, hrun⟩ := returned_bind hrun
  · cases hrun
  obtain ⟨⟨o, d2⟩, s2, hseg, hrun⟩ := returned_bind hrun
  obtain ⟨_ | bs, s3, hread, hrun⟩ := returned_bind hrun
  · cases hrun
  obtain ⟨⟨sz4, d4⟩, s4, halloc, hrun⟩ := returned_bind hrun
  obtain ⟨rfl, hvaddr, hfilesz, hmemsz, rfl⟩ : o = some 8 ∧ (Proghdr.parse bs).vaddr = 4096 ∧
      (Proghdr.parse bs).filesz = 4 ∧ (Proghdr.parse bs).memsz = 8 ∧ sz4 = 4104 := by
    simpa only [Prod.mk.injEq] using Option.some.inj hrun
  have hph : Checked (Proghdr.parse bs) := by
    refine ⟨?_, ?_, ?_⟩
    · rw [hmemsz]
      decide
    · rw [hmemsz, hfilesz]
      decide
    · rw [Proghdr.limit, hvaddr, hmemsz]
      decide
  -- opening the file has left the memory and the process alone
  obtain ⟨-, hkmem, hproc⟩ := (wp_fsys (R := fun _ _ => True) (s := small L) wp_any).ok hopen
  have hdir : DirOk L.Dom 0 0 0 s.kmem s.proc.pgdir := by
    rw [hkmem, hproc]
    exact running_ok (by decide)
  have hload :=
    (((exec_loads_safely hdir).2 d s1 hset ip 1 52 _ d2 s2 hseg).2 8 rfl).2 84 _ s3 hread
    _ hph 4104 d4 s4 halloc (by decide) (by rw [hvaddr]; decide)
  rw [zero_add] at hload
  exact ⟨ip, s, d, s1, d2, s2, bs, s3, d4, s4, hopen, hset, hseg, hread, halloc, hload⟩

end Xv6.Exec
