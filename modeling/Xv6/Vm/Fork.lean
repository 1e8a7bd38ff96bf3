import Xv6.Process.Table
import Xv6.Vm.Access
import Xv6.Vm.Growproc
import Xv6.Vm.Tables

/-!
# What `fork` does to memory

`fork` takes a page for the kernel stack of the child and then shares the parent's memory with it,
one page after the other.  Memory can run out at any of these points: for the stack, for the child's
page directory and the tables of the kernel part, or for a table of the user part.  By then the
entries of the parent have lost their write bits and the counts of the shared pages have gone up.

`fork_fail_no_trace` says what is left of that: nothing but the write bits, and those come back at
the next write, without a new page for those pages that were the parent's alone.

After a `fork` that succeeds, neither of the two sees what the other stores (`fork_isolates`).
-/

namespace Xv6.Vm

open Lib Process

/-- The fields of the child's slot that `fork` sets before it can fail. -/
structure Child where
  state : ProcState
  kstack : Option Frame
  pgdir : Option PageDir

/-- `allocproc`, after it has found a free slot: the slot is claimed, and gets a kernel stack or is
given up again. -/
def allocproc (k : Kmem) (np : Child) : Bool × Kmem × Child :=
  match kalloc k with
  | none => (false, k, { np with state := .unused, kstack := none })
  | some (f, k) => (true, k, { np with state := .embryo, kstack := some f })

/-- Create a new process copying the one with the directory `d`, in the slot `np`.  Returns the
number `pid` of the child, or -1. -/
def fork (L : Layout) (k : Kmem) (d : PageDir) (sz : ℕ) (np : Child) (pid : ℤ) :
    Option (ℤ × Kmem × PageDir × Child) :=
  match allocproc k np with
  | (false, k, np) => some (-1, k, d, np)
  | (true, k, np) => do
    match ← cowuvm L k d sz with
    | (none, k, d) =>
      match np.kstack with
      | none => none
      | some f => do
        let k ← kfree L f k
        some (-1, k, d, { np with state := .unused, kstack := none, pgdir := none })
    | (some c, k, d) => some (pid, k, d, { np with state := .runnable, pgdir := some c })

/-- **The memory of a process in order**, with those of the other processes around it: the process
has the pages below its size, and `K` is what the kernel holds besides the page tables of this
process. -/
structure MemOk (L : Layout) (K : Frame → ℕ) (others : List PageDir) (k : Kmem) (d : PageDir)
    (sz : ℕ) : Prop where
  dir : DirOk L.Dom K (others.map refs).sum (others.map writes).sum k d
  wf : ∀ c ∈ others, c.Wf
  nproc : others.length < NPROC
  pages : PagesUpto d sz
  size : sz < KERNBASE

variable {L : Layout} {dom : Frame → Prop} {k k' : Kmem} {K U W : Frame → ℕ} {c d d' : PageDir}
  {o : Option PageDir} {u v n sz : ℕ} {others : List PageDir}

/-! ## The books decide what is free -/

/-- Two allocators with the same books have the same free pages and the same counts. -/
theorem Kmem.Ok.unique {W' : Frame → ℕ} (h : k.Ok dom K U W) (h' : k'.Ok dom K U W') :
    k'.freelist.Perm k.freelist ∧ ∀ f, refcount f k' = refcount f k := by
  constructor
  · refine List.perm_iff_count.mpr fun f => ?_
    by_cases hf : dom f
    · have h1 := Ledger.cover h hf
      have h2 := Ledger.cover h' hf
      omega
    · rw [(Ledger.outside h hf).1, (Ledger.outside h' hf).1]
  · intro f
    by_cases hf : dom f
    · rw [Ledger.count_eq h hf, Ledger.count_eq h' hf]
    · rw [(Ledger.outside h hf).2.1, (Ledger.outside h' hf).2.1]

theorem SamePages.refs_eq (h : SamePages d d') : refs d' = refs d := by
  refine Finset.sum_congr rfl fun v _ => ?_
  obtain ⟨hp, -, ha⟩ := h v
  unfold Pte.ref
  rw [hp, ha]

theorem refs_le_sum (hc : c ∈ others) (f : Frame) : refs c f ≤ (others.map refs).sum f := by
  induction others with
  | nil => cases hc
  | cons c' cs ih =>
    rw [List.map_cons, List.sum_cons, Pi.add_apply]
    rcases List.mem_cons.mp hc with rfl | hc
    · omega
    · have := ih hc
      omega

theorem sum_refs_le (h : ∀ c ∈ others, c.Wf) (f : Frame) :
    (others.map refs).sum f ≤ others.length := by
  induction others with
  | nil => exact le_rfl
  | cons c cs ih =>
    have h1 := (h c List.mem_cons_self).inj f
    have h2 := ih fun c' hc' => h c' (List.mem_cons_of_mem c hc')
    rw [List.map_cons, List.sum_cons, List.length_cons, Pi.add_apply]
    omega

theorem MemOk.lt (h : MemOk L K others k d sz) (f : Frame) : (others.map refs).sum f < 254 := by
  have h1 := sum_refs_le h.wf f
  have h2 := h.nproc
  have h3 : NPROC = 64 := rfl
  omega

/-! ## Later writes -/

def userWrites : List (ℕ × UInt8) → Kmem → PageDir → Option (Kmem × PageDir)
  | [], k, d => some (k, d)
  | w :: ws, k, d => do
    let (k, d) ← userWrite k d w.1 w.2
    userWrites ws k d

/-- The process may access the page of the address, and nobody else has it. -/
def Sole (k : Kmem) (d : PageDir) (va : ℕ) : Prop :=
  (d.pte (va / PGSIZE)).present = true ∧ (d.pte (va / PGSIZE)).user = true ∧
    refcount (d.pte (va / PGSIZE)).addr k = 1

theorem Sole.congr {va : ℕ} (h : Sole k d va) (hsame : SamePages d d')
    (hcount : ∀ f, refcount f k' = refcount f k) : Sole k' d' va := by
  obtain ⟨hp, hu, ha⟩ := hsame (va / PGSIZE)
  unfold Sole
  rw [hp, hu, ha, hcount]
  exact h

/-- Stores to pages of the process's own all succeed and take no page from the allocator. -/
theorem userWrites_sole {ws : List (ℕ × UInt8)} (hdom : ¬ dom 0) (h : DirOk dom K U W k d)
    (hsole : ∀ w ∈ ws, Sole k d w.1) :
    ∃ k' d', userWrites ws k d = some (k', d') ∧ k'.freelist = k.freelist ∧
      view k' d' = ws.foldl (fun σ w => σ.poke w.1 w.2) (view k d) := by
  induction ws generalizing k d with
  | nil => exact ⟨k, d, rfl, rfl, rfl⟩
  | cons w ws ih =>
    obtain ⟨hp, hu, hone⟩ := hsole w List.mem_cons_self
    obtain ⟨k1, d1, hs, hfree, hcount, hsame⟩ := userWrite_sole h hp hu hone.le w.2
    obtain ⟨h1, -, hview⟩ := userWrite_spec hdom h hs
    obtain ⟨k2, d2, hs2, hfree2, hview2⟩ := ih h1 fun w' hw' =>
      (hsole w' (List.mem_cons_of_mem w hw')).congr hsame fun f => by
        rw [refcount, hcount, refcount]
    refine ⟨k2, d2, ?_, hfree2.trans hfree, ?_⟩
    · rw [userWrites, hs]
      exact hs2
    · rw [hview2, hview, List.foldl_cons]

/-! ## The failure -/

/-- `fork` returns.  If it does not return -1 it got every page it asked for, and otherwise the
books are those before it. -/
theorem fork_spec (h : MemOk L K others k d sz) (np : Child) (pid : ℕ) :
    ∃ ret k' d' np', fork L k d sz np pid = some (ret, k', d', np') ∧
      (ret ≠ -1 → ret = pid ∧ np'.state = .runnable ∧ np'.kstack.isSome ∧
        ∃ c, np'.pgdir = some c ∧ MapsKernel L.kmap c ∧
          view k' c = (view k d).below (pgroundup sz)) ∧
      (ret = -1 → DirOk L.Dom K (others.map refs).sum (others.map writes).sum k' d' ∧
        Keeps (others.map refs).sum k k' ∧ view k' d' = view k d ∧
        (SamePages d d' ∧ owned d' = owned d) ∧ np'.state = .unused) := by
  unfold fork allocproc
  cases hk : kalloc k with
  | none =>
    exact ⟨-1, k, d, _, rfl, fun hret => absurd rfl hret,
      fun _ => ⟨h.dir, .rfl, rfl, ⟨.refl _, rfl⟩, rfl⟩⟩
  | some r =>
    obtain ⟨f, k1⟩ := r
    obtain ⟨hok, hmem, -, -⟩ := kalloc_spec h.dir.ok hk
    rw [add_right_comm] at hok
    have h1 : DirOk L.Dom (K + Pi.single f 1) (others.map refs).sum (others.map writes).sum k1 d :=
      ⟨hok, h.dir.le, h.dir.wf⟩
    have hview1 : view k1 d = view k d := (Keeps.of_mem hmem).view fun g => le_rfl
    obtain ⟨o, k2, d2, hcow, hkeep2, hview2, hsame, hnone, hsome⟩ := cowuvm_spec h1 h.lt h.size.le
      fun u hu => (h.pages u (lt_of_lt_of_le hu (pgroundup_le h.size.le))).mpr hu
    dsimp only
    rw [hcow]
    cases o with
    | some c =>
      refine ⟨pid, k2, d2, _, rfl, fun _ =>
        ⟨rfl, rfl, rfl, c, rfl, cowuvm_mapsKernel h.size.le hcow, ?_⟩, fun hret => ?_⟩
      · rw [(hsome c rfl).2.2, hview1]
      · omega
    | none =>
      have h2 := hnone rfl
      have hok2 := h2.ok
      rw [add_right_comm] at hok2
      obtain ⟨k3, hfree, h3, hkeep3⟩ := kfree_owned hok2
      refine ⟨-1, k3, d2, ⟨.unused, none, none⟩, ?_, fun hret => absurd rfl hret,
        fun _ => ⟨⟨h3, h2.le, h2.wf⟩, fun g hg => ?_, ?_, hsame, rfl⟩⟩
      · show (kfree L f k2 >>= _) = _
        rw [hfree]
        rfl
      · rw [hkeep3 g (by rw [Pi.add_apply]; omega), hkeep2 g hg, hmem]
      · rw [hkeep3.view fun g => by rw [Pi.add_apply]; omega, hview2, hview1]

/-- **A fork that fails leaves no trace in memory.**  `fork` returns.  Either it got every page it
asked for and the child's memory is complete, with the kernel part, or it returns -1: then the free
pages and the counts are those from before, the slot is free again, everybody reads what they read
before, and the parent can write: to the pages that were its own without a new page, and to the
others if there is a free page, as before. -/
theorem fork_fail_no_trace (h : MemOk L K others k d sz) (np : Child) (pid : ℕ) :
    ∃ ret k' d' np', fork L k d sz np pid = some (ret, k', d', np') ∧
      (ret ≠ -1 → ret = pid ∧ np'.state = .runnable ∧ np'.kstack.isSome ∧
        ∃ c, np'.pgdir = some c ∧ MapsKernel L.kmap c ∧
          view k' c = (view k d).below (pgroundup sz)) ∧
      (ret = -1 →
        k'.freelist.Perm k.freelist ∧ (∀ f, refcount f k' = refcount f k) ∧
        np'.state = .unused ∧ view k' d' = view k d ∧ (∀ c ∈ others, view k' c = view k c) ∧
        (∀ ws : List (ℕ × UInt8), (∀ w ∈ ws, Sole k d w.1) →
          ∃ k1 d1, userWrites ws k' d' = some (k1, d1) ∧ k1.freelist = k'.freelist ∧
            view k1 d1 = ws.foldl (fun σ w => σ.poke w.1 w.2) (view k d)) ∧
        ∀ va b, (d.pte (va / PGSIZE)).present = true → (d.pte (va / PGSIZE)).user = true →
          k.freelist ≠ [] →
          ∃ k1 d1, userWrite k' d' va b = some (k1, d1) ∧ view k1 d1 = (view k d).poke va b) := by
  obtain ⟨ret, k', d', np', hs, hdone, hfail⟩ := fork_spec h np pid
  refine ⟨ret, k', d', np', hs, hdone, fun hret => ?_⟩
  have hdom : ¬ L.Dom 0 := fun h0 => h0.ne_zero rfl
  obtain ⟨h', hkeep, hview, ⟨hsame, howned⟩, hstate⟩ := hfail hret
  -- the parent maps the pages that it mapped, so the books are the same
  have hok' := h'.ok
  rw [hsame.refs_eq, howned] at hok'
  obtain ⟨hfree, hcount⟩ := h.dir.ok.unique hok'
  refine ⟨hfree, hcount, hstate, hview, fun c hc => ?_, fun ws hws => ?_, fun va b hp hu hne => ?_⟩
  · exact hkeep.view fun f => refs_le_sum hc f
  · obtain ⟨k1, d1, hw, hfree1, hview1⟩ := userWrites_sole hdom h' fun w hmem =>
      (hws w hmem).congr hsame hcount
    exact ⟨k1, d1, hw, hfree1, by rw [hview1, hview]⟩
  · obtain ⟨hp', hu', -⟩ := hsame (va / PGSIZE)
    have hne' : k'.freelist ≠ [] := fun hnil => hne (List.Perm.nil_eq (hnil ▸ hfree)).symm
    obtain ⟨k1, d1, hw⟩ := userWrite_free h' (hp'.trans hp) (hu'.trans hu) hne' b
    obtain ⟨-, -, hview1⟩ := userWrite_spec hdom h' hw
    exact ⟨k1, d1, hw, by rw [hview1, hview]⟩

/-- The process with one page, on the machine with two free pages: one is for the kernel stack and
one for the child's directory, and there is none for the table of the shared page. -/
theorem fork_fail_onePage : ∃ k d np', onePage = some (k, d) ∧
    MemOk smallLayout 0 [] k d 4096 ∧ ∃ k' d',
      fork smallLayout k d 4096 ⟨.unused, none, none⟩ 1 = some (-1, k', d', np') ∧
      k'.freelist.Perm k.freelist ∧ view k' d' = view k d := by
  obtain ⟨k, d, hone, h, hp⟩ := onePage_ok
  have hmem : MemOk smallLayout 0 [] k d 4096 := ⟨h, nofun, by decide, hp, by decide⟩
  have hfail : (onePage.bind fun m =>
      fork smallLayout m.1 m.2 4096 ⟨.unused, none, none⟩ 1).map Prod.fst = some (-1) := by
    decide +kernel
  obtain ⟨ret, k', d', np', hs, -, hclean⟩ := fork_fail_no_trace hmem ⟨.unused, none, none⟩ 1
  rw [hone, Option.bind_some] at hfail
  erw [hs] at hfail
  obtain rfl : ret = -1 := Option.some.inj hfail
  obtain ⟨hfree, -, -, hview, -⟩ := hclean rfl
  exact ⟨k, d, np', hone, hmem, k', d', hs, hfree, hview⟩

/-! ## The memory of parent and child -/

/-- Stores of a parent (`true`) and of its child, in the order in which they are made. -/
def storeBoth : List (Bool × ℕ × UInt8) → Kmem → PageDir → PageDir →
    Option (Kmem × PageDir × PageDir)
  | [], k, d, c => some (k, d, c)
  | (true, va, b) :: ws, k, d, c => do
    let (k, d) ← userWrite k d va b
    storeBoth ws k d c
  | (false, va, b) :: ws, k, d, c => do
    let (k, c) ← userWrite k c va b
    storeBoth ws k d c

/-- User memory after the stores of one of the two. -/
def Space.stores (σ : Space) (who : Bool) (ws : List (Bool × ℕ × UInt8)) : Space :=
  (ws.filter (·.1 == who)).foldl (fun σ w => σ.poke w.2.1 w.2.2) σ

theorem PagesUpto.below (h : PagesUpto d sz) : (view k d).below (pgroundup sz) = view k d := by
  funext v
  rw [Space.below]
  split_ifs with hv
  · rfl
  · exact (h.view_eq_none (Nat.not_lt.mp hv)).symm

/-- Each of the two directories stays in order on top of the other, and shows its own stores. -/
theorem storeBoth_spec {ws : List (Bool × ℕ × UInt8)} {c' : PageDir} (hdom : ¬ dom 0)
    (hle : ∀ f, W f ≤ U f) (h : DirOk dom (K + owned c) (U + refs c) (W + writes c) k d)
    (hwf : c.Wf) (hs : storeBoth ws k d c = some (k', d', c')) :
    DirOk dom (K + owned c') (U + refs c') (W + writes c') k' d' ∧ Keeps U k k' ∧
      view k' d' = (view k d).stores true ws ∧ view k' c' = (view k c).stores false ws := by
  induction ws generalizing k d c with
  | nil =>
    cases hs
    exact ⟨h, .rfl, rfl, rfl⟩
  | cons w ws ih =>
    obtain ⟨who, va, b⟩ := w
    -- one of them makes a store, and the pages of the other are among those that it keeps
    cases who with
    | true =>
      obtain ⟨⟨k1, d1⟩, hw, hs⟩ := Option.bind_eq_some_iff.mp hs
      obtain ⟨h1, hkeep, hview⟩ := userWrite_spec hdom h hw
      obtain ⟨h2, hkeep2, hd2, hc2⟩ := ih h1 hwf hs
      refine ⟨h2, Keeps.trans (fun f hf => hkeep f (Nat.lt_add_right _ hf)) hkeep2, ?_, ?_⟩
      · rw [hd2, hview]
        rfl
      · rw [hc2, hkeep.view fun f => Nat.le_add_left _ _]
        rfl
    | false =>
      obtain ⟨⟨k1, c1⟩, hw, hs⟩ := Option.bind_eq_some_iff.mp hs
      obtain ⟨h1, hkeep, hview⟩ := userWrite_spec hdom (h.swap hle hwf) hw
      obtain ⟨h2, hkeep2, hd2, hc2⟩ := ih (h1.swap hle h.wf) h1.wf hs
      refine ⟨h2, Keeps.trans (fun f hf => hkeep f (Nat.lt_add_right _ hf)) hkeep2, ?_, ?_⟩
      · rw [hd2, hkeep.view fun f => Nat.le_add_left _ _]
        rfl
      · rw [hc2, hview]
        rfl

/-- **Copy-on-write cannot be told from a copy.**  After a `fork` that succeeds, let parent and
child make any stores, in any order, each through the fault handler where the page is shared.  Then
each of the two sees the memory that the parent had at the `fork`, with its own stores and none of
the other's; all other processes see what they saw; and the counts of the pages are exact. -/
theorem fork_isolates {np np1 : Child} {pid : ℕ} {ret : ℤ} {k1 k2 : Kmem} {d1 d2 c2 : PageDir}
    {ws : List (Bool × ℕ × UInt8)} (h : MemOk L K others k d sz)
    (hs : fork L k d sz np pid = some (ret, k1, d1, np1)) (hret : ret ≠ -1)
    (hc : np1.pgdir = some c) (hw : storeBoth ws k1 d1 c = some (k2, d2, c2)) :
    view k2 d2 = (view k d).stores true ws ∧ view k2 c2 = (view k d).stores false ws ∧
      (∀ o ∈ others, view k2 o = view k o) ∧
      ∃ f, np1.kstack = some f ∧ ∀ g, L.Dom g →
        refcount g k2 = (K + Pi.single f 1 + owned c2 + owned d2 : Frame → ℕ) g +
          ((others.map refs).sum + refs c2 + refs d2 : Frame → ℕ) g := by
  unfold fork allocproc at hs
  cases hk : kalloc k with
  | none =>
    rw [hk] at hs
    cases hs
    exact absurd rfl hret
  | some r =>
    obtain ⟨f, k0⟩ := r
    obtain ⟨hok, hmem, -, -⟩ := kalloc_spec h.dir.ok hk
    rw [add_right_comm] at hok
    have hview0 : view k0 d = view k d := (Keeps.of_mem hmem).view fun g => le_rfl
    obtain ⟨o, k', d', hcow, hkeep, hview, -, -, hsome⟩ :=
      cowuvm_spec ⟨hok, h.dir.le, h.dir.wf⟩ h.lt
      h.size.le fun u hu => (h.pages u (lt_of_lt_of_le hu (pgroundup_le h.size.le))).mpr hu
    rw [hk] at hs
    change (cowuvm L k0 d sz >>= _) = _ at hs
    rw [hcow] at hs
    cases o with
    | none =>
      change (kfree L f k' >>= _) = _ at hs
      obtain ⟨_, -, hs⟩ := Option.bind_eq_some_iff.mp hs
      cases hs
      exact absurd rfl hret
    | some c' =>
      cases hs
      obtain rfl := Option.some.inj hc
      obtain ⟨hd, hchild, hbelow⟩ := hsome c' rfl
      obtain ⟨h2, hkeep2, hparent2, hchild2⟩ :=
        storeBoth_spec (fun h0 => h0.ne_zero rfl) h.dir.le hd hchild.wf hw
      have hall := ((Keeps.of_mem hmem).trans hkeep).trans hkeep2
      refine ⟨?_, ?_, fun o ho => hall.view fun g => refs_le_sum ho g, f, rfl, fun g hg => ?_⟩
      · rw [hparent2, hview, hview0]
      · rw [hchild2, hbelow, hview0, h.pages.below]
      · exact Ledger.count_eq h2.ok hg

/-- A process with one page forks, and both write to the page. -/
theorem fork_isolates_onePage : ∃ L k d k2 d2 c2, MemOk L 0 [] k d 4096 ∧
    view k2 d2 = (view k d).poke 0 7 ∧ view k2 c2 = (view k d).poke 0 9 := by
  let L : Layout := { smallLayout with numpages := 9, first_le := by decide }
  have hp : PagesUpto (PageDir.empty L.first) 0 := fun v _ =>
    ⟨fun hp => absurd hp Bool.false_ne_true, fun hv => absurd hv (Nat.not_lt_zero v)⟩
  obtain ⟨sz, k, d, halloc, h, -, -, hres⟩ := allocuvm_spec (running_ok (L := L) (by decide)) 4096
    fun u (hu : pgroundup 0 ≤ u) hlt => hp.not_present hlt hu
  have hrun : ((allocuvm L (running L) (PageDir.empty L.first) 0 4096).bind fun x =>
      (fork L x.2.1 x.2.2 4096 ⟨.unused, none, none⟩ 1).bind fun y => y.2.2.2.pgdir.bind fun c =>
        (storeBoth [(false, 0, 9), (true, 0, 7)] y.2.1 y.2.2.1 c).map fun _ => (x.1, y.1)) =
      some (4096, 1) := by
    decide +kernel
  rw [halloc, Option.bind_some] at hrun
  obtain ⟨⟨ret, k1, d1, np⟩, hfork, hrun⟩ := Option.bind_eq_some_iff.mp hrun
  obtain ⟨c, hc, hrun⟩ := Option.bind_eq_some_iff.mp hrun
  obtain ⟨⟨k2, d2, c2⟩, hw, hret⟩ := Option.map_eq_some_iff.mp hrun
  cases hret
  rcases hres with ⟨-, -, hview⟩ | ⟨hzero, -⟩
  · have hmem : MemOk L 0 [] k d 4096 :=
      ⟨h, fun _ ho =>
        (List.not_mem_nil ho).elim, by decide, (hp.of_fill (by decide) (by decide) hview).1,
        by decide⟩
    obtain ⟨hd, hchild, -⟩ := fork_isolates hmem hfork (by decide) hc hw
    exact ⟨L, k, d, k2, d2, c2, hmem, hd, hchild⟩
  · cases hzero

end Xv6.Vm
