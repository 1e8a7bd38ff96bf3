import Xv6.Vm.Exec

/-!
# Where page tables are, and the memory they take

The functions of `vm.c` that build a directory make a page table when they come to a page that has
none.  Two things follow.  A directory has tables only where something was mapped; everywhere else
`walkpgdir` finds nothing.  And since there are only `NPDENTRIES` tables, the pages that are missing
for them are bounded: with so many pages to spare, nothing in `setupkvm` and `allocuvm` can fail.

The machine that the source is written for is given here too: its memory and its `kmap`.
-/

namespace Xv6.Vm

open Lib

variable {L : Layout} {k k' : Kmem} {d d' : PageDir} {f : Frame} {x : Pte}
  {i m n v sz oldsz newsz : ℕ} {ok writable user : Bool} {pa : Frame}

/-! ## Entries without a table -/

theorem isNone_tab_setPte (d : PageDir) (v : ℕ) (x : Pte) (i : ℕ) :
    ((d.setPte v x).tab i).isNone = (d.tab i).isNone := by
  unfold PageDir.setPte
  cases ht : d.tab (v / NPDENTRIES) with
  | none => rfl
  | some t =>
    show (Function.update d.tab _ _ i).isNone = _
    by_cases hi : i = v / NPDENTRIES
    · rw [hi, Function.update_self, ht]
      rfl
    · rw [Function.update_of_ne hi]

theorem tab_setPte (h : d.tab i = none) (v : ℕ) (x : Pte) : (d.setPte v x).tab i = none := by
  rw [← Option.isNone_iff_eq_none] at h ⊢
  rwa [isNone_tab_setPte]

theorem walkpgdirAlloc_tab (h : d.tab i = none) (hv : v / NPDENTRIES ≠ i)
    (hs : walkpgdirAlloc k d v = some (k', d')) : d'.tab i = none := by
  unfold walkpgdirAlloc at hs
  split at hs
  · cases hs
    exact h
  · split at hs
    · cases hs
    · cases hs
      show Function.update d.tab _ _ i = none
      rwa [Function.update_of_ne hv.symm]

/-- `mappages` makes tables for the pages that it maps only. -/
theorem mappages_tab (h : d.tab i = none) (hout : ∀ u, v ≤ u → u < v + n → u / NPDENTRIES ≠ i)
    (hs : mappages writable user n k d v pa = some (ok, k', d')) : d'.tab i = none := by
  induction n generalizing k d v pa with
  | zero =>
    cases hs
    exact h
  | succ n ih =>
    rw [mappages] at hs
    split at hs
    · cases hs
      exact h
    · rename_i k1 d1 hw
      have h1 := walkpgdirAlloc_tab h (hout v le_rfl (by omega)) hw
      split_ifs at hs
      exact ih (tab_setPte h1 v _) (fun u hu hu' => hout u (by omega) (by omega)) hs

theorem mapKernel_tab {es : List KMap} (h : d.tab i = none)
    (hout : ∀ e ∈ es, ∀ u, e.virt ≤ u → u < e.virt + e.pages → u / NPDENTRIES ≠ i)
    (hs : mapKernel es k d = some (ok, k', d')) : d'.tab i = none := by
  induction es generalizing k d with
  | nil =>
    cases hs
    exact h
  | cons e es ih =>
    obtain ⟨⟨ok1, k1, d1⟩, hm, hs⟩ := Option.bind_eq_some_iff.mp hs
    have h1 := mappages_tab h (hout e List.mem_cons_self) hm
    cases ok1 with
    | false =>
      cases hs
      exact h1
    | true => exact ih h1 (fun e' he' => hout e' (List.mem_cons_of_mem _ he')) hs

theorem setupkvm_tab
    (hout : ∀ e ∈ L.kmap, ∀ u, e.virt ≤ u → u < e.virt + e.pages → u / NPDENTRIES ≠ i)
    (hs : setupkvm L k = some (some d, k')) : d.tab i = none := by
  unfold setupkvm at hs
  split at hs
  · cases hs
  · obtain ⟨⟨ok, k2, d2⟩, hm, hs⟩ := Option.bind_eq_some_iff.mp hs
    cases ok with
    | true =>
      cases hs
      exact mapKernel_tab rfl hout hm
    | false =>
      obtain ⟨k3, -, hs⟩ := Option.bind_eq_some_iff.mp hs
      cases hs

theorem allocuvm_tab (h : d.tab i = none) (hi : UPAGES / NPDENTRIES ≤ i)
    (hs : allocuvm L k d oldsz newsz = some (sz, k', d')) : d'.tab i = none := by
  refine allocuvm_invariant (P := fun d => d.tab i = none)
    ?_ (fun d v _ _ h => tab_setPte h v {}) hs h
  intro k k' d d' v f ok _ hv hm h
  refine mappages_tab h (fun u hu hu' => ?_) hm
  obtain rfl : u = v := by omega
  exact (lt_of_lt_of_le (Nat.div_lt_of_lt_mul hv) hi).ne

theorem clearpteu_tab (h : d.tab i = none) (hs : clearpteu d v = some d') : d'.tab i = none := by
  unfold clearpteu at hs
  split at hs
  · cases hs
  · cases hs
    exact tab_setPte h v _

/-! ## Room for the tables -/

/-- The number of tables that a directory does not have. -/
def PageDir.missing (d : PageDir) : ℕ :=
  ∑ i ∈ Finset.range NPDENTRIES, if (d.tab i).isNone then 1 else 0

theorem missing_le (d : PageDir) : d.missing ≤ NPDENTRIES := by
  rw [PageDir.missing, ← Finset.card_filter]
  exact (Finset.card_filter_le _ _).trans (Finset.card_range _).le

theorem missing_setPte (d : PageDir) (v : ℕ) (x : Pte) : (d.setPte v x).missing = d.missing :=
  Finset.sum_congr rfl fun i _ => by rw [isNone_tab_setPte]

theorem missing_addTab (hi : i < NPDENTRIES) (ht : d.tab i = none) (f : Frame) :
    (d.addTab i f).missing + 1 = d.missing := by
  have h := sum_add_eq_of_eq_off (f := fun j => if ((d.addTab i f).tab j).isNone then 1 else 0)
    (g := fun j => if (d.tab j).isNone then 1 else 0) (Finset.mem_range.mpr hi) fun j _ hj => by
      rw [show (d.addTab i f).tab j = d.tab j from Function.update_of_ne hj ..]
  rw [show (d.addTab i f).tab i = some _ from Function.update_self .., ht] at h
  rw [PageDir.missing, PageDir.missing]
  simpa only [Option.isNone_none, Option.isNone_some, if_true, Bool.false_eq_true, if_false,
    Nat.add_zero] using h

/-- There are pages for all tables that are missing, and `m` more. -/
def Room (m : ℕ) (k : Kmem) (d : PageDir) : Prop := d.missing + m ≤ k.freelist.length

theorem kalloc_of_length (h : m + 1 ≤ k.freelist.length) :
    ∃ f k', kalloc k = some (f, k') ∧ m ≤ k'.freelist.length := by
  unfold kalloc
  cases hl : k.freelist with
  | nil =>
    rw [hl] at h
    exact absurd h (Nat.not_succ_le_zero m)
  | cons f l =>
    rw [hl] at h
    exact ⟨f, _, rfl, Nat.le_of_succ_le_succ h⟩

theorem Room.walkpgdirAlloc (h : Room m k d) (hv : v < VPAGES) :
    ∃ k' d', walkpgdirAlloc k d v = some (k', d') ∧ Room m k' d' := by
  unfold Vm.walkpgdirAlloc
  cases ht : d.tab (v / NPDENTRIES) with
  | some t => exact ⟨k, d, rfl, h⟩
  | none =>
    have hi : v / NPDENTRIES < NPDENTRIES := Nat.div_lt_of_lt_mul hv
    unfold Room at h
    rw [← missing_addTab hi ht 0] at h
    obtain ⟨f, k', hk, hlen⟩ := kalloc_of_length (m := (d.addTab (v / NPDENTRIES) 0).missing + m)
      (k := k) (by omega)
    refine ⟨k', d.addTab (v / NPDENTRIES) f, by rw [hk], ?_⟩
    have h1 := missing_addTab hi ht f
    have h2 := missing_addTab hi ht 0
    unfold Room
    omega

theorem Room.mappages (h : Room m k d) (hn : v + n ≤ VPAGES)
    (hs : mappages writable user n k d v pa = some (ok, k', d')) : ok = true ∧ Room m k' d' := by
  induction n generalizing k d v pa with
  | zero =>
    cases hs
    exact ⟨rfl, h⟩
  | succ n ih =>
    obtain ⟨k1, d1, hw, h1⟩ := h.walkpgdirAlloc (v := v) (by omega)
    rw [Vm.mappages, hw] at hs
    dsimp only at hs
    split_ifs at hs
    refine ih ?_ (by omega) hs
    unfold Room
    rwa [missing_setPte]

theorem Room.mapKernel {es : List KMap} (h : Room m k d)
    (hes : ∀ e ∈ es, e.virt + e.pages ≤ VPAGES)
    (hs : mapKernel es k d = some (ok, k', d')) : ok = true ∧ Room m k' d' := by
  induction es generalizing k d with
  | nil =>
    cases hs
    exact ⟨rfl, h⟩
  | cons e es ih =>
    obtain ⟨⟨ok1, k1, d1⟩, hm, hs⟩ := Option.bind_eq_some_iff.mp hs
    obtain ⟨rfl, h1⟩ := h.mappages (hes e List.mem_cons_self) hm
    exact ih h1 (fun e' he' => hes e' (List.mem_cons_of_mem _ he')) hs

/-- **`setupkvm`** makes a directory if there is a page for it and one for each table. -/
theorem setupkvm_room {o : Option PageDir} (h : NPDENTRIES + m + 1 ≤ k.freelist.length)
    (hs : setupkvm L k = some (o, k')) : ∃ d, o = some d ∧ Room m k' d := by
  obtain ⟨f, k1, hk, hlen⟩ := kalloc_of_length h
  have h1 : Room m k1 (PageDir.empty f) := by
    have := missing_le (PageDir.empty f)
    unfold Room
    omega
  rw [setupkvm, hk] at hs
  obtain ⟨⟨ok, k2, d2⟩, hm, hs⟩ := Option.bind_eq_some_iff.mp hs
  obtain ⟨rfl, h2⟩ := h1.mapKernel (fun e he => (L.kmap_kern e he).2) hm
  cases hs
  exact ⟨d2, rfl, h2⟩

theorem Room.allocLoop (h : Room (n + m) k d) (hn : v + n ≤ VPAGES)
    (hs : allocLoop L oldsz newsz n v k d = some (sz, k', d')) : sz = newsz ∧ Room m k' d' := by
  induction n generalizing k d v with
  | zero =>
    cases hs
    unfold Room at h ⊢
    exact ⟨rfl, by omega⟩
  | succ n ih =>
    unfold Room at h
    obtain ⟨f, k1, hk, hlen⟩ := kalloc_of_length (m := d.missing + (n + m)) (k := k) (by omega)
    have h1 : Room (n + m) (k1.store f fun _ => 0) d := hlen
    rw [Vm.allocLoop, hk] at hs
    obtain ⟨⟨ok, k2, d2⟩, hm, hs⟩ := Option.bind_eq_some_iff.mp hs
    obtain ⟨rfl, h2⟩ := h1.mappages (by omega) hm
    exact ih h2 (by omega) hs

/-- **`allocuvm`** grows memory if there is a page for each new page and each table. -/
theorem Room.allocuvm (h : Room (pgroundup newsz - pgroundup oldsz + m) k d)
    (hnew : newsz < KERNBASE) (hle : oldsz ≤ newsz)
    (hs : allocuvm L k d oldsz newsz = some (sz, k', d')) :
    sz = newsz ∧ Room m k' d' := by
  rw [Vm.allocuvm, if_neg (by omega), if_neg (by omega)] at hs
  have hlast := pgroundup_le hnew.le
  have hpages : pgroundup oldsz ≤ pgroundup newsz := Nat.div_le_div_right (by omega)
  have hU : UPAGES ≤ VPAGES := by decide
  exact h.allocLoop (by omega) hs

/-! ## The machine -/

def EXTMEM : ℕ := 0x100000

def PHYSTOP : ℕ := 0xE000000

/-- Other devices are at high addresses. -/
def DEVSPACE : ℕ := 0xFE000000

/-- `kmap`; the kernel's data start at the physical page `data`. -/
def kmap (data : ℕ) : List KMap :=
  [⟨UPAGES, 0, EXTMEM / PGSIZE, true⟩,
   ⟨UPAGES + EXTMEM / PGSIZE, EXTMEM / PGSIZE, data - EXTMEM / PGSIZE, false⟩,
   ⟨UPAGES + data, data, PHYSTOP / PGSIZE - data, true⟩,
   ⟨DEVSPACE / PGSIZE, DEVSPACE / PGSIZE, VPAGES - DEVSPACE / PGSIZE, true⟩]

/-- The machine, for a kernel with 8 pages of text and 14 pages of data. -/
def pc : Layout where
  first := 0x116
  numpages := PHYSTOP / PGSIZE
  kmap := kmap 0x108
  first_pos := by decide
  first_le := by decide
  kmap_kern := by decide
  kmap_sorted := by decide

/-- The allocator of a machine with all its pages free. -/
def idle (L : Layout) : Kmem :=
  ⟨List.range' L.first (L.numpages - L.first), fun _ => 0, fun _ _ => 0⟩

theorem idle_ok (L : Layout) : (idle L).Ok L.Dom 0 0 0 := by
  have hmem : ∀ f, f ∈ (idle L).freelist ↔ L.Dom f := fun f => by
    show f ∈ List.range' _ _ ↔ _
    rw [List.mem_range'_1, Nat.add_sub_cancel' L.first_le]
    rfl
  refine ⟨fun {f} hf => ?_, fun _ => rfl, fun {f} hf => ?_, fun _ => le_rfl, fun h => ?_⟩
  · have hcount : (idle L).freelist.count f = 1 :=
      List.count_eq_one_of_mem (List.nodup_range') ((hmem f).mpr hf)
    show (idle L).freelist.count f + 0 + min 0 1 = 1
    rw [hcount]
    rfl
  · exact ⟨List.count_eq_zero.mpr fun h => hf ((hmem f).mp h), rfl, rfl, rfl⟩
  · exact absurd h (lt_irrefl 0)

/-- The same with its first page given to a directory. -/
def running (L : Layout) : Kmem :=
  ⟨List.range' (L.first + 1) (L.numpages - L.first - 1), Function.update (fun _ => 0) L.first 1,
    fun _ _ => 0⟩

theorem running_ok {L : Layout} (h : L.first < L.numpages) :
    DirOk L.Dom 0 0 0 (running L) (PageDir.empty L.first) := by
  have hk : kalloc (idle L) = some (L.first, running L) := by
    obtain ⟨n, hn⟩ : ∃ n, L.numpages - L.first = n + 1 := ⟨L.numpages - L.first - 1, by omega⟩
    unfold kalloc idle running
    rw [hn]
    rfl
  obtain ⟨hok, -, -, -⟩ := kalloc_spec (idle_ok L) hk
  exact DirOk.empty hok fun _ => le_rfl

/-- Between the top of physical memory and the devices nothing is mapped, and there is no table. -/
theorem setupkvm_pc_tab (hlo : UPAGES + PHYSTOP / PGSIZE ≤ v) (hhi : v < DEVSPACE / PGSIZE)
    (hs : setupkvm pc k = some (some d, k')) : d.tab (v / NPDENTRIES) = none := by
  refine setupkvm_tab (fun e he u hu hu' => ?_) hs
  have h1 : UPAGES + PHYSTOP / PGSIZE = 568 * 1024 := by decide
  have h2 : DEVSPACE / PGSIZE = 1016 * 1024 := by decide
  have hrange : ∀ e ∈ pc.kmap, e.virt + e.pages ≤ 568 * 1024 ∨ 1016 * 1024 ≤ e.virt := by decide
  have := hrange e he
  unfold NPDENTRIES
  omega

end Xv6.Vm
