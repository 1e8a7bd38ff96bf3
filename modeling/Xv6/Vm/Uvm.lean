import Xv6.Vm.Books

/-!
# Building and releasing address spaces

`setupkvm`, `allocuvm`, `deallocuvm` and `freevm` of `vm.c`.  Sizes are in bytes, as in the source;
the loops run over page numbers.  No result at all is a panic; running out of memory is an ordinary
result, and its clean-up is part of the model: `allocuvm` releases what it got, `setupkvm` releases
the tables that it made.

Each function has one theorem.  On a directory that is in order it returns, since none of its panics
can be reached: `kfree` gets the pages that are in the books only, and `mappages` gets each page
once.  It keeps the directory in order on top of any books and keeps the pages of others, and the
theorem says what it does to user memory.
-/

namespace Xv6.Vm

open Lib

/-- The number of the page at `PGROUNDUP(n)`. -/
def pgroundup (n : ℕ) : ℕ := (n + (PGSIZE - 1)) / PGSIZE

/-- The loop of `deallocuvm` from page `v` up to `last`; `n` bounds the number of rounds.  Where a
table is missing it goes on with the next one. -/
def deallocLoop (L : Layout) (last : ℕ) : ℕ → ℕ → Kmem → PageDir → Option (Kmem × PageDir)
  | 0, _, k, d => some (k, d)
  | n + 1, v, k, d =>
    if v < last then
      match walkpgdir d v with
      | none => deallocLoop L last n ((v / NPDENTRIES + 1) * NPDENTRIES) k d
      | some pte =>
        if pte.present then
          if pte.addr = 0 then none
          else do
            let k ← unref L pte.addr k
            deallocLoop L last n (v + 1) k (d.setPte v {})
        else deallocLoop L last n (v + 1) k d
    else some (k, d)

/-- Deallocate user pages to bring the process size from `oldsz` to `newsz`.  Returns the new
process size. -/
def deallocuvm (L : Layout) (k : Kmem) (d : PageDir) (oldsz newsz : ℕ) :
    Option (ℕ × Kmem × PageDir) :=
  if oldsz ≤ newsz then some (oldsz, k, d)
  else do
    let (k, d) ← deallocLoop L (pgroundup oldsz) (pgroundup oldsz - pgroundup newsz)
      (pgroundup newsz) k d
    some (newsz, k, d)

/-- The loop of `freevm` over the directory entries. -/
def freeTables (L : Layout) (d : PageDir) : ℕ → ℕ → Kmem → Option Kmem
  | 0, _, k => some k
  | n + 1, i, k =>
    match d.tab i with
    | none => freeTables L d n (i + 1) k
    | some t => do
      let k ← kfree L t.frame k
      freeTables L d n (i + 1) k

/-- Free a page table and all the physical memory pages in the user part. -/
def freevm (L : Layout) (k : Kmem) (d : PageDir) : Option Kmem := do
  let (_, k, d) ← deallocuvm L k d KERNBASE 0
  let k ← freeTables L d NPDENTRIES 0 k
  kfree L d.frame k

def mapKernel : List KMap → Kmem → PageDir → Option (Bool × Kmem × PageDir)
  | [], k, d => some (true, k, d)
  | e :: es, k, d => do
    let (ok, k, d) ← mappages e.writable false e.pages k d e.virt e.phys
    if ok then mapKernel es k d else some (false, k, d)

/-- Set up kernel part of a page table. -/
def setupkvm (L : Layout) (k : Kmem) : Option (Option PageDir × Kmem) :=
  match kalloc k with
  | none => some (none, k)
  | some (f, k) => do
    let (ok, k, d) ← mapKernel L.kmap k (PageDir.empty f)
    if ok then some (some d, k)
    else do
      let k ← freevm L k d
      some (none, k)

/-- The loop of `allocuvm`, for the `n` pages from page `v` on. -/
def allocLoop (L : Layout) (oldsz newsz : ℕ) :
    ℕ → ℕ → Kmem → PageDir → Option (ℕ × Kmem × PageDir)
  | 0, _, k, d => some (newsz, k, d)
  | n + 1, v, k, d =>
    match kalloc k with
    | none => do
      let (_, k, d) ← deallocuvm L k d newsz oldsz
      some (0, k, d)
    | some (f, k) => do
      let (ok, k, d) ← mappages true true 1 (k.store f fun _ => 0) d v f
      if ok then allocLoop L oldsz newsz n (v + 1) k d
      else do
        let (_, k, d) ← deallocuvm L k d newsz oldsz
        let k ← kfree L f k
        some (0, k, d)

/-- Allocate page tables and physical memory to grow process from `oldsz` to `newsz`.  Returns new
size or 0 on error. -/
def allocuvm (L : Layout) (k : Kmem) (d : PageDir) (oldsz newsz : ℕ) :
    Option (ℕ × Kmem × PageDir) :=
  if KERNBASE ≤ newsz then some (0, k, d)
  else if newsz < oldsz then some (oldsz, k, d)
  else allocLoop L oldsz newsz (pgroundup newsz - pgroundup oldsz) (pgroundup oldsz) k d

/-! ## User memory -/

/-- User memory without the pages from `lo` up to `hi`. -/
def Space.clear (σ : Space) (lo hi : ℕ) : Space := fun v => if lo ≤ v ∧ v < hi then none else σ v

/-- User memory with new pages from `lo` up to `hi`. -/
def Space.fill (σ : Space) (lo hi : ℕ) : Space := fun v =>
  if lo ≤ v ∧ v < hi then some (true, fun _ => 0) else σ v

/-- Every page that the directory maps is writable. -/
def Private (d : PageDir) : Prop :=
  ∀ v < UPAGES, (d.pte v).present = true → (d.pte v).writable = true

variable {L : Layout} {k k' : Kmem} {K U W : Frame → ℕ} {d d' : PageDir} {f pa : Frame}
  {u v n last oldsz newsz sz hi lo : ℕ} {x : Pte} {σ : Space} {ok : Bool}

theorem Space.clear_self_of_le (σ : Space) (h : hi ≤ lo) : σ.clear lo hi = σ := by
  funext v
  exact if_neg (by omega)

theorem Space.fill_self_of_le (σ : Space) (h : hi ≤ lo) : σ.fill lo hi = σ := by
  funext v
  exact if_neg (by omega)

theorem Space.clear_of_none {mid : ℕ} (hmid : lo ≤ mid)
    (h : ∀ v, lo ≤ v → v < mid → σ v = none) : σ.clear mid hi = σ.clear lo hi := by
  funext v
  unfold Space.clear
  by_cases hv : lo ≤ v ∧ v < mid
  · rw [h v hv.1 hv.2]
    split_ifs <;> rfl
  · congr 1
    rw [eq_iff_iff]
    omega

theorem Space.clear_succ (h : lo < hi) :
    Space.clear (Function.update σ lo none) (lo + 1) hi = σ.clear lo hi := by
  funext v
  unfold Space.clear
  by_cases hv : v = lo
  · rw [hv, if_neg (by omega), if_pos (by omega), Function.update_self]
  · rw [Function.update_of_ne hv]
    congr 1
    rw [eq_iff_iff]
    omega

theorem Space.fill_succ (h : lo < hi) :
    Space.fill (Function.update σ lo (some (true, fun _ => 0))) (lo + 1) hi = σ.fill lo hi := by
  funext v
  unfold Space.fill
  by_cases hv : v = lo
  · rw [hv, if_neg (by omega), if_pos (by omega), Function.update_self]
  · rw [Function.update_of_ne hv]
    congr 1
    rw [eq_iff_iff]
    omega

/-- Pages that were put in and are all taken out again. -/
theorem Space.clear_update (h1 : lo ≤ v) (h2 : v < hi) (y : Option (Bool × Page)) :
    Space.clear (Function.update σ v y) lo hi = σ.clear lo hi := by
  funext u
  unfold Space.clear
  by_cases hu : u = v
  · rw [hu, if_pos ⟨h1, h2⟩, if_pos ⟨h1, h2⟩]
  · rw [Function.update_of_ne hu]

/-! ## Releasing -/

theorem PageDir.pte_of_no_table (h : walkpgdir d v = none) (hu : v ≤ u)
    (hu' : u < (v / NPDENTRIES + 1) * NPDENTRIES) : d.pte u = {} := by
  have hq : u / NPDENTRIES = v / NPDENTRIES := by
    refine le_antisymm ?_ (Nat.div_le_div_right hu)
    exact Nat.lt_succ_iff.mp (Nat.div_lt_of_lt_mul (by rwa [Nat.mul_comm]))
  rw [PageDir.pte_of_walkpgdir_none]
  unfold walkpgdir at h ⊢
  rw [hq]
  exact Option.map_eq_none_iff.mpr (Option.map_eq_none_iff.mp h)

theorem lt_next_table (v : ℕ) : v < (v / NPDENTRIES + 1) * NPDENTRIES := by
  rw [Nat.mul_comm]
  exact Nat.lt_mul_div_succ v (by decide)

theorem Private.setPte (h : Private d) (hw : (walkpgdir d v).isSome)
    (hx : x.present = true → x.writable = true) : Private (d.setPte v x) := by
  intro u hu
  rw [PageDir.pte_setPte hw]
  split_ifs
  · exact hx
  · exact h u hu

theorem deallocLoop_spec (hlast : last ≤ UPAGES) (h : DirOk L.Dom K U W k d) (hn : last ≤ v + n) :
    ∃ k' d', deallocLoop L last n v k d = some (k', d') ∧ DirOk L.Dom K U W k' d' ∧ Keeps U k k' ∧
      view k' d' = (view k d).clear v last ∧ (Private d → Private d') := by
  induction n generalizing v k d with
  | zero => exact ⟨k, d, rfl, h, .rfl, (Space.clear_self_of_le _ hn).symm, id⟩
  | succ n ih =>
    rw [deallocLoop]
    split_ifs with hv
    · cases hw : walkpgdir d v with
      | none =>
        -- the whole range of the missing table is skipped
        have hlt := lt_next_table v
        obtain ⟨k', d', hs, h1, h2, h3, h4⟩ :=
          ih h (v := (v / NPDENTRIES + 1) * NPDENTRIES) (by omega)
        refine ⟨k', d', hs, h1, h2, h3.trans (Space.clear_of_none hlt.le fun u hu hu' => ?_), h4⟩
        exact view_of_not_present (by rw [PageDir.pte_of_no_table hw hu hu'])
      | some pte =>
        obtain rfl := d.pte_of_walkpgdir hw
        by_cases hp : (d.pte v).present = true
        · obtain ⟨hz, k1, hk, hd, hkeep, hview⟩ := h.unmap (by omega) hp
          obtain ⟨k', d', hs, h1, h2, h3, h4⟩ := ih hd (v := v + 1) (by omega)
          refine ⟨k', d', ?_, h1, hkeep.trans h2, ?_, fun hpriv => h4 (hpriv.setPte ?_ nofun)⟩
          · dsimp only
            rw [if_pos hp, if_neg hz, hk]
            exact hs
          · rw [h3, hview, Space.clear_succ hv]
          · exact PageDir.isSome_walkpgdir hp
        · obtain ⟨k', d', hs, h1, h2, h3, h4⟩ := ih h (v := v + 1) (by omega)
          refine ⟨k', d', (if_neg hp).trans hs, h1, h2,
            h3.trans (Space.clear_of_none (by omega) fun u hu hu' => ?_), h4⟩
          obtain rfl : u = v := by omega
          exact view_of_not_present (Bool.eq_false_of_not_eq_true hp)
    · exact ⟨k, d, rfl, h, .rfl, (Space.clear_self_of_le _ (by omega)).symm, id⟩

theorem pgroundup_le (h : sz ≤ KERNBASE) : pgroundup sz ≤ UPAGES := by
  unfold pgroundup UPAGES PGSIZE
  unfold KERNBASE at h ⊢
  omega

/-- **`deallocuvm`** removes the pages between the two sizes. -/
theorem deallocuvm_spec (h : DirOk L.Dom K U W k d) (hold : oldsz ≤ KERNBASE) (newsz : ℕ) :
    ∃ k' d', deallocuvm L k d oldsz newsz = some (min oldsz newsz, k', d') ∧
      DirOk L.Dom K U W k' d' ∧ Keeps U k k' ∧
      view k' d' = (view k d).clear (pgroundup newsz) (pgroundup oldsz) ∧
      (Private d → Private d') := by
  unfold deallocuvm
  split_ifs with hle
  · rw [Nat.min_eq_left hle]
    refine ⟨k, d, rfl, h, .rfl, (Space.clear_self_of_le _ ?_).symm, id⟩
    exact Nat.div_le_div_right (by omega)
  · obtain ⟨k', d', hl, hrest⟩ := deallocLoop_spec (v := pgroundup newsz)
      (n := pgroundup oldsz - pgroundup newsz) (pgroundup_le hold) h (by omega)
    rw [hl, Nat.min_eq_right (by omega)]
    exact ⟨k', d', rfl, hrest⟩

/-- A page of the kernel's can be freed; it is nobody's user memory. -/
theorem kfree_owned (h : k.Ok L.Dom (K + Pi.single f 1) U W) :
    ∃ k', kfree L f k = some k' ∧ k'.Ok L.Dom K U W ∧ Keeps U k k' := by
  have hown : 0 < (K + Pi.single f 1 : Frame → ℕ) f := by
    rw [add_single_self]
    omega
  obtain ⟨k', hs⟩ := kfree_total (Ledger.dom_of_pos h (Or.inr (Or.inl hown))) k
  refine ⟨k', hs, kfree_spec h hs, fun g hg => kfree_mem hs ?_⟩
  rintro rfl
  have := Ledger.not_both h hown
  omega

theorem sum_ownedTab_succ (n i : ℕ) : ∑ j ∈ Finset.range (n + 1), ownedTab (d.tab (i + j)) =
    ∑ j ∈ Finset.range n, ownedTab (d.tab (i + 1 + j)) + ownedTab (d.tab i) := by
  rw [Finset.sum_range_succ', Nat.add_zero]
  simp only [Nat.add_right_comm i 1, Nat.add_assoc]

theorem freeTables_spec {i : ℕ}
    (h : k.Ok L.Dom (K + ∑ j ∈ Finset.range n, ownedTab (d.tab (i + j))) U W) :
    ∃ k', freeTables L d n i k = some k' ∧ k'.Ok L.Dom K U W ∧ Keeps U k k' := by
  induction n generalizing i k with
  | zero => exact ⟨k, rfl, by simpa using h, .rfl⟩
  | succ n ih =>
    rw [sum_ownedTab_succ, ← add_assoc] at h
    rw [freeTables]
    cases ht : d.tab i with
    | none =>
      rw [ht, show ownedTab none = 0 from rfl, add_zero] at h
      exact ih h
    | some t =>
      rw [ht, show ownedTab (some t) = Pi.single t.frame 1 from rfl] at h
      obtain ⟨k1, hk, h1, hkeep1⟩ := kfree_owned h
      obtain ⟨k2, hs, h2, hkeep2⟩ := ih h1
      exact ⟨k2, Option.bind_eq_some_iff.mpr ⟨k1, hk, hs⟩, h2, hkeep1.trans hkeep2⟩

/-- **`freevm`** takes the directory out of the books. -/
theorem freevm_spec (h : DirOk L.Dom K U W k d) :
    ∃ k', freevm L k d = some k' ∧ k'.Ok L.Dom K U W ∧ Keeps U k k' := by
  obtain ⟨k1, d1, hd, h1, hkeep1, hview, -⟩ := deallocuvm_spec h le_rfl 0
  -- no entry for user memory is left
  have hnone : ∀ v < UPAGES, (d1.pte v).present = false := by
    intro v hv
    by_contra hp
    have hsome := view_of_present (k := k1) hv (Bool.eq_true_of_not_eq_false hp)
    rw [hview, Space.clear, if_pos] at hsome
    · cases hsome
    · exact ⟨Nat.zero_le _, hv⟩
  have hok := h1.ok
  rw [refs_eq_zero hnone, writes_eq_zero hnone, add_zero, add_zero, owned, ← add_assoc] at hok
  obtain ⟨k2, ht, h2, hkeep2⟩ := freeTables_spec (i := 0) (by simpa only [Nat.zero_add] using hok)
  obtain ⟨k3, hk, h3, hkeep3⟩ := kfree_owned h2
  refine ⟨k3, ?_, h3, (hkeep1.trans hkeep2).trans hkeep3⟩
  rw [freevm, hd]
  show (freeTables L d1 NPDENTRIES 0 k1 >>= _) = _
  rw [ht]
  exact hk

/-! ## Building -/

/-- `mappages` above user memory, where nothing is in use, whether or not there is memory for the
tables. -/
theorem mappages_kern (writable : Bool) (h : DirOk L.Dom K U W k d) (hv : UPAGES ≤ v)
    (hn : v + n ≤ VPAGES) (hfree : ∀ u, v ≤ u → (d.pte u).present = false) (pa : Frame) :
    ∃ ok k' d', mappages writable false n k d v pa = some (ok, k', d') ∧
      DirOk L.Dom K U W k' d' ∧ k'.mem = k.mem ∧ (∀ u < UPAGES, d'.pte u = d.pte u) ∧
      ∀ u, v + n ≤ u → (d'.pte u).present = false := by
  induction n generalizing k d v pa with
  | zero => exact ⟨true, k, d, rfl, h, rfl, fun u _ => rfl, hfree⟩
  | succ n ih =>
    rw [mappages]
    cases hw : walkpgdirAlloc k d v with
    | none => exact ⟨false, k, d, rfl, h, rfl, fun u _ => rfl, fun u hu => hfree u (by omega)⟩
    | some r =>
      obtain ⟨k1, d1⟩ := r
      obtain ⟨h1, hmem1, hpte1, hsome⟩ := walkpgdirAlloc_spec h (by omega) hw
      obtain ⟨h2, hpte2⟩ := h1.kern (x := ⟨true, writable, false, pa⟩) hv hsome rfl
      have hp : ¬ (d1.pte v).present = true := by
        rw [hpte1, hfree v le_rfl]
        exact Bool.false_ne_true
      have hnext : ∀ u, v + 1 ≤ u →
          ((d1.setPte v ⟨true, writable, false, pa⟩).pte u).present = false := fun u hu => by
        rw [PageDir.pte_setPte hsome, if_neg (by omega), hpte1]
        exact hfree u (by omega)
      obtain ⟨ok, k', d', hs, h3, hmem3, hpte3, hrest⟩ := ih h2 (by omega) (by omega) hnext (pa + 1)
      refine ⟨ok, k', d', (if_neg hp).trans hs, h3, hmem3.trans hmem1, fun u hu => ?_,
        fun u hu => hrest u (by omega)⟩
      rw [hpte3 u hu, hpte2 u hu, hpte1 u]

theorem mapKernel_spec {es : List KMap} (h : DirOk L.Dom K U W k d)
    (hes : ∀ e ∈ es, UPAGES ≤ e.virt ∧ e.virt + e.pages ≤ VPAGES)
    (hfree : ∀ u, v ≤ u → (d.pte u).present = false) (hlow : ∀ e ∈ es, v ≤ e.virt)
    (hsorted : es.Pairwise fun e e' => e.virt + e.pages ≤ e'.virt) :
    ∃ ok k' d', mapKernel es k d = some (ok, k', d') ∧ DirOk L.Dom K U W k' d' ∧ k'.mem = k.mem ∧
      ∀ u < UPAGES, d'.pte u = d.pte u := by
  induction es generalizing k d v with
  | nil => exact ⟨true, k, d, rfl, h, rfl, fun u _ => rfl⟩
  | cons e es ih =>
    rw [List.pairwise_cons] at hsorted
    obtain ⟨hlo, hhi⟩ := hes e List.mem_cons_self
    obtain ⟨ok, k1, d1, hm, h1, hmem1, hpte1, hrest⟩ := mappages_kern e.writable h hlo hhi
      (fun u hu => hfree u ((hlow e List.mem_cons_self).trans hu)) e.phys
    rw [mapKernel, hm]
    cases ok with
    | false => exact ⟨false, k1, d1, rfl, h1, hmem1, hpte1⟩
    | true =>
      obtain ⟨ok, k2, d2, hs, h2, hmem2, hpte2⟩ := ih h1
        (fun e' he' => hes e' (List.mem_cons_of_mem e he')) hrest hsorted.1 hsorted.2
      exact ⟨ok, k2, d2, hs, h2, hmem2.trans hmem1, fun u hu => (hpte2 u hu).trans (hpte1 u hu)⟩

/-- **`setupkvm`** makes a directory with no user memory, or else leaves the books as they were. -/
theorem setupkvm_spec (h : k.Ok L.Dom K U W) (hle : ∀ f, W f ≤ U f) :
    ∃ o k', setupkvm L k = some (o, k') ∧ Keeps U k k' ∧ (o = none → k'.Ok L.Dom K U W) ∧
      ∀ d, o = some d → DirOk L.Dom K U W k' d ∧ ∀ v < UPAGES, d.pte v = {} := by
  unfold setupkvm
  cases hk : kalloc k with
  | none => exact ⟨none, k, rfl, .rfl, fun _ => h, nofun⟩
  | some r =>
    obtain ⟨f, k1⟩ := r
    obtain ⟨hok, hmem1, -, -⟩ := kalloc_spec h hk
    obtain ⟨ok, k2, d2, hm, h2, hmem2, hpte2⟩ := mapKernel_spec (v := 0) (DirOk.empty hok hle)
      L.kmap_kern (fun u _ => rfl) (fun e _ => Nat.zero_le _) L.kmap_sorted
    have hkeep : Keeps U k k2 := .of_mem (hmem2.trans hmem1)
    dsimp only
    rw [hm]
    cases ok with
    | true =>
      refine ⟨some d2, k2, rfl, hkeep, nofun, fun d hd => ?_⟩
      cases hd
      exact ⟨h2, hpte2⟩
    | false =>
      obtain ⟨k3, hf, h3, hkeep3⟩ := freevm_spec h2
      refine ⟨none, k3, ?_, hkeep.trans hkeep3, fun _ => h3, nofun⟩
      show (freevm L k2 d2 >>= _) = _
      rw [hf]
      rfl

/-- `mappages` that does not run out of memory has made the entries that it was asked for. -/
theorem mappages_pte {writable user : Bool}
    (hs : mappages writable user n k d v pa = some (true, k', d')) (u : ℕ) :
    d'.pte u = if v ≤ u ∧ u < v + n then ⟨true, writable, user, pa + (u - v)⟩ else d.pte u := by
  induction n generalizing k d v pa with
  | zero =>
    cases hs
    rw [if_neg (by omega)]
  | succ n ih =>
    rw [mappages] at hs
    split at hs
    · cases hs
    · rename_i k1 d1 hw
      obtain ⟨hpte, hsome⟩ := walkpgdirAlloc_pte hw
      split_ifs at hs
      rw [ih hs, PageDir.pte_setPte hsome, hpte]
      by_cases huv : u = v
      · rw [huv, if_neg (by omega), if_pos rfl, if_pos (by omega), Nat.sub_self, Nat.add_zero]
      · rw [if_neg huv]
        by_cases hin : v ≤ u ∧ u < v + (n + 1)
        · rw [if_pos (by omega), if_pos hin, Nat.add_assoc, show 1 + (u - (v + 1)) = u - v by omega]
        · rw [if_neg (by omega), if_neg hin]

/-- The entries of the kernel's mappings. -/
def MapsKernel (es : List KMap) (d : PageDir) : Prop :=
  ∀ e ∈ es, ∀ j < e.pages, d.pte (e.virt + j) = ⟨true, e.writable, false, e.phys + j⟩

theorem mapKernel_pte_of_lt {es : List KMap} (hlow : ∀ e ∈ es, u < e.virt)
    (hs : mapKernel es k d = some (true, k', d')) : d'.pte u = d.pte u := by
  induction es generalizing k d with
  | nil =>
    cases hs
    rfl
  | cons e es ih =>
    obtain ⟨⟨ok, k1, d1⟩, hm, hs⟩ := Option.bind_eq_some_iff.mp hs
    cases ok with
    | false => cases hs
    | true =>
      have he := hlow e List.mem_cons_self
      rw [ih (fun e' he' => hlow e' (List.mem_cons_of_mem e he')) hs, mappages_pte hm,
        if_neg (by omega)]

theorem mapKernel_pte {es : List KMap}
    (hsorted : es.Pairwise fun e e' => e.virt + e.pages ≤ e'.virt)
    (hs : mapKernel es k d = some (true, k', d')) : MapsKernel es d' := by
  induction es generalizing k d with
  | nil => exact nofun
  | cons e es ih =>
    obtain ⟨hfirst, hrest⟩ := List.pairwise_cons.mp hsorted
    obtain ⟨⟨ok, k1, d1⟩, hm, hs1⟩ := Option.bind_eq_some_iff.mp hs
    cases ok with
    | false => cases hs1
    | true =>
      intro e' he' j hj
      rcases List.mem_cons.mp he' with rfl | he'
      · -- the mappings after this one are all above it
        have hlow : ∀ e ∈ es, e'.virt + j < e.virt := fun e he => by
          have := hfirst e he
          omega
        rw [mapKernel_pte_of_lt hlow hs1, mappages_pte hm, if_pos (by omega),
          Nat.add_sub_cancel_left]
      · exact ih hrest hs1 e' he' j hj

/-- **`setupkvm`** maps the whole kernel, or returns no directory. -/
theorem setupkvm_mapsKernel (hs : setupkvm L k = some (some d, k')) : MapsKernel L.kmap d := by
  unfold setupkvm at hs
  split at hs
  · cases hs
  · obtain ⟨⟨ok, k2, d2⟩, hm, hs⟩ := Option.bind_eq_some_iff.mp hs
    cases ok with
    | true =>
      cases hs
      exact mapKernel_pte L.kmap_sorted hm
    | false =>
      obtain ⟨k3, -, hs⟩ := Option.bind_eq_some_iff.mp hs
      cases hs

theorem mappages_one (writable user : Bool) (k : Kmem) (pa : Frame)
    (h : (d.pte v).present = false) :
    mappages writable user 1 k d v pa = some (false, k, d) ∨
      ∃ k' d1, walkpgdirAlloc k d v = some (k', d1) ∧
        mappages writable user 1 k d v pa =
          some (true, k', d1.setPte v ⟨true, writable, user, pa⟩) := by
  rw [mappages]
  cases hw : walkpgdirAlloc k d v with
  | none => exact Or.inl rfl
  | some r =>
    obtain ⟨k1, d1⟩ := r
    have hp : ¬ (d1.pte v).present = true := by
      rw [(walkpgdirAlloc_pte hw).1, h]
      exact Bool.false_ne_true
    exact Or.inr ⟨k1, d1, rfl, if_neg hp⟩

/-- A page of the caller's is mapped, if there is memory for the table. -/
theorem mappages_map (user : Bool) (h : DirOk L.Dom (K + Pi.single pa 1) U W k d) (hv : v < UPAGES)
    (hfree : (d.pte v).present = false) :
    mappages true user 1 k d v pa = some (false, k, d) ∨
      ∃ k' d', mappages true user 1 k d v pa = some (true, k', d') ∧ k'.mem = k.mem ∧
        DirOk L.Dom K U W k' d' ∧
        view k' d' = Function.update (view k d) v (some (user, k.mem pa)) ∧
        (Private d → Private d') ∧ ∀ u, u ≠ v → d'.pte u = d.pte u := by
  refine (mappages_one true user k pa hfree).imp id ?_
  rintro ⟨k', d1, hw, hs⟩
  obtain ⟨h1, hmem1, hpte1, hsome⟩ := walkpgdirAlloc_spec h (hv.trans (by decide)) hw
  obtain ⟨h2, hview⟩ := DirOk.map (x := ⟨true, true, user, pa⟩) h1 hv hsome (by rwa [hpte1]) rfl
  refine ⟨k', _, hs, hmem1, h2, ?_, fun hpriv => ?_, fun u hu => ?_⟩
  · have hv1 : view k' d1 = view k d := by
      funext u
      exact view_congr (hpte1 u) fun _ _ => congrFun hmem1 _
    rw [hview, hv1, hmem1]
  · refine Private.setPte (fun u hu => ?_) hsome fun _ => rfl
    rw [hpte1 u]
    exact hpriv u hu
  · rw [PageDir.pte_setPte hsome, if_neg hu, hpte1]

theorem allocLoop_spec (h : DirOk L.Dom K U W k d) (hnew : newsz ≤ KERNBASE)
    (hv : pgroundup oldsz ≤ v) (hn : v + n = pgroundup newsz ∨ n = 0)
    (hfree : ∀ u, v ≤ u → u < v + n → (d.pte u).present = false) :
    ∃ sz k' d', allocLoop L oldsz newsz n v k d = some (sz, k', d') ∧ DirOk L.Dom K U W k' d' ∧
      Keeps U k k' ∧ (Private d → Private d') ∧
      (sz = newsz ∧ view k' d' = (view k d).fill v (v + n) ∨
        sz = 0 ∧ view k' d' = (view k d).clear (pgroundup oldsz) (pgroundup newsz)) := by
  induction n generalizing v k d with
  | zero =>
    exact ⟨newsz, k, d, rfl, h, .rfl, id, Or.inl ⟨rfl, (Space.fill_self_of_le _ le_rfl).symm⟩⟩
  | succ n ih =>
    have hlast := pgroundup_le hnew
    rw [allocLoop]
    cases hk : kalloc k with
    | none =>
      obtain ⟨k1, d1, hd, h1, hkeep, hview, hpriv⟩ := deallocuvm_spec h hnew oldsz
      dsimp only
      rw [hd]
      exact ⟨0, k1, d1, rfl, h1, hkeep, hpriv, Or.inr ⟨rfl, hview⟩⟩
    | some r =>
      obtain ⟨f, k1⟩ := r
      obtain ⟨h1, hkeep1, hview1⟩ := h.fresh hk fun _ => 0
      dsimp only
      obtain hm | ⟨k2, d2, hm, hmem2, h2, hview2, hpriv2, hpte2⟩ :=
        mappages_map true h1 (by omega) (hfree v le_rfl (by omega))
      · -- everything that was mapped here is unmapped, and then the page itself is returned
        obtain ⟨k3, d3, hd, h3, hkeep3, hview3, hpriv3⟩ := deallocuvm_spec h1 hnew oldsz
        have hok := h3.ok
        rw [add_right_comm] at hok
        obtain ⟨k4, hf, h4, hkeep4⟩ := kfree_owned hok
        refine ⟨0, k4, d3, ?_, ⟨h4, h3.le, h3.wf⟩, fun g hg => ?_, hpriv3, Or.inr ⟨rfl, ?_⟩⟩
        · rw [hm]
          show (deallocuvm L _ d newsz oldsz >>= _) = _
          rw [hd]
          show (kfree L f k3 >>= _) = _
          rw [hf]
          rfl
        · rw [hkeep4 g (by rw [Pi.add_apply]; omega), hkeep3 g hg, hkeep1 g hg]
        · rw [hkeep4.view fun g => by rw [Pi.add_apply]; omega, hview3, hview1]
      · rw [hview1, Kmem.store_mem_self] at hview2
        obtain ⟨sz, k3, d3, hs, h3, hkeep3, hpriv3, hres⟩ :=
          ih h2 (v := v + 1) (by omega) (by omega)
          fun u hu hu' => by
            rw [hpte2 u (by omega)]
            exact hfree u (by omega) (by omega)
        refine ⟨sz, k3, d3, ?_, h3, hkeep1.trans ((Keeps.of_mem hmem2).trans hkeep3),
          hpriv3 ∘ hpriv2, ?_⟩
        · rw [hm]
          exact hs
        rw [hview2] at hres
        refine hres.imp (fun hok => ⟨hok.1, ?_⟩) fun hno => ⟨hno.1, ?_⟩
        · rw [hok.2, show v + 1 + n = v + (n + 1) by omega, Space.fill_succ (by omega)]
        · rw [hno.2, Space.clear_update hv (by omega)]

/-- **`allocuvm`**, if the pages above the old size are not in use, adds empty pages up to the new
size, or else takes away what it has added. -/
theorem allocuvm_spec (h : DirOk L.Dom K U W k d) (newsz : ℕ)
    (hfree : ∀ u, pgroundup oldsz ≤ u → u < UPAGES → (d.pte u).present = false) :
    ∃ sz k' d', allocuvm L k d oldsz newsz = some (sz, k', d') ∧ DirOk L.Dom K U W k' d' ∧
      Keeps U k k' ∧ (Private d → Private d') ∧
      (newsz < KERNBASE ∧ sz = max oldsz newsz ∧
          view k' d' = (view k d).fill (pgroundup oldsz) (pgroundup newsz) ∨
        sz = 0 ∧ view k' d' = view k d) := by
  unfold allocuvm
  split_ifs with hkern hlt
  · exact ⟨0, k, d, rfl, h, .rfl, id, Or.inr ⟨rfl, rfl⟩⟩
  · refine ⟨oldsz, k, d, rfl, h, .rfl, id, Or.inl ⟨by omega, by omega, ?_⟩⟩
    exact (Space.fill_self_of_le _ (Nat.div_le_div_right (by omega))).symm
  · have hle : pgroundup oldsz ≤ pgroundup newsz := Nat.div_le_div_right (by omega)
    have hlast := pgroundup_le (show newsz ≤ KERNBASE by omega)
    have hpages : pgroundup oldsz + (pgroundup newsz - pgroundup oldsz) = pgroundup newsz := by
      omega
    obtain ⟨sz, k', d', hs, h1, hkeep, hpriv, hres⟩ :=
      allocLoop_spec h (show newsz ≤ KERNBASE by omega)
      le_rfl (Or.inl hpages) fun u hu hu' => hfree u hu (by omega)
    rw [hpages] at hres
    refine ⟨sz, k', d', hs, h1, hkeep, hpriv, hres.imp (fun hok => ⟨by omega, by omega, hok.2⟩) ?_⟩
    -- the pages that are taken away again were not there before
    rintro ⟨hzero, hview⟩
    refine ⟨hzero, hview.trans ?_⟩
    rw [← Space.clear_of_none hle fun u hu hu' => view_of_not_present (hfree u hu (by omega)),
      Space.clear_self_of_le _ le_rfl]

/-! ## Directories along the loops -/

/-- **What `deallocuvm` does to a directory** is to clear entries from the new size on. -/
theorem deallocuvm_invariant {P : PageDir → Prop}
    (hclear : ∀ d v, pgroundup newsz ≤ v → (walkpgdir d v).isSome → P d → P (d.setPte v {}))
    (hs : deallocuvm L k d oldsz newsz = some (sz, k', d')) (h : P d) : P d' := by
  have hloop : ∀ n v k d, pgroundup newsz ≤ v → P d →
      deallocLoop L (pgroundup oldsz) n v k d = some (k', d') → P d' := by
    intro n
    induction n with
    | zero =>
      intro v k d _ h hs
      cases hs
      exact h
    | succ n ih =>
      intro v k d hv h hs
      rw [deallocLoop] at hs
      split_ifs at hs
      · split at hs
        · exact ih _ _ _ (hv.trans (lt_next_table v).le) h hs
        · rename_i pte hw
          split_ifs at hs
          · obtain ⟨k1, -, hs⟩ := Option.bind_eq_some_iff.mp hs
            exact ih _ _ _ (by omega) (hclear d v hv (by rw [hw]; rfl) h) hs
          · exact ih _ _ _ (by omega) h hs
      · cases hs
        exact h
  unfold deallocuvm at hs
  split_ifs at hs
  · cases hs
    exact h
  · obtain ⟨⟨k1, d1⟩, hl, hs⟩ := Option.bind_eq_some_iff.mp hs
    cases hs
    exact hloop _ _ _ _ le_rfl h hl

/-- **What `allocuvm` does to a directory** is to map pages between the sizes, and to clear
entries. -/
theorem allocuvm_invariant {P : PageDir → Prop}
    (hmap : ∀ {k k' d d' v f ok}, pgroundup oldsz ≤ v → v < UPAGES →
      mappages true true 1 k d v f = some (ok, k', d') → P d → P d')
    (hclear : ∀ d v, pgroundup oldsz ≤ v → (walkpgdir d v).isSome → P d → P (d.setPte v {}))
    (hs : allocuvm L k d oldsz newsz = some (sz, k', d')) (h : P d) : P d' := by
  have hloop : ∀ n v k d, pgroundup oldsz ≤ v → v + n ≤ UPAGES → P d →
      allocLoop L oldsz newsz n v k d = some (sz, k', d') → P d' := by
    intro n
    induction n with
    | zero =>
      intro v k d _ _ h hs
      cases hs
      exact h
    | succ n ih =>
      intro v k d hv hn h hs
      rw [allocLoop] at hs
      split at hs
      · obtain ⟨⟨sz1, k1, d1⟩, hd, hs⟩ := Option.bind_eq_some_iff.mp hs
        cases hs
        exact deallocuvm_invariant hclear hd h
      · obtain ⟨⟨ok, k2, d2⟩, hm, hs⟩ := Option.bind_eq_some_iff.mp hs
        have h2 := hmap hv (by omega) hm h
        cases ok with
        | true => exact ih _ _ _ (by omega) (by omega) h2 hs
        | false =>
          obtain ⟨⟨sz3, k3, d3⟩, hd, hs⟩ := Option.bind_eq_some_iff.mp hs
          obtain ⟨k4, -, hs⟩ := Option.bind_eq_some_iff.mp hs
          cases hs
          exact deallocuvm_invariant hclear hd h2
  unfold allocuvm at hs
  split_ifs at hs with hkern hlt
  · cases hs
    exact h
  · cases hs
    exact h
  · have hlast := pgroundup_le (show newsz ≤ KERNBASE by omega)
    have hle : pgroundup oldsz ≤ pgroundup newsz := Nat.div_le_div_right (by omega)
    exact hloop _ _ _ _ le_rfl (by omega) h hs

end Xv6.Vm
