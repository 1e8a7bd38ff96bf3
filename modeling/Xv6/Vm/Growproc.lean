import Xv6.Vm.Cow

/-!
# Growing and shrinking a process

`growproc` of `proc.c`, which `sbrk` calls.  The new size is computed as a `uint`, and the size that
`allocuvm` or `deallocuvm` returns doubles as an error code.  For `allocuvm` zero is an error; for
`deallocuvm` it is the new size of a process that gave all its memory back.

What `growproc` should do is `Grows`: change the size by `n` and the pages with it, or fail and
change nothing.  It does so unless the process has some memory and asks to give back all of it or
more (`growproc_exact_iff`).
-/

namespace Xv6.Vm

open Lib

/-- Grow current process's memory by `n` bytes.  Returns 0 on success, -1 on failure, with the size
of the process after the call. -/
def growproc (L : Layout) (k : Kmem) (d : PageDir) (sz : ℕ) (n : Int32) :
    Option (ℤ × ℕ × Kmem × PageDir) :=
  -- `sz + n` as a `uint`
  let newsz := (((sz : ℤ) + n.toInt) % 2 ^ 32).toNat
  if 0 < n then do
    let (sz', k, d) ← allocuvm L k d sz newsz
    some (if sz' = 0 then (-1, sz, k, d) else (0, sz', k, d))
  else if n < 0 then do
    let (sz', k, d) ← deallocuvm L k d sz newsz
    some (if sz' = 0 then (-1, sz, k, d) else (0, sz', k, d))
  else some (0, sz, k, d)

/-- The present pages of the user part are those below the size. -/
def PagesUpto (d : PageDir) (sz : ℕ) : Prop :=
  ∀ v < UPAGES, (d.pte v).present = true ↔ v < pgroundup sz

/-- The entry of page `v`, if it maps something. -/
def PageDir.mapping (d : PageDir) (v : ℕ) : Option Pte :=
  if (d.pte v).present then some (d.pte v) else none

/-- **What `growproc` is for.**  The size changes by `n`, the pages below the new size are there,
the old ones with what they held and the new ones filled with zeroes; or the call fails, and neither
the size nor the user's mappings nor their contents change. -/
def Grows (L : Layout) (k : Kmem) (d : PageDir) (sz : ℕ) (n : Int32) : Prop :=
  ∃ ret sz' k' d', growproc L k d sz n = some (ret, sz', k', d') ∧
    ((ret = 0 ∧ (sz' : ℤ) = sz + n.toInt ∧ sz' < KERNBASE ∧ PagesUpto d' sz' ∧
        ∀ v < pgroundup sz', view k' d' v =
          if v < pgroundup sz then view k d v else some (true, fun _ => 0)) ∨
      (ret = -1 ∧ sz' = sz ∧ (∀ v < UPAGES, d'.mapping v = d.mapping v) ∧
        view k' d' = view k d))

variable {L : Layout} {k k' : Kmem} {K U W : Frame → ℕ} {d d' : PageDir}
  {u v n last oldsz newsz sz : ℕ}

/-! ## Entries below the old size -/

theorem mappages_one_pte {ok writable user : Bool} {pa : Frame} (hu : u ≠ v)
    (hs : mappages writable user 1 k d v pa = some (ok, k', d')) : d'.pte u = d.pte u := by
  rw [mappages] at hs
  split at hs
  · cases hs
    rfl
  · rename_i k1 d1 hw
    split_ifs at hs
    cases hs
    obtain ⟨hpte, hsome⟩ := walkpgdirAlloc_pte hw
    rw [PageDir.pte_setPte hsome, if_neg hu, hpte]

theorem allocuvm_pte (hu : u < pgroundup oldsz)
    (hs : allocuvm L k d oldsz newsz = some (sz, k', d')) : d'.pte u = d.pte u := by
  refine allocuvm_invariant (P := fun x => x.pte u = d.pte u) ?_ ?_ hs rfl
  · intro k1 k2 d1 d2 v f ok hv _ hm h
    exact (mappages_one_pte (by omega) hm).trans h
  · intro d1 v hv hw h
    rwa [PageDir.pte_setPte hw, if_neg (by omega)]

/-! ## Pages and views -/

theorem present_iff_view (hv : v < UPAGES) :
    (d.pte v).present = true ↔ (view k d v).isSome := by
  constructor
  · intro hp
    rw [view_of_present hv hp]
    rfl
  · intro hsome
    obtain ⟨y, hy⟩ := Option.isSome_iff_exists.mp hsome
    exact (view_isSome hy).2

theorem PagesUpto.not_present (h : PagesUpto d sz) (hlt : v < UPAGES) (hv : pgroundup sz ≤ v) :
    (d.pte v).present = false :=
  Bool.eq_false_of_not_eq_true fun hp => absurd ((h v hlt).mp hp) (by omega)

theorem PagesUpto.view_eq_none (h : PagesUpto d sz) (hv : pgroundup sz ≤ v) :
    view k d v = none := by
  by_cases hlt : v < UPAGES
  · exact view_of_not_present (h.not_present hlt hv)
  · exact view_of_le (by omega)

theorem PagesUpto.view_isSome (h : PagesUpto d sz) (hsz : sz ≤ KERNBASE) (hv : v < pgroundup sz) :
    (view k d v).isSome := by
  have hlt : v < UPAGES := lt_of_lt_of_le hv (pgroundup_le hsz)
  exact (present_iff_view hlt).mp ((h v hlt).mpr hv)

theorem PagesUpto.mapping_eq (h : PagesUpto d sz) (hview : view k' d' = view k d)
    (hpte : ∀ u < pgroundup sz, d'.pte u = d.pte u) (hv : v < UPAGES) :
    d'.mapping v = d.mapping v := by
  by_cases hlt : v < pgroundup sz
  · rw [PageDir.mapping, PageDir.mapping, hpte v hlt]
  · have hnone : ∀ {k : Kmem} {d : PageDir}, view k d v = none → d.mapping v = none := by
      intro k d hn
      refine if_neg fun hp => ?_
      rw [view_of_present hv hp] at hn
      cases hn
    rw [hnone (h.view_eq_none (k := k) (by omega)), hnone (k := k') (d := d')]
    rw [hview]
    exact h.view_eq_none (by omega)

theorem PagesUpto.of_fill (h : PagesUpto d oldsz) (hold : oldsz ≤ KERNBASE) (hle : oldsz ≤ newsz)
    (hview : view k' d' = (view k d).fill (pgroundup oldsz) (pgroundup newsz)) :
    PagesUpto d' newsz ∧ ∀ v < pgroundup newsz, view k' d' v =
      if v < pgroundup oldsz then view k d v else some (true, fun _ => 0) := by
  have hmono : pgroundup oldsz ≤ pgroundup newsz := Nat.div_le_div_right (by omega)
  have hval : ∀ v < pgroundup newsz, view k' d' v =
      if v < pgroundup oldsz then view k d v else some (true, fun _ => 0) := by
    intro v hv
    rw [hview, Space.fill]
    by_cases hlt : v < pgroundup oldsz
    · rw [if_neg (by omega), if_pos hlt]
    · rw [if_pos ⟨by omega, hv⟩, if_neg hlt]
  refine ⟨fun v hv => ?_, hval⟩
  rw [present_iff_view (k := k') hv]
  constructor
  · intro hsome
    by_contra hlt
    rw [hview, Space.fill, if_neg (by omega), h.view_eq_none (by omega)] at hsome
    cases hsome
  · intro hlt
    rw [hval v hlt]
    by_cases hold' : v < pgroundup oldsz
    · rw [if_pos hold']
      exact h.view_isSome hold hold'
    · rw [if_neg hold']
      rfl

theorem PagesUpto.of_clear (h : PagesUpto d oldsz) (hold : oldsz ≤ KERNBASE) (hle : newsz ≤ oldsz)
    (hview : view k' d' = (view k d).clear (pgroundup newsz) (pgroundup oldsz)) :
    PagesUpto d' newsz ∧ ∀ v < pgroundup newsz, view k' d' v =
      if v < pgroundup oldsz then view k d v else some (true, fun _ => 0) := by
  have hmono : pgroundup newsz ≤ pgroundup oldsz := Nat.div_le_div_right (by omega)
  have hval : ∀ v < pgroundup newsz, view k' d' v =
      if v < pgroundup oldsz then view k d v else some (true, fun _ => 0) := by
    intro v hv
    rw [hview, Space.clear, if_neg (by omega), if_pos (by omega)]
  refine ⟨fun v hv => ?_, hval⟩
  rw [present_iff_view (k := k') hv]
  constructor
  · intro hsome
    by_contra hlt
    by_cases hcut : v < pgroundup oldsz
    · rw [hview, Space.clear, if_pos ⟨by omega, hcut⟩] at hsome
      cases hsome
    · rw [hview, Space.clear, if_neg (by omega), h.view_eq_none (by omega)] at hsome
      cases hsome
  · intro hlt
    rw [hval v hlt, if_pos (by omega)]
    exact h.view_isSome hold (by omega)

/-! ## The cases of `growproc` -/

section Cases

variable {m : Int32}

/-- Growing: `sz + n` does not wrap around, and zero is not a size that can come out. -/
theorem growproc_pos (h : DirOk L.Dom K U W k d) (hp : PagesUpto d sz) (hsz : sz < KERNBASE)
    (hm : 0 < m) : Grows L k d sz m := by
  have hpos : 0 < m.toInt := Int32.lt_iff_toInt_lt.mp hm
  have hlt := m.toInt_lt
  have hkern : KERNBASE = 2 ^ 31 := rfl
  obtain ⟨N, hN⟩ : ∃ N : ℕ, (N : ℤ) = sz + m.toInt := ⟨((sz : ℤ) + m.toInt).toNat, by omega⟩
  have hnew : (((sz : ℤ) + m.toInt) % 2 ^ 32).toNat = N := by omega
  obtain ⟨sz', k', d', hs, -, -, -, hres⟩ := allocuvm_spec h N fun u hu hlt => hp.not_present hlt hu
  have hpte : ∀ u < pgroundup sz, d'.pte u = d.pte u := fun u hu => allocuvm_pte hu hs
  have hgrow : growproc L k d sz m =
      some (if sz' = 0 then (-1, sz, k', d') else (0, sz', k', d')) := by
    rw [growproc, hnew, if_pos hm, hs]
    rfl
  rcases hres with ⟨hlo, hsz', hview⟩ | ⟨hzero, hsame⟩
  · obtain rfl : sz' = N := by omega
    rw [if_neg (by omega)] at hgrow
    obtain ⟨hpages, hval⟩ := hp.of_fill hsz.le (by omega) hview
    exact ⟨0, sz', k', d', hgrow, Or.inl ⟨rfl, hN, hlo, hpages, hval⟩⟩
  · rw [if_pos hzero] at hgrow
    exact ⟨-1, sz, k', d', hgrow, Or.inr ⟨rfl, rfl, fun v hv => hp.mapping_eq hsame hpte hv, hsame⟩⟩

/-- Shrinking: the size that `deallocuvm` is asked for, and what it does. -/
theorem growproc_neg_eq (h : DirOk L.Dom K U W k d) (hsz : sz < KERNBASE) (hm : m < 0) :
    ∃ sz' k' d', growproc L k d sz m =
        some (if sz' = 0 then (-1, sz, k', d') else (0, sz', k', d')) ∧
      (0 ≤ (sz : ℤ) + m.toInt → (sz' : ℤ) = sz + m.toInt ∧
        view k' d' = (view k d).clear (pgroundup sz') (pgroundup sz)) ∧
      ((sz : ℤ) + m.toInt < 0 → sz' = sz ∧ k' = k ∧ d' = d) := by
  have hneg : m.toInt < 0 := Int32.lt_iff_toInt_lt.mp hm
  have hle := m.le_toInt
  have hkern : KERNBASE = 2 ^ 31 := rfl
  obtain ⟨N, hN⟩ : ∃ N, N = (((sz : ℤ) + m.toInt) % 2 ^ 32).toNat := ⟨_, rfl⟩
  obtain ⟨k', d', hs, -, -, hview, -⟩ := deallocuvm_spec h hsz.le N
  refine ⟨min sz N, k', d', ?_, fun hnn => ?_, fun hwrap => ?_⟩
  · rw [growproc, ← hN, if_neg (Int32.not_lt.mpr (Int32.le_of_lt hm)), if_pos hm, hs]
    rfl
  · rw [Nat.min_eq_right (by omega)]
    exact ⟨by omega, hview⟩
  · have hbig : sz ≤ N := by omega
    rw [deallocuvm, if_pos hbig, Nat.min_eq_left hbig] at hs
    cases hs
    exact ⟨Nat.min_eq_left hbig, rfl, rfl⟩

/-- **`growproc` is exact and atomic**, unless a process that has memory asks to give back all of it
or more.  To give back all of it takes the pages away and reports a failure, and to give back more
reports a success and changes nothing. -/
theorem growproc_exact_iff (h : DirOk L.Dom K U W k d) (hp : PagesUpto d sz) (hsz : sz < KERNBASE)
    (m : Int32) : Grows L k d sz m ↔ sz = 0 ∨ 0 < (sz : ℤ) + m.toInt := by
  rcases lt_trichotomy m.toInt 0 with hneg | hzero | hpos
  · have hm : m < 0 := Int32.lt_iff_toInt_lt.mpr hneg
    obtain ⟨sz', k', d', hgrow, hshrink, hwrap⟩ := growproc_neg_eq h hsz hm
    constructor
    · rintro ⟨ret, sz1, k1, d1, hs, hres⟩
      by_contra hcond
      rw [hgrow] at hs
      rcases Int.lt_or_le ((sz : ℤ) + m.toInt) 0 with hlt | hge
      · obtain ⟨rfl, rfl, rfl⟩ := hwrap hlt
        rw [if_neg (by omega)] at hs
        cases hs
        rcases hres with ⟨-, hsum, -⟩ | ⟨hret, -⟩
        · omega
        · omega
      · obtain ⟨hsum, hview⟩ := hshrink hge
        obtain rfl : sz' = 0 := by omega
        rw [if_pos rfl] at hs
        cases hs
        rcases hres with ⟨hret, -⟩ | ⟨-, -, -, hsame⟩
        · omega
        · -- page 0 was there, and is gone
          have hone : 0 < pgroundup sz := Nat.div_pos (by unfold PGSIZE; omega) (by decide)
          have hsome := hp.view_isSome (k := k) hsz.le hone
          rw [← hsame, hview, Space.clear, if_pos ⟨le_rfl, hone⟩] at hsome
          cases hsome
    · intro hcond
      rcases Int.lt_or_le ((sz : ℤ) + m.toInt) 0 with hlt | hge
      · obtain ⟨rfl, rfl, rfl⟩ := hwrap hlt
        rw [if_pos (by omega)] at hgrow
        exact ⟨-1, _, _, _, hgrow, Or.inr ⟨rfl, rfl, fun _ _ => rfl, rfl⟩⟩
      · obtain ⟨hsum, hview⟩ := hshrink hge
        obtain ⟨hpages, hval⟩ := hp.of_clear hsz.le (by omega) hview
        rw [if_neg (by omega)] at hgrow
        exact ⟨0, _, _, _, hgrow, Or.inl ⟨rfl, hsum, by omega, hpages, hval⟩⟩
  · have hm : m = 0 := Int32.toInt_inj.mp hzero
    have hgrow : growproc L k d sz m = some (0, sz, k, d) := by
      rw [growproc, hm]
      rfl
    refine ⟨fun _ => by omega, fun _ => ?_⟩
    refine ⟨0, sz, k, d, hgrow, Or.inl ⟨rfl, by omega, hsz, hp, fun v hv => ?_⟩⟩
    rw [if_pos hv]
  · exact ⟨fun _ => by omega, fun _ => growproc_pos h hp hsz (Int32.lt_iff_toInt_lt.mpr hpos)⟩

end Cases

/-! ## A process with one page -/

/-- A machine with five pages for the allocator. -/
def smallLayout : Layout where
  first := 1
  numpages := 6
  kmap := []
  first_pos := by decide
  first_le := by decide
  kmap_kern := nofun
  kmap_sorted := List.Pairwise.nil

def smallKmem : Kmem := ⟨[5, 4, 3, 2, 1], fun _ => 0, fun _ _ => 0⟩

theorem smallKmem_ok : smallKmem.Ok smallLayout.Dom 0 0 0 := by
  refine ⟨fun {f} hf => ?_, fun _ => rfl, fun {f} hf => ?_, fun _ => le_rfl, fun h => ?_⟩
  · have hcount : ∀ f, 1 ≤ f → f < 6 → smallKmem.freelist.count f = 1 := by decide
    show smallKmem.freelist.count f + 0 + min 0 1 = 1
    rw [hcount f hf.1 hf.2]
    rfl
  · refine ⟨?_, rfl, rfl, rfl⟩
    refine List.count_eq_zero.mpr fun hmem => hf ?_
    have hall : ∀ f ∈ smallKmem.freelist, 1 ≤ f ∧ f < 6 := by decide
    exact hall f hmem
  · exact absurd h (lt_irrefl 0)

/-- A process with one page on that machine. -/
def onePage : Option (Kmem × PageDir) := do
  let (f, k) ← kalloc smallKmem
  let (_, k, d) ← allocuvm smallLayout k (PageDir.empty f) 0 4096
  some (k, d)

theorem onePage_ok : ∃ k d, onePage = some (k, d) ∧ DirOk smallLayout.Dom 0 0 0 k d ∧
    PagesUpto d 4096 := by
  obtain ⟨⟨f, k1⟩, hk⟩ : ∃ r, kalloc smallKmem = some r := ⟨_, rfl⟩
  obtain ⟨hok, -, -, -⟩ := kalloc_spec smallKmem_ok hk
  have h0 : DirOk smallLayout.Dom 0 0 0 k1 (PageDir.empty f) := DirOk.empty hok fun _ => le_rfl
  have hp0 : PagesUpto (PageDir.empty f) 0 := fun v _ =>
    ⟨fun hp => absurd hp Bool.false_ne_true, fun hv => absurd hv (Nat.not_lt_zero v)⟩
  have hsize : (allocuvm smallLayout k1 (PageDir.empty f) 0 4096).map Prod.fst = some 4096 := by
    cases hk
    rfl
  obtain ⟨⟨sz, k2, d2⟩, hs, rfl⟩ := Option.map_eq_some_iff.mp hsize
  have hone : onePage = some (k2, d2) := by
    rw [onePage, hk]
    show (allocuvm smallLayout k1 (PageDir.empty f) 0 4096 >>= _) = _
    rw [hs]
    rfl
  obtain ⟨sz, k, d, hs', h2, -, -, hres⟩ := allocuvm_spec h0 4096 fun u hu hlt =>
    hp0.not_present hlt hu
  cases hs.symm.trans hs'
  rcases hres with ⟨-, -, hview⟩ | ⟨hzero, -⟩
  · exact ⟨k2, d2, hone, h2, (hp0.of_fill (by decide) (by decide) hview).1⟩
  · cases hzero

/-- The process gives its page back: `growproc` fails, and the page is gone. -/
theorem growproc_not_atomic : ∃ k d, DirOk smallLayout.Dom 0 0 0 k d ∧ PagesUpto d 4096 ∧
    4096 < KERNBASE ∧ ¬ Grows smallLayout k d 4096 (-4096) := by
  obtain ⟨k, d, -, h, hp⟩ := onePage_ok
  refine ⟨k, d, h, hp, by decide, ?_⟩
  rintro ⟨ret, sz', k', d', hs, hres⟩
  obtain ⟨sz1, k1, d1, hgrow, hshrink, -⟩ := growproc_neg_eq (m := -4096) h
    (show 4096 < KERNBASE by decide) (by decide)
  obtain ⟨hsum, hview⟩ := hshrink (by decide)
  obtain rfl : sz1 = 0 := by
    have hn : (-4096 : Int32).toInt = -4096 := by decide
    omega
  rw [hgrow, if_pos rfl] at hs
  cases hs
  rcases hres with ⟨hret, -⟩ | ⟨-, -, -, hsame⟩
  · cases hret
  · have hsome := hp.view_isSome (k := k) (v := 0) (by decide) (by decide)
    rw [← hsame, hview, Space.clear, if_pos (by decide)] at hsome
    cases hsome

/-- It grows by a page. -/
theorem growproc_exact_onePage : ∃ k d, DirOk smallLayout.Dom 0 0 0 k d ∧ PagesUpto d 4096 ∧
    4096 < KERNBASE ∧ Grows smallLayout k d 4096 4096 := by
  obtain ⟨k, d, -, h, hp⟩ := onePage_ok
  exact ⟨k, d, h, hp, by decide, (growproc_exact_iff h hp (by decide) 4096).mpr (by decide)⟩

end Xv6.Vm
