import Xv6.Vm.Growproc

/-!
# The loop of `deallocuvm` on addresses

`deallocLoop` counts pages.  Here is the loop as the source has it, on addresses of 32 bits, with
the jump over a region without a page table written into the loop variable.  It has fuel for its
rounds, and is shown to end with the outcome of `deallocLoop`.

What the loop does is then said for any directory: the pages that are mapped in the range are
released one after the other, each once, and their entries are cleared.
-/

namespace Xv6.Vm

def PDX (va : ℕ) : ℕ := va / 2 ^ 22 % 1024

/-- Construct virtual address from indexes and offset, whose bits do not overlap. -/
def PGADDR (d t o : ℕ) : ℕ := (d * 2 ^ 22 + t * 2 ^ 12 + o) % 2 ^ 32

/-- `PGROUNDUP`: the low bits of the sum are cleared. -/
def PGROUNDUP (sz : ℕ) : ℕ := (sz + (PGSIZE - 1)) % 2 ^ 32 / PGSIZE * PGSIZE

/-- The loop of `deallocuvm` from the address `a` on, with fuel for `n` rounds.  The inner `none` is
a panic. -/
def deallocFrom (L : Layout) (oldsz : ℕ) : ℕ → ℕ → Kmem → PageDir → Option (Option (Kmem × PageDir))
  | 0, _, _, _ => none
  | n + 1, a, k, d =>
    if a < oldsz then
      match walkpgdir d (a / PGSIZE) with
      | none =>
        let a := (PGADDR (PDX a + 1) 0 0 + (2 ^ 32 - PGSIZE)) % 2 ^ 32
        deallocFrom L oldsz n ((a + PGSIZE) % 2 ^ 32) k d
      | some pte =>
        if pte.present then
          if pte.addr = 0 then some none
          else
            match unref L pte.addr k with
            | none => some none
            | some k => deallocFrom L oldsz n ((a + PGSIZE) % 2 ^ 32) k (d.setPte (a / PGSIZE) {})
        else deallocFrom L oldsz n ((a + PGSIZE) % 2 ^ 32) k d
    else some (some (k, d))

/-- `deallocuvm`, with fuel for its loop. -/
def deallocuvmFuel (L : Layout) (n : ℕ) (k : Kmem) (d : PageDir) (oldsz newsz : ℕ) :
    Option (Option (ℕ × Kmem × PageDir)) :=
  if newsz ≥ oldsz then some (some (oldsz, k, d))
  else (deallocFrom L oldsz n (PGROUNDUP newsz) k d).map fun r => r.map fun x => (newsz, x.1, x.2)

/-- Release the pages `fs`: free those of which `k0` has one user, and count one user less for the
others. -/
def release (L : Layout) (k0 : Kmem) (fs : List Frame) (k : Kmem) : Option Kmem :=
  fs.foldlM (fun k f => if refcount f k0 = 1 then kfree L f k else some (decref f k)) k

/-- The mapped pages from page `v` up to `last`. -/
def mapped (d : PageDir) (v last : ℕ) : List ℕ :=
  (List.range' v (last - v)).filter fun u => (d.pte u).present

/-- The directory without the pages `us`. -/
def PageDir.unmap (d : PageDir) (us : List ℕ) : PageDir := us.foldl (fun d u => d.setPte u {}) d

variable {L : Layout} {k k' k0 : Kmem} {d : PageDir} {u v w n last oldsz newsz : ℕ}
  {fs : List Frame}

/-! ## Addresses -/

/-- A page starts below the size if its number is below the number of pages. -/
theorem mul_pgsize_lt_iff : v * PGSIZE < oldsz ↔ v < pgroundup oldsz := by
  unfold pgroundup PGSIZE
  omega

/-- **The loop ends**, as the loop over page numbers does. -/
theorem deallocFrom_eq (hold : oldsz ≤ KERNBASE) (hv : v ≤ UPAGES) (hn : pgroundup oldsz ≤ v + n) :
    deallocFrom L oldsz (n + 1) (v * PGSIZE) k d =
      some (deallocLoop L (pgroundup oldsz) n v k d) := by
  induction n generalizing v k d with
  | zero =>
    rw [deallocFrom, if_neg (by rw [mul_pgsize_lt_iff]; omega)]
    rfl
  | succ n ih =>
    have hU : UPAGES = 2 ^ 19 := rfl
    have hP : PGSIZE = 2 ^ 12 := rfl
    have hE : NPDENTRIES = 1024 := rfl
    have hle := pgroundup_le hold
    rw [deallocFrom, deallocLoop]
    by_cases hlt : v < pgroundup oldsz
    · have hnext : (v * PGSIZE + PGSIZE) % 2 ^ 32 = (v + 1) * PGSIZE := by
        rw [hP]
        omega
      rw [if_pos (mul_pgsize_lt_iff.mpr hlt), if_pos hlt, Nat.mul_div_cancel v (by decide), hnext]
      cases walkpgdir d v with
      | none =>
        -- the last address of the region, and one page further
        have hjump :
          ((PGADDR (PDX (v * PGSIZE) + 1) 0 0 + (2 ^ 32 - PGSIZE)) % 2 ^ 32 + PGSIZE) % 2 ^ 32 =
            (v / NPDENTRIES + 1) * NPDENTRIES * PGSIZE := by
          rw [PGADDR, PDX, hP, hE]
          omega
        dsimp only
        rw [hjump]
        refine ih ?_ ?_ <;> rw [hE] <;> omega
      | some pte =>
        dsimp only
        split_ifs
        · rfl
        · cases unref L pte.addr k with
          | none => rfl
          | some k => exact ih (by omega) (by omega)
        · exact ih (by omega) (by omega)
    · rw [if_neg (by rwa [mul_pgsize_lt_iff]), if_neg hlt]

/-! ## Pages -/

theorem mem_mapped : u ∈ mapped d v last ↔ v ≤ u ∧ u < last ∧ (d.pte u).present = true := by
  rw [mapped, List.mem_filter, List.mem_range'_1, and_assoc]
  exact and_congr_right fun hv => and_congr_left fun _ => by omega

theorem mapped_of_lt (hv : v < last) : mapped d v last =
    if (d.pte v).present = true then v :: mapped d (v + 1) last else mapped d (v + 1) last := by
  rw [mapped, show last - v = last - (v + 1) + 1 by omega, List.range'_succ, List.filter_cons]
  rfl

theorem mapped_of_le (hv : last ≤ v) : mapped d v last = [] := by
  rw [mapped, Nat.sub_eq_zero_of_le hv]
  rfl

theorem mapped_skip (hvw : v ≤ w) (h : ∀ u, v ≤ u → u < w → (d.pte u).present = false) :
    mapped d v last = mapped d w last := by
  induction w, hvw using Nat.le_induction with
  | base => rfl
  | succ w hw ih =>
    rw [ih fun u hu hu' => h u hu (by omega)]
    by_cases hlt : w < last
    · rw [mapped_of_lt hlt, h w hw (Nat.lt_succ_self w), if_neg Bool.false_ne_true]
    · rw [mapped_of_le (by omega), mapped_of_le (by omega)]

/-- **What the loop does**, if no page is mapped to the page 0. -/
theorem deallocLoop_eq (hn : last ≤ v + n)
    (hz : ∀ u, v ≤ u → u < last → (d.pte u).present = true → (d.pte u).addr ≠ 0) :
    deallocLoop L last n v k d =
      (((mapped d v last).map fun u => (d.pte u).addr).foldlM (fun k f => unref L f k) k).map
        fun k' => (k', d.unmap (mapped d v last)) := by
  induction n generalizing v k d with
  | zero =>
    rw [mapped_of_le (show last ≤ v from hn)]
    rfl
  | succ n ih =>
    rw [deallocLoop]
    by_cases hv : v < last
    · rw [if_pos hv]
      cases hw : walkpgdir d v with
      | none =>
        have hlt := lt_next_table v
        rw [mapped_skip hlt.le fun u hu hu' => by rw [PageDir.pte_of_no_table hw hu hu']]
        exact ih (by omega) fun u hu => hz u (by omega)
      | some pte =>
        obtain rfl := d.pte_of_walkpgdir hw
        dsimp only
        rw [mapped_of_lt hv]
        by_cases hp : (d.pte v).present = true
        · rw [if_pos hp, if_pos hp, if_neg (hz v le_rfl hv hp), List.map_cons, List.foldlM_cons]
          cases unref L (d.pte v).addr k with
          | none => rfl
          | some k1 =>
            -- the entries that follow are those of `d`
            have hset : ∀ u, v < u → (d.setPte v {}).pte u = d.pte u := fun u hu => by
              rw [PageDir.pte_setPte (PageDir.isSome_walkpgdir hp), if_neg hu.ne']
            have hmapped : mapped (d.setPte v {}) (v + 1) last = mapped d (v + 1) last :=
              List.filter_congr fun u hu => by rw [hset u (List.mem_range'_1.mp hu).1]
            have hrest := ih (v := v + 1) (k := k1) (d := d.setPte v {}) (by omega) fun u hu => by
              rw [hset u hu]
              exact hz u (by omega)
            rw [hmapped, List.map_congr_left fun u hu =>
              congrArg Pte.addr (hset u (mem_mapped.mp hu).1)] at hrest
            exact hrest
        · rw [if_neg hp, if_neg hp]
          exact ih (by omega) fun u hu => hz u (by omega)
    · rw [if_neg hv, mapped_of_le (by omega)]
      rfl

theorem walkpgdir_unmap (us : List ℕ) (h : ∀ u ∈ us, (walkpgdir d u).isSome) (u : ℕ) :
    walkpgdir (d.unmap us) u = if u ∈ us then some {} else walkpgdir d u := by
  induction us generalizing d with
  | nil => rfl
  | cons v us ih =>
    have hv := h v List.mem_cons_self
    have hrest := ih (d := d.setPte v {}) fun w hw => by
      rw [isSome_setPte hv]
      exact h w (List.mem_cons_of_mem v hw)
    rw [PageDir.unmap, List.foldl_cons]
    refine hrest.trans ?_
    rw [walkpgdir_setPte hv]
    by_cases hu : u ∈ us
    · rw [if_pos hu, if_pos (List.mem_cons_of_mem v hu)]
    · rw [if_neg hu]
      exact if_congr (by rw [List.mem_cons, or_iff_left hu]) rfl rfl

/-! ## Counts -/

/-- Releasing a page leaves the counts of the others alone, so that of each page is the one from the
start when its turn comes. -/
theorem foldlM_unref (hnd : fs.Nodup) (hk : ∀ f ∈ fs, refcount f k = refcount f k0) :
    fs.foldlM (fun k f => unref L f k) k = release L k0 fs k := by
  induction fs generalizing k with
  | nil => rfl
  | cons f fs ih =>
    obtain ⟨hf, hfs⟩ := List.nodup_cons.mp hnd
    have hunref : unref L f k = if refcount f k0 = 1 then kfree L f k else some (decref f k) := by
      rw [unref, hk f List.mem_cons_self]
    rw [release, List.foldlM_cons, List.foldlM_cons, ← hunref]
    cases hs : unref L f k with
    | none => rfl
    | some k1 =>
      refine ih hfs fun g hg => ?_
      have hne : g ≠ f := fun hgf => hf (hgf ▸ hg)
      rw [← hk g (List.mem_cons_of_mem f hg)]
      unfold unref at hs
      split_ifs at hs
      · obtain ⟨-, rfl⟩ := kfree_eq_some hs
        exact congrArg UInt8.toNat (Function.update_of_ne hne ..)
      · cases hs
        exact congrArg UInt8.toNat (Function.update_of_ne hne ..)

theorem isSome_release (h : ∀ f ∈ fs, refcount f k0 = 1 → L.Dom f) (k : Kmem) :
    (release L k0 fs k).isSome := by
  induction fs generalizing k with
  | nil => rfl
  | cons f fs ih =>
    have hfs := ih fun g hg => h g (List.mem_cons_of_mem f hg)
    rw [release, List.foldlM_cons]
    split_ifs with hone
    · rw [kfree, if_pos (h f List.mem_cons_self hone)]
      exact hfs _
    · exact hfs _

/-- **`deallocuvm` unmaps exactly its range.**  For every directory whose pages are not the page 0
and are mapped once, it ends.  Each page that is mapped from `PGROUNDUP(newsz)` up to `oldsz` is
released once, and its entry is cleared; no other entry is changed.  Only `kfree` can panic, for a
page that is not the allocator's.  The directory and its tables are no part of the memory here, so
that the junk that `kfree` leaves does not reach them: the pages that are mapped are not the
directory's own. -/
theorem deallocuvm_exact (hlt : newsz < oldsz) (hold : oldsz ≤ KERNBASE)
    (hz : ∀ v < UPAGES, (d.pte v).present = true → (d.pte v).addr ≠ 0)
    (hinj : ∀ u v, u < UPAGES → v < UPAGES → (d.pte u).present = true → (d.pte v).present = true →
      (d.pte u).addr = (d.pte v).addr → u = v) (L : Layout) (k : Kmem) :
    ∃ fs d', fs.Nodup ∧
      (∀ f, f ∈ fs ↔ ∃ u, PGROUNDUP newsz ≤ u * PGSIZE ∧ u * PGSIZE < oldsz ∧
        (d.pte u).present = true ∧ (d.pte u).addr = f) ∧
      (∀ u, walkpgdir d' u = if PGROUNDUP newsz ≤ u * PGSIZE ∧ u * PGSIZE < oldsz ∧
        (d.pte u).present = true then some {} else walkpgdir d u) ∧
      (∃ n, deallocuvmFuel L n k d oldsz newsz =
        some ((release L k fs k).map fun k' => (newsz, k', d'))) ∧
      ((∀ f ∈ fs, refcount f k = 1 → L.Dom f) → (release L k fs k).isSome) := by
  have hle := pgroundup_le hold
  have hstart : PGROUNDUP newsz = pgroundup newsz * PGSIZE := by
    rw [PGROUNDUP, Nat.mod_eq_of_lt]
    · rfl
    · unfold KERNBASE at hold
      unfold PGSIZE
      omega
  simp only [hstart, Nat.mul_le_mul_right_iff (show 0 < PGSIZE by decide), mul_pgsize_lt_iff]
  have hnd :
    ((mapped d (pgroundup newsz) (pgroundup oldsz)).map fun u => (d.pte u).addr).Nodup := by
    refine List.Nodup.map_on ?_ (List.Nodup.filter _ List.nodup_range')
    intro u hu w hw
    obtain ⟨-, hu1, hu2⟩ := mem_mapped.mp hu
    obtain ⟨-, hw1, hw2⟩ := mem_mapped.mp hw
    exact hinj u w (by omega) (by omega) hu2 hw2
  refine ⟨_, d.unmap (mapped d (pgroundup newsz) (pgroundup oldsz)), hnd, fun f => ?_, fun u => ?_,
    ⟨pgroundup oldsz + 1, ?_⟩, fun hdom => isSome_release hdom k⟩
  · simp only [List.mem_map, mem_mapped, and_assoc]
  · rw [walkpgdir_unmap _ fun u hu => PageDir.isSome_walkpgdir (mem_mapped.mp hu).2.2]
    exact if_congr mem_mapped rfl rfl
  · rw [deallocuvmFuel, if_neg (by omega), hstart, deallocFrom_eq hold ?_ (Nat.le_add_left _ _),
      deallocLoop_eq (Nat.le_add_left _ _) fun u _ hu => hz u (by omega),
      foldlM_unref hnd fun _ _ => rfl, Option.map_some, Option.map_map]
    · rfl
    · exact pgroundup_le (hlt.le.trans hold)

/-- A directory that maps the pages 0, 1 and 2048, with no table for the pages from 1024 on. -/
def sparse : PageDir where
  frame := 1
  tab
    | 0 => some ⟨2, fun j => if j = 0 then ⟨true, true, true, 4⟩
        else if j = 1 then ⟨true, true, true, 5⟩ else {}⟩
    | 2 => some ⟨3, fun j => if j = 0 then ⟨true, false, true, 6⟩ else {}⟩
    | _ => none

theorem sparse_present (h : (sparse.pte u).present = true) : u = 0 ∨ u = 1 ∨ u = 2048 := by
  have hmod := Nat.div_add_mod u NPDENTRIES
  unfold PageDir.pte walkpgdir sparse at h
  dsimp only at h
  rw [show NPDENTRIES = 1024 from rfl] at h hmod
  -- the table of page 0, the table of page 2048, or none
  split at h
  · by_cases h0 : u % 1024 = 0
    · omega
    · by_cases h1 : u % 1024 = 1
      · omega
      · simp [h0, h1] at h
  · by_cases h0 : u % 1024 = 0
    · omega
    · simp [h0] at h
  · simp at h

/-- Page 6 has a second user. -/
def sparseKmem : Kmem :=
  ⟨[8, 7], fun f => if f = 4 ∨ f = 5 then 1 else if f = 6 then 2 else 0, fun _ _ => 0⟩

/-- From 8 MB and 1000 bytes down to 1000 bytes, over the region without a table: page 0 stays. -/
theorem deallocuvm_exact_sparse : ∃ n k' d',
    deallocuvmFuel { smallLayout with numpages := 9, first_le := by decide } n sparseKmem sparse
        (2 ^ 23 + 1000) 1000 = some (some (1000, k', d')) ∧
      walkpgdir d' 0 = some ⟨true, true, true, 4⟩ ∧ walkpgdir d' 1 = some {} ∧
      walkpgdir d' 1024 = none ∧ walkpgdir d' 2048 = some {} := by
  have hz : ∀ u < UPAGES, (sparse.pte u).present = true → (sparse.pte u).addr ≠ 0 := by
    intro u _ hu
    rcases sparse_present hu with rfl | rfl | rfl <;> decide
  have hinj : ∀ u v, u < UPAGES → v < UPAGES → (sparse.pte u).present = true →
      (sparse.pte v).present = true → (sparse.pte u).addr = (sparse.pte v).addr → u = v := by
    intro u v _ _ hu hv heq
    rcases sparse_present hu with rfl | rfl | rfl <;>
      rcases sparse_present hv with rfl | rfl | rfl <;>
      first | rfl | exact absurd heq (by decide)
  obtain ⟨fs, d', -, hmem, hentry, ⟨n, hrun⟩, hrel⟩ := deallocuvm_exact
    (show 1000 < 2 ^ 23 + 1000 by decide) (show 2 ^ 23 + 1000 ≤ KERNBASE by decide) hz hinj
    { smallLayout with numpages := 9, first_le := by decide } sparseKmem
  obtain ⟨k', hk⟩ := Option.isSome_iff_exists.mp <| hrel fun f hf _ => by
    obtain ⟨u, -, -, hu, rfl⟩ := (hmem f).mp hf
    rcases sparse_present hu with rfl | rfl | rfl <;> decide
  rw [hk] at hrun
  exact ⟨n, k', d', hrun, (hentry 0).trans (if_neg (by decide)),
    (hentry 1).trans (if_pos (by decide)),
    (hentry 1024).trans (if_neg (by decide)), (hentry 2048).trans (if_pos (by decide))⟩

end Xv6.Vm
