import Xv6.Vm.Exec

/-!
# Copying to user memory

`copyout` walks over the pages of its destination, and `uva2ka` looks each of them up.  The copy
goes on while the user may access the page, and ends with `-1` at the first page where that is not
so.  There is a third case: the page table of that page may be missing, and then `walkpgdir` returns
a null pointer, which `uva2ka` dereferences.

The pages that a copy has to do with are `pageAt va i` for `i < pages va n`.  Addresses wrap around
at the end of the address space, as they do in the source.
-/

namespace Xv6.Vm

def PageDir.Accessible (d : PageDir) (v : ℕ) : Prop :=
  (d.pte v).present = true ∧ (d.pte v).user = true

instance (d : PageDir) (v : ℕ) : Decidable (d.Accessible v) := inferInstanceAs (Decidable (_ ∧ _))

/-- The number of pages that `n` bytes from address `va` on are spread over. -/
def pages (va n : ℕ) : ℕ := if n = 0 then 0 else pgroundup (va % PGSIZE + n)

/-- The page that is `i` pages after the one of address `va`. -/
def pageAt (va i : ℕ) : ℕ := (va / PGSIZE + i) % VPAGES

variable {d : PageDir} {k k' : Kmem} {va n i : ℕ} {buf : List UInt8} {ok : Bool}

/-! ## One page -/

theorem pageAt_zero (hva : va < 2 ^ 32) : pageAt va 0 = va / PGSIZE := by
  unfold pageAt PGSIZE VPAGES
  omega

theorem nextPage_lt (va : ℕ) : nextPage va < 2 ^ 32 := Nat.mod_lt _ (by decide)

theorem pageAt_nextPage (va i : ℕ) : pageAt (nextPage va) i = pageAt va (i + 1) := by
  unfold pageAt nextPage PGSIZE VPAGES
  omega

theorem pages_pos (hn : n ≠ 0) (va : ℕ) : 0 < pages va n := by
  unfold pages pgroundup PGSIZE
  rw [if_neg hn]
  omega

theorem pages_nextPage (hbuf : buf.length ≠ 0) (va : ℕ) :
    pages (nextPage va) (buf.drop (chunk va buf)).length + 1 = pages va buf.length := by
  rw [List.length_drop]
  unfold pages chunk nextPage pgroundup PGSIZE
  rw [if_neg hbuf]
  split_ifs with hrest <;> omega

theorem chunk_pos (hbuf : buf.length ≠ 0) (va : ℕ) : 0 < chunk va buf := by
  have := Nat.mod_lt va (show 0 < PGSIZE by decide)
  unfold chunk
  omega

theorem uva2ka_of_accessible {v : ℕ} (h : d.Accessible v) :
    uva2ka d v = some (some (d.pte v).addr) := by
  rw [uva2ka, PageDir.walkpgdir_of_present h.1]
  show (if _ then _ else _) = _
  rw [h.1, h.2]
  rfl

theorem uva2ka_of_not_accessible {v : ℕ} (h : ¬ d.Accessible v) :
    uva2ka d v = (walkpgdir d v).map fun _ => none := by
  rw [uva2ka]
  cases hw : walkpgdir d v with
  | none => rfl
  | some pte =>
    obtain rfl := d.pte_of_walkpgdir hw
    show (if _ then _ else _) = some none
    rw [if_neg]
    rwa [Bool.and_eq_true]

/-! ## The loop -/

theorem copyoutLoop_succ (hva : va < 2 ^ 32) (hbuf : buf.length ≠ 0)
    (h : d.Accessible (pageAt va 0)) :
    copyoutLoop d (n + 1) k va buf =
      copyoutLoop d n (k.write (d.pte (pageAt va 0)).addr (va % PGSIZE) (buf.take (chunk va buf)))
        (nextPage va) (buf.drop (chunk va buf)) := by
  rw [pageAt_zero hva] at h ⊢
  rw [copyoutLoop, if_neg hbuf, uva2ka_of_accessible h]

/-- The copy ends at the first page that the user may not access: with an error, or with a null
pointer. -/
theorem copyoutLoop_stops (hva : va < 2 ^ 32) (hn : buf.length ≤ n)
    (hi : i < pages va buf.length) (hbefore : ∀ j < i, d.Accessible (pageAt va j))
    (hat : ¬ d.Accessible (pageAt va i)) :
    ∃ k', copyoutLoop d n k va buf = (walkpgdir d (pageAt va i)).map fun _ => (false, k') := by
  induction n generalizing i k va buf with
  | zero =>
    rw [show buf.length = 0 by omega] at hi
    exact absurd hi (Nat.not_lt_zero i)
  | succ n ih =>
    have hbuf : buf.length ≠ 0 := by
      intro hzero
      rw [hzero] at hi
      exact absurd hi (Nat.not_lt_zero i)
    cases i with
    | zero =>
      refine ⟨k, ?_⟩
      rw [pageAt_zero hva] at hat ⊢
      rw [copyoutLoop, if_neg hbuf, uva2ka_of_not_accessible hat]
      cases walkpgdir d (va / PGSIZE) <;> rfl
    | succ i =>
      have hpages := pages_nextPage hbuf va
      have hchunk := chunk_pos hbuf va
      rw [copyoutLoop_succ hva hbuf (hbefore 0 (Nat.succ_pos i)), ← pageAt_nextPage]
      refine ih (nextPage_lt va) ?_ (by omega) (fun j hj => ?_) ?_
      · rw [List.length_drop]
        omega
      · rw [pageAt_nextPage]
        exact hbefore (j + 1) (by omega)
      · rwa [pageAt_nextPage]

/-- The copy is made if the user may access all its pages. -/
theorem copyoutLoop_done (hva : va < 2 ^ 32) (hn : buf.length ≤ n)
    (hall : ∀ i < pages va buf.length, d.Accessible (pageAt va i)) :
    ∃ k', copyoutLoop d n k va buf = some (true, k') := by
  induction n generalizing k va buf with
  | zero => exact ⟨k, rfl⟩
  | succ n ih =>
    by_cases hbuf : buf.length = 0
    · exact ⟨k, by rw [copyoutLoop, if_pos hbuf]⟩
    · have hpages := pages_nextPage hbuf va
      have hchunk := chunk_pos hbuf va
      rw [copyoutLoop_succ hva hbuf (hall 0 (pages_pos hbuf va))]
      refine ih (nextPage_lt va) ?_ fun i hi => ?_
      · rw [List.length_drop]
        omega
      · rw [pageAt_nextPage]
        exact hall (i + 1) (by omega)

/-- The copy changes pages that the user may access, and no others. -/
theorem copyoutLoop_mem (hva : va < 2 ^ 32) (hs : copyoutLoop d n k va buf = some (ok, k'))
    {f : Frame} (hf : k'.mem f ≠ k.mem f) :
    ∃ i < pages va buf.length, d.Accessible (pageAt va i) ∧ (d.pte (pageAt va i)).addr = f := by
  induction n generalizing k va buf with
  | zero =>
    cases hs
    exact absurd rfl hf
  | succ n ih =>
    by_cases hbuf : buf.length = 0
    · rw [copyoutLoop, if_pos hbuf] at hs
      cases hs
      exact absurd rfl hf
    by_cases hacc : d.Accessible (pageAt va 0)
    · rw [copyoutLoop_succ hva hbuf hacc] at hs
      have hpages := pages_nextPage hbuf va
      by_cases hself : f = (d.pte (pageAt va 0)).addr
      · exact ⟨0, pages_pos hbuf va, hacc, hself.symm⟩
      · have hkeep : (k.write (d.pte (pageAt va 0)).addr (va % PGSIZE)
            (buf.take (chunk va buf))).mem f = k.mem f := Function.update_of_ne hself ..
        obtain ⟨i, hi, hacc', haddr⟩ := ih (nextPage_lt va) hs (by rwa [hkeep])
        rw [pageAt_nextPage] at hacc' haddr
        exact ⟨i + 1, by omega, hacc', haddr⟩
    · rw [pageAt_zero hva] at hacc
      rw [copyoutLoop, if_neg hbuf, uva2ka_of_not_accessible hacc] at hs
      cases hw : walkpgdir d (va / PGSIZE) with
      | none =>
        rw [hw] at hs
        cases hs
      | some pte =>
        rw [hw] at hs
        cases hs
        exact absurd rfl hf

/-! ## The function -/

/-- Either the user may access all pages of a copy, or there is a first one where that is not so. -/
theorem accessible_or_first (d : PageDir) (va m : ℕ) :
    (∀ i < m, d.Accessible (pageAt va i)) ∨
      ∃ i < m, (∀ j < i, d.Accessible (pageAt va j)) ∧ ¬ d.Accessible (pageAt va i) := by
  by_cases hall : ∀ i < m, d.Accessible (pageAt va i)
  · exact Or.inl hall
  · push Not at hall
    classical
    refine Or.inr ⟨Nat.find hall, (Nat.find_spec hall).1, fun j hj => ?_, (Nat.find_spec hall).2⟩
    have hnot := Nat.find_min hall hj
    by_contra hacc
    exact hnot ⟨hj.trans (Nat.find_spec hall).1, hacc⟩

/-- Every page that the copy comes to has a page table. -/
def Walkable (d : PageDir) (va n : ℕ) : Prop :=
  ∀ i < pages va n, (∀ j < i, d.Accessible (pageAt va j)) → (walkpgdir d (pageAt va i)).isSome

/-- `copyout` returns, and what it has written to are pages that the user may access. -/
def CopyoutSafe (k : Kmem) (d : PageDir) (va : ℕ) (buf : List UInt8) : Prop :=
  ∃ ok k', copyout k d va buf = some (ok, k') ∧
    ∀ f, k'.mem f ≠ k.mem f → ∃ v, d.Accessible v ∧ (d.pte v).addr = f

/-- `copyout` dereferences a null pointer unless it comes to page tables only. -/
theorem copyout_eq_none_iff (hva : va < 2 ^ 32) :
    copyout k d va buf = none ↔ ¬ Walkable d va buf.length := by
  rcases accessible_or_first d va (pages va buf.length) with hall | ⟨i, hi, hbefore, hat⟩
  · obtain ⟨k', hk'⟩ := copyoutLoop_done (k := k) hva le_rfl hall
    have hwalk : Walkable d va buf.length := fun i hi _ => by
      rw [PageDir.walkpgdir_of_present (hall i hi).1]
      rfl
    rw [copyout, hk']
    exact ⟨nofun, fun h => absurd hwalk h⟩
  · obtain ⟨k', hk'⟩ := copyoutLoop_stops (k := k) hva le_rfl hi hbefore hat
    rw [copyout, hk', Option.map_eq_none_iff]
    constructor
    · intro hnone hwalk
      have := hwalk i hi hbefore
      rw [hnone] at this
      cases this
    · intro hnot
      by_contra hne
      refine hnot fun j hj hj' => ?_
      rcases Nat.lt_trichotomy j i with hlt | rfl | hgt
      · rw [PageDir.walkpgdir_of_present (hbefore j hlt).1]
        rfl
      · exact Option.isSome_iff_ne_none.mpr hne
      · exact absurd (hj' i hgt) hat

/-- **When `copyout` stays inside user pages.**  It does so exactly if no page that it comes to
lacks its page table. -/
theorem copyoutSafe_iff (hva : va < 2 ^ 32) :
    CopyoutSafe k d va buf ↔ Walkable d va buf.length := by
  constructor
  · rintro ⟨ok, k', hs, -⟩
    by_contra hnot
    rw [(copyout_eq_none_iff hva).mpr hnot] at hs
    cases hs
  · intro hwalk
    cases hs : copyout k d va buf with
    | none => exact absurd hwalk ((copyout_eq_none_iff hva).mp hs)
    | some r =>
      obtain ⟨ok, k'⟩ := r
      refine ⟨ok, k', hs, fun f hf => ?_⟩
      obtain ⟨i, -, hacc, haddr⟩ := copyoutLoop_mem hva hs hf
      exact ⟨pageAt va i, hacc, haddr⟩

/-- One byte for the first page of a directory that has one. -/
theorem copyoutSafe_iff_onePage :
    (0 : ℕ) < 2 ^ 32 ∧ CopyoutSafe ⟨[], fun _ => 1, fun _ _ => 0⟩
      (((PageDir.empty 1).addTab 0 2).setPte 0 ⟨true, true, true, 3⟩) 0 [7] := by
  refine ⟨by decide, (copyoutSafe_iff (by decide)).mpr fun i hi _ => ?_⟩
  obtain rfl : i = 0 := Nat.lt_one_iff.mp hi
  decide

/-! ## Memory without gaps -/

/-- The pages below `n` exist and the user may access them; there are no others. -/
def Space.Spans (σ : Space) (n : ℕ) : Prop :=
  ∀ v, (v < n → ∃ y, σ v = some (true, y)) ∧ (n ≤ v → σ v = none)

namespace Space.Spans

variable {σ : Space} {m n v : ℕ}

theorem fill (h : σ.Spans m) (n : ℕ) : (σ.fill m n).Spans (max m n) := by
  intro v
  unfold Space.fill
  refine ⟨fun hv => ?_, fun hv => ?_⟩
  · split_ifs with hmid
    · exact ⟨_, rfl⟩
    · exact (h v).1 (by omega)
  · rw [if_neg (by omega)]
    exact (h v).2 (by omega)

theorem write (h : σ.Spans n) (v off : ℕ) (bs : List UInt8) : (σ.write v off bs).Spans n := by
  intro u
  unfold Space.write
  by_cases hu : u = v
  · rw [hu, Function.update_self]
    refine ⟨fun hv => ?_, fun hv => ?_⟩
    · obtain ⟨y, hy⟩ := (h v).1 hv
      exact ⟨_, by rw [hy]; rfl⟩
    · rw [(h v).2 hv]
      rfl
  · rw [Function.update_of_ne hu]
    exact h u

variable {k : Kmem} {d : PageDir}

theorem accessible (h : (view k d).Spans n) (hv : v < n) : v < UPAGES ∧ d.Accessible v := by
  obtain ⟨y, hy⟩ := (h v).1 hv
  obtain ⟨hlt, hp⟩ := view_isSome hy
  rw [view_of_present hlt hp] at hy
  exact ⟨hlt, hp, congrArg Prod.fst (Option.some.inj hy)⟩

theorem not_present (h : (view k d).Spans n) (hv : n ≤ v) (hlt : v < UPAGES) :
    (d.pte v).present = false := by
  by_contra hp
  have hnone := (h v).2 hv
  rw [view_of_present hlt (Bool.eq_true_of_not_eq_false hp)] at hnone
  cases hnone

end Space.Spans

theorem pgroundup_max (m n : ℕ) : pgroundup (max m n) = max (pgroundup m) (pgroundup n) := by
  unfold pgroundup PGSIZE
  omega

end Xv6.Vm
