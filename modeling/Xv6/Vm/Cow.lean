import Xv6.Vm.Uvm

/-!
# Copying address spaces

`cowuvm`, by which `fork` makes the child's memory, and `handlepgflt`, which undoes the sharing when
somebody writes.

`cowuvm` writes the parent's table too: it clears the write bit of every page that it shares, and
leaves it cleared when it runs out of memory halfway.  The books then have two directories on top of
those of the rest; `DirOk.swap` says that it does not matter in which order they were put there.
-/

namespace Xv6.Vm

open Lib

/-- The loop of `cowuvm` over the `n` pages from page `v` on of the parent `d`, for the child
`c`. -/
def cowLoop (L : Layout) :
    ℕ → ℕ → Kmem → PageDir → PageDir → Option (Option PageDir × Kmem × PageDir)
  | 0, _, k, d, c => some (some c, k, d)
  | n + 1, v, k, d, c =>
    match walkpgdir d v with
    | none => none
    | some pte =>
      if pte.present then do
        let d := d.setPte v pte.clearW
        let (ok, k, c) ← mappages false pte.user 1 k c v pte.addr
        if ok then cowLoop L n (v + 1) (incref pte.addr k) d c
        else do
          let k ← freevm L k c
          some (none, k, d)
      else none

/-- Given a parent process's page table, maps the parent pages into the child.  The parent's table
is part of the result. -/
def cowuvm (L : Layout) (k : Kmem) (d : PageDir) (sz : ℕ) :
    Option (Option PageDir × Kmem × PageDir) := do
  match ← setupkvm L k with
  | (none, k) => some (none, k, d)
  | (some c, k) => cowLoop L (pgroundup sz) 0 k d c

/-- Page fault handler: when a process tries to write a read-only page due to copy-on-write.  The
first component says whether the process is killed. -/
def handlepgflt (k : Kmem) (d : PageDir) (faultaddr : ℕ) : Bool × Kmem × PageDir :=
  if KERNBASE ≤ faultaddr then (true, k, d)
  else
    match walkpgdir d (faultaddr / PGSIZE) with
    | none => (true, k, d)
    | some pte =>
      if 1 < refcount pte.addr k then
        match kalloc k with
        | none => (true, k, d)
        | some (f, k) =>
          (false, decref pte.addr (k.store f (k.mem pte.addr)),
            d.setPte (faultaddr / PGSIZE)
              { present := true, writable := true, user := pte.user, addr := f })
      else (false, k, d.setPte (faultaddr / PGSIZE) pte.setW)

def Space.below (σ : Space) (n : ℕ) : Space := fun v => if v < n then σ v else none

variable {L : Layout} {dom : Frame → Prop} {k k' : Kmem} {K U W : Frame → ℕ} {c d d' : PageDir}
  {o : Option PageDir} {u v n sz : ℕ} {σ : Space}

theorem view_of_empty (h : ∀ v < UPAGES, c.pte v = {}) : view k c = σ.below 0 := by
  funext v
  rw [Space.below, if_neg (by omega)]
  by_cases hv : v < UPAGES
  · exact view_of_not_present (by rw [h v hv])
  · exact view_of_le (by omega)

/-! ## The shared copy -/

/-- The child's entries are the parent's, up to page `n`. -/
def Mirrors (d c : PageDir) (n : ℕ) : Prop := ∀ u < UPAGES, c.pte u = if u < n then d.pte u else {}

theorem Mirrors.view (h : Mirrors d c n) (k : Kmem) : view k c = (view k d).below n := by
  funext u
  unfold Space.below
  by_cases hu : u < UPAGES
  · split_ifs with hun
    · refine view_congr ?_ fun _ _ => rfl
      rw [h u hu, if_pos hun]
    · refine view_of_not_present ?_
      rw [h u hu, if_neg hun]
  · rw [view_of_le (by omega), view_of_le (by omega)]
    split_ifs <;> rfl

theorem Mirrors.refs_eq_zero (h : Mirrors d c v) (hd : DirOk dom K U W k d) (hv : v < UPAGES)
    (hp : (d.pte v).present = true) : refs c (d.pte v).addr = 0 := by
  by_contra hne
  obtain ⟨u, hu, hpu, hau⟩ := exists_of_refs_pos (Nat.pos_of_ne_zero hne)
  rw [h u hu] at hpu hau
  split_ifs at hpu hau with huv
  exact hd.addr_ne hu hv (by omega) hpu hp hau

/-- A page that the parent maps, but not writable, is writable for nobody. -/
theorem DirOk.readonly (h : DirOk dom K U W k d) (hv : v < UPAGES)
    (hp : (d.pte v).present = true) (hw : (d.pte v).writable = false) :
    (W + writes d) (d.pte v).addr = 0 := by
  have hown : writes d (d.pte v).addr = 0 := by
    by_contra hne
    obtain ⟨u, hu, hpu, hwu, hau⟩ := exists_of_writes_pos (Nat.pos_of_ne_zero hne)
    have huv : u ≠ v := by
      rintro rfl
      rw [hw] at hwu
      cases hwu
    exact h.addr_ne hu hv huv hpu hp hau
  by_contra hne
  have hexcl := Ledger.excl h.ok (Nat.pos_of_ne_zero hne)
  have hle := h.le (d.pte v).addr
  have hpos := refs_pos hv hp
  rw [Pi.add_apply] at hexcl hne
  omega

/-- **One page is shared**: the parent's entry loses the write bit, and the child gets the same
entry. -/
theorem cow_one (hle : ∀ f, W f ≤ U f) (hU : ∀ f, U f < 254)
    (hd : DirOk dom (K + owned c) (U + refs c) (W + writes c) k d)
    (hc : DirOk dom (K + owned d) (U + refs d) (W + writes d) k c) (hm : Mirrors d c v)
    (hv : v < UPAGES) (hp : (d.pte v).present = true) {c1 : PageDir}
    (hw : walkpgdirAlloc k c v = some (k', c1)) (hpc : (c1.pte v).present = false) :
    let x := (d.pte v).clearW
    DirOk dom (K + owned (c1.setPte v x)) (U + refs (c1.setPte v x)) (W + writes (c1.setPte v x))
        (incref (d.pte v).addr k') (d.setPte v x) ∧
      DirOk dom (K + owned (d.setPte v x)) (U + refs (d.setPte v x)) (W + writes (d.setPte v x))
        (incref (d.pte v).addr k') (c1.setPte v x) ∧
      Mirrors (d.setPte v x) (c1.setPte v x) (v + 1) := by
  intro x
  have hsome : (walkpgdir d v).isSome := PageDir.isSome_walkpgdir hp
  have hself : (d.setPte v x).pte v = x := by rw [PageDir.pte_setPte hsome, if_pos rfl]
  obtain ⟨hd1, -⟩ := hd.reflag (x := x) hv hp hp rfl nofun
  have hc1 := hd1.swap hle hc.wf
  obtain ⟨hc2, -, hpte2, hsome2⟩ := walkpgdirAlloc_spec hc1 (hv.trans (by decide)) hw
  have hd2 := hc2.swap hle hd1.wf
  have hp1 : ((d.setPte v x).pte v).present = true := by
    rw [hself]
    exact hp
  have hpos : 0 < refs (d.setPte v x) x.addr := by
    have := refs_pos hv hp1
    rwa [hself] at this
  have hzero : refs c1 x.addr = 0 := by
    rw [refs_congr fun u _ => hpte2 u]
    exact hm.refs_eq_zero hd hv hp
  have hro : (W + writes (d.setPte v x)) x.addr = 0 := by
    have hro1 := hd2.readonly hv hp1 (by rw [hself]; rfl)
    rw [hself, Pi.add_apply, Pi.add_apply] at hro1
    rw [Pi.add_apply]
    omega
  have hlt : refcount x.addr k' < 255 := by
    have hUx : 0 < (U + refs (d.setPte v x) + refs c1) x.addr := by
      rw [Pi.add_apply, Pi.add_apply]
      omega
    have hdom := Ledger.dom_of_pos hc2.ok (Or.inr (Or.inr hUx))
    have hcov := Ledger.cover hc2.ok hdom
    have hcnt := Ledger.count_eq hc2.ok hdom
    have hinj := hd1.wf.inj x.addr
    have hlim := hU x.addr
    rw [Pi.add_apply (U + refs (d.setPte v x)), Pi.add_apply U] at hcov hcnt
    omega
  obtain ⟨hc3, -⟩ := hc2.share (x := x) hv hsome2 hpc hp rfl
    (by rw [Pi.add_apply]; omega) hro hzero hlt
  refine ⟨hc3.swap hle hd1.wf, hc3, fun u hu => ?_⟩
  rw [PageDir.pte_setPte hsome2, PageDir.pte_setPte hsome]
  by_cases huv : u = v
  · rw [if_pos huv, if_pos (by omega), if_pos huv]
  · rw [if_neg huv, if_neg huv, hpte2 u, hm u hu]
    by_cases hlt : u < v
    · rw [if_pos hlt, if_pos (by omega)]
    · rw [if_neg hlt, if_neg (by omega)]

/-- Two directories that map the same pages, perhaps with other rights to write. -/
def SamePages (d d' : PageDir) : Prop :=
  ∀ v, (d'.pte v).present = (d.pte v).present ∧ (d'.pte v).user = (d.pte v).user ∧
    (d'.pte v).addr = (d.pte v).addr

theorem SamePages.refl (d : PageDir) : SamePages d d := fun _ => ⟨rfl, rfl, rfl⟩

theorem SamePages.trans {d'' : PageDir} (h : SamePages d d') (h' : SamePages d' d'') :
    SamePages d d'' := fun v =>
  ⟨(h' v).1.trans (h v).1, (h' v).2.1.trans (h v).2.1, (h' v).2.2.trans (h v).2.2⟩

theorem SamePages.setPte {x : Pte} (hw : (walkpgdir d v).isSome)
    (hx : x.present = (d.pte v).present ∧ x.user = (d.pte v).user ∧ x.addr = (d.pte v).addr) :
    SamePages d (d.setPte v x) := by
  intro u
  rw [PageDir.pte_setPte hw]
  split_ifs with huv
  · rw [huv]
    exact hx
  · exact ⟨rfl, rfl, rfl⟩

theorem cowLoop_spec (hle : ∀ f, W f ≤ U f) (hU : ∀ f, U f < 254)
    (hd : DirOk L.Dom (K + owned c) (U + refs c) (W + writes c) k d)
    (hc : DirOk L.Dom (K + owned d) (U + refs d) (W + writes d) k c) (hm : Mirrors d c v)
    (hn : v + n ≤ UPAGES) (hp : ∀ u < v + n, (d.pte u).present = true) :
    ∃ o k' d', cowLoop L n v k d c = some (o, k', d') ∧ Keeps U k k' ∧ view k' d' = view k d ∧
      (SamePages d d' ∧ owned d' = owned d) ∧ (o = none → DirOk L.Dom K U W k' d') ∧
      ∀ c', o = some c' →
        DirOk L.Dom (K + owned c') (U + refs c') (W + writes c') k' d' ∧
        DirOk L.Dom (K + owned d') (U + refs d') (W + writes d') k' c' ∧
        view k' c' = (view k d).below (v + n) := by
  induction n generalizing v k d c with
  | zero =>
    refine ⟨some c, k, d, rfl, .rfl, rfl, ⟨.refl d, rfl⟩, nofun, fun c' hc' => ?_⟩
    cases hc'
    exact ⟨hd, hc, hm.view _⟩
  | succ n ih =>
    have hv : v < UPAGES := by omega
    have hpv := hp v (by omega)
    have hsome := PageDir.isSome_walkpgdir hpv
    have hfree : (c.pte v).present = false := by rw [hm v hv, if_neg (lt_irrefl v)]
    have hsame : SamePages d (d.setPte v (d.pte v).clearW) := .setPte hsome ⟨rfl, rfl, rfl⟩
    have hown := owned_setPte d v (d.pte v).clearW
    obtain ⟨hd1, hview1⟩ := hd.reflag (x := (d.pte v).clearW) hv hpv hpv rfl nofun
    replace hview1 := hview1.trans (view_update_self hv hpv rfl rfl)
    rw [cowLoop, PageDir.walkpgdir_of_present hpv]
    dsimp only
    rw [if_pos hpv]
    obtain hmap | ⟨k2, c1, hwalk, hmap⟩ := mappages_one false (d.pte v).user k (d.pte v).addr hfree
    · -- there is no memory for a table: the child goes away, the parent's entries stay as they are
      obtain ⟨k3, hf, h3, hkeep3⟩ := freevm_spec (hd1.swap hle hc.wf)
      refine ⟨none, k3, d.setPte v (d.pte v).clearW, ?_,
        fun g hg => hkeep3 g (by rw [Pi.add_apply]; omega), ?_, ⟨hsame, hown⟩,
        fun _ => ⟨h3, hle, hd1.wf⟩, nofun⟩
      · rw [hmap]
        show (freevm L k c >>= _) = _
        rw [hf]
        rfl
      · rw [hkeep3.view fun g => by rw [Pi.add_apply]; omega, hview1]
    · obtain ⟨-, hmem, hpte, -⟩ := walkpgdirAlloc_spec hc (hv.trans (by decide)) hwalk
      obtain ⟨hd3, hc3, hm3⟩ := cow_one hle hU hd hc hm hv hpv hwalk (by rwa [hpte])
      have hx : (⟨true, false, (d.pte v).user, (d.pte v).addr⟩ : Pte) = (d.pte v).clearW := by
        rw [Pte.clearW, hpv]
      rw [hx] at hmap
      obtain ⟨o, k', d', hs, hkeep, hview, ⟨hsame', hown'⟩, hnone, hsome'⟩ := ih hd3 hc3 hm3
        (by omega) fun u hu => by
          rw [(hsame u).1]
          exact hp u (by omega)
      have hview2 : view (incref (d.pte v).addr k2) (d.setPte v (d.pte v).clearW) = view k d := by
        have hkeep2 : Keeps (refs (d.setPte v (d.pte v).clearW)) k (incref (d.pte v).addr k2) :=
          Keeps.of_mem hmem
        rw [← hview1, hkeep2.view fun g => le_rfl]
      refine ⟨o, k', d', ?_, (Keeps.of_mem hmem).trans hkeep, hview.trans hview2,
        ⟨hsame.trans hsame', hown'.trans hown⟩, hnone, fun c' hc' => ?_⟩
      · rw [hmap]
        exact hs
      · obtain ⟨h1, h2, h3⟩ := hsome' c' hc'
        refine ⟨h1, h2, ?_⟩
        rw [h3, hview2, show v + 1 + n = v + (n + 1) by omega]

/-- **`cowuvm`**, if the parent has the pages below `sz`, lets the child see the parent's memory
below `sz`.  It changes nothing that the parent can see, and takes nothing from it but rights to
write. -/
theorem cowuvm_spec (h : DirOk L.Dom K U W k d) (hU : ∀ f, U f < 254) (hsz : sz ≤ KERNBASE)
    (hp : ∀ u < pgroundup sz, (d.pte u).present = true) :
    ∃ o k' d', cowuvm L k d sz = some (o, k', d') ∧ Keeps U k k' ∧ view k' d' = view k d ∧
      (SamePages d d' ∧ owned d' = owned d) ∧ (o = none → DirOk L.Dom K U W k' d') ∧
      ∀ c, o = some c →
        DirOk L.Dom (K + owned c) (U + refs c) (W + writes c) k' d' ∧
        DirOk L.Dom (K + owned d') (U + refs d') (W + writes d') k' c ∧
        view k' c = (view k d).below (pgroundup sz) := by
  have hle : ∀ f, (W + writes d : Frame → ℕ) f ≤ (U + refs d : Frame → ℕ) f := fun f =>
    Nat.add_le_add (h.le f) (writes_le_refs d f)
  obtain ⟨o1, k1, hk, hkeep1, hnone1, hsome1⟩ := setupkvm_spec h.ok hle
  have hview1 : view k1 d = view k d := hkeep1.view fun f => by rw [Pi.add_apply]; omega
  have hkeepU : Keeps U k k1 := fun f hf => hkeep1 f (by rw [Pi.add_apply]; omega)
  rw [cowuvm, hk]
  cases o1 with
  | none =>
    exact ⟨none, k1, d, rfl, hkeepU, hview1, ⟨.refl d, rfl⟩,
      fun _ => ⟨hnone1 rfl, h.le, h.wf⟩, nofun⟩
  | some c1 =>
    obtain ⟨hc, hempty⟩ := hsome1 c1 rfl
    have hm : Mirrors d c1 0 := fun u hu => by rw [hempty u hu, if_neg (by omega)]
    obtain ⟨o, k', d', hs, hkeep2, hview2, hsame, hnone2, hsome2⟩ :=
      cowLoop_spec (n := pgroundup sz)
      h.le hU (hc.swap h.le h.wf) hc hm (by rw [Nat.zero_add]; exact pgroundup_le hsz)
      (by rwa [Nat.zero_add])
    rw [Nat.zero_add, hview1] at hsome2
    exact ⟨o, k', d', hs, hkeepU.trans hkeep2, hview2.trans hview1, hsame, hnone2, hsome2⟩

/-- The loop leaves alone what the child maps above user memory. -/
theorem cowLoop_pte {c' : PageDir} (hn : v + n ≤ UPAGES) (hu : UPAGES ≤ u)
    (hs : cowLoop L n v k d c = some (some c', k', d')) : c'.pte u = c.pte u := by
  induction n generalizing v k d c with
  | zero =>
    cases hs
    rfl
  | succ n ih =>
    rw [cowLoop] at hs
    split at hs
    · cases hs
    · split_ifs at hs
      obtain ⟨⟨ok, k1, c1⟩, hm, hs1⟩ := Option.bind_eq_some_iff.mp hs
      cases ok with
      | false =>
        obtain ⟨k2, -, hs2⟩ := Option.bind_eq_some_iff.mp hs1
        cases hs2
      | true => rw [ih (by omega) hs1, mappages_pte hm, if_neg (by omega)]

/-- The kernel part of the child's directory is complete. -/
theorem cowuvm_mapsKernel (hsz : sz ≤ KERNBASE) (hs : cowuvm L k d sz = some (some c, k', d')) :
    MapsKernel L.kmap c := by
  obtain ⟨⟨o, k1⟩, hk, hs1⟩ := Option.bind_eq_some_iff.mp hs
  cases o with
  | none => cases hs1
  | some c1 =>
    intro e he j hj
    have hlast := pgroundup_le hsz
    have hkern := (L.kmap_kern e he).1
    rw [cowLoop_pte (by omega) (by omega) hs1]
    exact setupkvm_mapsKernel hk e he j hj

/-! ## The page fault handler -/

/-- A shared page is replaced by a copy of it, which is the process's own. -/
theorem DirOk.breakShare {f : Frame} (h : DirOk dom K U W k d) (hv : v < UPAGES)
    (hp : (d.pte v).present = true) (hcount : 1 < refcount (d.pte v).addr k)
    (hk : kalloc k = some (f, k')) :
    let k1 := decref (d.pte v).addr (k'.store f (k'.mem (d.pte v).addr))
    let d1 := d.setPte v { present := true, writable := true, user := (d.pte v).user, addr := f }
    DirOk dom K U W k1 d1 ∧ Keeps U k k1 ∧ view k1 d1 = view k d := by
  intro k1 d1
  have hsome : (walkpgdir d v).isSome := PageDir.isSome_walkpgdir hp
  have hpos : 0 < (U + refs d) (d.pte v).addr := by
    have := refs_pos hv hp
    rw [Pi.add_apply]
    omega
  obtain ⟨h1, hkeep1, hview1⟩ := h.fresh hk (k'.mem (d.pte v).addr)
  have hne : (d.pte v).addr ≠ f := by
    rintro rfl
    have := Ledger.not_both h1.ok (a := (d.pte v).addr) (by
      rw [Pi.add_apply, add_single_self]
      omega)
    omega
  have hsame : refcount (d.pte v).addr (k'.store f (k'.mem (d.pte v).addr)) =
      refcount (d.pte v).addr k := by
    have hdom := Ledger.dom_of_pos h.ok (Or.inr (Or.inr hpos))
    rw [Ledger.count_eq h.ok hdom, Ledger.count_eq h1.ok hdom, add_right_comm,
      add_single_of_ne _ hne]
  obtain ⟨h2, hview2⟩ := h1.unshare hv hp (by omega)
  obtain ⟨h3, hview3⟩ := DirOk.map (x := ⟨true, true, (d.pte v).user, f⟩) h2 hv
    (by rwa [isSome_setPte hsome]) (by rw [PageDir.pte_setPte hsome, if_pos rfl]) rfl
  rw [PageDir.setPte_setPte] at h3 hview3
  refine ⟨h3, hkeep1, ?_⟩
  have hmem : k1.mem f = k.mem (d.pte v).addr := by
    rw [← (kalloc_spec h.ok hk).2.1]
    exact Kmem.store_mem_self ..
  rw [hview2, hview1, Function.update_idem] at hview3
  refine hview3.trans ?_
  change Function.update (view k d) v (some ((d.pte v).user, k1.mem f)) = _
  rw [hmem, ← view_of_present hv hp, Function.update_eq_self]

/-- **`handlepgflt`** cannot be seen.  Unless the process is killed, the page can now be written. -/
theorem handlepgflt_spec {va : ℕ} {killed : Bool} (hdom : ¬ dom 0) (h : DirOk dom K U W k d)
    (hs : handlepgflt k d va = (killed, k', d')) :
    DirOk dom K U W k' d' ∧ Keeps U k k' ∧ view k' d' = view k d ∧
      (killed = false → (d'.pte (va / PGSIZE)).writable = true) := by
  unfold handlepgflt at hs
  split_ifs at hs with hkern
  · cases hs
    exact ⟨h, .rfl, rfl, nofun⟩
  · have hv : va / PGSIZE < UPAGES := Nat.div_lt_of_lt_mul (by
      rw [show PGSIZE * UPAGES = KERNBASE from rfl]
      omega)
    split at hs
    · cases hs
      exact ⟨h, .rfl, rfl, nofun⟩
    · rename_i pte hw
      obtain rfl := d.pte_of_walkpgdir hw
      have hsome : (walkpgdir d (va / PGSIZE)).isSome := by
        rw [hw]
        rfl
      -- an entry that is not present names page 0, which is not the allocator's
      have hclean : (d.pte (va / PGSIZE)).present = false →
          refcount (d.pte (va / PGSIZE)).addr k = 0 := by
        intro hp
        rw [h.wf.clean _ hv hp]
        exact (Ledger.outside h.ok hdom).2.1
      split_ifs at hs with hcount
      · have hp : (d.pte (va / PGSIZE)).present = true := by
          by_contra hp
          have := hclean (Bool.eq_false_of_not_eq_true hp)
          omega
        split at hs
        · cases hs
          exact ⟨h, .rfl, rfl, nofun⟩
        · rename_i f k1 hk
          cases hs
          obtain ⟨h1, hkeep, hview⟩ := h.breakShare hv hp hcount hk
          exact ⟨h1, hkeep, hview, fun _ => by rw [PageDir.pte_setPte hsome, if_pos rfl]⟩
      · cases hs
        have hself : (d.setPte (va / PGSIZE) (d.pte (va / PGSIZE)).setW).pte (va / PGSIZE) =
            (d.pte (va / PGSIZE)).setW := by rw [PageDir.pte_setPte hsome, if_pos rfl]
        cases hp : (d.pte (va / PGSIZE)).present with
        | false =>
          obtain ⟨h1, hview⟩ := h.idle (x := (d.pte (va / PGSIZE)).setW) hv hsome hp hp
            (h.wf.clean _ hv hp)
          exact ⟨h1, .rfl, hview, fun _ => by rw [hself]; rfl⟩
        | true =>
          obtain ⟨h1, hview⟩ := h.reflag (x := (d.pte (va / PGSIZE)).setW) hv hp hp rfl
            fun _ => Or.inr (Nat.not_lt.mp hcount)
          exact ⟨h1, .rfl, hview.trans (view_update_self hv hp rfl rfl),
            fun _ => by rw [hself]; rfl⟩

/-! ## Which faults the handler resolves -/

/-- The processor lets the user read, or write, the address. -/
def PageDir.allows (d : PageDir) (va : ℕ) (write : Bool) : Bool :=
  (d.pte (va / PGSIZE)).present && (d.pte (va / PGSIZE)).user &&
    (!write || (d.pte (va / PGSIZE)).writable)

/-- The faults that the handler deals with.  It kills the process for an address of the kernel, for
one without a page table, and when a shared page cannot be copied.  Otherwise it gives the right to
write, which is of use only for a page that the user may access and that is there already, or that
the handler takes for a shared one. -/
def Resolvable (k : Kmem) (d : PageDir) (va : ℕ) : Prop :=
  KERNBASE ≤ va ∨ walkpgdir d (va / PGSIZE) = none ∨
    (1 < refcount (d.pte (va / PGSIZE)).addr k ∧ k.freelist = []) ∨
    ((d.pte (va / PGSIZE)).user = true ∧
      ((d.pte (va / PGSIZE)).present = true ∨ 1 < refcount (d.pte (va / PGSIZE)).addr k))

theorem kalloc_eq_none_iff : kalloc k = none ↔ k.freelist = [] := by
  unfold kalloc
  cases k.freelist with
  | nil => exact ⟨fun _ => rfl, fun _ => rfl⟩
  | cons f l => exact ⟨nofun, nofun⟩

/-- **Resolved or punished.**  When `handlepgflt` returns, the process is killed or may make the
access, exactly for the faults in `Resolvable`.  A page that does not exist in a table that does,
and the guard page, are not among them: there the access faults again. -/
theorem handlepgflt_resolves_iff (killed : Bool) (k : Kmem) (d : PageDir) (va : ℕ) (write : Bool) :
    ((killed || (handlepgflt k d va).1) = true ∨
        (handlepgflt k d va).2.2.allows va write = true) ↔
      killed = true ∨ Resolvable k d va := by
  unfold handlepgflt Resolvable
  by_cases hkern : KERNBASE ≤ va
  · simp [hkern]
  rw [if_neg hkern]
  cases hw : walkpgdir d (va / PGSIZE) with
  | none => simp
  | some pte =>
    have hpte := d.pte_of_walkpgdir hw
    have hsome : (walkpgdir d (va / PGSIZE)).isSome := by
      rw [hw]
      rfl
    have hself : ∀ x, (d.setPte (va / PGSIZE) x).pte (va / PGSIZE) = x := fun x => by
      rw [PageDir.pte_setPte hsome, if_pos rfl]
    rw [hpte]
    by_cases hcount : 1 < refcount pte.addr k
    · cases hk : kalloc k with
      | none => simp [hcount, kalloc_eq_none_iff.mp hk]
      | some r =>
        have hfree : k.freelist ≠ [] := fun h => by
          rw [kalloc_eq_none_iff.mpr h] at hk
          cases hk
        simp [hcount, hkern, hfree, PageDir.allows, hself]
    · simp [hcount, hkern, PageDir.allows, hself, Pte.setW, and_comm]

/-- A process as `exec` leaves it, with one page of code, the guard page and the stack. -/
def threePages : PageDir :=
  ⟨1, fun i => if i = 0 then some ⟨2, fun
    | 0 => ⟨true, true, true, 3⟩
    | 1 => ⟨true, true, false, 4⟩
    | 2 => ⟨true, true, true, 5⟩
    | _ => {}⟩ else none⟩

/-- It reads its code, and then above its size, where the page table has an empty entry: the handler
gives the right to write to that entry, and the read faults again.  So does a read of the guard
page. -/
theorem handlepgflt_loops :
    let k : Kmem := ⟨[6], fun f => if 1 ≤ f ∧ f ≤ 5 then 1 else 0, fun _ _ => 0⟩
    threePages.allows 0 false = true ∧ threePages.allows 0x5000 false = false ∧
      (handlepgflt k threePages 0x5000).1 = false ∧
      (handlepgflt k threePages 0x5000).2.2.allows 0x5000 false = false ∧
      threePages.allows 0x1000 false = false ∧ (handlepgflt k threePages 0x1000).1 = false ∧
      (handlepgflt k threePages 0x1000).2.2.allows 0x1000 false = false := by
  decide

end Xv6.Vm
