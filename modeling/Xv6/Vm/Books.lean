import Xv6.Vm.PageTable

/-!
# A page directory in the books

`DirOk K U W k d`: the directory `d` is in order, on top of what the rest of the system holds.  It
is well-formed, and the allocator's books are `K`, `U` and `W` with those of `d` added.

`view k d` is what the directory is for: which pages of user memory exist, whether the user may
access them, and what they hold.  Whether a page is shared does not show.

The rules say what the ways to change one entry do to both.  Each of them leaves alone the pages
that others map (`Keeps U`), so nobody else's view changes.
-/

namespace Xv6.Vm

open Lib

/-- User memory: for each page that exists whether the user may access it, and its contents. -/
abbrev Space := ℕ → Option (Bool × Page)

/-- User memory as the page directory `d` gives it. -/
def view (k : Kmem) (d : PageDir) : Space := fun v =>
  if v < UPAGES ∧ (d.pte v).present = true then some ((d.pte v).user, k.mem (d.pte v).addr)
  else none

/-- A directory maps no page twice, names no page where it maps none, and keeps the user out of the
kernel's part. -/
structure PageDir.Wf (d : PageDir) : Prop where
  inj : ∀ f, refs d f ≤ 1
  clean : ∀ v < UPAGES, (d.pte v).present = false → (d.pte v).addr = 0
  kern : ∀ v, UPAGES ≤ v → (d.pte v).user = false

/-- The directory `d` is in order, on top of the books `K`, `U` and `W`. -/
structure DirOk (dom : Frame → Prop) (K U W : Frame → ℕ) (k : Kmem) (d : PageDir) : Prop where
  ok : k.Ok dom (K + owned d) (U + refs d) (W + writes d)
  le : ∀ f, W f ≤ U f
  wf : d.Wf

/-- The pages in the book `U` hold what they held. -/
def Keeps (U : Frame → ℕ) (k k' : Kmem) : Prop := ∀ f, 0 < U f → k'.mem f = k.mem f

variable {L : Layout} {dom : Frame → Prop} {k k' k'' : Kmem} {K U W : Frame → ℕ} {d d' : PageDir}
  {f : Frame} {u v : ℕ} {x : Pte}

theorem Keeps.rfl : Keeps U k k := fun _ _ => Eq.refl _

theorem Keeps.of_mem (h : k'.mem = k.mem) : Keeps U k k' := fun f _ => congrFun h f

theorem Keeps.trans (h1 : Keeps U k k') (h2 : Keeps U k' k'') : Keeps U k k'' := fun f hf =>
  (h2 f hf).trans (h1 f hf)

theorem view_of_present (hv : v < UPAGES) (hp : (d.pte v).present = true) :
    view k d v = some ((d.pte v).user, k.mem (d.pte v).addr) := if_pos ⟨hv, hp⟩

theorem view_of_not_present (hp : (d.pte v).present = false) : view k d v = none :=
  if_neg fun h => by
    rw [hp] at h
    cases h.2

theorem view_of_le (hv : UPAGES ≤ v) : view k d v = none := if_neg fun h => absurd h.1 (by omega)

theorem view_isSome {y : Bool × Page} (h : view k d v = some y) : v < UPAGES ∧
    (d.pte v).present = true := by
  unfold view at h
  split_ifs at h with hv
  exact hv

/-- One entry of the view after a change of entries and memory that does not concern it. -/
theorem view_congr (hpte : d'.pte v = d.pte v)
    (hmem : v < UPAGES → (d.pte v).present = true → k'.mem (d.pte v).addr = k.mem (d.pte v).addr) :
    view k' d' v = view k d v := by
  unfold view
  rw [hpte]
  split_ifs with hv
  · rw [hmem hv.1 hv.2]
  · rfl

/-- Others' pages are kept, so others see what they saw. -/
theorem Keeps.view (h : Keeps U k k') (hU : ∀ f, refs d f ≤ U f) : view k' d = view k d := by
  funext v
  exact view_congr (Eq.refl _) fun hv hp => h _ (lt_of_lt_of_le (refs_pos hv hp) (hU _))

/-! ## Tables -/

theorem DirOk.empty (h : k.Ok dom (K + Pi.single f 1) U W) (hle : ∀ f, W f ≤ U f) :
    DirOk dom K U W k (PageDir.empty f) := by
  have hrefs : refs (PageDir.empty f) = 0 := refs_eq_zero fun v _ => rfl
  have hwrites : writes (PageDir.empty f) = 0 := writes_eq_zero fun v _ => rfl
  refine ⟨?_, hle, fun g => ?_, fun v _ _ => rfl, fun v _ => rfl⟩
  · rwa [hrefs, hwrites, owned_empty, add_zero, add_zero]
  · rw [hrefs]
    exact Nat.zero_le _

/-- The same entries in another set of tables. -/
theorem DirOk.congr (h : DirOk dom K U W k d) (hpte : ∀ v < UPAGES, d'.pte v = d.pte v)
    (hkern : ∀ v, UPAGES ≤ v → (d'.pte v).user = false)
    (hok : k'.Ok dom (K + owned d') (U + refs d) (W + writes d)) : DirOk dom K U W k' d' := by
  refine ⟨?_, h.le, ?_, fun v hv => ?_, hkern⟩
  · rwa [refs_congr hpte, writes_congr hpte]
  · rw [refs_congr hpte]
    exact h.wf.inj
  · rw [hpte v hv]
    exact h.wf.clean v hv

theorem walkpgdirAlloc_pte (hs : walkpgdirAlloc k d v = some (k', d')) :
    (∀ u, d'.pte u = d.pte u) ∧ (walkpgdir d' v).isSome := by
  unfold walkpgdirAlloc at hs
  split at hs
  · rename_i t ht
    cases hs
    refine ⟨fun u => rfl, ?_⟩
    rw [walkpgdir, ht]
    rfl
  · rename_i ht
    split at hs
    · cases hs
    · rename_i f k1 hk
      cases hs
      exact ⟨PageDir.pte_addTab ht f, isSome_addTab d v f⟩

theorem walkpgdirAlloc_spec (h : DirOk dom K U W k d) (hv : v < VPAGES)
    (hs : walkpgdirAlloc k d v = some (k', d')) :
    DirOk dom K U W k' d' ∧ k'.mem = k.mem ∧ (∀ u, d'.pte u = d.pte u) ∧
      (walkpgdir d' v).isSome := by
  have hpte := walkpgdirAlloc_pte hs
  unfold walkpgdirAlloc at hs
  split at hs
  · cases hs
    exact ⟨h, rfl, hpte⟩
  · rename_i ht
    split at hs
    · cases hs
    · rename_i f k1 hk
      cases hs
      obtain ⟨hok, hmem, -, -⟩ := kalloc_spec h.ok hk
      refine ⟨h.congr (fun u _ => hpte.1 u) (fun u hu => ?_) ?_, hmem, hpte⟩
      · rw [PageDir.pte_addTab ht f u]
        exact h.wf.kern u hu
      · rwa [owned_addTab (Nat.div_lt_of_lt_mul hv) ht, ← add_assoc]

/-! ## Entries -/

/-- What the rules below share: one entry changes, and the books are right. -/
theorem DirOk.setPte {K' : Frame → ℕ} (h : DirOk dom K U W k d) (hv : v < UPAGES)
    (hw : (walkpgdir d v).isSome)
    (hok : k'.Ok dom (K' + owned d) (U + refs (d.setPte v x)) (W + writes (d.setPte v x)))
    (hone : x.present = true → refs (d.setPte v x) x.addr ≤ 1)
    (hclean : x.present = false → x.addr = 0) : DirOk dom K' U W k' (d.setPte v x) := by
  refine ⟨by rwa [owned_setPte], h.le, fun g => ?_, fun u hu => ?_, fun u hu => ?_⟩
  · have heq := congrFun (refs_setPte hv hw x) g
    have hinj := h.wf.inj g
    rw [Pi.add_apply, Pi.add_apply] at heq
    by_cases hx : x.present = true ∧ g = x.addr
    · rw [hx.2]
      exact hone hx.1
    · have hzero : x.ref g = 0 := by
        unfold Pte.ref
        split_ifs with hp
        · exact Pi.single_eq_of_ne (fun hg => hx ⟨hp, hg⟩) _
        · rfl
      omega
  · rw [PageDir.pte_setPte hw]
    split_ifs
    · exact hclean
    · exact h.wf.clean u hu
  · rw [PageDir.pte_setPte hw, if_neg (by omega)]
    exact h.wf.kern u hu

theorem view_setPte (hw : (walkpgdir d v).isSome) {y : Option (Bool × Page)}
    (hmem : ∀ u < UPAGES, u ≠ v → (d.pte u).present = true →
      k'.mem (d.pte u).addr = k.mem (d.pte u).addr)
    (hy : view k' (d.setPte v x) v = y) :
    view k' (d.setPte v x) = Function.update (view k d) v y := by
  funext u
  by_cases huv : u = v
  · rw [huv, hy, Function.update_self]
  · rw [Function.update_of_ne huv]
    refine view_congr ?_ fun hu => hmem u hu huv
    rw [PageDir.pte_setPte hw, if_neg huv]

theorem view_setPte_self (hv : v < UPAGES) (hw : (walkpgdir d v).isSome)
    (hx : x.present = true) : view k (d.setPte v x) v = some (x.user, k.mem x.addr) := by
  unfold view
  rw [PageDir.pte_setPte hw, if_pos rfl, if_pos ⟨hv, hx⟩]

/-- A mapping is removed; the last hypothesis says what is done with its page. -/
theorem DirOk.forget (h : DirOk dom K U W k d) (hv : v < UPAGES)
    (hp : (d.pte v).present = true)
    (hdone : ∀ {U' W'}, k.Ok dom (K + owned d) (U' + Pi.single (d.pte v).addr 1) (W + writes d) →
      (∀ g, W' g ≤ (W + writes d) g) → W' (d.pte v).addr ≤ U' (d.pte v).addr →
      k'.Ok dom (K + owned d) U' W' ∧ Keeps U' k k') :
    DirOk dom K U W k' (d.setPte v {}) ∧ Keeps U k k' ∧
      view k' (d.setPte v {}) = Function.update (view k d) v none := by
  have hw : (walkpgdir d v).isSome := PageDir.isSome_walkpgdir hp
  have hrefs : refs (d.setPte v {}) + Pi.single (d.pte v).addr 1 = refs d := by
    rw [← Pte.ref_of_present hp, refs_setPte hv hw, Pte.ref_of_not_present rfl, add_zero]
  have hwrites : writes (d.setPte v {}) + (d.pte v).write = writes d := by
    rw [writes_setPte hv hw, Pte.write_of_not_present rfl, add_zero]
  have hok := h.ok
  rw [← hrefs, ← add_assoc] at hok
  have hle : ∀ g, (W + writes (d.setPte v {}) : Frame → ℕ) g ≤ (W + writes d : Frame → ℕ) g := by
    intro g
    rw [← hwrites, Pi.add_apply, Pi.add_apply, Pi.add_apply]
    omega
  obtain ⟨hok', hmem⟩ := hdone hok hle
    (Nat.add_le_add (h.le _) (writes_le_refs (d.setPte v {}) _))
  refine ⟨h.setPte hv hw hok' nofun fun _ => rfl, fun g hg => hmem g ?_, ?_⟩
  · rw [Pi.add_apply]
    omega
  · refine view_setPte hw (fun u hu huv hpu => hmem _ ?_) (view_of_not_present ?_)
    · have hpos := refs_pos (d := d.setPte v {}) hu (by rwa [PageDir.pte_setPte hw, if_neg huv])
      rw [PageDir.pte_setPte hw, if_neg huv] at hpos
      rw [Pi.add_apply]
      omega
    · rw [PageDir.pte_setPte hw, if_pos rfl]

/-- **A mapping is removed**, and its page with it if nobody else maps it.  What a directory maps is
one of the allocator's pages, so that can be done. -/
theorem DirOk.unmap (h : DirOk L.Dom K U W k d) (hv : v < UPAGES) (hp : (d.pte v).present = true) :
    (d.pte v).addr ≠ 0 ∧ ∃ k', unref L (d.pte v).addr k = some k' ∧
      DirOk L.Dom K U W k' (d.setPte v {}) ∧ Keeps U k k' ∧
      view k' (d.setPte v {}) = Function.update (view k d) v none := by
  have hdom : L.Dom (d.pte v).addr := by
    refine Ledger.dom_of_pos h.ok (Or.inr (Or.inr ?_))
    have hpos := refs_pos hv hp
    rw [Pi.add_apply]
    omega
  obtain ⟨k', hs⟩ : ∃ k', unref L (d.pte v).addr k = some k' := by
    unfold unref
    split_ifs
    · exact kfree_total hdom k
    · exact ⟨_, rfl⟩
  exact ⟨hdom.ne_zero, k', hs, h.forget hv hp fun hok hle hW => unref_spec hok hle hW hs⟩

/-- **One of several mappings of a page is removed.** -/
theorem DirOk.unshare (h : DirOk dom K U W k d) (hv : v < UPAGES)
    (hp : (d.pte v).present = true) (hne : refcount (d.pte v).addr k ≠ 1) :
    DirOk dom K U W (decref (d.pte v).addr k) (d.setPte v {}) ∧
      view (decref (d.pte v).addr k) (d.setPte v {}) = Function.update (view k d) v none := by
  obtain ⟨h1, -, h3⟩ := h.forget hv hp fun hok hle _ => ⟨decref_spec hok hne hle, .rfl⟩
  exact ⟨h1, h3⟩

theorem DirOk.map (h : DirOk dom (K + Pi.single x.addr 1) U W k d) (hv : v < UPAGES)
    (hw : (walkpgdir d v).isSome) (hp : (d.pte v).present = false) (hx : x.present = true) :
    DirOk dom K U W k (d.setPte v x) ∧
      view k (d.setPte v x) = Function.update (view k d) v (some (x.user, k.mem x.addr)) := by
  have hrefs : refs (d.setPte v x) = refs d + Pi.single x.addr 1 := by
    rw [← Pte.ref_of_present hx, ← refs_setPte hv hw, Pte.ref_of_not_present hp, add_zero]
  have hwrites : writes (d.setPte v x) = writes d + x.write := by
    rw [← writes_setPte hv hw, Pte.write_of_not_present hp, add_zero]
  have hok := h.ok
  rw [add_right_comm] at hok
  -- nobody maps it yet
  have hzero : (U + refs d) x.addr = 0 := Ledger.not_both hok (by rw [add_single_self]; omega)
  have hle := Ledger.le hok x.addr
  refine ⟨h.setPte hv hw ?_ (fun _ => ?_) fun hf => ?_,
    view_setPte hw (fun u _ _ _ => rfl) (view_setPte_self hv hw hx)⟩
  · rw [hrefs, hwrites, ← add_assoc]
    refine Ledger.publish hok (fun g hg => ?_) ?_
    · have := x.write_le_ref g
      rw [Pte.ref_of_present hx, Pi.single_eq_of_ne hg] at this
      rw [← add_assoc, Pi.add_apply (W + writes d)]
      omega
    · have := x.write_le_ref x.addr
      rw [Pte.ref_of_present hx, Pi.single_eq_same] at this
      rw [← add_assoc, Pi.add_apply (W + writes d)]
      omega
  · rw [hrefs, add_single_self]
    rw [Pi.add_apply] at hzero
    omega
  · rw [hx] at hf
    cases hf

theorem DirOk.kern (h : DirOk dom K U W k d) (hv : UPAGES ≤ v) (hw : (walkpgdir d v).isSome)
    (hx : x.user = false) :
    DirOk dom K U W k (d.setPte v x) ∧ ∀ u < UPAGES, (d.setPte v x).pte u = d.pte u := by
  have hpte : ∀ u < UPAGES, (d.setPte v x).pte u = d.pte u := fun u hu => by
    rw [PageDir.pte_setPte hw, if_neg (by omega)]
  refine ⟨h.congr hpte (fun u hu => ?_) ?_, hpte⟩
  · rw [PageDir.pte_setPte hw]
    split_ifs
    · exact hx
    · exact h.wf.kern u hu
  · rw [owned_setPte]
    exact h.ok

theorem DirOk.idle (h : DirOk dom K U W k d) (hv : v < UPAGES) (hw : (walkpgdir d v).isSome)
    (hp : (d.pte v).present = false) (hx : x.present = false) (hclean : x.addr = 0) :
    DirOk dom K U W k (d.setPte v x) ∧ view k (d.setPte v x) = view k d := by
  have hrefs : refs (d.setPte v x) = refs d := by
    have := refs_setPte hv hw x
    rwa [Pte.ref_of_not_present hp, Pte.ref_of_not_present hx, add_zero, add_zero] at this
  have hwrites : writes (d.setPte v x) = writes d := by
    have := writes_setPte hv hw x
    rwa [Pte.write_of_not_present hp, Pte.write_of_not_present hx, add_zero, add_zero] at this
  refine ⟨h.setPte hv hw (by rw [hrefs, hwrites]; exact h.ok) (fun hf => ?_) fun _ => hclean, ?_⟩
  · rw [hx] at hf
    cases hf
  · have hpx : ((d.setPte v x).pte v).present = false := by
      rw [PageDir.pte_setPte hw, if_pos rfl]
      exact hx
    have hself := (view_of_not_present (k := k) hpx).trans (view_of_not_present (k := k) hp).symm
    rw [view_setPte hw (fun u _ _ _ => rfl) hself, Function.update_eq_self]

/-- **The flags of a mapping change.**  It can become writable only if its page is not shared. -/
theorem DirOk.reflag (h : DirOk dom K U W k d) (hv : v < UPAGES)
    (hp : (d.pte v).present = true) (hx : x.present = true) (ha : x.addr = (d.pte v).addr)
    (hW : x.writable = true → (d.pte v).writable = true ∨ refcount x.addr k ≤ 1) :
    DirOk dom K U W k (d.setPte v x) ∧
      view k (d.setPte v x) = Function.update (view k d) v (some (x.user, k.mem x.addr)) := by
  have hw : (walkpgdir d v).isSome := PageDir.isSome_walkpgdir hp
  have hrefs : refs (d.setPte v x) = refs d := by
    have := refs_setPte hv hw x
    rw [Pte.ref_of_present hp, Pte.ref_of_present hx, ha] at this
    exact add_right_cancel this
  have hwrites := writes_setPte hv hw x
  refine ⟨h.setPte hv hw ?_ (fun _ => ?_) fun hf => ?_,
    view_setPte hw (fun u _ _ _ => rfl) (view_setPte_self hv hw hx)⟩
  · rw [hrefs]
    by_cases hle : x.writable = true → (d.pte v).writable = true
    · -- no right to write is new
      refine Ledger.revoke h.ok fun g => ?_
      have hxg : x.write g ≤ (d.pte v).write g := by
        unfold Pte.write
        rw [hx, hp, ha, Bool.true_and, Bool.true_and]
        cases hxw : x.writable with
        | false => simp
        | true =>
          rw [hle hxw]
      have := congrFun hwrites g
      rw [Pi.add_apply, Pi.add_apply] at this ⊢
      omega
    · rw [Classical.not_imp] at hle
      have hcount := (hW hle.1).resolve_left hle.2
      have hnew : writes (d.setPte v x) = writes d + Pi.single x.addr 1 := by
        rw [← Pte.write_of_writable hx hle.1, ← hwrites,
          Pte.write_of_not_writable (Bool.eq_false_of_not_eq_true hle.2), add_zero]
      have hpos : 0 < (U + refs d) x.addr := by
        rw [ha, Pi.add_apply]
        have := refs_pos hv hp
        omega
      rw [hnew, ← add_assoc]
      refine Ledger.grant h.ok hpos hcount (fun g hg => ?_) ?_
      · rw [add_single_of_ne _ hg]
      · rw [add_single_self]
        -- the entry itself was the only one, and it was not writable
        have hle1 : (W + writes d) x.addr + 1 ≤ (U + refs d) x.addr := by
          rw [Pi.add_apply, Pi.add_apply]
          have h1 := h.le x.addr
          have h2 := writes_le_refs (d.setPte v x) x.addr
          rw [hnew, hrefs, add_single_self] at h2
          omega
        have hd := Ledger.dom_of_pos h.ok (Or.inr (Or.inr hpos))
        have := Ledger.count_eq h.ok hd
        omega
  · rw [hrefs]
    exact h.wf.inj _
  · rw [hx] at hf
    cases hf

/-- A change of the write bit alone cannot be seen. -/
theorem view_update_self (hv : v < UPAGES) (hp : (d.pte v).present = true)
    (hu : x.user = (d.pte v).user) (ha : x.addr = (d.pte v).addr) :
    Function.update (view k d) v (some (x.user, k.mem x.addr)) = view k d := by
  rw [hu, ha, ← view_of_present hv hp, Function.update_eq_self]

/-- Distinct pages of user memory are in distinct physical pages. -/
theorem DirOk.addr_ne (h : DirOk dom K U W k d) (hu : u < UPAGES) (hv : v < UPAGES) (huv : u ≠ v)
    (hpu : (d.pte u).present = true) (hpv : (d.pte v).present = true) :
    (d.pte u).addr ≠ (d.pte v).addr := by
  intro he
  have h1 := two_le_refs hu hv huv hpu hpv he
  have h2 := h.wf.inj (d.pte v).addr
  omega

/-- A page that is mapped writable is mapped nowhere else. -/
theorem DirOk.alone (h : DirOk dom K U W k d) (hv : v < UPAGES) (hp : (d.pte v).present = true)
    (hw : (d.pte v).writable = true) : U (d.pte v).addr = 0 := by
  have h1 := refs_pos hv hp
  have h2 := writes_pos hv hp hw
  have h3 := Ledger.excl h.ok (a := (d.pte v).addr) (by rw [Pi.add_apply]; omega)
  rw [Pi.add_apply] at h3
  omega

/-- **A page is overwritten** through a writable mapping. -/
theorem DirOk.store (h : DirOk dom K U W k d) (hv : v < UPAGES) (hp : (d.pte v).present = true)
    (hw : (d.pte v).writable = true) (y : Page) :
    DirOk dom K U W (k.store (d.pte v).addr y) d ∧ Keeps U k (k.store (d.pte v).addr y) ∧
      view (k.store (d.pte v).addr y) d =
        Function.update (view k d) v (some ((d.pte v).user, y)) := by
  refine ⟨⟨h.ok.store _ y, h.le, h.wf⟩, fun g hg => ?_, ?_⟩
  · refine Function.update_of_ne ?_ ..
    rintro rfl
    have := h.alone hv hp hw
    omega
  · funext u
    by_cases huv : u = v
    · rw [huv, Function.update_self, view_of_present hv hp]
      change some (_, Function.update k.mem _ y _) = _
      rw [Function.update_self]
    · rw [Function.update_of_ne huv]
      exact view_congr rfl fun hu hpu => Function.update_of_ne (h.addr_ne hu hv huv hpu hp) ..

/-- **A page of somebody else is mapped too**, one that nobody may write. -/
theorem DirOk.share (h : DirOk dom K U W k d) (hv : v < UPAGES) (hw : (walkpgdir d v).isSome)
    (hp : (d.pte v).present = false) (hx : x.present = true) (hxw : x.writable = false)
    (hU : 0 < U x.addr) (hW : W x.addr = 0) (hzero : refs d x.addr = 0)
    (hlt : refcount x.addr k < 255) :
    DirOk dom K U W (incref x.addr k) (d.setPte v x) ∧
      view (incref x.addr k) (d.setPte v x) =
        Function.update (view k d) v (some (x.user, k.mem x.addr)) := by
  have hrefs : refs (d.setPte v x) = refs d + Pi.single x.addr 1 := by
    rw [← Pte.ref_of_present hx, ← refs_setPte hv hw, Pte.ref_of_not_present hp, add_zero]
  have hwrites : writes (d.setPte v x) = writes d := by
    have := writes_setPte hv hw x
    rwa [Pte.write_of_not_present hp, Pte.write_of_not_writable hxw, add_zero, add_zero] at this
  refine ⟨h.setPte hv hw ?_ (fun _ => ?_) fun hf => ?_,
    view_setPte hw (fun u _ _ _ => rfl) (view_setPte_self hv hw hx)⟩
  · rw [hrefs, hwrites, ← add_assoc]
    refine incref_spec h.ok ?_ ?_ hlt
    · rw [Pi.add_apply]
      omega
    · have := writes_le_refs d x.addr
      rw [Pi.add_apply]
      omega
  · rw [hrefs, add_single_self]
    omega
  · rw [hx] at hf
    cases hf

/-- Two directories in the books: either of them can be the one on top. -/
theorem DirOk.swap {c : PageDir}
    (h : DirOk dom (K + owned c) (U + refs c) (W + writes c) k d) (hle : ∀ f, W f ≤ U f)
    (hwf : c.Wf) : DirOk dom (K + owned d) (U + refs d) (W + writes d) k c := by
  refine ⟨?_, fun f => Nat.add_le_add (hle f) (writes_le_refs d f), hwf⟩
  have := h.ok
  rwa [add_right_comm, add_right_comm U, add_right_comm W] at this

/-! ## New pages -/

/-- **A new page is taken and filled.**  Nobody sees it yet. -/
theorem DirOk.fresh (h : DirOk dom K U W k d) (hs : kalloc k = some (f, k')) (y : Page) :
    DirOk dom (K + Pi.single f 1) U W (k'.store f y) d ∧ Keeps U k (k'.store f y) ∧
      view (k'.store f y) d = view k d := by
  obtain ⟨hok, hmem, -, hzero⟩ := kalloc_spec h.ok hs
  rw [Pi.add_apply] at hzero
  rw [add_right_comm] at hok
  have hkeep : ∀ g, g ≠ f → (k'.store f y).mem g = k.mem g := fun g hg => by
    rw [← hmem]
    exact Function.update_of_ne hg ..
  refine ⟨⟨hok.store f y, h.le, h.wf⟩, fun g hg => hkeep g ?_, ?_⟩
  · rintro rfl
    omega
  · funext v
    refine view_congr rfl fun hv hp => hkeep _ ?_
    rintro rfl
    have := refs_pos hv hp
    omega

theorem Kmem.store_mem_self (k : Kmem) (f : Frame) (y : Page) : (k.store f y).mem f = y :=
  Function.update_self ..

end Xv6.Vm
