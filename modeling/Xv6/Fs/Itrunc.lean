import Xv6.Fs.Content

/-!
# Truncating a file

`itrunc` frees the blocks of an inode one after the other.  In between, the indirect table still
names blocks that are free already, so the free map is not exact for the pointers that the disk
holds.  It is exact for the pointers that are left to free, and the loops are stated with those:
`Freeing s ptr` says that the map is exact for `ptr`, whatever the disk says.

No step of `itrunc` stops: every block that it frees is held by a pointer, and so marked as in use.
-/

namespace Xv6.Fs

open Lib

/-- Inside a transaction, with a free map that is exact for the pointers `ptr`. -/
structure Freeing (s : State) (ptr : ℕ × Ptr → ℕ) : Prop where
  wf : s.sb.Wf
  super : readsb s.disk = s.sb
  trans : 1 ≤ s.outstanding
  exact : Exact s.sb.size s.sb.nmeta (used s.disk s.sb) ptr

/-- What freeing blocks of the inode at `ip` may have done. -/
structure Sheds (s s' : State) (ip : Icache) : Prop extends Local s s' ip where
  din : (s'.inode ip).din = { (s.inode ip).din with addrs := (s'.inode ip).din.addrs }
  dinode : ∀ j, j < s.sb.ninodes → dinode s'.disk s.sb j = dinode s.disk s.sb j
  block : ∀ c, s.sb.nmeta ≤ c → s'.disk c = s.disk c

namespace Sheds

variable {s s' s'' : State} {ip : Icache}

protected theorem refl (s : State) (ip : Icache) : Sheds s s ip :=
  ⟨Local.refl s ip, rfl, fun _ _ => rfl, fun _ _ => rfl⟩

theorem trans (h : Sheds s s' ip) (h' : Sheds s' s'' ip) : Sheds s s'' ip where
  toLocal := h.toLocal.trans h'.toLocal
  din := by rw [h'.din, h.din]
  dinode := fun j hj => by
    have hj' : j < s'.sb.ninodes := by rwa [h.sb]
    rw [← h.dinode j hj, ← h.sb, h'.dinode j hj']
  block := fun c hc => by
    have hc' : s'.sb.nmeta ≤ c := by rwa [h.sb]
    rw [h'.block c hc', h.block c hc]

end Sheds

variable {ptr : ℕ × Ptr → ℕ}

/-- **`bfree`** of a block that a pointer holds does not stop. -/
theorem bfree_eq {s : State} (h : Freeing s ptr) {x : ℕ × Ptr} (hx : ptr x ≠ 0) :
    bfree (ptr x) s =
      .ok ((), s.write (BBLOCK (ptr x) s.sb)
        (clearUsed (ptr x) (s.disk (BBLOCK (ptr x) s.sb)))) := by
  have hsb : ({ s with sb := readsb s.disk } : State) = s := by rw [h.super]
  have hget : bfree (ptr x) s =
      (do
        let s ← get
        if used s.disk s.sb (ptr x) then logWrite (BBLOCK (ptr x) s.sb) (clearUsed (ptr x))
        else throw (.panic .freeingFreeBlock) : Op Unit) { s with sb := readsb s.disk } := rfl
  rw [hget, hsb]
  show (if used s.disk s.sb (ptr x) then _ else _ : Op Unit) s = _
  rw [if_pos (h.exact.used_of_ptr hx), logWrite_eq h.trans]

theorem bfree_spec {s : State} (h : Freeing s ptr) {x : ℕ × Ptr} (hx : ptr x ≠ 0) (ip : Icache) :
    wp (bfree (ptr x)) s
      (fun _ s' => Sheds s s' ip ∧ s'.inode = s.inode ∧ Freeing s' (upd ptr x 0))
      (fun _ => False) := by
  have hsize := (h.exact.range x hx).2
  refine wp_of_ok (bfree_eq h hx) ⟨?_, rfl, ?_⟩
  · exact ⟨Local.write s ip _ _, rfl, fun j hj => dinode_freeDisk h.wf hj,
      fun c hc => freeDisk_of_le h.wf hsize hc⟩
  · exact ⟨h.wf, (readsb_freeDisk h.wf).trans h.super, h.trans,
      (h.exact.free hx).congr (fun c _ => used_freeDisk) fun _ => rfl⟩

/-- The pointers left when those of inode `i` in the list are freed. -/
def without (ptr : ℕ × Ptr → ℕ) (i : ℕ) (A : List Ptr) (x : ℕ × Ptr) : ℕ :=
  if x.1 = i ∧ x.2 ∈ A then 0 else ptr x

theorem without_nil (ptr : ℕ × Ptr → ℕ) (i : ℕ) (x : ℕ × Ptr) : without ptr i [] x = ptr x :=
  if_neg fun h => List.not_mem_nil h.2

variable {i : ℕ}

/-- A pointer that is zero may as well be in the list. -/
theorem without_cons_of_zero {p : Ptr} (h : ptr (i, p) = 0)
    (A : List Ptr) (x : ℕ × Ptr) : without ptr i (p :: A) x = without ptr i A x := by
  obtain ⟨j, q⟩ := x
  rw [without, without]
  by_cases hx : j = i ∧ q = p
  · obtain ⟨rfl, rfl⟩ := hx
    rw [if_pos ⟨rfl, List.mem_cons_self⟩, h, ite_self]
  · refine if_congr ⟨?_, fun hA => ⟨hA.1, List.mem_cons_of_mem p hA.2⟩⟩ rfl rfl
    rintro ⟨hj, hq⟩
    rcases List.mem_cons.mp hq with hqp | hqA
    · exact absurd ⟨hj, hqp⟩ hx
    · exact ⟨hj, hqA⟩

theorem without_upd (ptr : ℕ × Ptr → ℕ) (i : ℕ) (p : Ptr) (A : List Ptr) (x : ℕ × Ptr) :
    without ptr i (p :: A) x = without (upd ptr (i, p) 0) i A x := by
  have hzero : upd ptr (i, p) 0 (i, p) = 0 := upd_self
  rw [← without_cons_of_zero hzero]
  obtain ⟨j, q⟩ := x
  rw [without, without]
  by_cases hx : j = i ∧ q ∈ p :: A
  · rw [if_pos hx, if_pos hx]
  · have hne : (j, q) ≠ (i, p) := by
      intro heq
      cases heq
      exact hx ⟨rfl, List.mem_cons_self⟩
    rw [if_neg hx, if_neg hx, upd_of_ne hne]

theorem Freeing.congr {s : State} {ptr' : ℕ × Ptr → ℕ} (h : Freeing s ptr)
    (hptr : ∀ x, ptr' x = ptr x) : Freeing s ptr' :=
  ⟨h.wf, h.super, h.trans, h.exact.congr (fun _ _ => rfl) hptr⟩

/-- The loop over the slots: those in the list are freed and set to zero. -/
theorem freeAddrs_spec {ip : Icache} (ks : List (Fin (NDIRECT + 1))) :
    ∀ {s : State} {ptr : ℕ × Ptr → ℕ}, ks.Nodup → Freeing s ptr →
    (∀ k, k ∈ ks → ptr (i, .addr k) = ((s.inode ip).din.addrs k).toNat) →
    wp (freeAddrs ip ks) s
      (fun _ s' => Sheds s s' ip ∧
        (∀ k, (s'.inode ip).din.addrs k = if k ∈ ks then 0 else (s.inode ip).din.addrs k) ∧
        Freeing s' (without ptr i (ks.map Ptr.addr)))
      (fun _ => False) := by
  induction ks with
  | nil =>
    intro s ptr _ h _
    exact ⟨Sheds.refl s ip, fun k => (if_neg List.not_mem_nil).symm, h.congr (without_nil ptr i)⟩
  | cons k ks ih =>
    intro s ptr hnodup h hptr
    obtain ⟨hkks, hnodup⟩ := List.nodup_cons.mp hnodup
    have hk := hptr k List.mem_cons_self
    rw [freeAddrs, wp_bind, wp_get, wp_ite]
    refine ⟨fun h0 => ?_, fun h0 => ?_⟩
    · have hk0 : ptr (i, .addr k) = 0 := by
        rw [hk, h0]
        rfl
      refine (ih hnodup h fun k' hk' => hptr k' (List.mem_cons_of_mem k hk')).mono ?_ fun _ he => he
      rintro _ s' ⟨hs, haddrs, hf⟩
      refine ⟨hs, fun k' => ?_, hf.congr (without_cons_of_zero hk0 _)⟩
      rw [haddrs]
      by_cases hkk : k' = k
      · rw [hkk, h0, ite_self, ite_self]
      · simp only [List.mem_cons, hkk, false_or]
    · have hk0 : ptr (i, .addr k) ≠ 0 := by
        rw [hk]
        exact fun hn => h0 (UInt32.toNat_inj.mp hn)
      rw [← hk]
      refine (bfree_spec h hk0 ip).bind ?_
      rintro _ s1 ⟨hs, hinode, hf⟩
      rw [wp_bind, wp_setDin]
      have hf2 : Freeing (s1.putDin ip { (s1.inode ip).din with
          addrs := upd (s1.inode ip).din.addrs k 0 }) (upd ptr (i, .addr k) 0) :=
        ⟨hf.wf, hf.super, hf.trans, hf.exact⟩
      have hs2 : Sheds s (s1.putDin ip { (s1.inode ip).din with
          addrs := upd (s1.inode ip).din.addrs k 0 }) ip := by
        refine hs.trans ⟨Local.putDin s1 ip _, ?_, fun _ _ => rfl, fun _ _ => rfl⟩
        rw [putDin_self]
      have haddrs1 : (s1.inode ip).din = (s.inode ip).din := by rw [hinode]
      refine (ih hnodup hf2 fun k' hk' => ?_).mono ?_ fun _ he => he
      · have hne : k' ≠ k := fun heq => hkks (heq ▸ hk')
        rw [upd_of_ne fun heq => hne (Ptr.addr.inj (Prod.mk.inj heq).2), putDin_self,
          hptr k' (List.mem_cons_of_mem k hk'), haddrs1]
        exact congrArg UInt32.toNat (upd_of_ne hne).symm
      · rintro _ s' ⟨hs', haddrs, hf'⟩
        refine ⟨hs2.trans hs', fun k' => ?_, hf'.congr (without_upd ptr i _ _)⟩
        rw [haddrs, putDin_self, haddrs1]
        by_cases hkk : k' = k
        · simp only [hkk, List.mem_cons_self, upd_self, ite_self, if_true]
        · simp only [List.mem_cons, hkk, false_or, upd_of_ne hkk]

/-- The loop over the indirect table: the entries in the list are freed. -/
theorem freeEntries_spec {a : Block} (ip : Icache) (js : List (Fin NINDIRECT)) :
    ∀ {s : State} {ptr : ℕ × Ptr → ℕ}, js.Nodup → Freeing s ptr →
    (∀ j, j ∈ js → ptr (i, .entry j) = (entry a j).toNat) →
    wp (freeEntries a js) s
      (fun _ s' => Sheds s s' ip ∧ s'.inode = s.inode ∧
        Freeing s' (without ptr i (js.map Ptr.entry)))
      (fun _ => False) := by
  induction js with
  | nil =>
    intro s ptr _ h _
    exact ⟨Sheds.refl s ip, rfl, h.congr (without_nil ptr i)⟩
  | cons j js ih =>
    intro s ptr hnodup h hptr
    obtain ⟨hjjs, hnodup⟩ := List.nodup_cons.mp hnodup
    have hj := hptr j List.mem_cons_self
    rw [freeEntries, wp_ite]
    refine ⟨fun h0 => ?_, fun h0 => ?_⟩
    · have hj0 : ptr (i, .entry j) = 0 := by
        rw [hj, h0]
        rfl
      refine (ih hnodup h fun j' hj' => hptr j' (List.mem_cons_of_mem j hj')).mono ?_ fun _ he => he
      rintro _ s' ⟨hs, hinode, hf⟩
      exact ⟨hs, hinode, hf.congr (without_cons_of_zero hj0 _)⟩
    · have hj0 : ptr (i, .entry j) ≠ 0 := by
        rw [hj]
        exact fun hn => h0 (UInt32.toNat_inj.mp hn)
      rw [← hj]
      refine (bfree_spec h hj0 ip).bind ?_
      rintro _ s1 ⟨hs, hinode1, hf⟩
      refine (ih hnodup hf fun j' hj' => ?_).mono ?_ fun _ he => he
      · have hne : j' ≠ j := fun heq => hjjs (heq ▸ hj')
        rw [upd_of_ne fun heq => hne (Ptr.entry.inj (Prod.mk.inj heq).2),
          hptr j' (List.mem_cons_of_mem j hj')]
      · rintro _ s' ⟨hs', hinode, hf'⟩
        exact ⟨hs.trans hs', hinode.trans hinode1, hf'.congr (without_upd ptr i _ _)⟩

/-! ## The copy reaches the disk -/

def State.update (s : State) (ip : Icache) : State :=
  s.write (IBLOCK (s.inode ip).inum s.sb)
    (putDinode (s.inode ip).inum (s.inode ip).din (s.disk (IBLOCK (s.inode ip).inum s.sb)))

theorem iupdate_eq {s : State} (ho : 1 ≤ s.outstanding) (ip : Icache) :
    iupdate ip s = .ok ((), s.update ip) := logWrite_eq ho _ _

/-- After `iupdate` the table of inodes on the disk is the one with the copy put in. -/
theorem dinode_update (s : State) (ip : Icache) (j : ℕ) :
    dinode (s.update ip).disk s.sb j = view s ip j := by
  rw [State.update, view]
  exact dinode_putDinode s.disk s.sb _ j _

theorem view_update (s : State) (ip : Icache) (j : ℕ) : view (s.update ip) ip j = view s ip j := by
  by_cases hj : j = (s.inode ip).inum
  · rw [hj, view_self]
    exact upd_self
  · rw [view_of_ne (s := s.update ip) hj]
    exact dinode_update s ip j

theorem readsb_update {s : State} (h : s.sb.Wf) (ip : Icache) :
    readsb (s.update ip).disk = readsb s.disk :=
  Superblock.Wf.readsb_update (h.two_le_iblock _)

theorem used_update {s : State} {ip : Icache} (h : s.sb.Wf)
    (hi : (s.inode ip).inum < s.sb.ninodes) (b : ℕ) :
    used (s.update ip).disk s.sb b = used s.disk s.sb b :=
  used_update_of_ne (ne_of_gt (lt_of_lt_of_le (h.iblock_lt hi) (bmapstart_le_bblock b))) _

theorem block_update {s : State} {ip : Icache} (h : s.sb.Wf)
    (hi : (s.inode ip).inum < s.sb.ninodes) {c : ℕ} (hc : s.sb.nmeta ≤ c) :
    (s.update ip).disk c = s.disk c := by
  have h1 := h.iblock_lt hi
  have h2 := h.bmapstart_lt_nmeta
  exact upd_of_ne (by omega)

/-! ## `itrunc` -/

/-- The pointers left when all those of inode `i` are freed. -/
def cleared (ptr : ℕ × Ptr → ℕ) (i : ℕ) (x : ℕ × Ptr) : ℕ := if x.1 = i then 0 else ptr x

theorem Ready.freeing {s : State} {ip : Icache} (hr : Ready s ip) :
    Freeing s (pointers s.sb s.disk (view s ip)) :=
  ⟨hr.wf, hr.super, hr.trans, hr.owned⟩

theorem mem_castSucc_finRange {k : Fin (NDIRECT + 1)} :
    k ∈ (List.finRange NDIRECT).map Fin.castSucc ↔ k ≠ Fin.last NDIRECT := by
  rw [List.mem_map]
  constructor
  · rintro ⟨k', -, rfl⟩
    exact Fin.castSucc_ne_last k'
  · intro hk
    exact ⟨k.castPred hk, List.mem_finRange _, Fin.castSucc_castPred k hk⟩

theorem freeTable_spec {s : State} {ip : Icache} (h : Freeing s ptr)
    (hptr : ∀ p, p = Ptr.table ∨ (∃ j, p = .entry j) →
      ptr (i, p) = (s.inode ip).din.ptr s.disk p)
    (hslot : ∀ k, k ≠ Fin.last NDIRECT → (s.inode ip).din.addrs k = 0 ∧ ptr (i, .addr k) = 0) :
    wp (freeTable ip) s
      (fun _ s' => Sheds s s' ip ∧ (∀ k, (s'.inode ip).din.addrs k = 0) ∧
        Freeing s' (cleared ptr i))
      (fun _ => False) := by
  have htab := hptr Ptr.table (Or.inl rfl)
  rw [freeTable, wp_bind, wp_get, wp_ite]
  refine ⟨fun h0 => ?_, fun h0 => ?_⟩
  · refine ⟨Sheds.refl s ip, fun k => ?_, h.congr ?_⟩
    · by_cases hk : k = Fin.last NDIRECT
      · rw [hk, h0]
      · exact (hslot k hk).1
    · rintro ⟨j, p⟩
      rw [cleared]
      by_cases hj : j = i
      · subst hj
        rw [if_pos rfl]
        cases p with
        | addr k =>
          by_cases hk : k = Fin.last NDIRECT
          · rw [hk]
            refine (htab.trans ?_).symm
            rw [Ptr.table, Dinode.ptr, h0]
            rfl
          · exact ((hslot k hk).2).symm
        | entry j' => rw [hptr _ (Or.inr ⟨j', rfl⟩), Dinode.ptr, if_pos h0]
      · rw [if_neg hj]
  · rw [wp_bind, bread, wp_bind, wp_get, wp_pure]
    have hentry : ∀ j, j ∈ List.finRange NINDIRECT → ptr (i, .entry j) =
        (entry (s.disk ((s.inode ip).din.addrs (Fin.last NDIRECT)).toNat) j).toNat := by
      intro j _
      rw [hptr _ (Or.inr ⟨j, rfl⟩), Dinode.ptr, if_neg h0]
    refine (freeEntries_spec ip _ (List.nodup_finRange _) h hentry).bind ?_
    rintro _ s2 ⟨hs2, hinode2, hf2⟩
    have hx : without ptr i ((List.finRange NINDIRECT).map Ptr.entry) (i, Ptr.table) =
        ((s.inode ip).din.addrs (Fin.last NDIRECT)).toNat := by
      rw [without, if_neg, htab]
      · rfl
      · rintro ⟨-, hmem⟩
        obtain ⟨j, -, hj⟩ := List.mem_map.mp hmem
        cases hj
    have hx0 : without ptr i ((List.finRange NINDIRECT).map Ptr.entry) (i, Ptr.table) ≠ 0 := by
      rw [hx]
      exact fun hn => h0 (UInt32.toNat_inj.mp hn)
    rw [← hx]
    refine (bfree_spec hf2 hx0 ip).bind ?_
    rintro _ s3 ⟨hs3, hinode3, hf3⟩
    rw [wp_setDin]
    have hdin3 : (s3.inode ip).din = (s.inode ip).din := by rw [hinode3, hinode2]
    refine ⟨(hs2.trans hs3).trans ⟨Local.putDin s3 ip _, ?_, fun _ _ => rfl, fun _ _ => rfl⟩,
      fun k => ?_, Freeing.congr ⟨hf3.wf, hf3.super, hf3.trans, hf3.exact⟩ ?_⟩
    · rw [putDin_self]
    · rw [putDin_self, hdin3]
      by_cases hk : k = Fin.last NDIRECT
      · simp only [hk, upd_self]
      · exact (upd_of_ne hk).trans (hslot k hk).1
    · rintro ⟨j, p⟩
      rw [cleared]
      by_cases hj : j = i
      · subst hj
        rw [if_pos rfl]
        by_cases hp : p = Ptr.table
        · rw [hp, upd_self]
        · rw [upd_of_ne fun heq => hp (Prod.mk.inj heq).2, without]
          cases p with
          | addr k =>
            have hk : k ≠ Fin.last NDIRECT := fun hk => hp (congrArg Ptr.addr hk)
            simp only [(hslot k hk).2, ite_self]
          | entry j' => rw [if_pos ⟨rfl, List.mem_map_of_mem (List.mem_finRange j')⟩]
      · have hne : (j, p) ≠ (i, Ptr.table) := fun heq => hj (Prod.mk.inj heq).1
        rw [if_neg hj, upd_of_ne hne, without, if_neg fun hx => hj hx.1]

/-- **`itrunc`** frees every block of the file and nothing else, and does not stop. -/
theorem itrunc_spec {s : State} {ip : Icache} (hr : Ready s ip) :
    wp (itrunc ip) s
      (fun _ s' => Local s s' ip ∧
        (s'.inode ip).din = { (s.inode ip).din with size := 0, addrs := fun _ => 0 } ∧
        (∀ j, j < s.sb.ninodes → dinode s'.disk s.sb j = view s' ip j) ∧
        (∀ j, j < s.sb.ninodes → j ≠ (s.inode ip).inum → view s' ip j = view s ip j) ∧
        (∀ c, s.sb.nmeta ≤ c → s'.disk c = s.disk c) ∧
        Freeing s' (cleared (pointers s.sb s.disk (view s ip)) (s.inode ip).inum))
      (fun _ => False) := by
  have hti := hr.type
  rw [← view_self] at hti
  have hpi : ∀ p, pointers s.sb s.disk (view s ip) ((s.inode ip).inum, p) =
      (s.inode ip).din.ptr s.disk p := by
    intro p
    rw [pointers_of_alloc hr.inum hti, view_self]
  rw [itrunc]
  refine (freeAddrs_spec (i := (s.inode ip).inum) _ ?_ hr.freeing fun k _ => hpi _).bind ?_
  · exact (List.nodup_finRange _).map (Fin.castSucc_injective _)
  rintro _ s1 ⟨hs1, haddrs1, hf1⟩
  have hlast : (s1.inode ip).din.addrs (Fin.last NDIRECT) =
      (s.inode ip).din.addrs (Fin.last NDIRECT) := by
    rw [haddrs1, if_neg fun h => mem_castSucc_finRange.mp h rfl]
  refine (freeTable_spec (i := (s.inode ip).inum) hf1 ?_ ?_).bind ?_
  · intro p hp
    have hout : p ∉ ((List.finRange NDIRECT).map Fin.castSucc).map Ptr.addr := by
      intro hmem
      obtain ⟨k, hk, rfl⟩ := List.mem_map.mp hmem
      rcases hp with hp | ⟨j, hp⟩
      · exact mem_castSucc_finRange.mp hk (Ptr.addr.inj hp)
      · cases hp
    rw [without, if_neg fun h => hout h.2, hpi]
    rcases hp with rfl | ⟨j, rfl⟩
    · exact congrArg UInt32.toNat hlast.symm
    · rw [Dinode.ptr, Dinode.ptr, hlast]
      by_cases h0 : (s.inode ip).din.addrs (Fin.last NDIRECT) = 0
      · rw [if_pos h0, if_pos h0]
      · have hne : (view s ip (s.inode ip).inum).ptr s.disk Ptr.table ≠ 0 := by
          rw [view_self]
          exact fun hn => h0 (UInt32.toNat_inj.mp hn)
        have hblk := hs1.block _ (hr.owned.ptr_range hr.inum hti hne).1
        rw [view_self, Ptr.table, Dinode.ptr] at hblk
        rw [if_neg h0, if_neg h0, hblk]
  · intro k hk
    have hmem := mem_castSucc_finRange.mpr hk
    refine ⟨by rw [haddrs1, if_pos hmem], ?_⟩
    rw [without, if_pos ⟨rfl, List.mem_map_of_mem hmem⟩]
  rintro _ s2 ⟨hs2, haddrs2, hf2⟩
  rw [wp_bind, wp_setDin]
  refine wp_of_ok (iupdate_eq (by exact hf2.trans) ip) ?_
  have hs := hs1.trans hs2
  generalize hs3 : s2.putDin ip { (s2.inode ip).din with size := 0 } = s3
  have hloc : Local s s3 ip := by rw [← hs3]; exact hs.toLocal.trans (Local.putDin s2 ip _)
  have hdisk : s3.disk = s2.disk := by rw [← hs3]; rfl
  have hdin : (s3.inode ip).din = { (s.inode ip).din with size := 0, addrs := fun _ => 0 } := by
    rw [← hs3, putDin_self, hs.din]
    refine Dinode.ext rfl rfl rfl rfl rfl (funext haddrs2)
  have hi3 : (s3.inode ip).inum < s3.sb.ninodes := by
    rw [hloc.inum, hloc.sb]
    exact hr.inum
  have hwf3 : s3.sb.Wf := by rw [hloc.sb]; exact hr.wf
  refine ⟨hloc.trans (Local.write s3 ip _ _), hdin, ?_, ?_, ?_, ?_⟩
  · intro j _
    rw [view_update, ← hloc.sb, dinode_update]
  · intro j hj hji
    rw [view_update, view_of_ne (by rwa [hloc.inum]), view_of_ne hji, hdisk, hloc.sb,
      hs.dinode j hj]
  · intro c hc
    rw [block_update hwf3 hi3 (by rwa [hloc.sb]), hdisk, hs.block c hc]
  · have hf3 : Freeing s3 (cleared (pointers s.sb s.disk (view s ip)) (s.inode ip).inum) := by
      rw [← hs3]
      refine Freeing.congr ⟨hf2.wf, hf2.super, hf2.trans, hf2.exact⟩ fun x => ?_
      rw [cleared, cleared]
      by_cases hx : x.1 = (s.inode ip).inum
      · rw [if_pos hx, if_pos hx]
      · rw [if_neg hx, if_neg hx, without, if_neg fun h => hx h.1]
    exact ⟨hwf3, (readsb_update hwf3 ip).trans hf3.super, hf3.trans,
      hf3.exact.congr (fun b _ => used_update hwf3 hi3 b) fun _ => rfl⟩

end Xv6.Fs
