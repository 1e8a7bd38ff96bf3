import Xv6.Fs.Bmap

/-!
# The bytes of a file

`readi` and `writei` go through a file one block at a time.  The loop of `writei` leaves the bytes
it was given in the range it was given, and every other byte of every file as it was
(`writeiLoop_spec`); the loop of `readi` returns the bytes of its range and, in a file without
holes, changes nothing at all (`readiLoop_eq`).
-/

namespace Xv6.Fs

open Lib

/-! ## Writing -/

section Write

variable {s : State} {ip : Icache} {bn b o j : ℕ} {l : List UInt8} {P : Finset Ptr}

section Block

variable (hr : Ready s ip) (hb : (s.inode ip).din.addr s.disk bn = b) (hb0 : b ≠ 0)

include hr hb hb0

/-- Writing a block of a file moves no pointer of any inode. -/
theorem Ready.ptr_write (blk : Block) (hj : j < s.sb.ninodes) (ht : (view s ip j).type ≠ 0)
    (p : Ptr) :
    (view s ip j).ptr (upd s.disk b blk) p = (view s ip j).ptr s.disk p := by
  have hti := hr.type
  rw [← view_self] at hti hb
  refine Dinode.ptr_congr (fun _ => upd_of_ne ?_) p
  intro heq
  rw [← hb] at hb0 heq
  exact hr.owned.addr_ne_table hr.inum hti hj ht hb0 heq.symm

theorem Ready.nmeta_le : s.sb.nmeta ≤ b := by
  have hti := hr.type
  rw [← view_self] at hti hb
  rw [← hb] at hb0 ⊢
  exact (hr.owned.addr_range hr.inum hti hb0).1

theorem Ready.view_write (blk : Block) (hj : j < s.sb.ninodes) :
    view (s.write b blk) ip j = view s ip j := by
  by_cases hji : j = (s.inode ip).inum
  · rw [hji, view_self]
    exact upd_self
  · rw [view_of_ne hji, view_of_ne (s := s.write b blk) hji]
    exact hr.wf.dinode_update_data (hr.nmeta_le hb hb0) hj

theorem Ready.write (blk : Block) : Ready (s.write b blk) ip where
  wf := hr.wf
  super := (Superblock.Wf.readsb_update (hr.wf.two_le_of_nmeta_le (hr.nmeta_le hb hb0))).trans
    hr.super
  trans := hr.trans
  inum := hr.inum
  type := hr.type
  owned := by
    refine hr.owned.congr (fun c hc => hr.wf.used_update_data (hr.nmeta_le hb hb0) hc) ?_
    rintro ⟨j, p⟩
    by_cases hj : j < s.sb.ninodes
    · have hview := hr.view_write hb hb0 blk hj
      rw [pointers, pointers]
      simp only [hview]
      by_cases ht : (view s ip j).type ≠ 0
      · rw [if_pos ⟨hj, ht⟩, if_pos ⟨hj, ht⟩]
        exact hr.ptr_write hb hb0 blk hj ht p
      · rw [if_neg fun h => ht h.2, if_neg fun h => ht h.2]
    · rw [pointers, pointers, if_neg fun h => hj h.1, if_neg fun h => hj h.1]

/-- The bytes of the files after a piece of one block was written. -/
theorem Ready.byte_write (hj : j < s.sb.ninodes) (ht : (view s ip j).type ≠ 0) {x : ℕ}
    (hx : (view s ip j).addr s.disk (x / BSIZE) ≠ 0) :
    (view s ip j).byte (upd s.disk b (blit (s.disk b) o l)) x =
      if j = (s.inode ip).inum ∧ x / BSIZE = bn ∧ o ≤ x % BSIZE ∧ x % BSIZE < o + l.length then
        l.getD (x % BSIZE - o) 0
      else (view s ip j).byte s.disk x := by
  have hti := hr.type
  rw [← view_self] at hti hb
  have haddr : (view s ip j).addr (upd s.disk b (blit (s.disk b) o l)) (x / BSIZE) =
      (view s ip j).addr s.disk (x / BSIZE) :=
    Dinode.addr_congr (hr.ptr_write (by rwa [← view_self]) hb0 _ hj ht) _
  rw [Dinode.byte, haddr, Dinode.byte]
  by_cases hplace : j = (s.inode ip).inum ∧ x / BSIZE = bn
  · obtain ⟨rfl, rfl⟩ := hplace
    rw [hb, upd_self]
    by_cases hin : o ≤ x % BSIZE ∧ x % BSIZE < o + l.length
    · rw [blit_of_mem hin.1 hin.2, if_pos ⟨rfl, rfl, hin⟩]
    · rw [blit_of_not_mem (by omega), if_neg fun h => hin h.2.2]
  · have hne : (view s ip j).addr s.disk (x / BSIZE) ≠ b := by
      intro heq
      rw [← hb] at heq
      exact hplace (hr.owned.addr_inj hj ht hr.inum hti hx heq)
    rw [upd_of_ne hne, if_neg fun h => hplace ⟨h.1, h.2.1⟩]

theorem Ready.evolves_write :
    Evolves s (s.write b (blit (s.disk b) o l)) ip (bn * BSIZE + o)
      (bn * BSIZE + o + l.length) where
  toLocal := Local.write s ip b _
  din := rfl
  dinode := fun j hj => hr.wf.dinode_update_data (hr.nmeta_le hb hb0) hj
  addr := fun j hj ht bn' _ => by
    rw [hr.view_write hb hb0 _ hj]
    exact Dinode.addr_congr (hr.ptr_write hb hb0 _ hj ht) bn'
  byte := fun j hj ht x hx hout => by
    rw [hr.view_write hb hb0 _ hj]
    refine (hr.byte_write hb hb0 hj ht hx).trans (if_neg ?_)
    rintro ⟨hji, hbn, h1, h2⟩
    have hdiv := Nat.div_add_mod x BSIZE
    rw [hbn, Nat.mul_comm] at hdiv
    exact hout ⟨hji, by omega, by omega⟩

theorem Ready.credit_write (blk : Block) (hc : Credit s ip P) : Credit (s.write b blk) ip P := by
  have hti := hr.type
  rw [← view_self] at hti
  have hptr : ∀ p, (s.inode ip).din.ptr (upd s.disk b blk) p = (s.inode ip).din.ptr s.disk p := by
    have h := hr.ptr_write hb hb0 blk hr.inum hti
    rwa [view_self] at h
  have hlack : lacking (s.write b blk) ip P = lacking s ip P :=
    congrArg Finset.card (Finset.filter_congr fun p _ => by
      rw [← hptr p]
      exact Iff.rfl)
  have hfree : free (s.write b blk).disk s.sb = free s.disk s.sb :=
    congrArg Finset.card (Finset.filter_congr fun c hc => by
      have hsame : used (s.write b blk).disk s.sb c = used s.disk s.sb c :=
        hr.wf.used_update_data (hr.nmeta_le hb hb0) (Finset.mem_range.mp hc)
      rw [hsame])
  rw [Credit, hlack]
  exact hc.trans (le_of_eq hfree.symm)

end Block

theorem writeiLoop_succ {s1 : State} (src : ℕ → UInt8) (fuel : ℕ) {off n : ℕ} (hn : n ≠ 0)
    (hbmap : bmap ip (off / BSIZE) s = .ok (b, s1)) (ho : 1 ≤ s1.outstanding) :
    writeiLoop ip (fuel + 1) src off n s =
      writeiLoop ip fuel (fun k => src (min n (BSIZE - off % BSIZE) + k))
        (off + min n (BSIZE - off % BSIZE)) (n - min n (BSIZE - off % BSIZE))
        (s1.write b (blit (s1.disk b) (off % BSIZE)
          (slice src 0 (min n (BSIZE - off % BSIZE))))) := by
  rw [writeiLoop, if_neg hn]
  show (bmap ip (off / BSIZE) s >>= fun r => _) = _
  rw [hbmap]
  show (logWrite b _ s1 >>= fun r => _) = _
  rw [logWrite_eq ho]
  rfl

/-- **The loop of `writei`.**  The range holds the bytes written, no other byte has changed, and the
loop stops only if too few blocks are free for the range. -/
theorem writeiLoop_spec (fuel : ℕ) : ∀ {s : State} {src : ℕ → UInt8} {off n : ℕ},
    Ready s ip → n ≤ fuel → off + n ≤ MAXFILE * BSIZE →
    (∀ bn h, off / BSIZE ≤ bn → bn * BSIZE < off + n → Ptr.needed bn h ⊆ P) →
    wp (writeiLoop ip fuel src off n) s
      (fun _ s' => Ready s' ip ∧ Evolves s s' ip off (off + n) ∧ (Credit s ip P → Credit s' ip P) ∧
        (∀ k, k < n → (s'.inode ip).din.addr s'.disk ((off + k) / BSIZE) ≠ 0 ∧
          (s'.inode ip).din.byte s'.disk (off + k) = src k) ∧
        ((∀ k, k < n → (s.inode ip).din.addr s.disk ((off + k) / BSIZE) ≠ 0) →
          s'.inode = s.inode))
      (fun e => e = .panic .ballocOutOfBlocks ∧ ¬ Credit s ip P) := by
  induction fuel with
  | zero =>
    intro s src off n hr hn _ _
    obtain rfl : n = 0 := Nat.le_zero.mp hn
    exact ⟨hr, Evolves.refl _ _ _ _, fun hc => hc, fun k hk => absurd hk (Nat.not_lt_zero k),
      fun _ => rfl⟩
  | succ fuel ih =>
    intro s src off n hr hn hmax hP
    have hB : 0 < BSIZE := by decide
    rw [writeiLoop, wp_ite]
    refine ⟨fun hn0 => ?_, fun hn0 => ?_⟩
    · subst hn0
      exact ⟨hr, Evolves.refl _ _ _ _, fun hc => hc, fun k hk => absurd hk (Nat.not_lt_zero k),
        fun _ => rfl⟩
    have hbn : off / BSIZE < MAXFILE := Nat.div_lt_of_lt_mul (by rw [Nat.mul_comm]; omega)
    have hdiv := Nat.div_add_mod off BSIZE
    have hmod := Nat.mod_lt off hB
    refine (bmap_spec hr hbn (hP _ hbn le_rfl ?_)).bind ?_
    · rw [Nat.mul_comm]
      omega
    rintro b s1 ⟨hp, hb, hb0, hsame⟩
    -- the piece of this turn: `m` bytes at `off`, all in one block
    obtain ⟨m, hm⟩ : ∃ m, m = min n (BSIZE - off % BSIZE) := ⟨_, rfl⟩
    have hm0 : 0 < m := by omega
    have hmn : m ≤ n := by omega
    have hlen : (slice src 0 m).length = m := length_slice _ _ _
    obtain ⟨s2, hs2⟩ : ∃ s2, s2 = s1.write b (blit (s1.disk b) (off % BSIZE) (slice src 0 m)) :=
      ⟨_, rfl⟩
    have hr2 : Ready s2 ip := by rw [hs2]; exact hp.ready.write hb hb0 _
    have hev2 : Evolves s1 s2 ip off (off + m) := by
      have h := hp.ready.evolves_write hb hb0 (o := off % BSIZE) (l := slice src 0 m)
      rwa [Nat.mul_comm, hdiv, hlen, ← hs2] at h
    have hbyte2 : ∀ k, k < m → (s2.inode ip).din.addr s2.disk ((off + k) / BSIZE) ≠ 0 ∧
        (s2.inode ip).din.byte s2.disk (off + k) = src k := by
      intro k hk
      have hplace : (off + k) / BSIZE = off / BSIZE ∧ (off + k) % BSIZE = off % BSIZE + k :=
        (Nat.div_mod_unique hB).mpr ⟨by omega, by omega⟩
      have hti := hp.ready.type
      rw [← view_self] at hti
      have ha : (s1.inode ip).din.addr s1.disk ((off + k) / BSIZE) ≠ 0 := by
        rw [hplace.1, hb]
        exact hb0
      have hbyte := hp.ready.byte_write hb hb0 hp.ready.inum hti (x := off + k)
        (by rw [view_self]; exact ha) (o := off % BSIZE) (l := slice src 0 m)
      rw [if_pos ⟨rfl, hplace.1, by omega, by omega⟩, view_self, hplace.2,
        Nat.add_sub_cancel_left] at hbyte
      have haddr := hev2.addr _ hp.ready.inum hti ((off + k) / BSIZE) (by rw [view_self]; exact ha)
      rw [← hev2.inum, view_self] at haddr
      have hget : (slice src 0 m).getD k 0 = src k := by
        rw [List.getD_eq_getElem?_getD, getElem?_slice src 0 hk, Nat.zero_add, Option.getD_some]
      rw [hget] at hbyte
      rw [haddr, hev2.inum, view_self, hs2]
      exact ⟨ha, hbyte⟩
    simp only [← hm]
    rw [wp_bind]
    refine wp_logWrite hp.ready.trans ?_
    rw [← hs2]
    refine (ih hr2 (by omega) (by omega) ?_).mono ?_ ?_
    · intro bn h h1 h2
      exact hP bn h (le_trans (Nat.div_le_div_right (by omega)) h1) (by omega)
    · rintro _ s' ⟨hr', hev', hc', hbyte', hinode'⟩
      have hadd : off + m + (n - m) = off + n := by omega
      rw [hadd] at hev'
      have hev : Evolves s s' ip off (off + n) :=
        ((hp.evolves.of_empty off off).trans hev2 le_rfl (by omega)).trans
          hev' (by omega) (by omega)
      refine ⟨hr', hev, ?_, ?_, ?_⟩
      · intro hc
        refine hc' ?_
        rw [hs2]
        exact hp.ready.credit_write hb hb0 _ (hp.credit hc)
      · intro k hk
        by_cases hkm : k < m
        · obtain ⟨ha, hk'⟩ := hbyte2 k hkm
          have h := hev'.byte_self hr2.inum hr2.type ha (Or.inl (by omega))
          rwa [hk'] at h
        · have h := hbyte' (k - m) (by omega)
          have hk' : off + m + (k - m) = off + k := by omega
          have hk'' : m + (k - m) = k := by omega
          rwa [hk', hk''] at h
      · intro hmap
        obtain rfl := hsame (hmap 0 (by omega))
        have hinode2 : s2.inode = s1.inode := by rw [hs2]; rfl
        refine (hinode' fun k hk => ?_).trans hinode2
        have hk' : off + m + k = off + (m + k) := by omega
        have ha := hmap (m + k) (by omega)
        rwa [hk', hev2.addr_self hr.inum hr.type ha]
    · rintro e ⟨he, hc⟩
      refine ⟨he, fun hcs => hc ?_⟩
      rw [hs2]
      exact hp.ready.credit_write hb hb0 _ (hp.credit hcs)

end Write

/-! ## Reading -/

/-- **The loop of `readi`**, in a range in which every block has an address: it returns the bytes of
the range and leaves the state as it was. -/
theorem readiLoop_eq {s : State} {ip : Icache} (fuel : ℕ) : ∀ {off n : ℕ}, n ≤ fuel →
    (∀ x, off ≤ x → x < off + n → (s.inode ip).din.addr s.disk (x / BSIZE) ≠ 0) →
    readiLoop ip fuel off n s = .ok (slice ((s.inode ip).din.byte s.disk) off n, s) := by
  induction fuel with
  | zero =>
    intro off n hn _
    obtain rfl : n = 0 := Nat.le_zero.mp hn
    rfl
  | succ fuel ih =>
    intro off n hn hmap
    have hB : 0 < BSIZE := by decide
    have hdiv := Nat.div_add_mod off BSIZE
    have hmod := Nat.mod_lt off hB
    by_cases hn0 : n = 0
    · subst hn0
      rfl
    obtain ⟨m, hm⟩ : ∃ m, m = min n (BSIZE - off % BSIZE) := ⟨_, rfl⟩
    have hbmap := bmap_eq (hmap off le_rfl (by omega))
    have hrest : readiLoop ip fuel (off + m) (n - m) s =
        .ok (slice ((s.inode ip).din.byte s.disk) (off + m) (n - m), s) :=
      ih (by omega) fun x h1 h2 => hmap x (by omega) (by omega)
    have hpiece : slice (s.disk ((s.inode ip).din.addr s.disk (off / BSIZE))) (off % BSIZE) m =
        slice ((s.inode ip).din.byte s.disk) off m := by
      refine List.map_congr_left fun k hk => ?_
      have hk' := List.mem_range.mp hk
      have hplace : (off + k) / BSIZE = off / BSIZE ∧ (off + k) % BSIZE = off % BSIZE + k :=
        (Nat.div_mod_unique hB).mpr ⟨by omega, by omega⟩
      rw [Dinode.byte, hplace.1, hplace.2]
    have hsplit : n = m + (n - m) := by omega
    rw [readiLoop, if_neg hn0]
    show (if (s.inode ip).din.addr s.disk (off / BSIZE) = 0 then _ else _ : Op (List UInt8)) s = _
    rw [if_neg (hmap off le_rfl (by omega))]
    show (bmap ip (off / BSIZE) s >>= fun r => _) = _
    rw [hbmap]
    show (readiLoop ip fuel (off + min n (BSIZE - off % BSIZE)) (n - min n (BSIZE - off % BSIZE)) s
      >>= fun r => _) = _
    rw [← hm, hrest, hsplit, slice_add, ← hpiece, ← hsplit]
    rfl

end Xv6.Fs
