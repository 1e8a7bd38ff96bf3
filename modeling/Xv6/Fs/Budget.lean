import Xv6.Fs.Filewrite

/-!
# One transaction of `filewrite` and the log

`begin_op` reserves room for `MAXOPBLOCKS` different blocks in the log, and `filewrite` writes at
most `maxWrite` bytes in one transaction so that this is enough.  Here the blocks that `writei`
passes to `log_write` are counted.  A turn of its loop that has to allocate passes the new block and
the block of the free map with its bit.  The table of addresses, if there is one, and its bit are
passed as well, but the table is the same in every turn.  If the offset is not at the beginning of a
block, the first turn writes to a block that the file has, and passes that block alone.

So there are at most `3 * 2` blocks for three turns that allocate, one for the turn before them, two
for the table and one for the inode: `MAXOPBLOCKS`, with nothing to spare (`passed_writei_le`).

That the table is the same in every turn rests on `Ready`, by which block 0 is marked in the free
map.  To `bmap`, a slot that holds 0 is empty: if `balloc` handed out block 0 for the table, the
next turn would allocate a table again.
-/

namespace Xv6.Fs

open Lib

/-- The blocks that `m`, run from `s`, passes to `log_write`, each of them once.  A run that stops
at a panic counts for none. -/
def passed {α : Type} (m : Op α) (s : State) : List ℕ :=
  match m { s with logged := [] } with
  | .ok (_, s') => s'.logged
  | .error _ => []

/-! ## What is passed -/

/-- Between `s` and `s'` only blocks in `B` have been passed to `log_write`. -/
structure Logs (s s' : State) (B : Finset ℕ) : Prop where
  nodup : s.logged.Nodup → s'.logged.Nodup
  mem : ∀ x ∈ s'.logged, x ∈ s.logged ∨ x ∈ B

section Logs

variable {s s1 s' : State} {B B' : Finset ℕ}

theorem Logs.refl (s : State) (B : Finset ℕ) : Logs s s B := ⟨id, fun _ => Or.inl⟩

theorem Logs.of_eq (h : s'.logged = s.logged) (B : Finset ℕ) : Logs s s' B :=
  ⟨fun hn => by rwa [h], fun x hx => Or.inl (by rwa [← h])⟩

theorem Logs.mono (h : Logs s s' B) (hB : B ⊆ B') : Logs s s' B' :=
  ⟨h.nodup, fun x hx => (h.mem x hx).imp_right fun hb => hB hb⟩

theorem Logs.trans (h : Logs s s1 B) (h' : Logs s1 s' B) : Logs s s' B := by
  refine ⟨fun hn => h'.nodup (h.nodup hn), fun x hx => ?_⟩
  rcases h'.mem x hx with hx1 | hb
  · exact h.mem x hx1
  · exact Or.inr hb

theorem Logs.write (s : State) {b : ℕ} (blk : Block) (hb : b ∈ B) : Logs s (s.write b blk) B := by
  have hlog : (s.write b blk).logged = if b ∈ s.logged then s.logged else s.logged ++ [b] := rfl
  by_cases hmem : b ∈ s.logged
  · rw [if_pos hmem] at hlog
    exact .of_eq hlog B
  · rw [if_neg hmem] at hlog
    refine ⟨fun hn => ?_, fun x hx => ?_⟩
    · rw [hlog]
      exact hn.append (List.nodup_singleton b) fun x hx hxb => hmem (List.mem_singleton.mp hxb ▸ hx)
    · rw [hlog] at hx
      rcases List.mem_append.mp hx with hx | hx
      · exact Or.inl hx
      · rw [List.mem_singleton.mp hx]
        exact Or.inr hb

/-- A transaction that begins with an empty log holds at most as many blocks as may be passed. -/
theorem Logs.length_le (h : Logs s s' B) (hs : s.logged = []) :
    s'.logged.Nodup ∧ s'.logged.length ≤ B.card := by
  have hnodup : s'.logged.Nodup := h.nodup (by rw [hs]; exact List.nodup_nil)
  refine ⟨hnodup, ?_⟩
  rw [← List.toFinset_card_of_nodup hnodup]
  refine Finset.card_le_card fun x hx => ?_
  rcases h.mem x (List.mem_toFinset.mp hx) with hold | hnew
  · rw [hs] at hold
    exact absurd hold List.not_mem_nil
  · exact hnew

end Logs

/-- A new block, and the block of the free map with its bit. -/
def withBit (sb : Superblock) (b : ℕ) : Finset ℕ := {b, BBLOCK b sb}

theorem mem_withBit (sb : Superblock) (b : ℕ) : b ∈ withBit sb b := Finset.mem_insert_self _ _

theorem card_withBit_le (sb : Superblock) (b : ℕ) : (withBit sb b).card ≤ 2 := Finset.card_le_two

/-- The table of addresses of the inode at `ip`, if there is one, with its bit. -/
def tableBlocks (s : State) (ip : Icache) : Finset ℕ :=
  if (s.inode ip).din.addrs (Fin.last NDIRECT) = 0 then ∅
  else withBit s.sb ((s.inode ip).din.addrs (Fin.last NDIRECT)).toNat

theorem card_tableBlocks_le (s : State) (ip : Icache) : (tableBlocks s ip).card ≤ 2 := by
  rw [tableBlocks]
  split_ifs
  · exact Nat.zero_le _
  · exact card_withBit_le _ _

section Allocation

variable {s : State} {ip : Icache}

theorem balloc_logs (ho : 1 ≤ s.outstanding) :
    wp balloc s (fun b s' => Logs s s' (withBit s.sb b) ∧ s'.inode = s.inode ∧ s'.sb = s.sb ∧
      s'.outstanding = s.outstanding) (fun _ => True) := by
  rw [balloc, wp_bind, wp_get]
  cases (List.range s.sb.size).find? fun b => !used s.disk s.sb b with
  | none => trivial
  | some b =>
    dsimp only
    rw [wp_bind]
    refine wp_logWrite ho ?_
    rw [wp_bind, bzero]
    refine wp_logWrite (s := s.write _ _) ho ?_
    refine ⟨(Logs.write s _ ?_).trans (Logs.write _ _ (mem_withBit _ _)), rfl, rfl, rfl⟩
    exact Finset.mem_insert_of_mem (Finset.mem_singleton_self _)

theorem loadAddr_logs (ho : 1 ≤ s.outstanding) (k : Fin (NDIRECT + 1)) :
    wp (loadAddr ip k) s
      (fun a s' => Logs s s' (withBit s.sb a) ∧ s'.sb = s.sb ∧
        ((s.inode ip).din.addrs k ≠ 0 → s' = s) ∧
        ∀ k', k' ≠ k → (s'.inode ip).din.addrs k' = (s.inode ip).din.addrs k')
      (fun _ => True) := by
  rw [loadAddr, wp_bind, wp_get, wp_ite]
  refine ⟨fun hk => ?_, fun hk => ?_⟩
  · refine (balloc_logs ho).bind ?_
    rintro b s1 ⟨hlogs, hinode, hsb, -⟩
    rw [wp_bind, wp_setDin, wp_pure]
    refine ⟨hlogs.trans (.of_eq (show (s1.putDin ip _).logged = s1.logged from rfl) _), hsb,
      fun hne => absurd hk hne, fun k' hk' => ?_⟩
    rw [putDin_self, ← hinode]
    exact upd_of_ne hk'
  · exact ⟨.refl s _, rfl, fun _ => rfl, fun _ _ => rfl⟩

theorem loadEntry_logs (ho : 1 ≤ s.outstanding) (t j : ℕ) :
    wp (loadEntry t j) s
      (fun b s' => Logs s s' (insert t (withBit s.sb b)) ∧ s'.inode = s.inode ∧ s'.sb = s.sb)
      (fun _ => True) := by
  rw [loadEntry, wp_bind, bread, wp_bind, wp_get, wp_pure, wp_ite]
  refine ⟨fun _ => ?_, fun _ => ⟨.refl s _, rfl, rfl⟩⟩
  refine (balloc_logs ho).bind ?_
  rintro b s1 ⟨hlogs, hinode, hsb, hout⟩
  rw [wp_bind]
  refine wp_logWrite (by rwa [hout]) ?_
  exact ⟨(hlogs.mono (Finset.subset_insert _ _)).trans (.write _ _ (Finset.mem_insert_self _ _)),
    hinode, hsb⟩

/-- **`bmap`** passes the block that it returns and the table, with their bits.  The table does not
change once there is one. -/
theorem bmap_logs (hr : Ready s ip) {bn : ℕ} (hbn : bn < MAXFILE) :
    wp (bmap ip bn) s
      (fun a s' => Logs s s' (withBit s.sb a ∪ tableBlocks s' ip) ∧ s'.sb = s.sb ∧
        ((s.inode ip).din.addrs (Fin.last NDIRECT) ≠ 0 →
          (s'.inode ip).din.addrs (Fin.last NDIRECT) = (s.inode ip).din.addrs (Fin.last NDIRECT)))
      (fun _ => True) := by
  rw [bmap]
  by_cases hd : bn < NDIRECT
  · rw [dif_pos hd]
    refine (loadAddr_logs hr.trans _).mono ?_ fun _ he => he
    rintro a s' ⟨hlogs, hsb, -, hothers⟩
    refine ⟨hlogs.mono Finset.subset_union_left, hsb, fun _ => hothers _ ?_⟩
    exact Fin.ne_of_val_ne (Nat.ne_of_gt hd)
  · have hj : bn - NDIRECT < NINDIRECT := by
      rw [MAXFILE] at hbn
      omega
    rw [dif_neg hd, if_pos hj]
    refine (((loadAddr_spec hr (Fin.last NDIRECT)).and (loadAddr_logs hr.trans _)).mono
      (fun _ _ hq => hq) fun _ _ => trivial).bind ?_
    rintro t s1 ⟨⟨ht0, ht, hs1⟩, hlogs1, hsb1, hsame, -⟩
    have hout1 : 1 ≤ s1.outstanding := by
      rcases hs1 with rfl | hfills
      · exact hr.trans
      · rw [hfills.outstanding]
        exact hr.trans
    refine (loadEntry_logs hout1 t _).mono ?_ fun _ he => he
    rintro b s' ⟨hlogs, hinode, hsb⟩
    have htable : tableBlocks s' ip = withBit s.sb t := by
      have hne : (s1.inode ip).din.addrs (Fin.last NDIRECT) ≠ 0 := by
        intro hzero
        rw [ht, hzero] at ht0
        exact ht0 rfl
      rw [tableBlocks, hinode, if_neg hne, hsb, hsb1, ← ht]
    rw [htable]
    refine ⟨(hlogs1.mono Finset.subset_union_right).trans (hlogs.mono ?_), hsb.trans hsb1,
      fun hne => ?_⟩
    · rw [hsb1]
      exact Finset.insert_subset (Finset.mem_union_right _ (mem_withBit _ _))
        Finset.subset_union_left
    · rw [hinode, hsame hne]

end Allocation

/-! ## The loop -/

/-- The turns that the loop of `writei` makes for `n` bytes at `off`. -/
def turns (off n : ℕ) : ℕ := if n = 0 then 0 else (off % BSIZE + n - 1) / BSIZE + 1

theorem turns_succ (off : ℕ) {n : ℕ} (hn : n ≠ 0) :
    turns off n =
      turns (off + min n (BSIZE - off % BSIZE)) (n - min n (BSIZE - off % BSIZE)) + 1 := by
  have hB : BSIZE = 512 := rfl
  rw [turns, turns, if_neg hn, hB]
  split_ifs with hrest <;> omega

section Loop

variable {ip : Icache}

theorem tableBlocks_subset {s s' : State} (hsb : s'.sb = s.sb)
    (h : (s.inode ip).din.addrs (Fin.last NDIRECT) ≠ 0 →
      (s'.inode ip).din.addrs (Fin.last NDIRECT) = (s.inode ip).din.addrs (Fin.last NDIRECT)) :
    tableBlocks s ip ⊆ tableBlocks s' ip := by
  by_cases hzero : (s.inode ip).din.addrs (Fin.last NDIRECT) = 0
  · rw [tableBlocks, if_pos hzero]
    exact Finset.empty_subset _
  · rw [tableBlocks, tableBlocks, if_neg hzero, h hzero, if_neg hzero, hsb]

/-- **The loop of `writei`** passes at most two blocks in each turn, and the table.  If the block of
the first turn is there, that turn passes one block. -/
theorem writeiLoop_logs (fuel : ℕ) : ∀ {s : State} {src : ℕ → UInt8} {off n : ℕ},
    Ready s ip → n ≤ fuel →
    off + n ≤ MAXFILE * BSIZE →
    wp (writeiLoop ip fuel src off n) s
      (fun _ s' => s'.sb = s.sb ∧
        ((s.inode ip).din.addrs (Fin.last NDIRECT) ≠ 0 →
          (s'.inode ip).din.addrs (Fin.last NDIRECT) = (s.inode ip).din.addrs (Fin.last NDIRECT)) ∧
        ∃ D : Finset ℕ, Logs s s' (D ∪ tableBlocks s' ip) ∧ D.card ≤ 2 * turns off n ∧
          (n ≠ 0 → (s.inode ip).din.addr s.disk (off / BSIZE) ≠ 0 → D.card + 1 ≤ 2 * turns off n))
      (fun _ => True) := by
  induction fuel with
  | zero =>
    intro s src off n hr hn _
    obtain rfl : n = 0 := Nat.le_zero.mp hn
    exact ⟨rfl, fun _ => rfl, ∅, .refl s _, Nat.zero_le _, fun h => absurd rfl h⟩
  | succ fuel ih =>
    intro s src off n hr hn hmax
    rw [writeiLoop, wp_ite]
    refine ⟨fun hn0 => ?_, fun hn0 => ?_⟩
    · exact ⟨rfl, fun _ => rfl, ∅, .refl s _, Nat.zero_le _, fun h => absurd hn0 h⟩
    have hB : BSIZE = 512 := rfl
    have hbn : off / BSIZE < MAXFILE := Nat.div_lt_of_lt_mul (by rw [Nat.mul_comm]; omega)
    refine ((bmap_spec hr hbn (Finset.Subset.refl _)).and (bmap_logs hr hbn)).chain
      (fun _ _ => trivial) ?_
    rintro b s1 ⟨⟨hp, hb, hb0, hsame⟩, hlogs1, hsb1, htab1⟩
    have hturns := turns_succ off hn0
    obtain ⟨m, hm⟩ : ∃ m, m = min n (BSIZE - off % BSIZE) := ⟨_, rfl⟩
    have hm1 : 1 ≤ m ∧ m ≤ n := by
      rw [hm, hB]
      omega
    simp only [← hm] at hturns ⊢
    rw [wp_bind]
    refine wp_logWrite hp.ready.trans ?_
    have hr2 := hp.ready.write hb hb0 (blit (s1.disk b) (off % BSIZE) (slice src 0 m))
    generalize hs2 : s1.write b (blit (s1.disk b) (off % BSIZE) (slice src 0 m)) = s2 at hr2 ⊢
    have hinode2 : s2.inode = s1.inode := by
      rw [← hs2]
      rfl
    have hsb2 : s2.sb = s.sb := by
      rw [← hs2]
      exact hsb1
    have hlogs2 : ∀ B : Finset ℕ, b ∈ B → Logs s1 s2 B := by
      intro B hB
      rw [← hs2]
      exact .write s1 _ hB
    refine (ih hr2 (by omega) (by omega)).mono ?_ fun _ he => he
    rintro _ s' ⟨hsb', htab', D, hlogs', hcard, -⟩
    have htable : tableBlocks s1 ip ⊆ tableBlocks s' ip := by
      have hsub := tableBlocks_subset hsb' htab'
      rwa [tableBlocks, hinode2, hsb2, ← hsb1, ← tableBlocks] at hsub
    rw [hinode2] at htab'
    refine ⟨hsb'.trans hsb2, fun hne => (htab' (by rwa [htab1 hne])).trans (htab1 hne), ?_⟩
    by_cases hthere : (s.inode ip).din.addr s.disk (off / BSIZE) ≠ 0
    · -- nothing is allocated
      obtain rfl := hsame hthere
      refine ⟨insert b D, ?_, ?_, fun _ _ => ?_⟩
      · refine (hlogs2 _ ?_).trans (hlogs'.mono ?_)
        · exact Finset.mem_union_left _ (Finset.mem_insert_self _ _)
        · exact Finset.union_subset_union_left (Finset.subset_insert _ _)
      · have := Finset.card_insert_le b D
        omega
      · have := Finset.card_insert_le b D
        omega
    · refine ⟨withBit s.sb b ∪ D, ?_, ?_, fun _ h => absurd h hthere⟩
      · refine (hlogs1.mono ?_).trans ((hlogs2 _ ?_).trans (hlogs'.mono ?_))
        · exact Finset.union_subset_union Finset.subset_union_left htable
        · exact Finset.mem_union_left _ (Finset.mem_union_left _ (mem_withBit _ _))
        · exact Finset.union_subset_union_left Finset.subset_union_right
      · have h1 := Finset.card_union_le (withBit s.sb b) D
        have h2 := card_withBit_le s.sb b
        omega

end Loop

/-! ## The whole call -/

section Call

variable {s : State} {ip : Icache}

theorem turns_le (off : ℕ) {n : ℕ} (hn : n ≤ maxWrite) :
    turns off n ≤ 4 ∧ (off % BSIZE = 0 → turns off n ≤ 3) := by
  have hB : BSIZE = 512 := rfl
  have hmax : maxWrite = 1536 := rfl
  rw [turns, hB]
  split_ifs <;> omega

theorem iupdate_logs (s : State) (ip : Icache) :
    wp (iupdate ip) s (fun _ s' => Logs s s' {IBLOCK (s.inode ip).inum s.sb}) (fun _ => True) := by
  rw [iupdate, wp_bind, wp_get]
  by_cases ho : 1 ≤ s.outstanding
  · exact wp_logWrite ho (.write s _ (Finset.mem_singleton_self _))
  · rw [logWrite, wp_bind, wp_get, if_pos (Nat.lt_of_not_le ho)]
    trivial

/-- The log is no part of what an operation on an inode relies on. -/
theorem Ready.clear (hr : Ready s ip) : Ready { s with logged := [] } ip :=
  ⟨hr.wf, hr.super, hr.trans, hr.inum, hr.type, hr.owned⟩

/-- With nothing passed yet, `writei` passes at most `MAXOPBLOCKS` different blocks. -/
theorem wp_writei_logged (hr : Ready s ip) (hs : s.logged = [])
    (hfull : (s.inode ip).din.NoHoles s.disk) (src : ℕ → UInt8) (off : UInt32) {n : UInt32}
    (hn : n.toNat ≤ maxWrite) :
    wp (writei ip src off n) s
      (fun _ s' => s'.logged.Nodup ∧ s'.logged.length ≤ MAXOPBLOCKS) (fun _ => True) := by
  have hnone : s.logged.Nodup ∧ s.logged.length ≤ MAXOPBLOCKS := by
    rw [hs]
    exact ⟨List.nodup_nil, Nat.zero_le _⟩
  rw [writei, wp_bind, wp_get, wp_ite]
  refine ⟨fun _ => ?_, fun _ => ?_⟩
  · -- a device
    rw [wp_ite]
    refine ⟨fun _ => hnone, fun _ => ?_⟩
    cases (s.devsw (s.inode ip).din.major.toInt.toNat).write <;> exact hnone
  rw [wp_ite]
  refine ⟨fun _ => hnone, fun hwrap => ?_⟩
  rw [wp_ite]
  refine ⟨fun _ => hnone, fun hmax => ?_⟩
  rw [UInt32.lt_iff_toNat_lt, add_lt_left_iff] at hwrap
  have hend : (off + n).toNat = off.toNat + n.toNat := toNat_add_of_lt (by omega)
  rw [hend] at hmax
  refine (writeiLoop_logs _ hr (le_refl _) (by omega)).bind ?_
  rintro _ s1 ⟨-, -, D, hlogs, hcard, hcard'⟩
  have hD : D.card ≤ 7 := by
    have hturns := turns_le off.toNat hn
    by_cases halign : off.toNat % BSIZE = 0
    · have := hturns.2 halign
      omega
    by_cases hn0 : n.toNat = 0
    · rw [hn0, turns, if_pos rfl] at hcard
      omega
    -- the offset is inside a block of the file
    · have hlast := hcard' hn0 (hfull (off.toNat / BSIZE) ?_)
      · omega
      · have hdiv := Nat.div_add_mod' off.toNat BSIZE
        omega
  have hB : ∀ b, (insert b (D ∪ tableBlocks s1 ip)).card ≤ MAXOPBLOCKS := by
    intro b
    have h1 := Finset.card_insert_le b (D ∪ tableBlocks s1 ip)
    have h2 := Finset.card_union_le D (tableBlocks s1 ip)
    have h3 := card_tableBlocks_le s1 ip
    have hop : MAXOPBLOCKS = 10 := rfl
    omega
  rw [wp_ite]
  refine ⟨fun _ => ?_, fun _ => ?_⟩
  · rw [wp_bind, wp_setDin]
    refine (iupdate_logs _ _).bind ?_
    rintro _ s' hlogs'
    rw [wp_pure]
    have hall := ((hlogs.mono (Finset.subset_insert _ _)).trans
      (.of_eq (show (s1.putDin ip _).logged = s1.logged from rfl) _)).trans
      (hlogs'.mono (Finset.singleton_subset_iff.mpr (Finset.mem_insert_self _ _)))
    exact (hall.length_le hs).imp_right fun hle => hle.trans (hB _)
  · rw [wp_pure]
    refine (hlogs.length_le hs).imp_right fun hle => hle.trans ?_
    exact (Finset.card_le_card (Finset.subset_insert _ _)).trans (hB 0)

/-- What holds of the log after `m`, if it was empty before, holds of the blocks that `m` passes. -/
theorem passed_of_wp {α : Type} {m : Op α} {P : List ℕ → Prop} (hnil : P [])
    (h : wp m { s with logged := [] } (fun _ s' => P s'.logged) (fun _ => True)) :
    P (passed m s) := by
  rw [passed]
  cases hrun : m { s with logged := [] } with
  | error e => exact hnil
  | ok r => exact h.ok hrun

/-- **One transaction of `filewrite` fits its budget**: whatever the file and the offset, `writei`
of at most `maxWrite` bytes passes at most `MAXOPBLOCKS` different blocks to `log_write`.  Of the
free map, only that block 0 is marked is needed of `Ready`. -/
theorem passed_writei_le (hr : Ready s ip) (hfull : (s.inode ip).din.NoHoles s.disk)
    (src : ℕ → UInt8) (off : UInt32) {n : UInt32} (hn : n.toNat ≤ maxWrite) :
    (passed (writei ip src off n) s).Nodup ∧
      (passed (writei ip src off n) s).length ≤ MAXOPBLOCKS := by
  refine passed_of_wp (P := fun l => l.Nodup ∧ l.length ≤ MAXOPBLOCKS)
    ⟨List.nodup_nil, Nat.zero_le _⟩ ?_
  exact wp_writei_logged hr.clear rfl hfull src off hn

/-- A byte is written to a new file: the free map, the new block and the inode. -/
theorem passed_first_write : ∃ s0 s rs, boot (rootDisk 0x1F) = .ok ((), s0) ∧
      Lib.exec step s0 [(initproc, .open [slash, 102] (O_CREATE ||| O_RDWR))] = some (s, rs) ∧
      (passed (writei (s.file firstFile).ip (fun _ => 7) 0 1) s.begin).length = 3 ∧
      (passed (writei (s.file firstFile).ip (fun _ => 7) 0 1) s.begin).length ≤ MAXOPBLOCKS := by
  have hcompute : (ran (rootDisk 0x1F) [(initproc, .open [slash, 102] (O_CREATE ||| O_RDWR))]).map
      (fun x => decide ((x.1.inode (x.1.file firstFile).ip).ref = 1 ∧
        (x.1.inode (x.1.file firstFile).ip).valid = true ∧
        (passed (writei (x.1.file firstFile).ip (fun _ => 7) 0 1) x.1.begin).length = 3)) =
      some true := by
    decide +kernel
  obtain ⟨s0, s, rs, hboot, hopen, hs⟩ := exists_run hcompute
  obtain ⟨href, hv, hlength⟩ := of_decide_eq_true hs
  have hsound := (rest_of_exec rootDisk_image hboot hopen).tables.cached.begin.sound
  have hpos : 0 < (s.begin.inode (s.file firstFile).ip).ref := by
    rw [show (s.begin.inode (s.file firstFile).ip).ref = 1 from href]
    exact Nat.one_pos
  exact ⟨s0, s, rs, hboot, hopen, hlength,
    (passed_writei_le (hsound.ready (Nat.le_add_left 1 _) hpos hv) (hsound.noHoles hpos hv) _ 0
      (by decide)).2⟩

end Call

end Xv6.Fs
