import Xv6.Fs.Cache
import Xv6.Mkfs.Main

/-!
# `mkfs` and the kernel place blocks in the same way

`iappend` of `mkfs` and `writei` of the kernel map the blocks of a file to the blocks of the disk by
code of their own.  They agree: an append by `mkfs` does to the image what a write at the end of the
file does to a disk, if the free map of that disk is the one that `mkfs` will write in the end
(`State.disk`).  There the first free block is always `freeblock`, so `balloc` of the kernel takes
the block that `mkfs` takes.

So what is known of the kernel's functions is known of `mkfs`: after each append the free map is
exact for the inodes of the image, no file has holes, and the contents of the file have grown by the
bytes appended (`iappend_spec`).
-/

namespace Xv6.Mkfs

open Lib Fs

theorem sb_wf : sb.Wf :=
  ⟨by decide, by decide, by decide, by decide, by decide, by decide⟩

theorem sb_nmeta : sb.nmeta = nmeta := rfl

theorem seek_of_lt {x : ℕ} (h : x ≤ FSSIZE) : seek x = x := by
  have hB : BSIZE = 512 := rfl
  have hF : FSSIZE = 1000 := rfl
  rw [seek, hB]
  omega

/-! ## The free map -/

/-- The image with the free map that `mkfs` would write if it ended now. -/
def State.disk (s : State) : Disk := upd s.img sb.bmapstart (bitmap s.freeblock)

theorem bitmap_succ {n : ℕ} (h : n < BPB) : bitmap (n + 1) = setUsed n (bitmap n) := by
  rw [bitmap, setUsed, Nat.mod_eq_of_lt h]

variable {b : ℕ}

theorem bblock_eq (h : b < BPB) : BBLOCK b sb = sb.bmapstart := by
  rw [BBLOCK, Nat.div_eq_of_lt h, Nat.zero_add]

theorem used_bitmap (disk : Disk) {n : ℕ} (hn : n ≤ BPB) (hb : b < BPB) :
    used (upd disk sb.bmapstart (bitmap n)) sb b = decide (b < n) := by
  induction n with
  | zero =>
    rw [used, bblock_eq hb, upd_self, bitmap]
    have hand : (zeroBlock (b % BPB / 8) &&& mask (b % BPB % 8)) = 0 := UInt8.zero_and
    rw [hand, decide_eq_false (Nat.not_lt_zero b)]
    rfl
  | succ n ih =>
    have hset := used_setUsed (upd disk sb.bmapstart (bitmap n)) sb n b
    rw [bblock_eq (show n < BPB by omega), upd_self, upd_upd, ← bitmap_succ (by omega),
      ih (by omega)] at hset
    rw [hset]
    by_cases hlt : b < n
    · rw [decide_eq_true hlt, decide_eq_true (show b < n + 1 by omega), Bool.true_or]
    · rw [decide_eq_false hlt, Bool.false_or, decide_eq_decide]
      omega

/-- Between two appends: the image has its full length, and the blocks from `freeblock` on have not
been written. -/
structure Tidy (s : State) : Prop where
  nsect : s.nsect = FSSIZE
  ge : nmeta ≤ s.freeblock
  le : s.freeblock ≤ FSSIZE
  zero : ∀ b, s.freeblock ≤ b → s.img b = zeroBlock

section Agree

variable {s s' : State} {ks ks' : Fs.State} {ip : Icache} {d : Dinode} {x : ℕ} {E : Stop → Prop}
  {Q : Block → State → Prop}

theorem Tidy.used_disk (h : Tidy s) (hb : b < FSSIZE) :
    used s.disk sb b = decide (b < s.freeblock) := by
  have hF : FSSIZE = 1000 := rfl
  have hB : BPB = 4096 := rfl
  have hle := h.le
  exact used_bitmap s.img (by omega) (by omega)

theorem disk_of_ne (h : b ≠ sb.bmapstart) : s.disk b = s.img b := upd_of_ne h

/-- A write to a block other than the free map, in the image and on the disk. -/
theorem disk_upd (h : b ≠ sb.bmapstart) (blk : Block) (n : ℕ) :
    State.disk { s with img := upd s.img b blk, nsect := n } = upd s.disk b blk := by
  funext c
  show upd (upd s.img b blk) sb.bmapstart (bitmap s.freeblock) c = _
  by_cases hc : c = sb.bmapstart
  · rw [hc, upd_self, upd_of_ne h.symm, State.disk, upd_self]
  · rw [upd_of_ne hc]
    by_cases hcb : c = b
    · rw [hcb, upd_self, upd_self]
    · rw [upd_of_ne hcb, upd_of_ne hcb, disk_of_ne hc]

/-! ## Sectors -/

theorem wp_rsect (hn : s.nsect = FSSIZE) (hx : x < FSSIZE)
    (hQ : Q (s.img x) s) : wp (rsect x) s Q E := by
  rw [rsect, wp_bind, wp_get, seek_of_lt hx.le, wp_ite]
  exact ⟨fun h => absurd h (by omega), fun _ => hQ⟩

theorem wp_rsect_end (hn : s.nsect = FSSIZE) (hx : x = FSSIZE)
    (hE : E .perror) : wp (rsect x) s Q E := by
  rw [rsect, wp_bind, wp_get, seek_of_lt hx.le, wp_ite]
  exact ⟨fun _ => hE, fun h => absurd (hn.trans hx.symm).le h⟩

theorem wp_wsect (hn : s.nsect = FSSIZE) (hx : x < FSSIZE) {blk : Block} {Q : Unit → State → Prop}
    (hQ : Q () { s with img := upd s.img x blk, nsect := FSSIZE }) :
    wp (wsect x blk) s Q E := by
  have hmax : max s.nsect (x + 1) = FSSIZE := by omega
  rw [wsect, wp_modify, seek_of_lt hx.le, hmax]
  exact hQ

theorem Tidy.write (h : Tidy s) (hx : x < s.freeblock) (blk : Block) :
    Tidy { s with img := upd s.img x blk, nsect := FSSIZE } where
  nsect := rfl
  ge := h.ge
  le := h.le
  zero := fun b hb => (upd_of_ne (ne_of_gt (lt_of_lt_of_le hx hb))).trans (h.zero b hb)

/-! ## One block -/

/-- The state of `mkfs`, with the inode `d` in memory, and that of the kernel. -/
structure Mirrors (s : State) (d : Dinode) (ks : Fs.State) (ip : Icache) : Prop where
  sb : ks.sb = sb
  disk : ks.disk = s.disk
  din : (ks.inode ip).din = d

def State.bump (s : State) : State := { s with freeblock := s.freeblock + 1 }

@[simp] theorem wp_takeBlock {Q : ℕ → State → Prop} :
    wp takeBlock s Q E ↔ Q s.freeblock s.bump := Iff.rfl

theorem Tidy.bump (h : Tidy s) (hlt : s.freeblock < FSSIZE) : Tidy s.bump :=
  ⟨h.nsect, Nat.le_succ_of_le h.ge, hlt, fun b hb => h.zero b (Nat.le_of_succ_le hb)⟩

/-- **The kernel's `balloc` takes the block that `mkfs` takes.** -/
theorem balloc_agrees (h : Tidy s) (hlt : s.freeblock < FSSIZE) (hsb : ks.sb = sb)
    (hdisk : ks.disk = s.disk) (ho : 1 ≤ ks.outstanding) :
    ∃ l, Fs.balloc ks = .ok (s.freeblock, { ks with disk := s.bump.disk, logged := l }) := by
  have hsize : ks.sb.size = FSSIZE := by rw [hsb]; rfl
  have hfb : s.freeblock < BPB := lt_trans hlt (by decide)
  have hfind : (List.range ks.sb.size).find? (fun b => !used ks.disk ks.sb b) =
      some s.freeblock := by
    rw [hsize, List.find?_range_eq_some, hsb, hdisk]
    refine ⟨?_, List.mem_range.mpr hlt, fun b hb => ?_⟩
    · rw [h.used_disk hlt, decide_eq_false (lt_irrefl _)]
      rfl
    · rw [h.used_disk (lt_trans hb hlt), decide_eq_true hb]
      rfl
  have hmeta : s.freeblock ≠ sb.bmapstart :=
    ne_of_gt (lt_of_lt_of_le sb_wf.bmapstart_lt_nmeta (by rw [sb_nmeta]; exact h.ge))
  have hnew : upd (upd s.disk sb.bmapstart (setUsed s.freeblock (s.disk sb.bmapstart))) s.freeblock
      zeroBlock = s.bump.disk := by
    funext b
    show _ = upd s.img sb.bmapstart (bitmap (s.freeblock + 1)) b
    by_cases hb : b = s.freeblock
    · rw [hb, upd_self, upd_of_ne hmeta, h.zero _ le_rfl]
    · rw [upd_of_ne hb, bitmap_succ hfb, State.disk, upd_self, upd_upd]
  rw [Fs.balloc, bind_ok (show (get : Op Fs.State) ks = .ok (ks, ks) from rfl), hfind]
  show ∃ l, (logWrite (BBLOCK s.freeblock ks.sb) (setUsed s.freeblock) ks >>= fun r =>
    ((bzero s.freeblock >>= fun _ => pure s.freeblock : Op ℕ) r.2)) = _
  rw [logWrite_eq ho]
  show ∃ l, (logWrite s.freeblock (fun _ => zeroBlock) _ >>= fun r => _) = _
  rw [logWrite_eq (by exact ho)]
  rw [← hnew, ← bblock_eq hfb, ← hdisk, ← hsb]
  exact ⟨_, rfl⟩

/-- `mkfs` has gone on from `s` to `s'` in step with the kernel, and has taken at most `n`
blocks. -/
structure InStep (s s' : State) (d' : Dinode) (ks' : Fs.State) (ip : Icache) (n : ℕ) : Prop where
  tidy : Tidy s'
  mirrors : Mirrors s' d' ks' ip
  freeinode : s'.freeinode = s.freeinode
  freeblock : s'.freeblock ≤ s.freeblock + n

theorem toNat_ofNat_of_le (h : b ≤ FSSIZE) : (UInt32.ofNat b).toNat = b := by
  exact UInt32.toNat_ofNat_of_lt' (lt_of_le_of_lt h (by decide))

/-- A slot is filled as by the kernel, or there is no block left for it. -/
theorem fillSlot_agrees (h : Tidy s) (hm : Mirrors s d ks ip) (ho : 1 ≤ ks.outstanding)
    (k : Fin (NDIRECT + 1)) :
    wp (fillSlot d k) s
      (fun d' s' =>
        (∃ ks', loadAddr ip k ks = .ok ((d'.addrs k).toNat, ks') ∧
          InStep s s' d' ks' ip (if d.addrs k = 0 then 1 else 0) ∧
          ∀ j, j ≠ k → d'.addrs j = d.addrs j) ∨
        (d.addrs k = 0 ∧ s.freeblock = FSSIZE ∧ (d'.addrs k).toNat = FSSIZE ∧ s'.nsect = FSSIZE))
      (fun _ => False) := by
  obtain rfl : (ks.inode ip).din = d := hm.din
  rw [fillSlot, wp_ite]
  refine ⟨fun hk => ?_, fun hk => ?_⟩
  · rw [wp_bind, wp_takeBlock, wp_pure]
    simp only [upd_self, toNat_ofNat_of_le h.le, if_pos hk]
    rcases Nat.lt_or_ge s.freeblock FSSIZE with hlt | hge
    · obtain ⟨l, hballoc⟩ := balloc_agrees h hlt hm.sb hm.disk ho
      refine Or.inl ⟨Fs.State.putDin { ks with disk := s.bump.disk, logged := l } ip _, ?_,
        ⟨h.bump hlt, ⟨hm.sb, rfl, by rw [putDin_self]⟩, rfl, le_rfl⟩, fun j hj => upd_of_ne hj⟩
      show (if (ks.inode ip).din.addrs k = 0 then _ else _ : Op ℕ) ks = _
      rw [if_pos hk]
      show (Fs.balloc ks >>= fun r => _) = _
      rw [hballoc]
      rfl
    · exact Or.inr ⟨hk, le_antisymm h.le hge, le_antisymm h.le hge, h.nsect⟩
  · refine Or.inl ⟨ks, ?_, ⟨h, hm, rfl, Nat.le_add_right _ _⟩, fun _ _ => rfl⟩
    show (if (ks.inode ip).din.addrs k = 0 then _ else _ : Op ℕ) ks = _
    rw [if_neg hk]
    rfl

/-- The number of blocks that have to be taken for the block `fbn` of a file. -/
def cost (d : Dinode) (disk : Disk) (fbn : ℕ) : ℕ :=
  (if d.addr disk fbn = 0 then 1 else 0) +
    if NDIRECT ≤ fbn ∧ d.addrs (Fin.last NDIRECT) = 0 then 1 else 0

/-- A block that the inode holds was taken, and the kernel finds in it what is in the image. -/
theorem InStep.taken {n t : ℕ} {p : Ptr} (h : InStep s s' d ks ip n) (hr : Ready ks ip)
    (hptr : d.ptr ks.disk p = t) (ht : t ≠ 0) :
    t < sb.size ∧ t < s'.freeblock ∧ t ≠ sb.bmapstart ∧ ks.disk t = s'.img t := by
  have hti := hr.type
  rw [← view_self] at hti
  rw [← h.mirrors.din, ← view_self] at hptr
  rw [← hptr] at ht ⊢
  have hrange := hr.owned.ptr_range hr.inum hti ht
  have hused := hr.owned.used_of_ptr (p := ((ks.inode ip).inum, p))
    (by rwa [pointers_of_alloc hr.inum hti])
  rw [pointers_of_alloc hr.inum hti, h.mirrors.sb] at hused
  rw [h.mirrors.sb] at hrange
  generalize Dinode.ptr ks.disk _ p = b at hused hrange ⊢
  rw [h.mirrors.disk, h.tidy.used_disk hrange.2] at hused
  have hbm : b ≠ sb.bmapstart := ne_of_gt (lt_of_lt_of_le sb_wf.bmapstart_lt_nmeta hrange.1)
  exact ⟨hrange.2, of_decide_eq_true hused, hbm, by rw [h.mirrors.disk, disk_of_ne hbm]⟩

theorem addr_eq_zero {d1 : Dinode} {ks1 : Fs.State} {s1 : State} {n t fbn : ℕ}
    (hm : Mirrors s d ks ip) (hstep : InStep s s1 d1 ks1 ip n)
    (hfills : ks1 = ks ∨ Fills ks ks1 ip (.addr (Fin.last NDIRECT)) t) (hd : ¬ fbn < NDIRECT)
    (hfbn : fbn < MAXFILE) (ht : (d1.addrs (Fin.last NDIRECT)).toNat = t)
    (hzero : entry (ks1.disk t) (fbn - NDIRECT) = 0) : d.addr ks.disk fbn = 0 := by
  rw [Dinode.addr_eq hfbn, Ptr.ofBlock, dif_neg hd, Dinode.ptr, ← hm.din]
  rcases hfills with rfl | hfills
  · rw [hstep.mirrors.din, ht, hzero]
    exact ite_self _
  · have h0 : ((ks.inode ip).din.addrs (Fin.last NDIRECT)).toNat = 0 := hfills.empty
    exact if_pos (UInt32.toNat_inj.mp h0)

/-- The block of a file is found as by the kernel, or there is no block left for it. -/
theorem fileBlock_agrees (h : Tidy s) (hm : Mirrors s d ks ip) (hr : Ready ks ip) {fbn : ℕ}
    (hfbn : fbn < MAXFILE) :
    wp (fileBlock d fbn) s
      (fun r s' =>
        (∃ ks', bmap ip fbn ks = .ok (r.2, ks') ∧ InStep s s' r.1 ks' ip (cost d ks.disk fbn) ∧
          ∀ k : Fin (NDIRECT + 1), k.val ≠ fbn → k.val ≠ NDIRECT → r.1.addrs k = d.addrs k) ∨
        (r.2 = FSSIZE ∧ s'.nsect = FSSIZE ∧ FSSIZE < s.freeblock + cost d ks.disk fbn))
      (fun _ => FSSIZE < s.freeblock + cost d ks.disk fbn) := by
  rw [fileBlock, bmap]
  by_cases hd : fbn < NDIRECT
  · have haddr : d.addr ks.disk fbn = (d.addrs ⟨fbn, Nat.lt_succ_of_lt hd⟩).toNat := by
      rw [Dinode.addr_eq hfbn, Ptr.ofBlock, dif_pos hd]
      rfl
    have hcost : cost d ks.disk fbn = if d.addrs ⟨fbn, Nat.lt_succ_of_lt hd⟩ = 0 then 1 else 0 := by
      have hno : ¬ (NDIRECT ≤ fbn ∧ d.addrs (Fin.last NDIRECT) = 0) := fun hn =>
        absurd hn.1 (not_le.mpr hd)
      rw [cost, if_neg hno, haddr]
      exact if_congr (by rw [← UInt32.toNat_inj]; rfl) rfl rfl
    rw [dif_pos hd, dif_pos hd, hcost]
    refine (fillSlot_agrees h hm hr.trans _).chain (fun _ => False.elim) ?_
    rintro d' s' (⟨ks', hload, hstep, hslot⟩ | ⟨hk, hfull, hx, hn⟩)
    · rw [wp_pure]
      exact Or.inl ⟨ks', hload, hstep, fun k hk _ => hslot k fun heq => hk (congrArg Fin.val heq)⟩
    · refine Or.inr ⟨hx, hn, ?_⟩
      rw [if_pos hk]
      omega
  · have hj : fbn - NDIRECT < NINDIRECT := by
      rw [MAXFILE] at hfbn
      omega
    rw [dif_neg hd, dif_neg hd, if_pos hj]
    refine (fillSlot_agrees h hm hr.trans _).chain (fun _ => False.elim) ?_
    have hle : s.freeblock + (if d.addrs (Fin.last NDIRECT) = 0 then 1 else 0) ≤
        s.freeblock + cost d ks.disk fbn := by
      rw [cost]
      simp only [not_lt.mp hd, true_and]
      omega
    rintro d1 s1 (⟨ks1, hload, hstep, hslot⟩ | ⟨hk, hfull, hx, hn⟩)
    · obtain ⟨ht0, -, hfills⟩ := (loadAddr_spec hr (Fin.last NDIRECT)).ok hload
      have hr1 : Ready ks1 ip := by
        rcases hfills with rfl | hfills
        · exact hr
        · exact hfills.ready hr
      generalize ht : (d1.addrs (Fin.last NDIRECT)).toNat = t at ht0 hfills
      obtain ⟨hsize, hlt, hbm, hblk⟩ := hstep.taken hr1 (p := Ptr.table) ht ht0
      have hsame : ∀ k : Fin (NDIRECT + 1), k.val ≠ fbn → k.val ≠ NDIRECT →
          d1.addrs k = d.addrs k := fun k _ hk => hslot k fun heq => hk (congrArg Fin.val heq)
      have hbmap : ∀ {b ks2}, loadEntry t (fbn - NDIRECT) ks1 = .ok (b, ks2) →
          (loadAddr ip (Fin.last NDIRECT) >>= fun t => loadEntry t (fbn - NDIRECT)) ks =
            .ok (b, ks2) := by
        intro b ks2 hentry
        show (loadAddr ip (Fin.last NDIRECT) ks >>= fun r => _) = _
        rw [hload, ht]
        exact hentry
      rw [wp_bind]
      refine wp_rsect hstep.tidy.nsect hsize ?_
      rw [wp_ite]
      refine ⟨fun hzero => ?_, fun hnz => ?_⟩
      · have hcost :
          cost d ks.disk fbn = (if d.addrs (Fin.last NDIRECT) = 0 then 1 else 0) + 1 := by
          rw [cost, if_pos (addr_eq_zero hm hstep hfills hd hfbn ht (by rwa [hblk])), Nat.add_comm]
          simp only [not_lt.mp hd, true_and]
        have hfree := hstep.freeblock
        rw [wp_bind, wp_takeBlock, wp_bind]
        refine wp_wsect (by exact hstep.tidy.nsect) hsize ?_
        rw [wp_pure, toNat_ofNat_of_le hstep.tidy.le]
        rcases Nat.lt_or_ge s1.freeblock FSSIZE with hroom | hge
        · obtain ⟨l, hballoc⟩ := balloc_agrees hstep.tidy hroom hstep.mirrors.sb hstep.mirrors.disk
            hr1.trans
          have hbump : s1.bump.disk t = s1.img t := disk_of_ne hbm
          refine Or.inl ⟨Fs.State.write { ks1 with disk := s1.bump.disk, logged := l } t
              (putEntry (fbn - NDIRECT) (UInt32.ofNat s1.freeblock) (s1.img t)), hbmap ?_,
            ⟨(hstep.tidy.bump hroom).write ?_ _, ⟨hstep.mirrors.sb, ?_, hstep.mirrors.din⟩,
              hstep.freeinode, ?_⟩, hsame⟩
          · show (if entry (ks1.disk t) (fbn - NDIRECT) = 0 then _ else _ : Op ℕ) ks1 = _
            rw [hblk, if_pos hzero]
            show (Fs.balloc ks1 >>= fun r => _) = _
            rw [hballoc]
            show (logWrite t _ _ >>= fun r => _) = _
            rw [logWrite_eq (by exact hr1.trans), ← hbump]
            rfl
          · exact Nat.lt_succ_of_lt hlt
          · exact (disk_upd hbm _ _).symm
          · show s1.freeblock + 1 ≤ _
            omega
        · exact Or.inr ⟨le_antisymm hstep.tidy.le hge, rfl, by omega⟩
      · refine Or.inl ⟨ks1, hbmap ?_, ⟨hstep.tidy, hstep.mirrors, hstep.freeinode,
          hstep.freeblock.trans hle⟩, hsame⟩
        show (if entry (ks1.disk t) (fbn - NDIRECT) = 0 then _ else _ : Op ℕ) ks1 = _
        rw [hblk, if_neg hnz]
        rfl
    · refine wp_bind.mpr (wp_rsect_end hn hx ?_)
      rw [if_pos hk] at hle
      omega

/-! ## The loop -/

/-- The blocks that a file of `n` bytes takes, with its indirect table. -/
def blocksFor (n : ℕ) : ℕ :=
  (n + BSIZE - 1) / BSIZE + if NDIRECT * BSIZE < n then 1 else 0

theorem blocksFor_mono {m n : ℕ} (h : m ≤ n) : blocksFor m ≤ blocksFor n := by
  refine Nat.add_le_add (Nat.div_le_div_right (by omega)) ?_
  split_ifs <;> omega

theorem table_ne_zero {disk : Disk} {bn : ℕ} (h : d.addr disk bn ≠ 0) (hbn : NDIRECT ≤ bn) :
    d.addrs (Fin.last NDIRECT) ≠ 0 := by
  intro h0
  rw [Dinode.addr_eq (Dinode.lt_maxfile h), Ptr.ofBlock, dif_neg (not_lt.mpr hbn), Dinode.ptr,
    if_pos h0] at h
  exact h rfl

/-- The blocks that the next byte of a file takes, if every byte before it has its block. -/
theorem cost_le {disk : Disk} {off : ℕ} (h : ∀ x, x < off → d.addr disk (x / BSIZE) ≠ 0) :
    blocksFor off + cost d disk (off / BSIZE) ≤ blocksFor (off + 1) := by
  have hB : BSIZE = 512 := rfl
  have hD : NDIRECT = 12 := rfl
  have hfirst : (if d.addr disk (off / BSIZE) = 0 then 1 else 0) ≤ 1 := by split_ifs <;> omega
  have hblock : ∀ {n}, blocksFor n = (n + 511) / 512 + if 6144 < n then 1 else 0 := rfl
  rw [hblock, hblock, cost]
  by_cases hmod : off % 512 = 0
  · by_cases hlt : 6144 < off
    · -- the block before this one is behind the direct ones, so there is a table
      have htable : ¬ (NDIRECT ≤ off / BSIZE ∧ d.addrs (Fin.last NDIRECT) = 0) := fun hn =>
        table_ne_zero (h (off - 1) (by omega)) (by rw [hB, hD]; omega) hn.2
      rw [if_neg htable, if_pos hlt, if_pos (show 6144 < off + 1 by omega)]
      omega
    · have hsecond : (if NDIRECT ≤ off / BSIZE ∧ d.addrs (Fin.last NDIRECT) = 0 then 1 else 0) ≤
          if 6144 < off + 1 then 1 else 0 := by
        split_ifs with h1 h2
        · exact le_rfl
        · have hq : 12 ≤ off / 512 := h1.1
          omega
        · exact Nat.zero_le 1
        · exact le_rfl
      rw [if_neg hlt]
      omega
  · have hprev : (off - 1) / BSIZE = off / BSIZE := by
      rw [hB]
      omega
    have ha : d.addr disk (off / BSIZE) ≠ 0 := hprev ▸ h (off - 1) (by omega)
    have htable : ¬ (NDIRECT ≤ off / BSIZE ∧ d.addrs (Fin.last NDIRECT) = 0) := fun hn =>
      table_ne_zero ha hn.1 hn.2
    rw [if_neg ha, if_neg htable]
    split_ifs <;> omega

/-- **`mkfs` appends as the kernel writes.**  The loop of `iappend` goes in step with the loop of
`writei`; it stops only if the file gets too long or there is no block left. -/
theorem appendLoop_agrees (fuel : ℕ) : ∀ {s : State} {ks : Fs.State} {d : Dinode} {off : ℕ}
    {p : List UInt8}, Tidy s → Mirrors s d ks ip → Ready ks ip →
    (∀ x, x < off → d.addr ks.disk (x / BSIZE) ≠ 0) → off ≤ MAXFILE * BSIZE → p.length ≤ fuel →
    wp (appendLoop fuel d off p) s
      (fun r s' => r.2 = off + p.length ∧ off + p.length ≤ MAXFILE * BSIZE ∧
        (∀ k : Fin (NDIRECT + 1), off + p.length ≤ k * BSIZE → k.val ≠ NDIRECT →
          r.1.addrs k = d.addrs k) ∧
        ∃ ks', writeiLoop ip fuel (fun k => p.getD k 0) off p.length ks = .ok ((), ks') ∧
          InStep s s' r.1 ks' ip (blocksFor (off + p.length) - blocksFor off))
      (fun _ => MAXFILE * BSIZE < off + p.length ∨
        FSSIZE + blocksFor off < s.freeblock + blocksFor (off + p.length)) := by
  induction fuel with
  | zero =>
    intro s ks d off p h hm hr _ hoff hp
    obtain hlen : p.length = 0 := Nat.le_zero.mp hp
    rw [appendLoop, wp_pure, hlen]
    exact ⟨rfl, hoff, fun _ _ _ => rfl, ks, rfl, h, hm, rfl, Nat.le_add_right _ _⟩
  | succ fuel ih =>
    intro s ks d off p h hm hr hbelow hoff hp
    have hB : BSIZE = 512 := rfl
    rw [appendLoop, wp_ite]
    refine ⟨fun hlen => ?_, fun hlen => ?_⟩
    · rw [wp_pure, hlen]
      exact ⟨rfl, hoff, fun _ _ _ => rfl, ks, rfl, h, hm, rfl, Nat.le_add_right _ _⟩
    rw [wp_ite]
    refine ⟨fun hfbn => ?_, fun hfbn => ?_⟩
    · have hcost := cost_le hbelow
      have hdiv := Nat.div_add_mod off BSIZE
      have hmod : off % BSIZE < BSIZE := Nat.mod_lt off (by decide)
      -- the piece of this turn: `m` bytes at `off`, all in one block
      obtain ⟨m, hm'⟩ : ∃ m, m = min p.length ((off / BSIZE + 1) * BSIZE - off) := ⟨_, rfl⟩
      have hmk : m = min p.length (BSIZE - off % BSIZE) := by
        rw [hm', Nat.add_mul, Nat.mul_comm, Nat.one_mul]
        omega
      have ho : off - off / BSIZE * BSIZE = off % BSIZE := by
        rw [Nat.mul_comm]
        omega
      have hm0 : 0 < m := by omega
      have hmn : m ≤ p.length := by omega
      have hmono : blocksFor (off + 1) ≤ blocksFor (off + m) := blocksFor_mono (by omega)
      have hmono' : blocksFor (off + m) ≤ blocksFor (off + p.length) := blocksFor_mono (by omega)
      refine (fileBlock_agrees h hm hr hfbn).chain (fun e he => Or.inr (by omega)) ?_
      rintro ⟨d1, x⟩ s1 (⟨ks1, hbmap, hstep, hslot⟩ | ⟨hx, hn, hfull⟩)
      · obtain ⟨hprog, hx, hx0, -⟩ :=
          (bmap_spec hr hfbn (P := Ptr.needed (off / BSIZE) hfbn) (Finset.Subset.refl _)).ok hbmap
        have hr1 := hprog.ready
        obtain ⟨hsize, hlt, hbm, hblk⟩ := hstep.taken hr1 (p := Ptr.ofBlock (off / BSIZE) hfbn)
          (by rw [← Dinode.addr_eq hfbn, ← hstep.mirrors.din, hx]) hx0
        rw [wp_bind]
        refine wp_rsect hstep.tidy.nsect hsize ?_
        rw [wp_bind]
        refine wp_wsect hstep.tidy.nsect hsize ?_
        rw [ho, ← hm', ← hblk]
        -- the kernel's state after the same turn
        obtain ⟨ks2, hks2⟩ :
          ∃ ks2, ks2 = ks1.write x (blit (ks1.disk x) (off % BSIZE) (p.take m)) :=
          ⟨_, rfl⟩
        have hsrc : slice (fun k => p.getD k 0) 0 m = p.take m := slice_getD hmn
        have hshift : (fun k => p.getD (m + k) 0) = fun k => (p.drop m).getD k 0 := by
          funext k
          rw [List.getD_eq_getElem?_getD, List.getD_eq_getElem?_getD, List.getElem?_drop]
        have hturn := writeiLoop_succ (fun k => p.getD k 0) fuel hlen hbmap hr1.trans
        rw [← hmk, hsrc, hshift, ← hks2, ← List.length_drop] at hturn
        have hr2 : Ready ks2 ip := by
          rw [hks2]
          exact hr1.write hx hx0 _
        have hdin2 : (ks2.inode ip).din = d1 := by
          rw [hks2]
          exact hstep.mirrors.din
        have haddr2 : ∀ bn, d1.addr ks2.disk bn = d1.addr ks1.disk bn := by
          intro bn
          have hptr := hr1.ptr_write hx hx0 (blit (ks1.disk x) (off % BSIZE) (p.take m)) hr1.inum
            (by rw [view_self]; exact hr1.type)
          rw [view_self, hstep.mirrors.din] at hptr
          rw [hks2]
          exact Dinode.addr_congr hptr bn
        have hbelow2 : ∀ y, y < off + m → d1.addr ks2.disk (y / BSIZE) ≠ 0 := by
          intro y hy
          rw [haddr2]
          by_cases hold : y < off
          · have ha := hbelow y hold
            rw [← hm.din] at ha
            have hkeep := hprog.evolves.addr_self hr.inum hr.type ha
            rw [hstep.mirrors.din] at hkeep
            exact ne_of_eq_of_ne hkeep ha
          · have hplace : y / BSIZE = off / BSIZE := by
              rw [hB] at hdiv hmod hmk ⊢
              omega
            rw [hstep.mirrors.din] at hx
            rw [hplace, hx]
            exact hx0
        have hlen2 : off + m + (p.drop m).length = off + p.length := by
          rw [List.length_drop]
          omega
        have hmax : off + m ≤ MAXFILE * BSIZE := by
          rw [hB] at hdiv hmod hmk hfbn ⊢
          omega
        have hmirror : Mirrors { s1 with
            img := upd s1.img x (blit (ks1.disk x) (off % BSIZE) (p.take m))
            nsect := FSSIZE } d1 ks2 ip := by
          refine ⟨?_, ?_, hdin2⟩
          · rw [hks2]
            exact hstep.mirrors.sb
          · rw [disk_upd hbm, ← hstep.mirrors.disk, hks2]
            rfl
        have hfree := hstep.freeblock
        refine (ih (hstep.tidy.write hlt _) hmirror hr2 hbelow2 hmax
          (by rw [List.length_drop]; omega)).mono ?_ ?_
        · rintro ⟨d', off'⟩ s' ⟨hoff', hmax', hslot', ks', hloop, hstep'⟩
          rw [hlen2] at hoff' hmax' hslot' hstep'
          refine ⟨hoff', hmax', fun k hk hkn => ?_, ks', hturn.trans hloop, hstep'.tidy,
            hstep'.mirrors, hstep'.freeinode.trans hstep.freeinode, ?_⟩
          · rw [hslot' k hk hkn]
            refine hslot k (fun heq => ?_) hkn
            rw [heq, hB] at hk
            rw [hB] at hdiv
            omega
          · have hfree' := hstep'.freeblock
            have hfree1 : s'.freeblock ≤ s1.freeblock +
              (blocksFor (off + p.length) - blocksFor (off + m)) := hfree'
            omega
        · intro e he
          rw [hlen2] at he
          refine he.imp_right fun hfull => ?_
          have hfull' : FSSIZE + blocksFor (off + m) < s1.freeblock + blocksFor (off + p.length) :=
            hfull
          omega
      · exact wp_bind.mpr (wp_rsect_end hn hx (Or.inr (by omega)))
    · refine Or.inl ?_
      rw [hB] at hfbn ⊢
      omega

end Agree

end Xv6.Mkfs
