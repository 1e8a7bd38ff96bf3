import Mathlib.Data.Finset.Card
import Xv6.Fs.Inode
import Xv6.Lib.Bitmap

/-!
# Who owns a disk block

An inode holds blocks by pointers of three kinds: its direct slots and its indirect slot, which
are `addrs` in the inode, and the entries of the indirect table, which are in a block of the disk.
`Dinode.ptr` reads them all.  A disk is `Owned` by a table of inodes when the free map is exact for
the pointers of the allocated inodes.

While an inode is being changed, its copy in memory is ahead of the disk: `bmap` enters the new
block in the copy, and `iupdate` comes later.  `view s ip` is the table of inodes with the copy at
the place `ip` put in, and the lemmas about `balloc`, `bmap` and the loops of `readi` and `writei`
speak of that table (`Ready`).
-/

namespace Xv6.Fs

open Lib

/-! ## Pointers -/

def Ptr.table : Ptr := .addr (Fin.last NDIRECT)

/-- The pointers of the allocated inodes of a table. -/
def pointers (sb : Superblock) (disk : Disk) (I : ℕ → Dinode) (x : ℕ × Ptr) : ℕ :=
  if x.1 < sb.ninodes ∧ (I x.1).type ≠ 0 then (I x.1).ptr disk x.2 else 0

/-- **Block ownership.**  The free map is exact: its bits are set for the metadata blocks and for
the blocks that a pointer of an allocated inode holds, and no block is held by two pointers. -/
def Owned (sb : Superblock) (disk : Disk) (I : ℕ → Dinode) : Prop :=
  Exact sb.size sb.nmeta (used disk sb) (pointers sb disk I)

variable {bn : ℕ}

theorem Ptr.ofBlock_inj {bn' : ℕ} {h : bn < MAXFILE} {h' : bn' < MAXFILE}
    (heq : Ptr.ofBlock bn h = Ptr.ofBlock bn' h') : bn = bn' := by
  rw [Ptr.ofBlock, Ptr.ofBlock] at heq
  by_cases hd : bn < NDIRECT
  · rw [dif_pos hd] at heq
    by_cases hd' : bn' < NDIRECT
    · rw [dif_pos hd'] at heq
      exact Fin.mk.inj (Ptr.addr.inj heq)
    · rw [dif_neg hd'] at heq
      cases heq
  · rw [dif_neg hd] at heq
    by_cases hd' : bn' < NDIRECT
    · rw [dif_pos hd'] at heq
      cases heq
    · rw [dif_neg hd'] at heq
      have hsub := Fin.mk.inj (Ptr.entry.inj heq)
      omega

theorem Ptr.ofBlock_ne_table (h : bn < MAXFILE) : Ptr.ofBlock bn h ≠ Ptr.table := by
  rw [Ptr.ofBlock, Ptr.table]
  by_cases hd : bn < NDIRECT
  · rw [dif_pos hd]
    intro heq
    exact absurd (Fin.mk.inj (Ptr.addr.inj heq)) (ne_of_lt hd)
  · rw [dif_neg hd]
    exact fun heq => by cases heq

variable {d : Dinode}

theorem Dinode.addr_eq {disk : Disk} (h : bn < MAXFILE) :
    d.addr disk bn = d.ptr disk (Ptr.ofBlock bn h) := dif_pos h

theorem Dinode.lt_maxfile {disk : Disk} (h : d.addr disk bn ≠ 0) : bn < MAXFILE := by
  by_contra hn
  exact h (dif_neg hn)

def Dinode.byte (disk : Disk) (d : Dinode) (x : ℕ) : UInt8 :=
  disk (d.addr disk (x / BSIZE)) (x % BSIZE)

def Dinode.data (disk : Disk) (d : Dinode) : List UInt8 :=
  slice (d.byte disk) 0 d.size.toNat

/-- **No holes.**  Every block below the size of the file has an address. -/
def Dinode.NoHoles (disk : Disk) (d : Dinode) : Prop :=
  ∀ bn, bn * BSIZE < d.size.toNat → d.addr disk bn ≠ 0

instance (disk : Disk) (d : Dinode) : Decidable (d.NoHoles disk) :=
  decidable_of_iff (∀ bn < d.size.toNat, bn * BSIZE < d.size.toNat → d.addr disk bn ≠ 0) <| by
    constructor
    · intro h bn hbn
      exact h bn (lt_of_le_of_lt (Nat.le_mul_of_pos_right bn (by decide)) hbn) hbn
    · exact fun h bn _ hbn => h bn hbn

theorem Dinode.NoHoles.size_le {disk : Disk} (h : d.NoHoles disk) :
    d.size.toNat ≤ MAXFILE * BSIZE := by
  by_contra hn
  exact absurd (Dinode.lt_maxfile (h MAXFILE (not_le.mp hn))) (lt_irrefl _)

theorem Dinode.NoHoles.addr_div {disk : Disk} (h : d.NoHoles disk) {x : ℕ}
    (hx : x < d.size.toNat) : d.addr disk (x / BSIZE) ≠ 0 :=
  h _ (lt_of_le_of_lt (Nat.div_mul_le_self x BSIZE) hx)

theorem pointers_of_alloc {sb : Superblock} {disk : Disk} {I : ℕ → Dinode} {i : ℕ}
    (hi : i < sb.ninodes) (ht : (I i).type ≠ 0) (p : Ptr) :
    pointers sb disk I (i, p) = (I i).ptr disk p := if_pos ⟨hi, ht⟩

/-- The pointers of an inode depend on its slots and, if it has a table, on that block. -/
theorem Dinode.ptr_congr {disk disk' : Disk} (h : d.ptr disk Ptr.table ≠ 0 →
      disk' (d.ptr disk Ptr.table) = disk (d.ptr disk Ptr.table)) (p : Ptr) :
    d.ptr disk' p = d.ptr disk p := by
  cases p with
  | addr k => rfl
  | entry j =>
    rw [Dinode.ptr, Dinode.ptr]
    by_cases ht : d.addrs (Fin.last NDIRECT) = 0
    · rw [if_pos ht, if_pos ht]
    · have hne : d.ptr disk Ptr.table ≠ 0 := fun h0 => ht (UInt32.toNat_inj.mp h0)
      have hblk : disk' (d.addrs (Fin.last NDIRECT)).toNat =
          disk (d.addrs (Fin.last NDIRECT)).toNat := h hne
      rw [if_neg ht, if_neg ht, hblk]

theorem Dinode.ptr_of_addrs {disk : Disk} {d' : Dinode} (h : d'.addrs = d.addrs) (p : Ptr) :
    d'.ptr disk p = d.ptr disk p := by
  cases p with
  | addr k => rw [Dinode.ptr, Dinode.ptr, h]
  | entry j => rw [Dinode.ptr, Dinode.ptr, h]

theorem Dinode.addr_of_addrs {disk : Disk} {d' : Dinode} (h : d'.addrs = d.addrs) (bn : ℕ) :
    d'.addr disk bn = d.addr disk bn := by
  rw [Dinode.addr, Dinode.addr]
  by_cases hbn : bn < MAXFILE
  · rw [dif_pos hbn, dif_pos hbn, Dinode.ptr_of_addrs h]
  · rw [dif_neg hbn, dif_neg hbn]

theorem Dinode.addr_congr {disk disk' : Disk}
    (h : ∀ p, d.ptr disk' p = d.ptr disk p) (bn : ℕ) : d.addr disk' bn = d.addr disk bn := by
  by_cases hbn : bn < MAXFILE
  · rw [Dinode.addr_eq hbn, Dinode.addr_eq hbn, h]
  · rw [Dinode.addr, Dinode.addr, dif_neg hbn, dif_neg hbn]

namespace Owned

variable {sb : Superblock} {disk : Disk} {I : ℕ → Dinode} {i j : ℕ} {p q : Ptr}

variable (h : Owned sb disk I) (hi : i < sb.ninodes) (ht : (I i).type ≠ 0)

include h hi ht

theorem ptr_range (hp : (I i).ptr disk p ≠ 0) :
    sb.nmeta ≤ (I i).ptr disk p ∧ (I i).ptr disk p < sb.size := by
  have hx : pointers sb disk I (i, p) = (I i).ptr disk p := pointers_of_alloc hi ht p
  rw [← hx] at hp ⊢
  exact h.range _ hp

theorem ptr_inj (hj : j < sb.ninodes) (ht' : (I j).type ≠ 0) (hp : (I i).ptr disk p ≠ 0)
    (heq : (I i).ptr disk p = (I j).ptr disk q) : i = j ∧ p = q := by
  rw [← pointers_of_alloc hi ht p] at hp heq
  rw [← pointers_of_alloc hj ht' q] at heq
  exact Prod.mk.inj (h.inj _ _ hp heq)

theorem addr_range (hp : (I i).addr disk bn ≠ 0) : sb.nmeta ≤ (I i).addr disk bn ∧
      (I i).addr disk bn < sb.size := by
  have hbn := Dinode.lt_maxfile hp
  rw [Dinode.addr_eq hbn] at hp ⊢
  exact h.ptr_range hi ht hp

theorem addr_inj
    (hj : j < sb.ninodes) (ht' : (I j).type ≠ 0) {bn' : ℕ} (hp : (I i).addr disk bn ≠ 0)
    (heq : (I i).addr disk bn = (I j).addr disk bn') : i = j ∧ bn = bn' := by
  have hbn := Dinode.lt_maxfile hp
  have hbn' := Dinode.lt_maxfile (heq ▸ hp)
  rw [Dinode.addr_eq hbn] at hp heq
  rw [Dinode.addr_eq hbn'] at heq
  obtain ⟨hij, hpq⟩ := h.ptr_inj hi ht hj ht' hp heq
  exact ⟨hij, Ptr.ofBlock_inj hpq⟩

theorem addr_ne_table (hj : j < sb.ninodes) (ht' : (I j).type ≠ 0) (hp : (I i).addr disk bn ≠ 0) :
    (I i).addr disk bn ≠ (I j).ptr disk Ptr.table := by
  intro heq
  have hbn := Dinode.lt_maxfile hp
  rw [Dinode.addr_eq hbn] at hp heq
  exact Ptr.ofBlock_ne_table hbn (h.ptr_inj hi ht hj ht' hp heq).2

end Owned

/-! ## Writes to the disk -/

namespace Superblock.Wf

variable {sb : Superblock} {disk : Disk} {b c i : ℕ} {blk : Block}

theorem readsb_update (hc : 2 ≤ c) : readsb (upd disk c blk) = readsb disk :=
  readsb_update_of_ne (by omega) blk

theorem dinode_update_data (h : sb.Wf) (hc : sb.nmeta ≤ c) (hi : i < sb.ninodes) :
    dinode (upd disk c blk) sb i = dinode disk sb i := by
  have h1 := h.iblock_lt hi
  have h2 := h.bmapstart_lt_nmeta
  exact dinode_update_of_ne (by omega) blk

theorem dinode_update_bmap (h : sb.Wf) (hi : i < sb.ninodes) :
    dinode (upd disk (BBLOCK b sb) blk) sb i = dinode disk sb i := by
  have h1 := h.iblock_lt hi
  have h2 : sb.bmapstart ≤ BBLOCK b sb := bmapstart_le_bblock b
  exact dinode_update_of_ne (by omega) blk

theorem used_update_data (h : sb.Wf) (hc : sb.nmeta ≤ c) (hb : b < sb.size) :
    used (upd disk c blk) sb b = used disk sb b :=
  used_update_of_ne (ne_of_lt (lt_of_lt_of_le (h.bblock_lt hb) hc)) blk

theorem two_le_bblock (h : sb.Wf) (b : ℕ) : 2 ≤ BBLOCK b sb :=
  le_trans (le_of_lt h.two_lt_bmapstart) (bmapstart_le_bblock b)

theorem two_le_of_nmeta_le (h : sb.Wf) (hc : sb.nmeta ≤ c) : 2 ≤ c := by
  have h1 := h.two_lt_bmapstart
  have h2 := h.bmapstart_lt_nmeta
  omega

theorem nmeta_pos (h : sb.Wf) : 0 < sb.nmeta :=
  lt_of_le_of_lt (Nat.zero_le _) h.bmapstart_lt_nmeta

end Superblock.Wf

/-- The disk after `balloc` took block `b`. -/
def allocDisk (disk : Disk) (sb : Superblock) (b : ℕ) : Disk :=
  upd (upd disk (BBLOCK b sb) (setUsed b (disk (BBLOCK b sb)))) b zeroBlock

/-- The disk after `bfree` freed block `b`. -/
def freeDisk (disk : Disk) (sb : Superblock) (b : ℕ) : Disk :=
  upd disk (BBLOCK b sb) (clearUsed b (disk (BBLOCK b sb)))

section AllocDisk

variable {sb : Superblock} {disk : Disk} {b c i : ℕ}

theorem used_allocDisk (h : sb.Wf) (hb : sb.nmeta ≤ b) (hc : c < sb.size) :
    used (allocDisk disk sb b) sb c = (used disk sb c || decide (c = b)) := by
  rw [allocDisk, h.used_update_data hb hc, used_setUsed]

theorem dinode_allocDisk (h : sb.Wf) (hb : sb.nmeta ≤ b) (hi : i < sb.ninodes) :
    dinode (allocDisk disk sb b) sb i = dinode disk sb i := by
  rw [allocDisk, h.dinode_update_data hb hi, h.dinode_update_bmap hi]

theorem readsb_allocDisk (h : sb.Wf) (hb : sb.nmeta ≤ b) :
    readsb (allocDisk disk sb b) = readsb disk := by
  rw [allocDisk, Superblock.Wf.readsb_update (h.two_le_of_nmeta_le hb),
    Superblock.Wf.readsb_update (h.two_le_bblock b)]

theorem allocDisk_self : allocDisk disk sb b b = zeroBlock := upd_self

theorem allocDisk_of_ne (h : sb.Wf) (hb : b < sb.size) (hc : sb.nmeta ≤ c) (hcb : c ≠ b) :
    allocDisk disk sb b c = disk c := by
  have hne : c ≠ BBLOCK b sb := ne_of_gt (lt_of_lt_of_le (h.bblock_lt hb) hc)
  rw [allocDisk, upd_of_ne hcb, upd_of_ne hne]

theorem used_freeDisk : used (freeDisk disk sb b) sb c = (used disk sb c && !decide (c = b)) :=
  used_clearUsed disk sb b c

theorem dinode_freeDisk (h : sb.Wf) (hi : i < sb.ninodes) :
    dinode (freeDisk disk sb b) sb i = dinode disk sb i := h.dinode_update_bmap hi

theorem readsb_freeDisk (h : sb.Wf) : readsb (freeDisk disk sb b) = readsb disk :=
  Superblock.Wf.readsb_update (h.two_le_bblock b)

theorem freeDisk_of_le (h : sb.Wf) (hb : b < sb.size) (hc : sb.nmeta ≤ c) :
    freeDisk disk sb b c = disk c :=
  upd_of_ne (ne_of_gt (lt_of_lt_of_le (h.bblock_lt hb) hc))

end AllocDisk

/-! ## One new pointer -/

theorem toNat_ofNat_of_lt {sb : Superblock} (h : sb.Wf) {b : ℕ} (hb : b < sb.size) :
    (UInt32.ofNat b).toNat = b :=
  UInt32.toNat_ofNat_of_lt' (lt_trans hb h.size)

/-- A new block in a slot: the other pointers of the inode stay.  If the slot is the indirect one,
the new table has no entries. -/
theorem Dinode.ptr_setSlot {disk disk' : Disk} {k : Fin (NDIRECT + 1)} {b : ℕ}
    (hk : d.addrs k = 0) (hb : (UInt32.ofNat b).toNat = b) (hzero : disk' b = zeroBlock)
    (htable : d.ptr disk Ptr.table ≠ 0 →
      disk' (d.ptr disk Ptr.table) = disk (d.ptr disk Ptr.table)) (q : Ptr) :
    Dinode.ptr disk' { d with addrs := upd d.addrs k (UInt32.ofNat b) } q =
      if q = .addr k then b else d.ptr disk q := by
  cases q with
  | addr k' =>
    rw [Dinode.ptr]
    by_cases hkk : k' = k
    · rw [hkk, if_pos rfl]
      show (upd d.addrs k (UInt32.ofNat b) k).toNat = b
      rw [upd_self, hb]
    · rw [if_neg fun h => hkk (Ptr.addr.inj h)]
      show (upd d.addrs k (UInt32.ofNat b) k').toNat = _
      rw [upd_of_ne hkk]
      rfl
  | entry j =>
    rw [if_neg fun h => by cases h]
    by_cases hlast : Fin.last NDIRECT = k
    · have hold : d.ptr disk (.entry j) = 0 := by
        rw [Dinode.ptr, hlast, if_pos hk]
      rw [hold, Dinode.ptr]
      simp only [hlast, upd_self]
      by_cases h0 : UInt32.ofNat b = 0
      · rw [if_pos h0]
      · rw [if_neg h0, hb, hzero, entry_zeroBlock]
        rfl
    · have hsame : Dinode.ptr disk' { d with addrs := upd d.addrs k (UInt32.ofNat b) } (.entry j) =
          d.ptr disk' (.entry j) := by
        rw [Dinode.ptr, Dinode.ptr]
        simp only [upd_of_ne hlast]
      rw [hsame, Dinode.ptr_congr htable]

/-- A new block in an entry of the table: the other pointers of the inode stay. -/
theorem Dinode.ptr_putEntry {disk disk' : Disk} {j : Fin NINDIRECT} {b : ℕ}
    (ht : d.addrs (Fin.last NDIRECT) ≠ 0) (hb : (UInt32.ofNat b).toNat = b)
    (htable : disk' (d.addrs (Fin.last NDIRECT)).toNat =
      putEntry j (UInt32.ofNat b) (disk (d.addrs (Fin.last NDIRECT)).toNat)) (q : Ptr) :
    d.ptr disk' q = if q = .entry j then b else d.ptr disk q := by
  cases q with
  | addr k => rw [if_neg fun h => by cases h]; rfl
  | entry j' =>
    rw [Dinode.ptr, Dinode.ptr, if_neg ht, if_neg ht, htable, entry_putEntry]
    by_cases hjj : j' = j
    · rw [if_pos (congrArg Fin.val hjj), if_pos (congrArg Ptr.entry hjj), hb]
    · rw [if_neg fun h => hjj (Fin.ext h), if_neg fun h => hjj (Ptr.entry.inj h)]

end Xv6.Fs
