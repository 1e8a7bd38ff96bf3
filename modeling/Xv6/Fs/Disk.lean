import Mathlib.Tactic.IntervalCases
import Xv6.Lib.Bytes
import Xv6.Param

/-!
# The on-disk format of the file system

The disk is a sequence of blocks of `BSIZE` bytes:

  `[ boot block | super block | log | inode blocks | free bit map | data blocks ]`

The super block says where each part begins.  An on-disk inode (`Dinode`) is a record of 64 bytes,
`IPB` of them in a block; the free map holds one bit for each block of the disk; a block of an
indirect table holds `NINDIRECT` block numbers.

All of it is bytes, as on the disk: a write to one block changes what every reader decodes from
that block and nothing else.  The lemmas of this module say that for the three kinds of
metadata: `dinode_putDinode`, `used_setUsed` and `entry_putEntry` for the place written, and
`dinode_update_of_ne`, `used_update_of_ne` for the writes to other blocks.
-/

namespace Xv6.Fs

open Lib

def BSIZE : ℕ := 512

/-- Block numbers that an inode itself holds. -/
def NDIRECT : ℕ := 12

/-- Block numbers in the indirect table, of four bytes each. -/
def NINDIRECT : ℕ := BSIZE / 4

def MAXFILE : ℕ := NDIRECT + NINDIRECT

/-- Inodes per block, of 64 bytes each. -/
def IPB : ℕ := BSIZE / 64

def BPB : ℕ := BSIZE * 8

/-- The inode number of the root directory. -/
def ROOTINO : ℕ := 1

/-- The bytes of a block.  Only those below `BSIZE` exist; no function reads or writes past
them. -/
abbrev Block := ℕ → UInt8

/-- The contents of the disk, by block number. -/
abbrev Disk := ℕ → Block

/-! ## Stored numbers -/

def shortBytes (x : Int16) : List UInt8 := leBytes 2 x.toUInt16.toNat

def uintBytes (x : UInt32) : List UInt8 := leBytes 4 x.toNat

def shortOf (l : List UInt8) : Int16 := (UInt16.ofNat (leNat l)).toInt16

def uintOf (l : List UInt8) : UInt32 := UInt32.ofNat (leNat l)

@[simp] theorem length_shortBytes (x : Int16) : (shortBytes x).length = 2 := length_leBytes _ _

@[simp] theorem length_uintBytes (x : UInt32) : (uintBytes x).length = 4 := length_leBytes _ _

theorem drop_shortBytes (n : ℕ) (x : Int16) : (shortBytes x).drop (n + 2) = [] :=
  List.drop_eq_nil_of_le (by rw [length_shortBytes]; exact Nat.le_add_left 2 n)

theorem shortOf_shortBytes (x : Int16) : shortOf (shortBytes x) = x := by
  rw [shortOf, shortBytes, leNat_leBytes_of_lt (UInt16.toNat_lt _), UInt16.ofNat_toNat,
    Int16.toInt16_toUInt16]

@[simp] theorem uintOf_uintBytes (x : UInt32) : uintOf (uintBytes x) = x := by
  rw [uintOf, uintBytes, leNat_leBytes_of_lt (UInt32.toNat_lt _), UInt32.ofNat_toNat]

/-- The `k`th `uint` in a block. -/
def entry (blk : Block) (k : ℕ) : UInt32 := uintOf (slice blk (4 * k) 4)

/-- The block with its `k`th `uint` set to `v`. -/
def putEntry (k : ℕ) (v : UInt32) (blk : Block) : Block := blit blk (4 * k) (uintBytes v)

theorem entry_putEntry (blk : Block) (j k : ℕ) (v : UInt32) :
    entry (putEntry k v blk) j = if j = k then v else entry blk j := by
  by_cases hjk : j = k
  · subst hjk
    have hself := slice_blit_self blk (4 * j) (uintBytes v)
    rw [length_uintBytes] at hself
    rw [entry, putEntry, hself, uintOf_uintBytes, if_pos rfl]
  · rw [entry, putEntry, slice_blit_of_disjoint, if_neg hjk, entry]
    rw [length_uintBytes]
    omega

/-- A block of zeroes, as `bzero` leaves it. -/
def zeroBlock : Block := fun _ => 0

theorem entry_zeroBlock (k : ℕ) : entry zeroBlock k = 0 := by
  have hslice : slice zeroBlock (4 * k) 4 = List.replicate 4 0 := rfl
  rw [entry, uintOf, hslice, leNat_replicate_zero]
  rfl

/-! ## The super block -/

structure Superblock where
  size : ℕ
  nblocks : ℕ
  ninodes : ℕ
  nlog : ℕ
  logstart : ℕ
  inodestart : ℕ
  bmapstart : ℕ
  deriving DecidableEq

def readsb (disk : Disk) : Superblock where
  size := (entry (disk 1) 0).toNat
  nblocks := (entry (disk 1) 1).toNat
  ninodes := (entry (disk 1) 2).toNat
  nlog := (entry (disk 1) 3).toNat
  logstart := (entry (disk 1) 4).toNat
  inodestart := (entry (disk 1) 5).toNat
  bmapstart := (entry (disk 1) 6).toNat

/-- The number of blocks before the data blocks; `mkfs` calls it `nmeta`. -/
def Superblock.nmeta (sb : Superblock) : ℕ := sb.size - sb.nblocks

/-- The block that holds inode `i`. -/
def IBLOCK (i : ℕ) (sb : Superblock) : ℕ := i / IPB + sb.inodestart

/-- The block of the free map that holds the bit of block `b`. -/
def BBLOCK (b : ℕ) (sb : Superblock) : ℕ := b / BPB + sb.bmapstart

/-- The parts of the disk follow each other as `mkfs` lays them out: the inode blocks lie between
the super block and the free map, the free map covers every block and ends before the data
blocks, and an inode number fits the two bytes that a directory entry has for it. -/
structure Superblock.Wf (sb : Superblock) : Prop where
  inodes : 2 ≤ sb.inodestart
  bmap : sb.inodestart + (sb.ninodes + IPB - 1) / IPB ≤ sb.bmapstart
  data : sb.bmapstart + (sb.size + BPB - 1) / BPB ≤ sb.nmeta
  size : sb.size < 2 ^ 32
  root : ROOTINO < sb.ninodes
  inum : sb.ninodes ≤ 2 ^ 16

variable {sb : Superblock}

theorem Superblock.Wf.iblock_lt (h : sb.Wf) {i : ℕ} (hi : i < sb.ninodes) :
    IBLOCK i sb < sb.bmapstart := by
  have hipb : IPB = 8 := rfl
  have h1 := h.bmap
  rw [IBLOCK]
  rw [hipb] at h1 ⊢
  omega

theorem Superblock.Wf.two_le_iblock (h : sb.Wf) (i : ℕ) : 2 ≤ IBLOCK i sb := by
  rw [IBLOCK]
  exact le_trans h.inodes (Nat.le_add_left _ _)

theorem bmapstart_le_bblock (b : ℕ) : sb.bmapstart ≤ BBLOCK b sb :=
  Nat.le_add_left _ _

theorem Superblock.Wf.bblock_lt (h : sb.Wf) {b : ℕ} (hb : b < sb.size) :
    BBLOCK b sb < sb.nmeta := by
  have hbpb : BPB = 4096 := rfl
  have h1 := h.data
  rw [BBLOCK]
  rw [hbpb] at h1 ⊢
  omega

theorem Superblock.Wf.two_lt_bmapstart (h : sb.Wf) : 2 < sb.bmapstart :=
  lt_of_le_of_lt (h.two_le_iblock ROOTINO) (h.iblock_lt h.root)

theorem Superblock.Wf.bmapstart_lt_nmeta (h : sb.Wf) : sb.bmapstart < sb.nmeta := by
  have h1 := h.two_lt_bmapstart
  have h2 : sb.bmapstart ≤ sb.nmeta := le_trans (Nat.le_add_right _ _) h.data
  have h3 : sb.nmeta ≤ sb.size := Nat.sub_le _ _
  exact lt_of_le_of_lt (bmapstart_le_bblock 0) (h.bblock_lt (by omega))

/-! ## The free map -/

/-- The mask `1 << k` of a bit in its byte. -/
def mask (k : ℕ) : UInt8 := 1 <<< UInt8.ofNat k

/-- Whether the free map in the disk marks block `b` as in use. -/
def used (disk : Disk) (sb : Superblock) (b : ℕ) : Bool :=
  disk (BBLOCK b sb) (b % BPB / 8) &&& mask (b % BPB % 8) != 0

/-- A block of the free map with the bit of block `b` set. -/
def setUsed (b : ℕ) (blk : Block) : Block :=
  upd blk (b % BPB / 8) (blk (b % BPB / 8) ||| mask (b % BPB % 8))

/-- A block of the free map with the bit of block `b` cleared. -/
def clearUsed (b : ℕ) (blk : Block) : Block :=
  upd blk (b % BPB / 8) (blk (b % BPB / 8) &&& ~~~ mask (b % BPB % 8))

theorem and_mask_bne_zero (x : UInt8) {k : ℕ} (hk : k < 8) :
    (x &&& mask k != 0) = x.toBitVec.getLsbD k := by
  have hmask : (mask k).toBitVec = BitVec.twoPow 8 k := by
    interval_cases k <;> rfl
  have hne : BitVec.twoPow 8 k ≠ 0#8 := by
    interval_cases k <;> decide
  have hand : (x &&& mask k).toBitVec =
      if x.toBitVec.getLsbD k then BitVec.twoPow 8 k else 0#8 := by
    rw [UInt8.toBitVec_and, hmask, BitVec.and_twoPow]
  cases hx : x.toBitVec.getLsbD k with
  | true =>
    rw [hx, if_pos rfl] at hand
    rw [bne_iff_ne]
    intro h0
    rw [h0] at hand
    exact hne hand.symm
  | false =>
    rw [hx, if_neg (by decide)] at hand
    have h0 : x &&& mask k = 0 := UInt8.toBitVec_inj.mp hand
    rw [h0]
    rfl

/-- The bit of block `b` in a block of the free map. -/
theorem used_eq (disk : Disk) (sb : Superblock) (b : ℕ) :
    used disk sb b =
      (disk (BBLOCK b sb) (b % BPB / 8)).toBitVec.getLsbD (b % BPB % 8) :=
  and_mask_bne_zero _ (Nat.mod_lt _ (by decide))

theorem getLsbD_or_mask (x : UInt8) {j k : ℕ} (hk : k < 8) :
    (x ||| mask k).toBitVec.getLsbD j = (x.toBitVec.getLsbD j || decide (j = k)) := by
  have hmask : (mask k).toBitVec = BitVec.twoPow 8 k := by
    interval_cases k <;> rfl
  rw [UInt8.toBitVec_or, hmask, BitVec.getLsbD_or, BitVec.getLsbD_twoPow]
  simp only [hk, decide_true, Bool.true_and, eq_comm]

theorem getLsbD_and_not_mask (x : UInt8) {j k : ℕ} (hj : j < 8) (hk : k < 8) :
    (x &&& ~~~ mask k).toBitVec.getLsbD j = (x.toBitVec.getLsbD j && !decide (j = k)) := by
  have hmask : (mask k).toBitVec = BitVec.twoPow 8 k := by
    interval_cases k <;> rfl
  rw [UInt8.toBitVec_and, UInt8.toBitVec_not, hmask, BitVec.getLsbD_and, BitVec.getLsbD_not,
    BitVec.getLsbD_twoPow]
  simp only [hj, hk, decide_true, Bool.true_and, eq_comm]

/-- A new byte in the free map changes the bits that it holds and no others. -/
theorem used_update_byte (disk : Disk) (sb : Superblock) (b b' : ℕ) (v : UInt8) :
    used (upd disk (BBLOCK b sb)
        (upd (disk (BBLOCK b sb)) (b % BPB / 8) v)) sb b' =
      if b' / BPB = b / BPB ∧ b' % BPB / 8 = b % BPB / 8 then v.toBitVec.getLsbD (b' % BPB % 8)
      else used disk sb b' := by
  rw [used_eq, used_eq]
  by_cases hblk : b' / BPB = b / BPB
  · have hB : BBLOCK b' sb = BBLOCK b sb := by rw [BBLOCK, BBLOCK, hblk]
    rw [hB, upd_self]
    by_cases hbyte : b' % BPB / 8 = b % BPB / 8
    · rw [hbyte, upd_self, if_pos ⟨hblk, rfl⟩]
    · rw [upd_of_ne hbyte, if_neg fun h => hbyte h.2]
  · have hB : BBLOCK b' sb ≠ BBLOCK b sb := fun h => hblk (Nat.add_right_cancel h)
    rw [upd_of_ne hB, if_neg fun h => hblk h.1]

/-- A bit of the free map is found by its block, its byte and its place in the byte. -/
theorem eq_iff_place (b b' : ℕ) : b' = b ↔
    (b' / BPB = b / BPB ∧ b' % BPB / 8 = b % BPB / 8) ∧ b' % BPB % 8 = b % BPB % 8 := by
  have hbpb : BPB = 4096 := rfl
  rw [hbpb]
  omega

theorem used_setUsed (disk : Disk) (sb : Superblock) (b b' : ℕ) :
    used (upd disk (BBLOCK b sb) (setUsed b (disk (BBLOCK b sb)))) sb b' =
      (used disk sb b' || decide (b' = b)) := by
  rw [setUsed, used_update_byte]
  by_cases hplace : b' / BPB = b / BPB ∧ b' % BPB / 8 = b % BPB / 8
  · have hB : BBLOCK b' sb = BBLOCK b sb := congrArg (· + sb.bmapstart) hplace.1
    rw [if_pos hplace, getLsbD_or_mask _ (Nat.mod_lt _ (by decide)), used_eq, hB, hplace.2]
    congr 1
    rw [decide_eq_decide, eq_iff_place b b']
    exact ⟨fun h => ⟨hplace, h⟩, fun h => h.2⟩
  · have hne : b' ≠ b := fun h => hplace ((eq_iff_place b b').mp h).1
    rw [if_neg hplace, decide_eq_false hne, Bool.or_false]

theorem used_clearUsed (disk : Disk) (sb : Superblock) (b b' : ℕ) :
    used (upd disk (BBLOCK b sb) (clearUsed b (disk (BBLOCK b sb)))) sb b' =
      (used disk sb b' && !decide (b' = b)) := by
  rw [clearUsed, used_update_byte]
  by_cases hplace : b' / BPB = b / BPB ∧ b' % BPB / 8 = b % BPB / 8
  · have hB : BBLOCK b' sb = BBLOCK b sb := congrArg (· + sb.bmapstart) hplace.1
    rw [if_pos hplace, getLsbD_and_not_mask _ (Nat.mod_lt _ (by decide))
      (Nat.mod_lt _ (by decide)), used_eq, hB, hplace.2]
    congr 2
    rw [decide_eq_decide, eq_iff_place b b']
    exact ⟨fun h => ⟨hplace, h⟩, fun h => h.2⟩
  · have hne : b' ≠ b := fun h => hplace ((eq_iff_place b b').mp h).1
    rw [if_neg hplace, decide_eq_false hne, Bool.not_false, Bool.and_true]

variable {disk : Disk}

theorem used_update_of_ne {b b' : ℕ} (h : BBLOCK b' sb ≠ b)
    (blk : Block) : used (upd disk b blk) sb b' = used disk sb b' := by
  rw [used, used, upd_of_ne h]

/-! ## On-disk inodes -/

@[ext] structure Dinode where
  type : Int16
  major : Int16
  minor : Int16
  nlink : Int16
  size : UInt32
  addrs : Fin (NDIRECT + 1) → UInt32
  deriving DecidableEq

/-- An inode of zero bytes, as `memset` leaves it. -/
def Dinode.zero : Dinode := ⟨0, 0, 0, 0, 0, fun _ => 0⟩

def T_DIR : Int16 := 1

def T_FILE : Int16 := 2

def T_DEV : Int16 := 3

/-- The record of an inode, field after field. -/
def Dinode.toBytes (d : Dinode) : List UInt8 :=
  shortBytes d.type ++ (shortBytes d.major ++ (shortBytes d.minor ++ (shortBytes d.nlink ++
    (uintBytes d.size ++ (List.finRange (NDIRECT + 1)).flatMap fun k => uintBytes (d.addrs k)))))

/-- The inode that a record of 64 bytes holds. -/
def Dinode.ofBytes (l : List UInt8) : Dinode where
  type := shortOf (l.take 2)
  major := shortOf ((l.drop 2).take 2)
  minor := shortOf ((l.drop 4).take 2)
  nlink := shortOf ((l.drop 6).take 2)
  size := uintOf ((l.drop 8).take 4)
  addrs := fun k => uintOf (((l.drop 12).drop (4 * k)).take 4)

@[simp] theorem Dinode.length_toBytes (d : Dinode) : d.toBytes.length = 64 := by
  have haddrs : ((List.finRange (NDIRECT + 1)).flatMap fun k => uintBytes (d.addrs k)).length =
      52 := by
    rw [List.length_flatMap]
    simp only [length_uintBytes]
    rfl
  simp only [Dinode.toBytes, List.length_append, length_shortBytes, length_uintBytes, haddrs]

/-- **An inode is read back as it was stored.** -/
@[simp] theorem Dinode.ofBytes_toBytes (d : Dinode) : Dinode.ofBytes d.toBytes = d := by
  have hdrop : d.toBytes.drop 12 =
      (List.finRange (NDIRECT + 1)).flatMap fun k => uintBytes (d.addrs k) := by
    simp [Dinode.toBytes, List.drop_append, drop_shortBytes]
  refine Dinode.ext ?_ ?_ ?_ ?_ ?_ (funext fun k => ?_)
  · simp [Dinode.toBytes, Dinode.ofBytes, shortOf_shortBytes]
  · simp [Dinode.toBytes, Dinode.ofBytes, List.drop_append, shortOf_shortBytes]
  · simp [Dinode.toBytes, Dinode.ofBytes, List.drop_append, drop_shortBytes, shortOf_shortBytes]
  · simp [Dinode.toBytes, Dinode.ofBytes, List.drop_append, drop_shortBytes, shortOf_shortBytes]
  · simp [Dinode.toBytes, Dinode.ofBytes, List.drop_append, drop_shortBytes]
  · have hk : (k : ℕ) < (List.finRange (NDIRECT + 1)).length := by
      rw [List.length_finRange]
      exact k.isLt
    have hfield := take_drop_flatMap (fun k => uintBytes (d.addrs k)) (List.finRange (NDIRECT + 1))
      (fun k _ => length_uintBytes _) [] hk
    rw [List.append_nil, List.getElem_finRange] at hfield
    show uintOf _ = _
    rw [hdrop, hfield, uintOf_uintBytes]
    rfl

/-- Inode `i` as the disk holds it. -/
def dinode (disk : Disk) (sb : Superblock) (i : ℕ) : Dinode :=
  Dinode.ofBytes (slice (disk (IBLOCK i sb)) (64 * (i % IPB)) 64)

/-- An inode block with the record of inode `i` set to `d`. -/
def putDinode (i : ℕ) (d : Dinode) (blk : Block) : Block := blit blk (64 * (i % IPB)) d.toBytes

theorem dinode_putDinode (disk : Disk) (sb : Superblock) (i j : ℕ) (d : Dinode) :
    dinode (upd disk (IBLOCK i sb) (putDinode i d (disk (IBLOCK i sb)))) sb j =
      if j = i then d else dinode disk sb j := by
  have hipb : IPB = 8 := rfl
  by_cases hji : j = i
  · subst hji
    have hself := slice_blit_self (disk (IBLOCK j sb)) (64 * (j % IPB)) d.toBytes
    rw [Dinode.length_toBytes] at hself
    rw [dinode, upd_self, putDinode, hself, Dinode.ofBytes_toBytes, if_pos rfl]
  · rw [if_neg hji, dinode, dinode]
    by_cases hblk : IBLOCK j sb = IBLOCK i sb
    · rw [hblk, upd_self, putDinode, slice_blit_of_disjoint]
      have hdiv : j / IPB = i / IPB := Nat.add_right_cancel hblk
      rw [Dinode.length_toBytes]
      rw [hipb] at hdiv ⊢
      omega
    · rw [upd_of_ne hblk]

theorem dinode_update_of_ne {i b : ℕ} (h : IBLOCK i sb ≠ b)
    (blk : Block) : dinode (upd disk b blk) sb i = dinode disk sb i := by
  rw [dinode, dinode, upd_of_ne h]

theorem readsb_update_of_ne {b : ℕ} (h : b ≠ 1) (blk : Block) :
    readsb (upd disk b blk) = readsb disk := by
  rw [readsb, readsb, upd_of_ne h.symm]

/-! ## The blocks of an inode -/

/-- The pointers of an inode: a slot of `addrs`, the last of which is the indirect one, or an entry
of the indirect table. -/
inductive Ptr
  | addr (k : Fin (NDIRECT + 1))
  | entry (j : Fin NINDIRECT)
  deriving DecidableEq

/-- The block that a pointer of the inode holds, or zero. -/
def Dinode.ptr (disk : Disk) (d : Dinode) : Ptr → ℕ
  | .addr k => (d.addrs k).toNat
  | .entry j =>
    if d.addrs (Fin.last NDIRECT) = 0 then 0
    else (Fs.entry (disk (d.addrs (Fin.last NDIRECT)).toNat) j).toNat

/-- The pointer that holds block `bn` of the file. -/
def Ptr.ofBlock (bn : ℕ) (h : bn < MAXFILE) : Ptr :=
  if hd : bn < NDIRECT then .addr ⟨bn, Nat.lt_succ_of_lt hd⟩
  else .entry ⟨bn - NDIRECT, by rw [MAXFILE] at h; omega⟩

/-- The disk block that holds block `bn` of the file, or zero. -/
def Dinode.addr (disk : Disk) (d : Dinode) (bn : ℕ) : ℕ :=
  if h : bn < MAXFILE then d.ptr disk (Ptr.ofBlock bn h) else 0

end Xv6.Fs
