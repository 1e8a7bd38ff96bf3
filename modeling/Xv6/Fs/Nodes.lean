import Mathlib.Data.Finset.Union
import Xv6.Fs.Itrunc

/-!
# The inode layer as a store of nodes

Between two operations of the inode layer the disk is in order: the free map is exact, no file has
holes, and every valid copy in the cache is what the disk holds (`Sound`).  In such a state the
callers need not know about blocks.  What they see is `State.abs`: a map from inode numbers to
nodes, each with its type, its links and its contents as a list of bytes, and for each place of the
cache which inode it holds, how often it is referenced, and whether it is locked and valid.

There is one lemma for each operation of the layer, and it says how that picture changes.  The
modules above use these lemmas only.
-/

namespace Xv6.Fs

open Lib

/-! ## The picture -/

/-- An allocated inode, as its users see it. -/
structure Node where
  type : Int16
  major : Int16
  minor : Int16
  nlink : Int16
  data : List UInt8
  deriving DecidableEq

/-- The node that an inode of the disk stands for. -/
def Dinode.node (disk : Disk) (d : Dinode) : Node :=
  ⟨d.type, d.major, d.minor, d.nlink, d.data disk⟩

/-- The node with number `i`, if that inode is allocated. -/
def nodeOf (sb : Superblock) (disk : Disk) (i : ℕ) : Option Node :=
  if i < sb.ninodes ∧ (dinode disk sb i).type ≠ 0 then some ((dinode disk sb i).node disk) else none

/-- What a place of the cache is used for. -/
structure Tag where
  inum : ℕ
  ref : ℕ
  locked : Bool
  valid : Bool
  deriving DecidableEq

def Inode.tag (n : Inode) : Tag := ⟨n.inum, n.ref, n.locked, n.valid⟩

/-- The file system without its blocks. -/
@[ext] structure Abs where
  ninodes : ℕ
  node : ℕ → Option Node
  tag : Icache → Tag
  file : Fin NFILE → File
  proc : Slot → Option Proc
  devsw : ℕ → Devsw
  outstanding : ℕ
  history : History

/-- What the users of the inode layer see of a state. -/
def State.abs (s : State) : Abs where
  ninodes := s.sb.ninodes
  node := nodeOf s.sb s.disk
  tag := fun ip => (s.inode ip).tag
  file := s.file
  proc := s.proc
  devsw := s.devsw
  outstanding := s.outstanding
  history := s.history

def Abs.putNode (a : Abs) (i : ℕ) (n : Option Node) : Abs := { a with node := upd a.node i n }

/-- The use of the place `ip` is replaced. -/
def Abs.putTag (a : Abs) (ip : Icache) (t : Tag) : Abs := { a with tag := upd a.tag ip t }

@[simp] theorem Abs.putTag_self (a : Abs) (ip : Icache) (t : Tag) : (a.putTag ip t).tag ip = t :=
  upd_self

@[simp] theorem Abs.putNode_self (a : Abs) (i : ℕ) (n : Option Node) : (a.putNode i n).node i = n :=
  upd_self

theorem Abs.putNode_of_ne (a : Abs) {i j : ℕ} (h : j ≠ i) (n : Option Node) :
    (a.putNode i n).node j = a.node j := upd_of_ne h

/-! ## The disk between two operations -/

/-- The disk is in order. -/
structure DiskSound (sb : Superblock) (disk : Disk) : Prop where
  wf : sb.Wf
  super : readsb disk = sb
  owned : Owned sb disk (dinode disk sb)
  noHoles : ∀ i, i < sb.ninodes → (dinode disk sb i).type ≠ 0 → (dinode disk sb i).NoHoles disk

/-- An operation on inode `i` has left the other inodes and their contents alone. -/
structure Spares (sb : Superblock) (disk disk' : Disk) (i : ℕ) : Prop where
  din : ∀ j, j < sb.ninodes → j ≠ i → dinode disk' sb j = dinode disk sb j
  addr : ∀ j, j < sb.ninodes → j ≠ i → (dinode disk sb j).type ≠ 0 → ∀ bn,
    (dinode disk sb j).addr disk bn ≠ 0 →
    (dinode disk sb j).addr disk' bn = (dinode disk sb j).addr disk bn
  byte : ∀ j, j < sb.ninodes → j ≠ i → (dinode disk sb j).type ≠ 0 → ∀ x,
    (dinode disk sb j).addr disk (x / BSIZE) ≠ 0 →
    (dinode disk sb j).byte disk' x = (dinode disk sb j).byte disk x

namespace DiskSound

variable {sb : Superblock} {disk disk' : Disk} {i : ℕ}

/-- A disk without inodes, on which the blocks in use are those before the data blocks. -/
theorem empty (hwf : sb.Wf) (hsuper : readsb disk = sb)
    (htype : ∀ j, j < sb.ninodes → (dinode disk sb j).type = 0)
    (hused : ∀ b, b < sb.size → (used disk sb b = true ↔ b < sb.nmeta)) : DiskSound sb disk where
  wf := hwf
  super := hsuper
  owned := by
    have hzero : ∀ x, pointers sb disk (dinode disk sb) x = 0 := fun x =>
      if_neg fun hn => hn.2 (htype _ hn.1)
    refine ⟨hwf.nmeta_pos, fun p q hp => absurd (hzero p) hp, fun p hp => absurd (hzero p) hp,
      fun b hb => (hused b hb).trans ?_⟩
    exact ⟨Or.inl, fun h => h.elim id fun ⟨p, hp, _⟩ => absurd (hzero p) hp⟩
  noHoles := fun j hj ht => absurd (htype j hj) ht

theorem change (h : DiskSound sb disk) (hsp : Spares sb disk disk' i)
    (hsuper : readsb disk' = readsb disk) (howned : Owned sb disk' (dinode disk' sb))
    (hself : (dinode disk' sb i).type ≠ 0 → (dinode disk' sb i).NoHoles disk') :
    DiskSound sb disk' where
  wf := h.wf
  super := hsuper.trans h.super
  owned := howned
  noHoles := fun j hj ht => by
    by_cases hji : j = i
    · subst hji
      exact hself ht
    · rw [hsp.din j hj hji] at ht ⊢
      intro bn hbn
      have ha := h.noHoles j hj ht bn hbn
      rwa [hsp.addr j hj hji ht bn ha]

theorem nodeOf_eq (h : DiskSound sb disk) (hsp : Spares sb disk disk' i) {j : ℕ} (hji : j ≠ i) :
    nodeOf sb disk' j = nodeOf sb disk j := by
  rw [nodeOf, nodeOf]
  by_cases hj : j < sb.ninodes
  · rw [hsp.din j hj hji]
    by_cases ht : (dinode disk sb j).type ≠ 0
    · have hdata : (dinode disk sb j).data disk' = (dinode disk sb j).data disk := by
        refine slice_congr fun x _ hx => ?_
        exact hsp.byte j hj hji ht x ((h.noHoles j hj ht).addr_div (by omega))
      rw [if_pos ⟨hj, ht⟩, if_pos ⟨hj, ht⟩, Dinode.node, Dinode.node, hdata]
    · rw [if_neg fun hn => ht hn.2, if_neg fun hn => ht hn.2]
  · rw [if_neg fun hn => hj hn.1, if_neg fun hn => hj hn.1]

theorem node_upd (h : DiskSound sb disk) (hsp : Spares sb disk disk' i) {n : Option Node}
    (hn : nodeOf sb disk' i = n) : nodeOf sb disk' = upd (nodeOf sb disk) i n := by
  funext j
  by_cases hji : j = i
  · rw [hji, upd_self, hn]
  · rw [upd_of_ne hji, h.nodeOf_eq hsp hji]

end DiskSound

/-! ## The cache between two operations -/

/-- The state between two operations of the inode layer. -/
structure Sound (s : State) : Prop where
  disk : DiskSound s.sb s.disk
  inum : ∀ ip, 0 < (s.inode ip).ref → (s.inode ip).inum < s.sb.ninodes
  /-- no inode is in two places of the cache -/
  inj : ∀ ip iq, 0 < (s.inode ip).ref → 0 < (s.inode iq).ref →
    (s.inode ip).inum = (s.inode iq).inum → ip = iq
  /-- a valid copy is what the disk holds, of an allocated inode -/
  copy : ∀ ip, 0 < (s.inode ip).ref → (s.inode ip).valid = true →
    (s.inode ip).din = dinode s.disk s.sb (s.inode ip).inum ∧ (s.inode ip).din.type ≠ 0
  /-- an empty place is not locked -/
  unlocked : ∀ ip, (s.inode ip).ref = 0 → (s.inode ip).locked = false

namespace Sound

variable {s s' : State} {ip : Icache}

theorem view_eq (h : Sound s) (href : 0 < (s.inode ip).ref) (hv : (s.inode ip).valid = true) :
    view s ip = dinode s.disk s.sb := by
  funext j
  by_cases hj : j = (s.inode ip).inum
  · rw [hj, view_self, (h.copy ip href hv).1]
  · exact view_of_ne hj

theorem ready (h : Sound s) (ho : 1 ≤ s.outstanding) (href : 0 < (s.inode ip).ref)
    (hv : (s.inode ip).valid = true) : Ready s ip where
  wf := h.disk.wf
  super := h.disk.super
  trans := ho
  inum := h.inum ip href
  type := (h.copy ip href hv).2
  owned := by
    rw [h.view_eq href hv]
    exact h.disk.owned

theorem noHoles (h : Sound s) (href : 0 < (s.inode ip).ref) (hv : (s.inode ip).valid = true) :
    (s.inode ip).din.NoHoles s.disk := by
  obtain ⟨hcopy, ht⟩ := h.copy ip href hv
  rw [hcopy] at ht ⊢
  exact h.disk.noHoles _ (h.inum ip href) ht

theorem node_eq (h : Sound s) (href : 0 < (s.inode ip).ref) (hv : (s.inode ip).valid = true) :
    nodeOf s.sb s.disk (s.inode ip).inum = some ((s.inode ip).din.node s.disk) := by
  obtain ⟨hcopy, ht⟩ := h.copy ip href hv
  rw [hcopy] at ht ⊢
  exact if_pos ⟨h.inum ip href, ht⟩

end Sound

/-! ## `readi` -/

/-- Reading `n` bytes at `off` from a list: what there is of them, or `none` past the end or when
the range wraps around. -/
def readData (l : List UInt8) (off n : UInt32) : Option (List UInt8) :=
  if l.length < off.toNat ∨ 2 ^ 32 ≤ off.toNat + n.toNat then none
  else some ((l.drop off.toNat).take n.toNat)

@[simp] theorem Dinode.length_data (disk : Disk) (d : Dinode) :
    (d.data disk).length = d.size.toNat := length_slice _ _ _

theorem add_lt_left_iff (off n : UInt32) : off + n < off ↔ 2 ^ 32 ≤ off.toNat + n.toNat := by
  have h1 := off.toNat_lt
  have h2 := n.toNat_lt
  rw [UInt32.lt_iff_toNat_lt, UInt32.toNat_add]
  omega

theorem toNat_add_of_lt {off n : UInt32} (h : off.toNat + n.toNat < 2 ^ 32) :
    (off + n).toNat = off.toNat + n.toNat := by
  rw [UInt32.toNat_add, Nat.mod_eq_of_lt h]

/-- `readi` of a range in which every block has an address returns the bytes of the range and
changes nothing. -/
theorem readi_range_eq {s : State} {ip : Icache} {off n : UInt32}
    (h : ∀ x, off.toNat ≤ x → x < off.toNat + n.toNat → x < (s.inode ip).din.size.toNat →
      (s.inode ip).din.addr s.disk (x / BSIZE) ≠ 0) (ht : (s.inode ip).din.type ≠ T_DEV) :
    readi ip off n s = .ok (readData ((s.inode ip).din.data s.disk) off n, s) := by
  have hsize := (s.inode ip).din.length_data s.disk
  have hlt := (s.inode ip).din.size.toNat_lt
  show (if (s.inode ip).din.type = T_DEV then _ else _ : Op (Option (List UInt8))) s = _
  rw [if_neg ht, readData, hsize]
  by_cases hfail : (s.inode ip).din.size < off ∨ off + n < off
  · rw [if_pos hfail, if_pos]
    · rfl
    · rwa [UInt32.lt_iff_toNat_lt, add_lt_left_iff] at hfail
  · have hok : ¬ ((s.inode ip).din.size.toNat < off.toNat ∨ 2 ^ 32 ≤ off.toNat + n.toNat) := by
      rwa [UInt32.lt_iff_toNat_lt, add_lt_left_iff] at hfail
    rw [if_neg hfail, if_neg hok]
    obtain ⟨n', hn'⟩ :
      ∃ n', n' = if (s.inode ip).din.size < off + n then (s.inode ip).din.size - off
      else n := ⟨_, rfl⟩
    have hlen : n'.toNat = min n.toNat ((s.inode ip).din.size.toNat - off.toNat) := by
      have hadd := toNat_add_of_lt (show off.toNat + n.toNat < 2 ^ 32 by omega)
      rw [hn']
      by_cases hcut : (s.inode ip).din.size < off + n
      · have hsub : ((s.inode ip).din.size - off).toNat =
            (s.inode ip).din.size.toNat - off.toNat :=
          UInt32.toNat_sub_of_le _ _ (UInt32.le_iff_toNat_le.mpr (by omega))
        rw [if_pos hcut, hsub]
        rw [UInt32.lt_iff_toNat_lt, hadd] at hcut
        omega
      · rw [if_neg hcut]
        rw [UInt32.lt_iff_toNat_lt, hadd] at hcut
        omega
    have hloop : readiLoop ip n'.toNat off.toNat n'.toNat s =
        .ok (slice ((s.inode ip).din.byte s.disk) off.toNat n'.toNat, s) :=
      readiLoop_eq n'.toNat le_rfl fun x h1 h2 => h x h1 (by omega) (by omega)
    show (readiLoop ip _ off.toNat _ s >>= fun r => _) = _
    rw [← hn', hloop, Dinode.data, drop_slice, take_slice, Nat.zero_add, hlen]
    rfl

/-- **`readi`** of a file without holes returns the bytes of its contents and changes nothing. -/
theorem readi_eq {s : State} {ip : Icache} (h : (s.inode ip).din.NoHoles s.disk)
    (ht : (s.inode ip).din.type ≠ T_DEV) (off n : UInt32) :
    readi ip off n s = .ok (readData ((s.inode ip).din.data s.disk) off n, s) :=
  readi_range_eq (fun _ _ _ hx => h.addr_div hx) ht

theorem readi_dev {s : State} {ip : Icache} (ht : (s.inode ip).din.type = T_DEV) (off n : UInt32) :
    ∃ r, readi ip off n s = .ok (r, s) := by
  show ∃ r, (if (s.inode ip).din.type = T_DEV then _ else _ : Op (Option (List UInt8))) s = _
  rw [if_pos ht]
  by_cases hm : (s.inode ip).din.major < 0 ∨ (NDEV : ℤ) ≤ (s.inode ip).din.major.toInt
  · rw [if_pos hm]
    exact ⟨none, rfl⟩
  · rw [if_neg hm]
    cases (s.devsw (s.inode ip).din.major.toInt.toNat).read with
    | none => exact ⟨none, rfl⟩
    | some read => exact ⟨read n.toNat, rfl⟩

/-- **Reading never allocates.**  A read of a file without holes leaves the whole state as it
was. -/
theorem readi_ok {s : State} {ip : Icache} (h : (s.inode ip).din.NoHoles s.disk) (off n : UInt32) :
    ∃ r, readi ip off n s = .ok (r, s) := by
  by_cases ht : (s.inode ip).din.type = T_DEV
  · exact readi_dev ht off n
  · exact ⟨_, readi_eq h ht off n⟩

/-! ## Storing the copy -/

namespace Spares

variable {sb : Superblock} {disk disk' disk'' : Disk} {i : ℕ}

/-- Where the data blocks are as they were, so are the contents of the other inodes. -/
theorem of_block
    (howned : ∀ j, j < sb.ninodes → j ≠ i → (dinode disk sb j).type ≠ 0 → ∀ p,
      (dinode disk sb j).ptr disk p ≠ 0 → sb.nmeta ≤ (dinode disk sb j).ptr disk p)
    (hdin : ∀ j, j < sb.ninodes → j ≠ i → dinode disk' sb j = dinode disk sb j)
    (hblock : ∀ c, sb.nmeta ≤ c → disk' c = disk c) : Spares sb disk disk' i := by
  have haddr : ∀ j, j < sb.ninodes → j ≠ i → (dinode disk sb j).type ≠ 0 → ∀ bn,
      (dinode disk sb j).addr disk' bn = (dinode disk sb j).addr disk bn := fun j hj hji ht =>
    Dinode.addr_congr (Dinode.ptr_congr fun hne => hblock _ (howned j hj hji ht _ hne))
  refine ⟨hdin, fun j hj hji ht bn _ => haddr j hj hji ht bn, fun j hj hji ht x hx => ?_⟩
  have hle : sb.nmeta ≤ (dinode disk sb j).addr disk (x / BSIZE) := by
    have hbn := Dinode.lt_maxfile hx
    rw [Dinode.addr_eq hbn] at hx ⊢
    exact howned j hj hji ht _ hx
  rw [Dinode.byte, Dinode.byte, haddr j hj hji ht, hblock _ hle]

theorem trans (h : Spares sb disk disk' i) (h' : Spares sb disk' disk'' i) :
    Spares sb disk disk'' i where
  din := fun j hj hji => (h'.din j hj hji).trans (h.din j hj hji)
  addr := fun j hj hji ht bn ha => by
    have hdin := h.din j hj hji
    have heq := h.addr j hj hji ht bn ha
    have h2 := h'.addr j hj hji (by rwa [hdin]) bn (by rwa [hdin, heq])
    rwa [hdin, heq] at h2
  byte := fun j hj hji ht x ha => by
    have hdin := h.din j hj hji
    have heq := h.addr j hj hji ht _ ha
    have h2 := h'.byte j hj hji (by rwa [hdin]) x (by rwa [hdin, heq])
    rw [hdin] at h2
    rw [h2, h.byte j hj hji ht x ha]

end Spares

theorem Evolves.spares {s s' : State} {ip : Icache} {lo hi : ℕ} (hev : Evolves s s' ip lo hi) :
    Spares s.sb s.disk s'.disk (s.inode ip).inum := by
  have hview : ∀ {j}, j ≠ (s.inode ip).inum → view s ip j = Fs.dinode s.disk s.sb j :=
    view_of_ne
  have hview' : ∀ {j}, j < s.sb.ninodes → j ≠ (s.inode ip).inum →
      view s' ip j = Fs.dinode s.disk s.sb j := by
    intro j hj hji
    rw [view_of_ne (by rwa [hev.inum]), hev.sb, hev.dinode j hj]
  refine ⟨fun j hj _ => hev.dinode j hj, fun j hj hji ht bn ha => ?_, fun j hj hji ht x ha => ?_⟩
  · have h := hev.addr j hj (by rwa [hview hji]) bn (by rwa [hview hji])
    rwa [hview hji, hview' hj hji] at h
  · have h := hev.byte j hj (by rwa [hview hji]) x (by rwa [hview hji]) fun h => hji h.1
    rwa [hview hji, hview' hj hji] at h

namespace Ready

variable {s : State} {ip : Icache}

/-- The copy's links, its size and its device numbers do not matter to the free map. -/
theorem putDin (hr : Ready s ip) {d : Dinode} (haddrs : d.addrs = (s.inode ip).din.addrs)
    (htype : d.type = (s.inode ip).din.type) : Ready (s.putDin ip d) ip where
  wf := hr.wf
  super := hr.super
  trans := hr.trans
  inum := by rw [putDin_self]; exact hr.inum
  type := by rw [putDin_self]; exact htype ▸ hr.type
  owned := by
    refine hr.owned.congr (fun _ _ => rfl) ?_
    rintro ⟨j, p⟩
    have hview : (view (s.putDin ip d) ip j).type = (view s ip j).type ∧
        (view (s.putDin ip d) ip j).addrs = (view s ip j).addrs := by
      rw [view, view, putDin_self]
      by_cases hj : j = (s.inode ip).inum
      · simp only [hj, upd_self, htype, haddrs, and_self]
      · rw [upd_of_ne hj, upd_of_ne hj]
        exact ⟨rfl, rfl⟩
    rw [pointers, pointers]
    simp only [hview.1]
    exact if_congr Iff.rfl (Dinode.ptr_of_addrs hview.2 p) rfl

theorem ptr_le (hr : Ready s ip) {j : ℕ} (hj : j < s.sb.ninodes) (ht : (view s ip j).type ≠ 0)
    {p : Ptr} (hp : (view s ip j).ptr s.disk p ≠ 0) :
    s.sb.nmeta ≤ (view s ip j).ptr s.disk p := (hr.owned.ptr_range hj ht hp).1

/-- After `iupdate` the disk is owned by its own inodes. -/
theorem owned_update (hr : Ready s ip) :
    Owned s.sb (s.update ip).disk (dinode (s.update ip).disk s.sb) := by
  refine hr.owned.congr (fun b _ => used_update hr.wf hr.inum b) ?_
  rintro ⟨j, p⟩
  rw [pointers, pointers]
  simp only [dinode_update]
  by_cases hj : j < s.sb.ninodes ∧ (view s ip j).type ≠ 0
  · rw [if_pos hj, if_pos hj]
    exact Dinode.ptr_congr (fun hne => block_update hr.wf hr.inum (hr.ptr_le hj.1 hj.2 hne)) p
  · rw [if_neg hj, if_neg hj]

theorem spares_update (hr : Ready s ip) :
    Spares s.sb s.disk (s.update ip).disk (s.inode ip).inum := by
  refine Spares.of_block (fun j hj hji ht p hp => ?_) (fun j hj hji => ?_) fun c hc =>
    block_update hr.wf hr.inum hc
  · rw [← view_of_ne hji] at ht hp ⊢
    exact hr.ptr_le hj ht hp
  · rw [dinode_update, view_of_ne hji]

theorem addr_update (hr : Ready s ip) (bn : ℕ) :
    (s.inode ip).din.addr (s.update ip).disk bn = (s.inode ip).din.addr s.disk bn := by
  refine Dinode.addr_congr (Dinode.ptr_congr fun hne => block_update hr.wf hr.inum ?_) bn
  have hti := hr.type
  rw [← view_self] at hti hne ⊢
  exact hr.ptr_le hr.inum hti hne

theorem byte_update (hr : Ready s ip) {x : ℕ}
    (hx : (s.inode ip).din.addr s.disk (x / BSIZE) ≠ 0) :
    (s.inode ip).din.byte (s.update ip).disk x = (s.inode ip).din.byte s.disk x := by
  rw [Dinode.byte, Dinode.byte, hr.addr_update]
  exact congrFun (block_update hr.wf hr.inum (hr.nmeta_le rfl hx)) _

end Ready

/-- The place `ip` of the cache is used differently, and the inodes of the other places are on the
disk as they were. -/
theorem Sound.place {s s' : State} {ip : Icache} {n : Inode} (h : Sound s) (hsb : s'.sb = s.sb)
    (hdisk : DiskSound s.sb s'.disk) (hself : s'.inode ip = n)
    (hother : ∀ iq, iq ≠ ip → s'.inode iq = s.inode iq)
    (hdin : ∀ iq, iq ≠ ip → 0 < (s.inode iq).ref →
      dinode s'.disk s.sb (s.inode iq).inum = dinode s.disk s.sb (s.inode iq).inum)
    (hinum : 0 < n.ref → n.inum < s.sb.ninodes)
    (hinj : 0 < n.ref → ∀ iq, iq ≠ ip → 0 < (s.inode iq).ref → (s.inode iq).inum ≠ n.inum)
    (hcopy : 0 < n.ref → n.valid = true → n.din = dinode s'.disk s.sb n.inum ∧ n.din.type ≠ 0)
    (hunlocked : n.ref = 0 → n.locked = false) : Sound s' := by
  subst hself
  refine ⟨hsb ▸ hdisk, fun iq hq => ?_, fun iq ir hq hr heq => ?_, fun iq hq hv => ?_,
    fun iq hq => ?_⟩
  · rw [hsb]
    by_cases hqi : iq = ip
    · subst hqi
      exact hinum hq
    · rw [hother iq hqi] at hq ⊢
      exact h.inum iq hq
  · by_cases hqi : iq = ip
    · by_cases hri : ir = ip
      · rw [hqi, hri]
      · subst hqi
        rw [hother ir hri] at hr heq
        exact absurd heq.symm (hinj hq ir hri hr)
    · rw [hother iq hqi] at hq heq
      by_cases hri : ir = ip
      · subst hri
        exact absurd heq (hinj hr iq hqi hq)
      · rw [hother ir hri] at hr heq
        exact h.inj iq ir hq hr heq
  · rw [hsb]
    by_cases hqi : iq = ip
    · subst hqi
      exact hcopy hq hv
    · rw [hother iq hqi] at hq hv ⊢
      rw [hdin iq hqi hq]
      exact h.copy iq hq hv
  · by_cases hqi : iq = ip
    · subst hqi
      exact hunlocked hq
    · rw [hother iq hqi] at hq ⊢
      exact h.unlocked iq hq

/-- A change to one inode on the disk leaves the copies of the others as they are. -/
theorem Sound.din_spared {s : State} {ip iq : Icache} {disk : Disk} (h : Sound s)
    (hsp : Spares s.sb s.disk disk (s.inode ip).inum) (href : 0 < (s.inode ip).ref) (hne : iq ≠ ip)
    (hq : 0 < (s.inode iq).ref) :
    dinode disk s.sb (s.inode iq).inum = dinode s.disk s.sb (s.inode iq).inum :=
  hsp.din _ (h.inum iq hq) fun heq => hne (h.inj iq ip hq href heq)

/-- The cache after an operation on the inode at `ip` whose copy has reached the disk. -/
theorem Sound.of_local {s s' : State} {ip : Icache} (h : Sound s) (hloc : Local s s' ip)
    (hdisk : DiskSound s.sb s'.disk)
    (hself : (s'.inode ip).din = dinode s'.disk s.sb (s.inode ip).inum)
    (htype : (s'.inode ip).din.type ≠ 0)
    (hsp : Spares s.sb s.disk s'.disk (s.inode ip).inum) (href : 0 < (s.inode ip).ref) :
    Sound s' := by
  refine h.place hloc.sb hdisk rfl hloc.inode (fun _ => h.din_spared hsp href) (fun _ => ?_)
    (fun _ iq hq hr heq => ?_) (fun _ _ => ⟨?_, htype⟩) fun hz => ?_
  · rw [hloc.inum]
    exact h.inum ip href
  · rw [hloc.inum] at heq
    exact hq (h.inj iq ip hr href heq)
  · rw [hloc.inum]
    exact hself
  · rw [hloc.ref] at hz
    exact absurd hz (ne_of_gt href)

theorem Local.abs_eq {s s' : State} {ip : Icache} (hloc : Local s s' ip) {i : ℕ} {n : Option Node}
    (hnode : nodeOf s.sb s'.disk = upd (nodeOf s.sb s.disk) i n) :
    s'.abs = s.abs.putNode i n := by
  have htag : ∀ iq, (s'.inode iq).tag = (s.inode iq).tag := by
    intro iq
    by_cases hq : iq = ip
    · rw [hq, Inode.tag, Inode.tag, hloc.inum, hloc.ref, hloc.locked, hloc.valid]
    · rw [hloc.inode iq hq]
  refine Abs.ext (by rw [State.abs, hloc.sb]; rfl) ?_ (funext htag) hloc.file hloc.proc hloc.devsw
    hloc.outstanding hloc.history
  rw [State.abs, hloc.sb]
  exact hnode

/-- **The copy is stored.**  The state after `iupdate`, if the copy has no holes. -/
theorem Sound.store {s s1 : State} {ip : Icache} (h : Sound s) (href : 0 < (s.inode ip).ref)
    (hr1 : Ready s1 ip) (hloc : Local s s1 ip)
    (hsp : Spares s.sb s.disk s1.disk (s.inode ip).inum)
    (hfull : (s1.inode ip).din.NoHoles s1.disk) :
    Sound (s1.update ip) ∧
      (s1.update ip).abs =
        s.abs.putNode (s.inode ip).inum (some ((s1.inode ip).din.node s1.disk)) := by
  have hsp2 : Spares s.sb s.disk (s1.update ip).disk (s.inode ip).inum := by
    have h1 := hr1.spares_update
    rw [hloc.sb, hloc.inum] at h1
    exact hsp.trans h1
  have hloc2 : Local s (s1.update ip) ip := hloc.trans (Local.write s1 ip _ _)
  have hself : dinode (s1.update ip).disk s.sb (s.inode ip).inum = (s1.inode ip).din := by
    rw [← hloc.sb, dinode_update, ← hloc.inum, view_self]
  have hfull2 : (s1.inode ip).din.NoHoles (s1.update ip).disk := by
    intro bn hbn
    rw [hr1.addr_update]
    exact hfull bn hbn
  have hdisk : DiskSound s.sb (s1.update ip).disk := by
    refine h.disk.change hsp2 ?_ ?_ fun _ => by rw [hself]; exact hfull2
    · rw [readsb_update hr1.wf, hr1.super, hloc.sb, h.disk.super]
    · rw [← hloc.sb]
      exact hr1.owned_update
  refine ⟨h.of_local hloc2 hdisk hself.symm hr1.type hsp2 href, hloc2.abs_eq ?_⟩
  refine h.disk.node_upd hsp2 ?_
  have hdata : (s1.inode ip).din.data (s1.update ip).disk = (s1.inode ip).din.data s1.disk :=
    slice_congr fun x _ hx => hr1.byte_update (hfull.addr_div (by omega))
  have hi : (s.inode ip).inum < s.sb.ninodes := h.inum ip href
  rw [nodeOf, hself, if_pos ⟨hi, hr1.type⟩, Dinode.node, Dinode.node, hdata]

/-- `iupdate` after a change of the links or the device numbers. -/
theorem Sound.store_meta {s : State} {ip : Icache} (h : Sound s) (ho : 1 ≤ s.outstanding)
    (href : 0 < (s.inode ip).ref) (hv : (s.inode ip).valid = true) {d : Dinode}
    (htype : d.type = (s.inode ip).din.type) (hsize : d.size = (s.inode ip).din.size)
    (haddrs : d.addrs = (s.inode ip).din.addrs) :
    Sound ((s.putDin ip d).update ip) ∧
      ((s.putDin ip d).update ip).abs =
        s.abs.putNode (s.inode ip).inum (some (d.node s.disk)) := by
  have hr := h.ready ho href hv
  have hsp : Spares s.sb s.disk (s.putDin ip d).disk (s.inode ip).inum :=
    ⟨fun _ _ _ => rfl, fun _ _ _ _ _ _ => rfl, fun _ _ _ _ _ _ => rfl⟩
  have hfull : d.NoHoles s.disk := by
    intro bn hbn
    rw [Dinode.addr_of_addrs haddrs]
    exact h.noHoles href hv bn (by rwa [← hsize])
  have h1 := h.store href (hr.putDin haddrs htype) (Local.putDin s ip d) hsp
    (by rw [putDin_self]; exact hfull)
  rw [putDin_self] at h1
  exact h1

/-! ## `writei` -/

section Grow

variable {src : ℕ → UInt8} {s s1 : State} {ip : Icache} {off n : ℕ} {size : UInt32}
  (hev : Evolves s s1 ip off (off + n))
  (hbyte : ∀ k, k < n → (s1.inode ip).din.addr s1.disk ((off + k) / BSIZE) ≠ 0 ∧
    (s1.inode ip).din.byte s1.disk (off + k) = src k)
  (hoff : off ≤ (s.inode ip).din.size.toNat)

include hev hbyte hoff

/-- A file that has grown over a range in which every block has an address has no holes. -/
theorem Evolves.noHoles_grow (hr : Ready s ip) (hfull : (s.inode ip).din.NoHoles s.disk)
    (hsize : size.toNat = off + n) :
    Dinode.NoHoles s1.disk { (s1.inode ip).din with size := size } := by
  intro bn hbn
  have hB : 0 < BSIZE := by decide
  have haddr : Dinode.addr s1.disk { (s1.inode ip).din with size := size } bn =
      (s1.inode ip).din.addr s1.disk bn := rfl
  rw [haddr]
  by_cases hold : bn * BSIZE < (s.inode ip).din.size.toNat
  · rw [hev.addr_self hr.inum hr.type (hfull bn hold)]
    exact hfull bn hold
  · rw [hsize] at hbn
    have hk := (hbyte (bn * BSIZE - off) (by omega)).1
    have hplace : off + (bn * BSIZE - off) = bn * BSIZE := by omega
    rwa [hplace, Nat.mul_div_cancel bn hB] at hk

/-- The bytes of a file after a range of it was written. -/
theorem Evolves.data_eq (hr : Ready s ip) (hfull : (s.inode ip).din.NoHoles s.disk) :
    slice ((s1.inode ip).din.byte s1.disk) 0 (max (s.inode ip).din.size.toNat (off + n)) =
      splice ((s.inode ip).din.data s.disk) off (slice src 0 n) :=
  slice_eq_splice hoff
    (fun _ hx hout => (hev.byte_self hr.inum hr.type (hfull.addr_div hx) hout).2)
    fun k hk => (hbyte k hk).2

/-- The state after a file has grown over the range that was written, with its new size stored. -/
theorem Sound.grow (h : Sound s) (ho : 1 ≤ s.outstanding) (href : 0 < (s.inode ip).ref)
    (hv : (s.inode ip).valid = true) (hr1 : Ready s1 ip) (hsize : size.toNat = off + n)
    (hgrow : (s.inode ip).din.size.toNat ≤ off + n) :
    Sound ((s1.putDin ip { (s1.inode ip).din with size := size }).update ip) ∧
      ((s1.putDin ip { (s1.inode ip).din with size := size }).update ip).abs =
        s.abs.putNode (s.inode ip).inum (some { (s.inode ip).din.node s.disk with
          data := splice ((s.inode ip).din.data s.disk) off (slice src 0 n) }) := by
  have hr := h.ready ho href hv
  have hfull := h.noHoles href hv
  have hdata := hev.data_eq hbyte hoff hr hfull
  rw [Nat.max_eq_right hgrow, ← hsize] at hdata
  obtain ⟨hs2, habs⟩ := h.store href (hr1.putDin (d := { (s1.inode ip).din with size := size })
    rfl rfl) (hev.toLocal.trans (Local.putDin s1 ip _)) hev.spares (by
      rw [putDin_self]
      exact hev.noHoles_grow hbyte hoff hr hfull hsize)
  refine ⟨hs2, habs.trans ?_⟩
  rw [putDin_self]
  refine congrArg (fun nd => s.abs.putNode _ (some nd)) ?_
  show Node.mk (s1.inode ip).din.type (s1.inode ip).din.major (s1.inode ip).din.minor
    (s1.inode ip).din.nlink (slice ((s1.inode ip).din.byte s1.disk) 0 size.toNat) = _
  rw [hdata, hev.din]
  rfl

end Grow

/-- Writing the bytes `m` at `off` into a list: they replace what is there and extend it, or `none`
past the end, when the range wraps around, or when the file would grow too long. -/
def writeData (l : List UInt8) (off : ℕ) (m : List UInt8) : Option (List UInt8) :=
  if l.length < off ∨ 2 ^ 32 ≤ off + m.length ∨ MAXFILE * BSIZE < off + m.length then none
  else some (splice l off m)

/-- The pointers that the blocks of a range need. -/
def Ptr.span (off n : ℕ) : Finset Ptr :=
  ((Finset.range MAXFILE).filter fun bn => off / BSIZE ≤ bn ∧ bn * BSIZE < off + n).biUnion
    fun bn => if h : bn < MAXFILE then Ptr.needed bn h else ∅

theorem Ptr.needed_subset_span {off n bn : ℕ} (h : bn < MAXFILE) (h1 : off / BSIZE ≤ bn)
    (h2 : bn * BSIZE < off + n) : Ptr.needed bn h ⊆ Ptr.span off n := by
  intro p hp
  refine Finset.mem_biUnion.mpr ⟨bn, ?_, ?_⟩
  · exact Finset.mem_filter.mpr ⟨Finset.mem_range.mpr h, h1, h2⟩
  · rw [dif_pos h]
    exact hp

/-- **`writei`** of a file writes into its contents as into a list of bytes, and leaves every other
node alone.  It stops only if too few blocks are free for the range. -/
theorem writei_spec {s : State} {ip : Icache} (h : Sound s) (ho : 1 ≤ s.outstanding)
    (href : 0 < (s.inode ip).ref) (hv : (s.inode ip).valid = true)
    (ht : (s.inode ip).din.type ≠ T_DEV) (src : ℕ → UInt8) (off n : UInt32) :
    wp (writei ip src off n) s
      (fun r s' =>
        match writeData ((s.inode ip).din.data s.disk) off.toNat (slice src 0 n.toNat) with
        | none => r = -1 ∧ s' = s
        | some l => r = n.toNat ∧ Sound s' ∧ s'.abs = s.abs.putNode (s.inode ip).inum
            (some { (s.inode ip).din.node s.disk with data := l }))
      (fun e => e = .panic .ballocOutOfBlocks ∧
        ¬ Credit s ip (Ptr.span off.toNat n.toNat)) := by
  have hsize := (s.inode ip).din.length_data s.disk
  rw [writei, wp_bind, wp_get]
  simp only [if_neg ht]
  rw [writeData, length_slice, hsize]
  by_cases hfail : (s.inode ip).din.size < off ∨ off + n < off
  · rw [if_pos hfail, wp_pure, if_pos]
    · exact ⟨rfl, rfl⟩
    · rw [UInt32.lt_iff_toNat_lt, add_lt_left_iff] at hfail
      omega
  rw [if_neg hfail]
  rw [UInt32.lt_iff_toNat_lt, add_lt_left_iff] at hfail
  have hadd := toNat_add_of_lt (show off.toNat + n.toNat < 2 ^ 32 by omega)
  by_cases hbig : MAXFILE * BSIZE < (off + n).toNat
  · rw [if_pos hbig, wp_pure, if_pos]
    · exact ⟨rfl, rfl⟩
    · rw [hadd] at hbig
      omega
  rw [if_neg hbig]
  rw [hadd] at hbig
  have hok : ¬ ((s.inode ip).din.size.toNat < off.toNat ∨ 2 ^ 32 ≤ off.toNat + n.toNat ∨
      MAXFILE * BSIZE < off.toNat + n.toNat) := by omega
  rw [if_neg hok]
  have hr := h.ready ho href hv
  have hfull := h.noHoles href hv
  refine (writeiLoop_spec n.toNat hr le_rfl (by omega) fun bn hbn h1 h2 =>
    Ptr.needed_subset_span hbn h1 h2).bind ?_
  rintro _ s1 ⟨hr1, hev, -, hbyte, hinode⟩
  have hoff : off.toNat ≤ (s.inode ip).din.size.toNat := by omega
  rw [wp_ite]
  refine ⟨fun hgrow => ?_, fun hgrow => ?_⟩
  · rw [UInt32.lt_iff_toNat_lt, UInt32.lt_iff_toNat_lt, hadd] at hgrow
    rw [wp_bind, wp_setDin, wp_bind]
    refine wp_of_ok (iupdate_eq (by exact hr1.trans) ip) ⟨rfl, ?_⟩
    exact h.grow hev hbyte hoff ho href hv hr1 hadd (by omega)
  · have hend : n.toNat = 0 ∨ off.toNat + n.toNat ≤ (s.inode ip).din.size.toNat := by
      rw [UInt32.lt_iff_toNat_lt, UInt32.lt_iff_toNat_lt, hadd] at hgrow
      have hzero : (0 : UInt32).toNat = 0 := rfl
      omega
    have hsame := hinode fun k hk => hfull.addr_div (by omega)
    have hmax : max (s.inode ip).din.size.toNat (off.toNat + n.toNat) =
        (s.inode ip).din.size.toNat := by omega
    have hdata := hev.data_eq hbyte hoff hr hfull
    have hself : (s1.inode ip).din = dinode s1.disk s.sb (s.inode ip).inum := by
      rw [hsame, hev.dinode _ hr.inum, (h.copy ip href hv).1]
    have hview : view s1 ip = dinode s1.disk s.sb := by
      funext j
      rw [view, hev.inum, hev.sb, hself, upd_eq_self]
    have hdisk : DiskSound s.sb s1.disk := by
      refine h.disk.change hev.spares ?_ ?_ fun _ => ?_
      · rw [hr1.super, hev.sb, h.disk.super]
      · have howned := hr1.owned
        rwa [hview, hev.sb] at howned
      · rw [← hself, hsame]
        intro bn hbn
        have h1 := hev.addr_self hr.inum hr.type (hfull bn hbn)
        rw [hsame] at h1
        rw [h1]
        exact hfull bn hbn
    refine ⟨rfl, h.of_local hev.toLocal hdisk hself hr1.type hev.spares href,
      hev.toLocal.abs_eq (h.disk.node_upd hev.spares ?_)⟩
    rw [nodeOf, ← hself, if_pos ⟨hr.inum, hr1.type⟩]
    rw [hmax] at hdata
    refine congrArg some ?_
    show Node.mk (s1.inode ip).din.type (s1.inode ip).din.major (s1.inode ip).din.minor
      (s1.inode ip).din.nlink (slice ((s1.inode ip).din.byte s1.disk) 0
        (s1.inode ip).din.size.toNat) = _
    rw [hsame] at hdata ⊢
    rw [hdata]
    rfl

end Xv6.Fs
