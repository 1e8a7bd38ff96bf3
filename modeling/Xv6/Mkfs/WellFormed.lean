import Xv6.Mkfs.Image

/-!
# When the image is well formed

`mkfs` can end with `exit(0)` and leave an image that the kernel cannot use.  Two of its steps are
not checked by any assertion.  `ialloc` does not compare the inode number with the number of inodes
that the super block announces, so the files from the 199th on have inodes that the kernel does not
know.  And the size of the root directory is rounded up to the next block even if it ends at one, so
with a number of entries that fills its blocks exactly the last block of the directory is a hole.

That is all: `main_wellFormed_iff` says that the image is well formed if and only if neither of the
two happens.
-/

namespace Xv6.Mkfs

open Lib Fs

/-! ## The empty image -/

/-- The state after the super block was written. -/
def blank : State := ⟨upd (fun _ => zeroBlock) 1 superBlock, FSSIZE, 1, nmeta⟩

theorem zeroSectors_eq {n : ℕ} (hn : n ≤ FSSIZE) :
    zeroSectors n start = .ok ((), { start with nsect := n }) := by
  induction n with
  | zero => rfl
  | succ n ih =>
    have hmax : max n (n + 1) = n + 1 := by omega
    have hzero : upd (fun _ => zeroBlock) n zeroBlock = fun _ => zeroBlock :=
      upd_eq_self (f := fun _ => zeroBlock)
    rw [zeroSectors]
    show (zeroSectors n start >>= fun r => wsect n zeroBlock r.2) = _
    rw [ih (by omega)]
    show Except.ok ((), ({ start with
      img := upd (fun _ => zeroBlock) (seek n) zeroBlock
      nsect := max n (seek n + 1) } : State)) = _
    rw [seek_of_lt (by omega), hmax, hzero]
    rfl

/-- The program up to the super block. -/
theorem main_eq (files : List Input) : main files start = populate files blank := by
  have hsuper : wsect 1 superBlock { start with nsect := FSSIZE } = .ok ((), blank) := rfl
  rw [main, bind_ok (zeroSectors_eq (Nat.le_refl FSSIZE)), bind_ok hsuper]

theorem blank_img {b : ℕ} (h : b ≠ 1) : blank.img b = zeroBlock := by
  show upd (fun _ => zeroBlock) 1 superBlock b = zeroBlock
  exact upd_of_ne h

theorem blank_disk {b : ℕ} (h1 : b ≠ 1) (h2 : b ≠ sb.bmapstart) : blank.disk b = zeroBlock := by
  rw [disk_of_ne h2, blank_img h1]

theorem blank_tidy : Tidy blank where
  nsect := rfl
  ge := le_rfl
  le := by decide
  zero := fun b hb => blank_img (ne_of_gt (lt_of_lt_of_le (show 1 < blank.freeblock by decide) hb))

theorem blank_type {i : ℕ} (hi : i < NINODES) : (dinode blank.disk sb i).type = 0 := by
  have h1 := sb_wf.two_le_iblock i
  have h2 := iblock_lt hi
  rw [dinode, blank_disk (by omega) (by omega)]
  rfl

theorem blank_node (i : ℕ) : nodeOf sb blank.disk i = none :=
  if_neg fun hn => hn.2 (blank_type hn.1)

theorem blank_sound : DiskSound sb blank.disk := by
  refine DiskSound.empty sb_wf ?_ (fun i hi => blank_type hi) fun b hb => ?_
  · have hblk : blank.disk 1 = superBlock := by
      rw [disk_of_ne (by decide)]
      show upd (fun _ => zeroBlock) 1 superBlock 1 = superBlock
      exact upd_self
    rw [readsb, hblk]
    simp only [superBlock, entry_putEntry]
    rfl
  · rw [blank_tidy.used_disk hb, decide_eq_true_iff]
    rfl

theorem rootDots_spec {s : State} (hput : Puts blank s ROOTINO ⟨T_DIR, 0, 0, 1, []⟩)
    (hino : s.freeinode = 2) (hblk : s.freeblock = nmeta)
    (haddrs : ∀ k, (dinode s.disk sb ROOTINO).addrs k = 0) :
    wp rootDots s (fun _ s' => Laid [] s') (fun _ => False) := by
  have hnode : nodeOf sb s.disk ROOTINO = some ⟨T_DIR, 0, 0, 1, []⟩ := by rw [hput.node, upd_self]
  have hF : FSSIZE = 1000 := rfl
  have hM : nmeta = 59 := rfl
  have h1 :=
    iappend_spec hput.tidy hput.sound hnode (⟨ROOTINO, strncpy dot DIRSIZ⟩ : Dirent).toBytes
  simp only [Dirent.length_toBytes_strncpy, List.length_nil, Nat.zero_add, List.nil_append] at h1
  rw [rootDots]
  refine h1.chain (fun e he => ?_) ?_
  · rcases he with hbig | hfull
    · exact absurd hbig (by decide)
    · rw [hblk] at hfull
      exact absurd hfull (by decide)
  rintro _ s1 ⟨hput1, hino1, hfree1, hslot1⟩
  have hnode1 := congrFun hput1.node ROOTINO
  rw [upd_self] at hnode1
  have h2 := iappend_spec hput1.tidy hput1.sound hnode1
    (⟨ROOTINO, strncpy dotdot DIRSIZ⟩ : Dirent).toBytes
  simp only [Dirent.length_toBytes_strncpy] at h2
  have hb0 : blocksFor 0 = 0 := rfl
  have hb1 : blocksFor DESIZE = 1 := rfl
  have hb2 : blocksFor (DESIZE + DESIZE) = 1 := rfl
  refine h2.mono ?_ fun e he => ?_
  · rintro _ s2 ⟨hput2, hino2, hfree2, hslot2⟩
    refine ⟨hput2.tidy, hput2.sound, ?_, ?_, fun k hk hkn => ?_, ?_⟩
    · rw [hino2, hino1, hino]
      rfl
    · rw [hput2.node, hput1.node, upd_upd, hput.node, upd_upd]
      funext i
      match i with
      | 0 => exact blank_node 0
      | 1 => rfl
      | i + 2 => exact (upd_of_ne (by rw [ROOTINO]; omega)).trans (blank_node _)
    · rw [hslot2 k hk hkn, hslot1 k (le_trans (by decide) hk) hkn, haddrs]
    · have htotal : total [] = 1 := rfl
      omega
  · rcases he with hbig | hfull
    · exact absurd hbig (by decide)
    · omega

/-! ## The finished image -/

/-- The root directory of the finished image. -/
structure RootDir (files : List Input) (disk : Disk) (d : Dinode) : Prop where
  type : d.type = T_DIR
  size : d.size.toNat = (DESIZE * (files.length + 2) / BSIZE + 1) * BSIZE
  addr : ∀ x, x < DESIZE * (files.length + 2) → d.addr disk (x / BSIZE) ≠ 0
  data : slice (d.byte disk) 0 (DESIZE * (files.length + 2)) = rootData files
  /-- there is no block behind the last entry -/
  rest : ∀ k : Fin (NDIRECT + 1), DESIZE * (files.length + 2) ≤ k * BSIZE → k.val ≠ NDIRECT →
    d.addrs k = 0

/-- The finished image. -/
structure Built (files : List Input) (s : State) : Prop where
  super : readsb s.img = sb
  owned : Owned sb s.img (dinode s.img sb)
  freeinode : s.freeinode = files.length + 2
  node : ∀ i, i ≠ ROOTINO → nodeOf sb s.img i = nodes files i
  noHoles : ∀ i, i < NINODES → i ≠ ROOTINO → (dinode s.img sb i).type ≠ 0 →
    (dinode s.img sb i).NoHoles s.img
  root : RootDir files s.img (dinode s.img sb ROOTINO)

section Finish

variable {s : State} {files : List Input}

/-- The inode of the root directory before its size is rounded up. -/
theorem Laid.root (h : Laid files s) : (dinode s.disk sb ROOTINO).type = T_DIR ∧
    (dinode s.disk sb ROOTINO).data s.disk = rootData files := by
  have hnode : nodeOf sb s.disk ROOTINO = some ⟨T_DIR, 0, 0, 1, rootData files⟩ := by
    rw [h.node]
    rfl
  rw [nodeOf] at hnode
  split_ifs at hnode with hc
  have heq := Option.some.inj hnode
  exact ⟨congrArg Node.type heq, congrArg Node.data heq⟩

theorem roundup_toNat (size : UInt32) (h : size.toNat ≤ 4096) :
    ((size / 512 + 1) * 512).toNat = (size.toNat / BSIZE + 1) * BSIZE := by
  have hB : BSIZE = 512 := rfl
  rw [UInt32.toNat_mul, UInt32.toNat_add, UInt32.toNat_div, hB]
  show (size.toNat / 512 + 1) % 2 ^ 32 * 512 % 2 ^ 32 = _
  omega

/-- **The last steps.**  The size of the root directory is rounded up, and the free map is
written. -/
theorem Laid.finish (h : Laid files s) (hn : files.length + 2 ≤ NINODES) :
    wp (do
        fixRoot
        balloc (← get).freeblock) s (fun _ s' => Built files s') (fun _ => False) := by
  obtain ⟨htype, hdata⟩ := h.root
  have hrest := h.rest
  have hfull := h.sound.noHoles ROOTINO (by decide)
  obtain ⟨d, hdin⟩ : ∃ d, d = dinode s.disk sb ROOTINO := ⟨_, rfl⟩
  rw [← hdin] at htype hdata hrest hfull
  have ht : d.type ≠ 0 := by rw [htype]; decide
  replace hfull := hfull ht
  have hsize : d.size.toNat = DESIZE * (files.length + 2) := by
    rw [← length_rootData, ← hdata, Dinode.length_data]
  have hround := roundup_toNat d.size (by
    have hN : NINODES = 200 := rfl
    have hD : DESIZE = 16 := rfl
    rw [hsize, hD]
    omega)
  rw [wp_bind, fixRoot, wp_bind]
  refine wp_rinode h.tidy (by decide) ?_
  rw [← hdin]
  refine wp_winode h.tidy (by decide) ?_
  obtain ⟨d', hd'⟩ : ∃ d' : Dinode, d' = { d with size := (d.size / 512 + 1) * 512 } := ⟨_, rfl⟩
  rw [← hd', wp_bind, wp_get, balloc, wp_ite]
  have hfb : s.freeblock < BSIZE * 8 := lt_of_le_of_lt h.tidy.le (by decide)
  refine ⟨fun _ => ?_, fun hge => absurd hfb hge⟩
  refine wp_wsect rfl (by decide) ?_
  show Built files
    { s.putDinode ROOTINO d' with img := (s.putDinode ROOTINO d').disk, nsect := FSSIZE }
  -- the kernel's state after an `iupdate` of the root directory has this disk
  obtain ⟨ks, hks⟩ : ∃ ks, ks = mount s.disk ROOTINO d := ⟨_, rfl⟩
  have hinode : ks.inode place = ⟨ROOTINO, 1, true, true, d⟩ := by rw [hks]; rfl
  have hksb : ks.sb = sb := by rw [hks]; rfl
  have hkdisk : ks.disk = s.disk := by rw [hks]; rfl
  have hsound : Sound ks := by
    rw [hks]
    exact mount_sound h.sound (by decide) hdin ht
  have hready : Ready ks place := hsound.ready (by rw [hks]; exact le_rfl)
    (by rw [hinode]; exact Nat.one_pos) (by rw [hinode])
  have hr := hready.putDin (d := d') (by rw [hinode, hd']) (by rw [hinode, hd'])
  have hdisk : ((ks.putDin place d').update place).disk = (s.putDinode ROOTINO d').disk :=
    disk_update (by decide) hksb hkdisk (by rw [hinode]) d'
  have hself : dinode (s.putDinode ROOTINO d').disk sb ROOTINO = d' := by
    rw [disk_putDinode (by decide), dinode_putDinode, if_pos rfl]
  have hsuper := readsb_update hr.wf place
  have howned := hr.owned_update
  have hsp := hr.spares_update
  have haddr := hr.addr_update
  have hbyte := fun x => hr.byte_update (x := x)
  rw [putDin_self, hinode] at hsp haddr hbyte
  rw [show (ks.putDin place d').sb = sb from hksb] at howned hsp
  rw [show (ks.putDin place d').disk = s.disk from hkdisk] at hsuper hsp haddr hbyte
  rw [hdisk] at hsuper howned hsp haddr hbyte
  generalize (s.putDinode ROOTINO d').disk = disk at hself hsuper howned hsp haddr hbyte ⊢
  have haddrs : ∀ bn, d'.addr s.disk bn = d.addr s.disk bn :=
    Dinode.addr_of_addrs (by rw [hd'])
  have hin : ∀ x, x < DESIZE * (files.length + 2) → d'.addr s.disk (x / BSIZE) ≠ 0 := by
    intro x hx
    rw [haddrs]
    exact hfull.addr_div (by rwa [hsize])
  refine ⟨hsuper.trans h.sound.super, howned, h.freeinode, fun i hi => ?_,
    fun i hi hne hti => ?_, ?_⟩
  · rw [← h.node]
    exact h.sound.nodeOf_eq hsp hi
  · have hd : dinode disk sb i = dinode s.disk sb i := hsp.din i hi hne
    show (dinode disk sb i).NoHoles disk
    rw [show dinode _ sb i = _ from hd] at hti
    rw [hd]
    intro bn hbn
    have ha := h.sound.noHoles i hi hti bn hbn
    rwa [hsp.addr i hi hne hti bn ha]
  · show RootDir files disk (dinode disk sb ROOTINO)
    rw [hself]
    refine ⟨by rw [hd', ← htype], ?_, fun x hx => ?_, ?_, fun k hk hkn => ?_⟩
    · rw [hd', ← hsize]
      exact hround
    · rw [haddr]
      exact hin x hx
    · rw [← hdata, Dinode.data, hsize]
      refine slice_congr fun x _ hx => ?_
      rw [hbyte x (hin x (by omega)), Dinode.byte, Dinode.byte, haddrs]
    · rw [hd']
      exact hrest k hk hkn

/-- **What `mkfs` makes** of files that are not too many.  It fails only if a name has a slash in
it, a file is too long, or there are not enough blocks. -/
theorem populate_spec (hn : files.length + 2 ≤ NINODES) :
    wp (populate files) blank (fun _ s => Built files s)
      (fun _ => (∃ f ∈ files, slash ∈ f.name ∨ MAXFILE * BSIZE < f.data.length) ∨
        FSSIZE < nmeta + total files) := by
  rw [populate]
  refine (ialloc_spec blank_tidy blank_sound (by decide) (blank_node _)
    (show T_DIR ≠ 0 by decide)).chain (fun _ => False.elim) ?_
  rintro i s ⟨rfl, hput, hino, hblk, haddrs⟩
  rw [wp_ite]
  refine ⟨fun hne => absurd rfl hne, fun _ => ?_⟩
  refine (rootDots_spec hput hino hblk haddrs).chain (fun _ => False.elim) ?_
  intro _ s1 h1
  have hadd := addFiles_spec files h1 hn
  rw [List.nil_append] at hadd
  refine hadd.bind ?_
  intro _ s2 h2
  exact (h2.finish hn).mono (fun _ _ hq => hq) (fun _ => False.elim)

theorem main_built (hn : files.length + 2 ≤ NINODES) (hrun : main files start = .ok ((), s)) :
    Built files s :=
  (populate_spec hn).ok ((main_eq files).symm.trans hrun)

/-- `mkfs` ends with `exit(0)` on files that fit. -/
theorem main_ok (hn : files.length + 2 ≤ NINODES)
    (hfile : ∀ f ∈ files, slash ∉ f.name ∧ f.data.length ≤ MAXFILE * BSIZE)
    (htotal : nmeta + total files ≤ FSSIZE) : ∃ s, main files start = .ok ((), s) := by
  rw [main_eq]
  cases hrun : populate files blank with
  | ok r => exact ⟨r.2, rfl⟩
  | error e =>
    rcases (populate_spec hn).error hrun with ⟨f, hf, hbad⟩ | hfull
    · have := hfile f hf
      rcases hbad with hname | hlong
      · exact absurd hname this.1
      · exact absurd hlong (not_lt.mpr this.2)
    · exact absurd hfull (not_lt.mpr htotal)

end Finish

/-! ## Inode numbers -/

/-- A program that takes `n` inode numbers, if it returns. -/
def Numbers (n : ℕ) {α : Type} (m : Prog α) : Prop :=
  ∀ s, wp m s (fun _ s' => s'.freeinode = s.freeinode + n) (fun _ => True)

section Numbers

variable {α β : Type} {m : Prog α} {f : α → Prog β} {k n : ℕ}

theorem Numbers.bind (h : Numbers k m) (h' : ∀ a, Numbers n (f a)) : Numbers (k + n) (m >>= f) := by
  intro s
  refine (h s).bind fun a s1 h1 => (h' a s1).mono (fun _ s2 h2 => ?_) fun _ _ => trivial
  rw [h2, h1, Nat.add_assoc]

/-- The sequence of two programs of which the first takes no number. -/
theorem Numbers.seq (h : Numbers 0 m) (h' : ∀ a, Numbers n (f a)) : Numbers n (m >>= f) := by
  have hbind := h.bind h'
  rwa [Nat.zero_add] at hbind

theorem Numbers.ite {c : Prop} [Decidable c] {m m' : Prog α} (h : Numbers n m) (h' : Numbers n m') :
    Numbers n (if c then m else m') := fun s => wp_ite.mpr ⟨fun _ => h s, fun _ => h' s⟩

theorem numbers_pure (a : α) : Numbers 0 (pure a : Prog α) := fun _ => rfl

theorem numbers_get : Numbers 0 (get : Prog State) := fun _ => rfl

theorem numbers_throw (e : Stop) : Numbers n (throw e : Prog α) := fun _ => trivial

theorem numbers_wsect (x : ℕ) (blk : Block) : Numbers 0 (wsect x blk) := fun _ => rfl

theorem numbers_takeBlock : Numbers 0 takeBlock := fun _ => rfl

theorem numbers_rsect (x : ℕ) : Numbers 0 (rsect x) := by
  rw [rsect]
  exact numbers_get.seq fun s => (numbers_throw _).ite (numbers_pure _)

theorem numbers_winode (i : ℕ) (d : Dinode) : Numbers 0 (winode i d) :=
  (numbers_rsect _).seq fun _ => numbers_wsect _ _

theorem numbers_fillSlot (d : Dinode) (k : Fin (NDIRECT + 1)) : Numbers 0 (fillSlot d k) :=
  (numbers_takeBlock.seq fun _ => numbers_pure _).ite (numbers_pure _)

theorem numbers_fileBlock (d : Dinode) (fbn : ℕ) : Numbers 0 (fileBlock d fbn) := by
  rw [fileBlock]
  by_cases hd : fbn < NDIRECT
  · rw [dif_pos hd]
    exact (numbers_fillSlot d _).seq fun _ => numbers_pure _
  · rw [dif_neg hd]
    exact (numbers_fillSlot d _).seq fun _ => (numbers_rsect _).seq fun _ =>
      (numbers_takeBlock.seq fun _ => (numbers_wsect _ _).seq fun _ => numbers_pure _).ite
        (numbers_pure _)

theorem numbers_appendLoop (fuel : ℕ) : ∀ (d : Dinode) (off : ℕ) (p : List UInt8),
    Numbers 0 (appendLoop fuel d off p) := by
  induction fuel with
  | zero => exact fun d off _ => numbers_pure (d, off)
  | succ fuel ih =>
    intro d off p
    exact (numbers_pure _).ite (((numbers_fileBlock d _).seq fun _ => (numbers_rsect _).seq fun _ =>
      (numbers_wsect _ _).seq fun _ => ih _ _ _).ite (numbers_throw _))

theorem numbers_iappend (i : ℕ) (p : List UInt8) : Numbers 0 (iappend i p) :=
  Numbers.seq ((numbers_rsect _).seq fun _ => numbers_pure _) fun d =>
    (numbers_appendLoop _ d _ p).seq fun _ => numbers_winode _ _

theorem numbers_ialloc (type : Int16) : Numbers 1 (ialloc type) := by
  intro s
  rw [ialloc, wp_bind, wp_get, wp_bind, wp_modify, wp_bind]
  exact (numbers_winode _ _ _).mono (fun _ _ h => h) fun _ _ => trivial

theorem numbers_appendAll (i : ℕ) (cs : List (List UInt8)) : Numbers 0 (appendAll i cs) := by
  induction cs with
  | nil => exact numbers_pure ()
  | cons c cs ih => exact (numbers_iappend i c).seq fun _ => ih

theorem numbers_addFiles (fs : List Input) : Numbers fs.length (addFiles fs) := by
  induction fs with
  | nil => exact numbers_pure ()
  | cons f fs ih =>
    have hone : Numbers 1 (addFile f) := (numbers_throw _).ite
      ((numbers_ialloc _).bind fun i => (numbers_iappend _ _).seq fun _ => numbers_appendAll i _)
    rw [List.length_cons, Nat.add_comm]
    exact hone.bind fun _ => ih

/-- `mkfs` takes one inode number for the root directory and one for each file, whatever the super
block says. -/
theorem main_freeinode {files : List Input} {s : State} (hrun : main files start = .ok ((), s)) :
    s.freeinode = files.length + 2 := by
  have hdots : Numbers 0 rootDots := (numbers_iappend _ _).seq fun _ => numbers_iappend _ _
  have hfix : Numbers 0 fixRoot :=
    Numbers.seq ((numbers_rsect _).seq fun _ => numbers_pure _) fun _ => numbers_winode _ _
  have hall : Numbers (1 + files.length) (populate files) := by
    refine (numbers_ialloc _).bind fun i => (numbers_throw _).ite (hdots.seq fun _ => ?_)
    exact (numbers_addFiles files).bind fun _ => hfix.seq fun _ => numbers_get.seq fun _ =>
      (numbers_wsect _ _).ite (numbers_throw _)
  have hfree : s.freeinode = 1 + (1 + files.length) :=
    (hall blank).ok ((main_eq files).symm.trans hrun)
  omega

end Numbers

/-! ## Well-formed images -/

/-- **A well-formed image.**  Every inode number that was given out is one that the super block
knows; every block of every file, up to its size, has an address inside the file system; no block is
used twice; and the free map marks exactly the blocks in use. -/
structure WellFormed (s : State) : Prop where
  inum : ∀ i, 0 < i → i < s.freeinode → i < sb.ninodes
  addr : ∀ i, 0 < i → i < s.freeinode → ∀ bn, bn * BSIZE < (dinode s.img sb i).size.toNat →
    (dinode s.img sb i).addr s.img bn ≠ 0 ∧ (dinode s.img sb i).addr s.img bn < FSSIZE
  range : ∀ i, 0 < i → i < s.freeinode → ∀ p, (dinode s.img sb i).ptr s.img p ≠ 0 →
    nmeta ≤ (dinode s.img sb i).ptr s.img p
  once : ∀ i j, 0 < i → i < s.freeinode → 0 < j → j < s.freeinode → ∀ p q,
    (dinode s.img sb i).ptr s.img p ≠ 0 →
    (dinode s.img sb i).ptr s.img p = (dinode s.img sb j).ptr s.img q → i = j ∧ p = q
  bitmap : ∀ b, b < FSSIZE → (used s.img sb b = true ↔ b < nmeta ∨
    ∃ i p, 0 < i ∧ i < s.freeinode ∧ (dinode s.img sb i).ptr s.img p ≠ 0 ∧
      (dinode s.img sb i).ptr s.img p = b)

section WellFormed

variable {s : State} {files : List Input}

theorem nodes_isSome {i : ℕ} (h0 : 0 < i) (h : i < files.length + 2) : (nodes files i).isSome := by
  match i with
  | 1 => rfl
  | k + 2 =>
    rw [nodes, List.getElem?_eq_getElem (by omega)]
    rfl

theorem Built.type_ne_zero_iff (h : Built files s) {i : ℕ} (hi : i < NINODES) :
    (dinode s.img sb i).type ≠ 0 ↔ 0 < i ∧ i < files.length + 2 := by
  by_cases hr : i = ROOTINO
  · subst hr
    rw [h.root.type]
    exact ⟨fun _ => ⟨Nat.one_pos, by rw [ROOTINO]; omega⟩, fun _ => by decide⟩
  · have hnode := h.node i hr
    constructor
    · intro ht
      rw [nodeOf, if_pos ⟨hi, ht⟩] at hnode
      refine ⟨Nat.pos_of_ne_zero fun h0 => ?_, ?_⟩
      · rw [h0, nodes] at hnode
        cases hnode
      · by_contra hge
        rw [nodes_eq_none (not_lt.mp hge)] at hnode
        cases hnode
    · rintro ⟨h1, h2⟩ h0
      have hsome : (nodes files i).isSome := nodes_isSome h1 h2
      rw [← hnode, nodeOf, if_neg fun hn => hn.2 h0] at hsome
      cases hsome

/-- The root directory has no holes if its entries do not fill their last block. -/
theorem Built.root_noHoles (h : Built files s) (hfull : ¬ BSIZE ∣ DESIZE * (files.length + 2)) :
    (dinode s.img sb ROOTINO).NoHoles s.img := by
  intro bn hbn
  have hB : BSIZE = 512 := rfl
  have ha := h.root.addr (bn * BSIZE)
  rw [h.root.size] at hbn
  rw [Nat.mul_div_cancel bn (by decide)] at ha
  refine ha ?_
  generalize DESIZE * (files.length + 2) = n at hbn hfull ⊢
  rw [hB] at hbn hfull ⊢
  omega

/-- Otherwise its last block is a hole. -/
theorem Built.root_hole (h : Built files s) (hn : files.length + 2 ≤ NINODES)
    (hfull : BSIZE ∣ DESIZE * (files.length + 2)) :
    ∃ bn, bn * BSIZE < (dinode s.img sb ROOTINO).size.toNat ∧
      (dinode s.img sb ROOTINO).addr s.img bn = 0 := by
  have hB : BSIZE = 512 := rfl
  have hbn : DESIZE * (files.length + 2) / BSIZE < NDIRECT := by
    have hD : DESIZE = 16 := rfl
    have hN : NINODES = 200 := rfl
    have hd : NDIRECT = 12 := rfl
    rw [hD, hB, hd]
    omega
  have hlt := lt_of_lt_of_le hbn (show NDIRECT ≤ MAXFILE by decide)
  refine ⟨DESIZE * (files.length + 2) / BSIZE, ?_, ?_⟩
  · rw [h.root.size, hB]
    omega
  · rw [Dinode.addr_eq hlt, Ptr.ofBlock, dif_pos hbn, Dinode.ptr,
      h.root.rest _ (by rw [Nat.div_mul_cancel hfull]) (ne_of_lt hbn)]
    rfl

theorem Built.wellFormed (h : Built files s) (hn : files.length + 2 ≤ NINODES)
    (hfull : ¬ BSIZE ∣ DESIZE * (files.length + 2)) : WellFormed s := by
  have hin : ∀ {i}, 0 < i → i < s.freeinode → i < sb.ninodes ∧ (dinode s.img sb i).type ≠ 0 := by
    intro i h1 h2
    rw [h.freeinode] at h2
    have hi : i < NINODES := by omega
    exact ⟨hi, (h.type_ne_zero_iff hi).mpr ⟨h1, h2⟩⟩
  refine ⟨fun i h1 h2 => ?_, fun i h1 h2 bn hbn => ?_, fun i h1 h2 p hp => ?_,
    fun i j h1 h2 h3 h4 p q hp heq => ?_, fun b hb => ?_⟩
  · exact (hin h1 h2).1
  · obtain ⟨hi, ht⟩ := hin h1 h2
    have hne : (dinode s.img sb i).addr s.img bn ≠ 0 := by
      by_cases hr : i = ROOTINO
      · subst hr
        exact h.root_noHoles hfull bn hbn
      · exact h.noHoles i hi hr ht bn hbn
    exact ⟨hne, (h.owned.addr_range hi ht hne).2⟩
  · obtain ⟨hi, ht⟩ := hin h1 h2
    exact (h.owned.ptr_range hi ht hp).1
  · obtain ⟨hi, ht⟩ := hin h1 h2
    obtain ⟨hj, ht'⟩ := hin h3 h4
    exact h.owned.ptr_inj hi ht hj ht' hp heq
  · rw [h.owned.used_iff b hb, sb_nmeta]
    refine or_congr Iff.rfl ⟨?_, ?_⟩
    · rintro ⟨⟨i, p⟩, hp, rfl⟩
      by_cases hc : i < sb.ninodes ∧ (dinode s.img sb i).type ≠ 0
      · rw [pointers_of_alloc hc.1 hc.2] at hp ⊢
        obtain ⟨h1, h2⟩ := (h.type_ne_zero_iff hc.1).mp hc.2
        exact ⟨i, p, h1, by rwa [h.freeinode], hp, rfl⟩
      · exact absurd (if_neg hc) hp
    · rintro ⟨i, p, h1, h2, hp, rfl⟩
      obtain ⟨hi, ht⟩ := hin h1 h2
      exact ⟨(i, p), by rwa [pointers_of_alloc hi ht], pointers_of_alloc hi ht p⟩

theorem Built.not_wellFormed (h : Built files s) (hn : files.length + 2 ≤ NINODES)
    (hfull : BSIZE ∣ DESIZE * (files.length + 2)) : ¬ WellFormed s := by
  intro hw
  obtain ⟨bn, hbn, hzero⟩ := h.root_hole hn hfull
  exact (hw.addr ROOTINO Nat.one_pos (by rw [h.freeinode, ROOTINO]; omega) bn hbn).1 hzero

/-- The files are not too many, and the entries of the root directory do not fill its last block. -/
def Regular (files : List Input) : Prop :=
  files.length + 2 ≤ NINODES ∧ ¬ BSIZE ∣ DESIZE * (files.length + 2)

/-- **When the image is well formed.**  On every list of files on which `mkfs` runs to `exit(0)`,
the image is well formed if and only if the files are not too many and the entries of the root
directory do not fill its last block. -/
theorem main_wellFormed_iff (hrun : main files start = .ok ((), s)) :
    WellFormed s ↔ Regular files := by
  constructor
  · intro hw
    have hfree := main_freeinode hrun
    have hn : files.length + 2 ≤ NINODES := by
      by_contra hbig
      exact lt_irrefl _ (hw.inum NINODES (by decide) (by rw [hfree]; omega))
    refine ⟨hn, fun hfull => ?_⟩
    exact (main_built hn hrun).not_wellFormed hn hfull hw
  · rintro ⟨hn, hfull⟩
    exact (main_built hn hrun).wellFormed hn hfull

end WellFormed

/-- A file `_a` of three bytes, read in two pieces. -/
def smallFile : Input where
  name := [95, 97]
  chunks := [[1, 2], [3]]
  nul := by decide
  pos := by decide
  le := by decide

/-- A file `b` of a block and one byte. -/
def blockFile : Input where
  name := [98]
  chunks := [List.replicate BSIZE 7, [8]]
  nul := by decide
  pos := by decide +kernel
  le := by decide +kernel

/-- The image with the two files is well formed. -/
theorem main_wellFormed_twoFiles :
    ∃ s, main [smallFile, blockFile] start = .ok ((), s) ∧ WellFormed s := by
  have hfile : ∀ f ∈ [smallFile, blockFile], slash ∉ f.name ∧ f.data.length ≤ MAXFILE * BSIZE := by
    decide +kernel
  obtain ⟨s, hrun⟩ := main_ok (by decide) hfile (by decide +kernel)
  exact ⟨s, hrun, (main_wellFormed_iff hrun).mpr ⟨by decide, by decide⟩⟩

/-- One of thirty empty files: `a0`, `a1` and so on. -/
def emptyFile (k : Fin 30) : Input where
  name := [97, 48 + UInt8.ofNat k]
  chunks := []
  nul := by
    revert k
    decide
  pos := nofun
  le := nofun

/-- Thirty files make 32 entries of the root directory, which fill its one block.  Its size is
rounded up to two blocks, and the second one does not exist. -/
theorem main_thirty_not_wellFormed :
    ∃ s, main (List.ofFn emptyFile) start = .ok ((), s) ∧ ¬ WellFormed s := by
  have hn : (List.ofFn emptyFile).length + 2 ≤ NINODES := by decide
  obtain ⟨s, hrun⟩ := main_ok hn (by decide) (by decide)
  exact ⟨s, hrun, (main_built hn hrun).not_wellFormed hn (by decide)⟩

end Xv6.Mkfs
