import Xv6.Fs.Entries
import Xv6.Mkfs.Agree

/-!
# The image that `mkfs` makes

The nodes of the image, as the kernel will see them, after each step of `mkfs`: `ialloc` makes an
empty file with the next inode number, and `iappend` makes a file longer.  So after the whole
program there is the root directory, which names the files in the order of the arguments, and behind
each name a file with the contents of the argument.
-/

namespace Xv6.Mkfs

open Lib Fs

/-! ## Inodes of the image -/

section Inodes

variable {s s' : State} {i j : ℕ} {d : Dinode} {nd : Node}

theorem iblock_lt (hi : i < NINODES) : IBLOCK i sb < sb.bmapstart := sb_wf.iblock_lt hi

theorem wp_rinode (h : Tidy s) (hi : i < NINODES) {Q : Dinode → State → Prop} {E : Stop → Prop}
    (hQ : Q (dinode s.disk sb i) s) : wp (rinode i) s Q E := by
  have hlt := iblock_lt hi
  rw [rinode, wp_bind]
  refine wp_rsect h.nsect (lt_trans hlt (by decide)) ?_
  rw [wp_pure, ← disk_of_ne (ne_of_lt hlt)]
  exact hQ

/-- The state after an inode was written. -/
def State.putDinode (s : State) (i : ℕ) (d : Dinode) : State :=
  { s with
    img := upd s.img (IBLOCK i sb) (Fs.putDinode i d (s.img (IBLOCK i sb)))
    nsect := FSSIZE }

theorem disk_putDinode (hi : i < NINODES) (d : Dinode) :
    (s.putDinode i d).disk =
      upd s.disk (IBLOCK i sb) (Fs.putDinode i d (s.disk (IBLOCK i sb))) := by
  have hne := ne_of_lt (iblock_lt hi)
  rw [State.putDinode, disk_upd hne, disk_of_ne hne]

theorem Tidy.putDinode (h : Tidy s) (hi : i < NINODES) (d : Dinode) : Tidy (s.putDinode i d) := by
  have h1 := iblock_lt hi
  have h2 := sb_wf.bmapstart_lt_nmeta
  exact h.write (lt_of_lt_of_le (lt_trans h1 h2) h.ge) _

theorem wp_winode (h : Tidy s) (hi : i < NINODES) {Q : Unit → State → Prop} {E : Stop → Prop}
    (hQ : Q () (s.putDinode i d)) : wp (winode i d) s Q E := by
  have hlt := lt_trans (iblock_lt hi) (show sb.bmapstart < FSSIZE by decide)
  rw [winode, wp_bind]
  refine wp_rsect h.nsect hlt (wp_wsect h.nsect hlt hQ)

theorem ninode_pos : 0 < NINODE := by decide

def place : Icache := ⟨0, ninode_pos⟩

/-- A kernel state with the inode `d`, number `i`, in the first place of the cache, inside a
transaction. -/
def mount (disk : Disk) (i : ℕ) (d : Dinode) : Fs.State where
  sb := sb
  disk := disk
  outstanding := 1
  logged := []
  inode := fun ip =>
    if ip = place then ⟨i, 1, true, true, d⟩ else ⟨0, 0, false, false, Dinode.zero⟩
  file := fun _ => ⟨.none, 0, false, false, place, 0⟩
  proc := fun _ => none
  devsw := fun _ => ⟨none, none⟩
  history := ⟨[], 0⟩

theorem mount_sound {disk : Disk} (h : DiskSound sb disk) (hi : i < NINODES)
    (hdin : d = dinode disk sb i) (ht : d.type ≠ 0) : Sound (mount disk i d) := by
  have hempty : ∀ {ip : Icache}, 0 < ((mount disk i d).inode ip).ref → ip = place := by
    intro ip href
    by_contra hne
    have hzero : ((mount disk i d).inode ip).ref = 0 := by
      rw [mount]
      simp only [if_neg hne]
    omega
  refine ⟨h, fun ip href => ?_, fun ip iq hp hq _ => ?_, fun ip href _ => ?_, fun ip href => ?_⟩
  · obtain rfl := hempty href
    exact hi
  · rw [hempty hp, hempty hq]
  · obtain rfl := hempty href
    exact ⟨hdin, ht⟩
  · by_cases hip : ip = place
    · subst hip
      exact absurd href Nat.one_ne_zero
    · show (if ip = place then _ else _ : Inode).locked = false
      rw [if_neg hip]

/-- `winode` of `mkfs` does to the image what `iupdate` of the kernel does to the disk. -/
theorem disk_update {ks : Fs.State} {ip : Icache} (hi : i < NINODES) (hsb : ks.sb = sb)
    (hdisk : ks.disk = s.disk) (hinum : (ks.inode ip).inum = i) (d : Dinode) :
    ((ks.putDin ip d).update ip).disk = (s.putDinode i d).disk := by
  rw [disk_putDinode hi, ← hdisk]
  show upd ks.disk (IBLOCK ((ks.putDin ip d).inode ip).inum ks.sb) (Fs.putDinode
    ((ks.putDin ip d).inode ip).inum ((ks.putDin ip d).inode ip).din
      (ks.disk (IBLOCK ((ks.putDin ip d).inode ip).inum ks.sb))) = _
  rw [putDin_self, hinum, hsb]

/-- What `mkfs` has done to inode `i`: its node is `nd` now, and every other inode is as it was. -/
structure Puts (s s' : State) (i : ℕ) (nd : Node) : Prop where
  tidy : Tidy s'
  sound : DiskSound sb s'.disk
  node : nodeOf sb s'.disk = upd (nodeOf sb s.disk) i (some nd)
  dinode : ∀ j, j < NINODES → j ≠ i → dinode s'.disk sb j = dinode s.disk sb j

theorem splice_length (l m : List UInt8) : splice l l.length m = l ++ m := by
  rw [splice, List.take_length, List.drop_eq_nil_of_le (Nat.le_add_right _ _), List.append_nil]

/-- **`iappend`** makes the contents of a file longer by the bytes it is given.  It stops only if
the file would get too long, or if there is no block left. -/
theorem iappend_spec (h : Tidy s) (hd : DiskSound sb s.disk)
    (hnode : nodeOf sb s.disk i = some nd) (p : List UInt8) :
    wp (iappend i p) s
      (fun _ s' => Puts s s' i { nd with data := nd.data ++ p } ∧ s'.freeinode = s.freeinode ∧
        s'.freeblock + blocksFor nd.data.length ≤
          s.freeblock + blocksFor (nd.data.length + p.length) ∧
        ∀ k : Fin (NDIRECT + 1), nd.data.length + p.length ≤ k * BSIZE → k.val ≠ NDIRECT →
          (dinode s'.disk sb i).addrs k = (dinode s.disk sb i).addrs k)
      (fun _ => MAXFILE * BSIZE < nd.data.length + p.length ∨
        FSSIZE + blocksFor nd.data.length <
          s.freeblock + blocksFor (nd.data.length + p.length)) := by
  have hfull := hd.noHoles i
  rw [nodeOf] at hnode
  split_ifs at hnode with hc
  obtain ⟨d, hdin⟩ : ∃ d, d = dinode s.disk sb i := ⟨_, rfl⟩
  rw [← hdin] at hc hfull hnode ⊢
  obtain ⟨hi, ht⟩ := hc
  obtain rfl : d.node s.disk = nd := Option.some.inj hnode
  replace hfull := hfull hi ht
  have hlen : (d.node s.disk).data.length = d.size.toNat :=
    Dinode.length_data _ _
  have hks := mount_sound hd hi hdin ht
  have href : 0 < ((mount s.disk i d).inode place).ref := Nat.one_pos
  have hr : Ready (mount s.disk i d) place := hks.ready le_rfl href rfl
  have hsize := hfull.size_le
  rw [hlen, iappend, wp_bind]
  refine wp_rinode h hi ?_
  rw [← hdin]
  refine (appendLoop_agrees p.length h ⟨rfl, rfl, rfl⟩ hr (fun x hx => hfull.addr_div hx) hsize
    le_rfl).chain (fun _ he => he) ?_
  rintro ⟨d1, off⟩ s1 ⟨rfl, hmax, hslot, ks1, hloop, hstep⟩
  obtain ⟨hr1, hev, -, hbyte, -⟩ := (writeiLoop_spec p.length hr le_rfl hmax
    fun bn hbn h1 h2 => Ptr.needed_subset_span hbn h1 h2).ok hloop
  have hoff : (UInt32.ofNat (d.size.toNat + p.length)).toNat =
      d.size.toNat + p.length :=
    UInt32.toNat_ofNat_of_lt' (lt_of_le_of_lt hmax (by decide))
  obtain ⟨hks', habs⟩ := hks.grow hev hbyte le_rfl le_rfl href rfl hr1 hoff (Nat.le_add_right _ _)
  refine wp_winode hstep.tidy hi ?_
  -- the kernel's state after its `iupdate` has the same disk
  rw [hstep.mirrors.din] at hks' habs
  generalize hd2 : ({ d1 with
    size := UInt32.ofNat (d.size.toNat + p.length) } : Dinode) = d2 at *
  have hdisk : ((ks1.putDin place d2).update place).disk = (s1.putDinode i d2).disk :=
    disk_update hi hstep.mirrors.sb hstep.mirrors.disk hev.inum d2
  have hsb : ((ks1.putDin place d2).update place).sb = sb := hstep.mirrors.sb
  have hdinode : ∀ j, j < NINODES → dinode (s1.putDinode i d2).disk sb j =
      if j = i then d2 else dinode s.disk sb j := by
    intro j hj
    have hkeep : dinode ks1.disk sb j = dinode s.disk sb j := hev.dinode j hj
    rw [disk_putDinode hi, dinode_putDinode, ← hstep.mirrors.disk, hkeep]
  refine ⟨⟨hstep.tidy.putDinode hi d2, ?_, ?_, fun j hj hji => ?_⟩, hstep.freeinode, ?_,
    fun k hk hkn => ?_⟩
  · have hsound := hks'.disk
    rwa [hsb, hdisk] at hsound
  · have hsplice : splice (d.data s.disk) d.size.toNat
        (slice (fun k => p.getD k 0) 0 p.length) = d.data s.disk ++ p := by
      rw [slice_getD le_rfl, List.take_length, ← Dinode.length_data s.disk, splice_length]
    have hnodes : nodeOf ((ks1.putDin place d2).update place).sb
        ((ks1.putDin place d2).update place).disk = upd (nodeOf sb s.disk) i
          (some { d.node s.disk with
            data := splice (d.data s.disk) d.size.toNat
              (slice (fun k => p.getD k 0) 0 p.length) }) := congrArg Abs.node habs
    rw [hsb, hdisk, hsplice] at hnodes
    exact hnodes
  · rw [hdinode j hj, if_neg hji]
  · have hfree := hstep.freeblock
    have hmono : blocksFor d.size.toNat ≤
      blocksFor (d.size.toNat + p.length) := blocksFor_mono (Nat.le_add_right _ _)
    show s1.freeblock + _ ≤ _
    omega
  · rw [hdinode i hi, if_pos rfl, ← hd2]
    exact hslot k hk hkn

/-- **`ialloc`** makes an empty file with the next inode number. -/
theorem ialloc_spec (h : Tidy s) (hd : DiskSound sb s.disk) (hi : s.freeinode < NINODES)
    (hfree : nodeOf sb s.disk s.freeinode = none) {type : Int16} (ht : type ≠ 0) :
    wp (ialloc type) s
      (fun i s' => i = s.freeinode ∧ Puts s s' i ⟨type, 0, 0, 1, []⟩ ∧
        s'.freeinode = s.freeinode + 1 ∧ s'.freeblock = s.freeblock ∧
        ∀ k, (dinode s'.disk sb i).addrs k = 0)
      (fun _ => False) := by
  have ht0 : (dinode s.disk sb s.freeinode).type = 0 := by
    by_contra hne
    rw [nodeOf, if_pos ⟨hi, hne⟩] at hfree
    cases hfree
  have h' : Tidy { s with freeinode := s.freeinode + 1 } := ⟨h.nsect, h.ge, h.le, h.zero⟩
  rw [ialloc, wp_bind, wp_get, wp_bind, wp_modify, wp_bind]
  refine wp_winode h' hi ?_
  obtain ⟨d, hdin⟩ : ∃ d : Dinode, d = { Dinode.zero with type := type, nlink := 1 } := ⟨_, rfl⟩
  obtain ⟨hsound, hsp⟩ := hd.putEmpty hi ht0 (d := d) (by rw [hdin]; rfl) fun k => by rw [hdin]; rfl
  have hdisk : (State.putDinode { s with freeinode := s.freeinode + 1 } s.freeinode d).disk =
      upd s.disk (IBLOCK s.freeinode sb)
        (Fs.putDinode s.freeinode d (s.disk (IBLOCK s.freeinode sb))) :=
    disk_putDinode hi d
  have hself := dinode_putDinode s.disk sb s.freeinode s.freeinode d
  rw [← hdisk] at hsound hsp hself
  rw [if_pos rfl] at hself
  rw [← hdin]
  refine ⟨rfl,
    ⟨h'.putDinode hi d, hsound, hd.node_upd hsp ?_, fun j hj hji => hsp.din j hj hji⟩, rfl,
    rfl, fun k => ?_⟩
  · rw [nodeOf, hself, hdin, if_pos ⟨hi, ht⟩]
    rfl
  · rw [hself, hdin]
    rfl

end Inodes

/-! ## The files of the image -/

def rootEntries (files : List Input) : List Dirent :=
  ⟨ROOTINO, strncpy dot DIRSIZ⟩ :: ⟨ROOTINO, strncpy dotdot DIRSIZ⟩ ::
    files.mapIdx fun k f => ⟨k + 2, strncpy f.base DIRSIZ⟩

def rootData (files : List Input) : List UInt8 := (rootEntries files).flatMap Dirent.toBytes

/-- The nodes of an image with these files. -/
def nodes (files : List Input) : ℕ → Option Node
  | 0 => none
  | 1 => some ⟨T_DIR, 0, 0, 1, rootData files⟩
  | k + 2 => files[k]?.map fun f => ⟨T_FILE, 0, 0, 1, f.data⟩

/-- The blocks that the files and the root directory take. -/
def total (files : List Input) : ℕ :=
  blocksFor (DESIZE * (files.length + 2)) + (files.map fun f => blocksFor f.data.length).sum

theorem rootEntries_concat (files : List Input) (f : Input) :
    rootEntries (files ++ [f]) =
      rootEntries files ++ [⟨files.length + 2, strncpy f.base DIRSIZ⟩] := by
  rw [rootEntries, rootEntries, List.mapIdx_concat]
  rfl

theorem rootData_concat (files : List Input) (f : Input) :
    rootData (files ++ [f]) =
      rootData files ++ (⟨files.length + 2, strncpy f.base DIRSIZ⟩ : Dirent).toBytes := by
  rw [rootData, rootEntries_concat, List.flatMap_append, List.flatMap_singleton, rootData]

theorem length_rootData (files : List Input) :
    (rootData files).length = DESIZE * (files.length + 2) := by
  induction files using List.reverseRecOn with
  | nil => decide
  | append_singleton files f ih =>
    rw [rootData_concat, List.length_append, ih, Dirent.length_toBytes_strncpy, List.length_append,
      List.length_singleton]
    rfl

theorem nodes_concat (files : List Input) (f : Input) :
    nodes (files ++ [f]) =
      upd (upd (nodes files) ROOTINO (some ⟨T_DIR, 0, 0, 1, rootData (files ++ [f])⟩))
        (files.length + 2) (some ⟨T_FILE, 0, 0, 1, f.data⟩) := by
  funext i
  match i with
  | 0 => rfl
  | 1 => rfl
  | k + 2 =>
    rw [nodes]
    by_cases hk : k = files.length
    · rw [hk, upd_self, List.getElem?_concat_length, Option.map_some]
    · rw [upd_of_ne (by omega), upd_of_ne (show k + 2 ≠ ROOTINO by rw [ROOTINO]; omega), nodes]
      rcases Nat.lt_or_gt_of_ne hk with hlt | hgt
      · rw [List.getElem?_append_left hlt]
      · rw [List.getElem?_eq_none (by rw [List.length_append, List.length_singleton]; omega),
          List.getElem?_eq_none (by omega)]

theorem nodes_eq_none {files : List Input} {i : ℕ} (h : files.length + 2 ≤ i) :
    nodes files i = none := by
  obtain ⟨k, rfl⟩ := Nat.exists_eq_add_of_le' (show 2 ≤ i by omega)
  rw [nodes, List.getElem?_eq_none (by omega)]
  rfl

/-- The image after these files were added to it. -/
structure Laid (files : List Input) (s : State) : Prop where
  tidy : Tidy s
  sound : DiskSound sb s.disk
  freeinode : s.freeinode = files.length + 2
  node : nodeOf sb s.disk = nodes files
  /-- the root directory has no block behind its end -/
  rest : ∀ k : Fin (NDIRECT + 1), DESIZE * (files.length + 2) ≤ k * BSIZE → k.val ≠ NDIRECT →
    (dinode s.disk sb ROOTINO).addrs k = 0
  budget : s.freeblock ≤ nmeta + total files

section Steps

variable {s s' s'' : State} {i : ℕ} {nd nd' : Node} {files : List Input}

theorem Puts.trans (h : Puts s s' i nd) (h' : Puts s' s'' i nd') : Puts s s'' i nd' where
  tidy := h'.tidy
  sound := h'.sound
  node := by rw [h'.node, h.node, upd_upd]
  dinode := fun j hj hji => (h'.dinode j hj hji).trans (h.dinode j hj hji)

theorem appendAll_spec (cs : List (List UInt8)) : ∀ {s : State} {nd : Node}, Tidy s →
    DiskSound sb s.disk → nodeOf sb s.disk i = some nd →
    wp (appendAll i cs) s
      (fun _ s' => Puts s s' i { nd with data := nd.data ++ cs.flatten } ∧
        s'.freeinode = s.freeinode ∧
        s'.freeblock + blocksFor nd.data.length ≤
          s.freeblock + blocksFor (nd.data.length + cs.flatten.length))
      (fun _ => MAXFILE * BSIZE < nd.data.length + cs.flatten.length ∨
        FSSIZE + blocksFor nd.data.length <
          s.freeblock + blocksFor (nd.data.length + cs.flatten.length)) := by
  induction cs with
  | nil =>
    intro s nd h hd hnode
    rw [appendAll, wp_pure, List.flatten_nil, List.append_nil]
    refine ⟨⟨h, hd, ?_, fun _ _ _ => rfl⟩, rfl, le_rfl⟩
    rw [← hnode, upd_eq_self]
  | cons c cs ih =>
    intro s nd h hd hnode
    have hlen : nd.data.length + (c :: cs).flatten.length =
        nd.data.length + c.length + cs.flatten.length := by
      rw [List.flatten_cons, List.length_append, Nat.add_assoc]
    have hmono : blocksFor (nd.data.length + c.length) ≤
        blocksFor (nd.data.length + c.length + cs.flatten.length) :=
      blocksFor_mono (Nat.le_add_right _ _)
    rw [appendAll, hlen]
    refine (iappend_spec h hd hnode c).chain (fun e he => ?_) ?_
    · omega
    rintro _ s1 ⟨hput, hino, hfree, -⟩
    have hnode1 : nodeOf sb s1.disk i = some { nd with data := nd.data ++ c } := by
      rw [hput.node, upd_self]
    have hlen1 : (nd.data ++ c).length = nd.data.length + c.length := List.length_append
    refine (ih hput.tidy hput.sound hnode1).mono ?_ ?_
    · rintro _ s' ⟨hput', hino', hfree'⟩
      simp only [hlen1] at hfree'
      refine ⟨?_, hino'.trans hino, by omega⟩
      rw [List.flatten_cons, ← List.append_assoc]
      exact hput.trans hput'
    · intro e he
      simp only [hlen1] at he
      omega

theorem total_concat (files : List Input) (f : Input) :
    total (files ++ [f]) + blocksFor (DESIZE * (files.length + 2)) =
      total files + blocksFor (DESIZE * (files.length + 3)) + blocksFor f.data.length := by
  rw [total, total, List.map_append, List.sum_append, List.length_append]
  show blocksFor (DESIZE * (files.length + 3)) + (_ + (blocksFor f.data.length + 0)) + _ = _
  omega

theorem total_append_le (files fs : List Input) : total files ≤ total (files ++ fs) := by
  rw [total, total, List.map_append, List.sum_append, List.length_append]
  exact Nat.add_le_add (blocksFor_mono (Nat.mul_le_mul_left _ (by omega))) (Nat.le_add_right _ _)

theorem addFile_spec (h : Laid files s) (hn : files.length + 2 < NINODES) (f : Input) :
    wp (addFile f) s (fun _ s' => Laid (files ++ [f]) s')
      (fun _ => slash ∈ f.name ∨ MAXFILE * BSIZE < f.data.length ∨
        FSSIZE < nmeta + total (files ++ [f])) := by
  have hfree := h.freeinode
  have htotal := total_concat files f
  have hbudget := h.budget
  have hroot : nodeOf sb s.disk ROOTINO = some ⟨T_DIR, 0, 0, 1, rootData files⟩ := by
    rw [h.node]
    rfl
  rw [addFile, wp_ite]
  refine ⟨fun hs => Or.inl hs, fun _ => ?_⟩
  refine ((ialloc_spec h.tidy h.sound (by omega)
    (by rw [h.node, hfree, nodes_eq_none le_rfl]) (show T_FILE ≠ 0 by decide)).mono
      (fun _ _ hq => hq) (fun _ => False.elim)).bind ?_
  rintro i s1 ⟨rfl, hput, hino, hblk, -⟩
  have hne : ROOTINO ≠ s.freeinode := by rw [hfree, ROOTINO]; omega
  have hroot1 : nodeOf sb s1.disk ROOTINO = some ⟨T_DIR, 0, 0, 1, rootData files⟩ := by
    rw [hput.node, upd_of_ne hne, hroot]
  have hlen : (rootData files).length + DESIZE = DESIZE * (files.length + 3) := by
    rw [length_rootData]
    rfl
  have hspec := iappend_spec hput.tidy hput.sound hroot1
    (⟨s.freeinode, strncpy f.base DIRSIZ⟩ : Dirent).toBytes
  simp only [Dirent.length_toBytes_strncpy, hlen] at hspec
  rw [length_rootData] at hspec
  have hN : NINODES = 200 := rfl
  have hD : DESIZE = 16 := rfl
  have hM : MAXFILE * BSIZE = 71680 := rfl
  refine hspec.chain (fun e he => Or.inr (Or.inr ?_)) ?_
  · rcases he with hbig | hfull
    · rw [hM, hD] at hbig
      omega
    · omega
  rintro _ s2 ⟨hput2, hino2, hfree2, hslot⟩
  have hnode2 : nodeOf sb s2.disk s.freeinode = some ⟨T_FILE, 0, 0, 1, []⟩ := by
    rw [hput2.node, upd_of_ne hne.symm, hput.node, upd_self]
  have hall := appendAll_spec f.chunks hput2.tidy hput2.sound hnode2
  have hzero : blocksFor 0 = 0 := rfl
  simp only [List.length_nil, List.nil_append, Nat.zero_add, hzero, Nat.add_zero] at hall
  refine hall.mono ?_ ?_
  · rintro _ s' ⟨hput', hino', hfree'⟩
    have hfree'' : s'.freeblock ≤ s2.freeblock + blocksFor f.data.length := hfree'
    refine ⟨hput'.tidy, hput'.sound, ?_, ?_, fun k hk hkn => ?_, by omega⟩
    · rw [hino', hino2, hino, hfree, List.length_append, List.length_singleton]
    · rw [hput'.node, hput2.node, hput.node, h.node, nodes_concat, rootData_concat, hfree,
        upd_comm (by rw [ROOTINO]; omega), upd_upd]
      exact upd_comm (by rw [ROOTINO]; omega)
    · have hk' : DESIZE * (files.length + 3) ≤ k * BSIZE := by
        rw [List.length_append, List.length_singleton] at hk
        exact hk
      rw [hput'.dinode ROOTINO (by decide) hne, hslot k hk' hkn,
        hput.dinode ROOTINO (by decide) hne]
      exact h.rest k (le_trans (Nat.mul_le_mul_left _ (by omega)) hk') hkn
  · intro e he
    have he' : MAXFILE * BSIZE < f.data.length ∨
      FSSIZE < s2.freeblock + blocksFor f.data.length := he
    omega

theorem addFiles_spec (fs : List Input) : ∀ {files : List Input} {s : State}, Laid files s →
    (files ++ fs).length + 2 ≤ NINODES →
    wp (addFiles fs) s (fun _ s' => Laid (files ++ fs) s')
      (fun _ => (∃ f ∈ fs, slash ∈ f.name ∨ MAXFILE * BSIZE < f.data.length) ∨
        FSSIZE < nmeta + total (files ++ fs)) := by
  induction fs with
  | nil =>
    intro files s h _
    rw [addFiles, wp_pure, List.append_nil]
    exact h
  | cons f fs ih =>
    intro files s h hn
    have happ : files ++ f :: fs = (files ++ [f]) ++ fs := by
      rw [List.append_assoc, List.singleton_append]
    have hn' : files.length + 2 < NINODES := by
      rw [List.length_append, List.length_cons] at hn
      omega
    rw [addFiles, happ]
    rw [happ] at hn
    refine (addFile_spec h hn' f).chain (fun e he => ?_) ?_
    · rcases he with hname | hbig | hfull
      · exact Or.inl ⟨f, List.mem_cons_self, Or.inl hname⟩
      · exact Or.inl ⟨f, List.mem_cons_self, Or.inr hbig⟩
      · exact Or.inr (lt_of_lt_of_le hfull (Nat.add_le_add_left (total_append_le _ _) _))
    · intro _ s1 h1
      refine (ih h1 hn).mono (fun _ _ hq => hq) fun e he => ?_
      exact he.imp_left fun ⟨g, hg, hbad⟩ => ⟨g, List.mem_cons_of_mem f hg, hbad⟩

end Steps

end Xv6.Mkfs
