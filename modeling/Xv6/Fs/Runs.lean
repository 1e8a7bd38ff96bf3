import Xv6.Fs.Files
import Xv6.Fs.Rest

/-!
# Runs of the file system

A machine that boots from a disk in order (`Image`) is at rest, and every system call comes back to
a state at rest.  What `Rest` says of the disk and of the inode cache is then true between any two
calls of any run, and part of it also whenever a call releases a sleep lock:

* the free map marks the blocks in use, each held by one pointer (`owned_of_exec`);
* no file has a hole, so that reading allocates nothing (`noHoles_of_exec`);
* a valid copy of an inode is what the disk holds (`copies_of_exec`);
* the reference counts are exact (`references_of_exec`).

They need what `Image` asks for.  An entry for an inode that does not exist makes `iupdate`
write over the free map (`owned_lost`); a block in use that the free map does not mark is written
over with zeros, be it a table of addresses (`noHoles_lost`) or a block of inodes (`copies_lost`).
-/

namespace Xv6.Fs

open Lib

/-! ## Booting -/

/-- A disk to boot from.  The file system on it is in order, its directories name inodes that there
are, and there is a root directory. -/
structure Image (disk : Disk) : Prop where
  sound : DiskSound (readsb disk) disk
  bounded : ∀ i nd, nodeOf (readsb disk) disk i = some nd → nd.Bounded (readsb disk).ninodes
  root : ∃ nd, nodeOf (readsb disk) disk ROOTINO = some nd

section Boot

variable {disk : Disk} {devsw : ℕ → Devsw} {p : Slot} {s s' : State} {a : Slot × Call} {ip : Icache}

theorem inodeRefs_eq_zero {file : Fin NFILE → File} (h : ∀ f, (file f).type = .none) :
    inodeRefs file = 0 := Finset.sum_eq_zero fun f _ => File.refs_none (h f)

/-- **`userinit`** makes the first process, in the root directory. -/
theorem userinit_spec (h : Image disk) :
    wp (userinit p) (init disk devsw)
      (fun _ s => Rest s ∧ s.abs.ninodes = (readsb disk).ninodes ∧
        s.abs.node = nodeOf (readsb disk) disk ∧ History.Grows ⟨[], 0⟩ s.history ∧
        ∀ q pr, s.proc q = some pr → (s.abs.tag pr.cwd).inum = ROOTINO)
      (fun e => e = .panic .igetNoInodes) := by
  have h0 : Cached (init disk devsw) 0 := .of_ref_eq_zero h.sound (fun _ => rfl) fun _ => rfl
  have hget :=
    (iget_spec h0 (i := ROOTINO) h.sound.wf.root).and (iget_node (init disk devsw) ROOTINO)
  rw [userinit, wp_bind, namei, wp_bind, namex, if_pos (by decide), wp_bind]
  refine hget.mono ?_ fun e he => he.1
  rintro ip s ⟨⟨h1, hk1, hinum⟩, hnode⟩
  have hproc : s.proc = fun _ => none := hk1.proc
  have hfile : ∀ f, s.file f = ⟨.none, 0, false, false, 0, 0⟩ := congrFun hk1.file
  have hfirst : ∀ q, upd s.proc p (some ⟨ip, fun _ => none, none⟩) q =
      if q = p then some ⟨ip, fun _ => none, none⟩ else none := by
    rw [hproc]
    exact fun _ => rfl
  have hzero : cwdRefs (fun _ => none) = 0 := Finset.sum_eq_zero fun _ _ => rfl
  have hc : cwdRefs (upd s.proc p (some ⟨ip, fun _ => none, none⟩)) = Pi.single ip 1 := by
    have hsum := cwdRefs_upd s.proc p (some ⟨ip, fun _ => none, none⟩)
    rw [hproc, hzero, cwdRef, cwdRef, add_zero, zero_add] at hsum
    rw [hproc, hsum]
  have hd : descs (upd s.proc p (some ⟨ip, fun _ => none, none⟩)) = 0 := by
    refine Finset.sum_eq_zero fun q _ => ?_
    rw [hfirst]
    split_ifs
    · exact Finset.sum_eq_zero fun _ _ => rfl
    · rfl
  have hin : inodeRefs s.file = 0 := inodeRefs_eq_zero fun f => by rw [hfile]
  have hcwd : ∀ q pr, upd s.proc p (some ⟨ip, fun _ => none, none⟩) q = some pr →
      pr = ⟨ip, fun _ => none, none⟩ := by
    intro q pr hq
    rw [hfirst] at hq
    split_ifs at hq
    exact (Option.some.inj hq).symm
  show Rest (s.putProc p (some ⟨ip, fun _ => none, none⟩)) ∧ _ ∧ _ ∧ _ ∧ _
  refine ⟨⟨Tables.putProc ?_ p _, hk1.outstanding, ?_⟩, hk1.ninodes, hnode, hk1.history,
    fun q pr hq => ?_⟩
  · show Tables s (cwdRefs (upd s.proc p _)) (descs (upd s.proc p _))
    rw [hc, hd]
    refine ⟨by rwa [hin], hk1.bounded h.bounded, fun iq hq => ?_, fun f => by rw [hfile]; rfl,
      fun f _ => by rw [hfile], fun f nd hf => ?_⟩
    · rw [hin, zero_add] at hq
      obtain rfl : iq = ip := by
        by_contra hne
        rw [Pi.single_eq_of_ne hne] at hq
        exact lt_irrefl 0 hq
      rw [hinum, hnode]
      exact h.root
    · rw [hfile] at hf
      cases hf
  · intro q pr hq
    exact .of_none (by rw [hcwd q pr hq])
  · rw [hcwd q pr hq]
    exact hinum

/-! ## Running -/

/-- How a system call of the process stops, if it does. -/
def stops (s : State) (a : Slot × Call) : Option Stop :=
  match s.proc a.1 with
  | none => none
  | some pr =>
    if enabled s pr a.2 then
      match syscall a.1 pr a.2 s with
      | .ok _ => none
      | .error e => some e
    else none

theorem step_eq_some_iff {r : Reply} :
    step s a = some (s', r) ↔
      ∃ pr, s.proc a.1 = some pr ∧ enabled s pr a.2 = true ∧
        syscall a.1 pr a.2 s = .ok (r, s') := by
  constructor
  · intro hs
    rw [step] at hs
    cases hp : s.proc a.1 with
    | none =>
      rw [hp] at hs
      cases hs
    | some pr =>
      simp only [hp] at hs
      split_ifs at hs with ha
      refine ⟨pr, rfl, ha, ?_⟩
      cases hcall : syscall a.1 pr a.2 s with
      | error e =>
        rw [hcall] at hs
        cases hs
      | ok x =>
        rw [hcall] at hs
        cases hs
        rfl
  · rintro ⟨pr, hp, ha, hcall⟩
    simp only [step, hp, ha, hcall, if_true]

theorem Rest.step (h : Rest s) {r : Reply} (hs : Fs.step s a = some (s', r)) :
    ∃ pr, s.proc a.1 = some pr ∧ After (Orderly s.abs.node ∧ Sane s pr.cwd) s s' := by
  obtain ⟨pr, hp, ha, hcall⟩ := step_eq_some_iff.mp hs
  exact ⟨pr, hp, (h.syscall hp ha).ok hcall⟩

/-- **How a step can stop.** -/
theorem Rest.stops (h : Rest s) {e : Stop} (hs : Fs.stops s a = some e) :
    ∃ pr, s.proc a.1 = some pr ∧ Halted s pr.cwd e := by
  rw [Fs.stops] at hs
  cases hp : s.proc a.1 with
  | none =>
    rw [hp] at hs
    cases hs
  | some pr =>
    simp only [hp] at hs
    split_ifs at hs with ha
    refine ⟨pr, rfl, ?_⟩
    cases hcall : Fs.syscall a.1 pr a.2 s with
    | ok x =>
      rw [hcall] at hs
      cases hs
    | error e' =>
      rw [hcall] at hs
      cases hs
      exact (h.syscall hp ha).error hcall

/-- A stop that a call can make from a state at rest. -/
theorem Halted.ne_of_not_benign {cwd : Icache} {e : Stop} (h : Halted s cwd e) (he : ¬ e.Benign) :
    e = .panic .ilockNoType ∨ e = .panic .unlinkNlink := by
  rcases h with hb | ⟨rfl, -⟩ | ⟨rfl, -⟩
  · exact absurd hb he
  · exact Or.inl rfl
  · exact Or.inr rfl

/-- A place of the cache from which the copy is discarded. -/
def State.forget (s : State) (ip : Icache) : State :=
  s.putInode ip { s.inode ip with valid := false }

theorem acquiresleep_ok (hl : (s.inode ip).locked = false) :
    acquiresleep ip s = .ok ((), s.putInode ip { s.inode ip with locked := true }) := by
  unfold acquiresleep
  refine (bind_ok (a := s) (by rfl)).trans ?_
  rw [if_neg (by rw [hl]; decide)]
  rfl

theorem ilock_of_locked (href : 0 < (s.inode ip).ref) (hl : (s.inode ip).locked = true) :
    ilock ip s = .error .hang := by
  show (if (s.inode ip).ref < 1 then _ else _ : Op Unit) s = _
  rw [if_neg (by omega)]
  show ((if (s.inode ip).locked then _ else _ : Op Unit) s >>= fun r => _) = _
  rw [if_pos hl]
  rfl

theorem ilock_of_valid (href : 0 < (s.inode ip).ref) (hl : (s.inode ip).locked = false)
    (hv : (s.inode ip).valid = true) :
    ilock ip s = .ok ((), s.putInode ip { s.inode ip with locked := true }) := by
  unfold ilock
  refine (bind_ok (a := s) (by rfl)).trans ?_
  rw [if_neg (by omega)]
  refine (bind_ok (acquiresleep_ok hl)).trans ((bind_ok (by rfl)).trans ?_)
  rw [if_pos (by rw [putInode_self]; exact hv)]
  rfl

theorem ilock_of_not_valid (href : 0 < (s.inode ip).ref)
    (hl : (s.inode ip).locked = false) (hv : (s.inode ip).valid = false) {d : Dinode}
    (hd : dinode s.disk s.sb (s.inode ip).inum = d) (ht : d.type ≠ 0) :
    ilock ip s =
      .ok ((), s.putInode ip { s.inode ip with locked := true, valid := true, din := d }) := by
  have hinum : dinode (s.putInode ip { s.inode ip with locked := true }).disk
      (s.putInode ip { s.inode ip with locked := true }).sb
      ((s.putInode ip { s.inode ip with locked := true }).inode ip).inum = d := by
    rw [putInode_self]
    exact hd
  unfold ilock
  refine (bind_ok (a := s) (by rfl)).trans ?_
  rw [if_neg (by omega)]
  refine (bind_ok (acquiresleep_ok hl)).trans ((bind_ok (by rfl)).trans ?_)
  rw [if_neg (by rw [putInode_self, hv]; decide)]
  refine (bind_ok (by rfl)).trans ?_
  rw [if_neg (by rwa [hinum])]
  show Except.ok ((), (s.putInode ip _).putInode ip _) = _
  rw [putInode_putInode, putInode_self]
  subst hd
  rfl

/-- To discard a valid copy makes no difference to who locks the inode next. -/
theorem Sound.ilock_forget (h : Sound s) (href : 0 < (s.inode ip).ref)
    (hv : (s.inode ip).valid = true) : ilock ip (s.forget ip) = ilock ip s := by
  obtain ⟨hcopy, ht⟩ := h.copy ip href hv
  have hself : (s.forget ip).inode ip = { s.inode ip with valid := false } := putInode_self
  cases hl : (s.inode ip).locked with
  | true => rw [ilock_of_locked href hl, ilock_of_locked (by rwa [hself]) (by rwa [hself])]
  | false =>
    rw [ilock_of_valid href hl hv, ilock_of_not_valid (d := (s.inode ip).din) (by rwa [hself])
      (by rwa [hself]) (by rw [hself]) (by rw [hself]; exact hcopy.symm) ht, hself]
    show Except.ok ((), (s.putInode ip _).putInode ip _) = _
    rw [putInode_putInode]
    show _ = Except.ok ((), s.putInode ip ⟨_, _, true, (s.inode ip).valid, _⟩)
    rw [hv]

section Exec

variable {s0 : State} {as : List (Slot × Call)} {rs : List Reply} (h : Image disk)
  (hboot : userinit p (init disk devsw) = .ok ((), s0))
  (hrun : Lib.exec Fs.step s0 as = some (s, rs))
include h hboot hrun

/-- **Every run of a machine that has booted** goes from one state at rest to the next. -/
theorem rest_of_exec : Rest s := by
  refine exec_invariant (fun hrest hs => ?_) ((userinit_spec h).ok hboot).1 hrun
  obtain ⟨pr, -, hafter⟩ := hrest.step hs
  exact hafter.rest

/-- **The releases of sleep locks.**  At each of them in the calls of a run, and between any two
calls, the disk and the cache are in order, and `readi` has come to no block without an address. -/
theorem sound_of_exec :
    (∀ v ∈ s.snapshot :: s.history.released, ∀ t : State, Sound (t.asOf v)) ∧
      s.history.filled = 0 := by
  obtain ⟨hrest0, -, -, hgrows0, -⟩ := (userinit_spec h).ok hboot
  obtain ⟨hrest, ⟨vs, hvs, hall⟩, hfilled⟩ := exec_invariant
    (I := fun s => Rest s ∧ History.Grows ⟨[], 0⟩ s.history) (fun ⟨hrest, hgrows⟩ hs => by
      obtain ⟨pr, -, hafter⟩ := hrest.step hs
      exact ⟨hafter.rest, hgrows.trans hafter.works.history⟩) ⟨hrest0, hgrows0⟩ hrun
  refine ⟨fun v hv => ?_, hfilled⟩
  rcases List.mem_cons.mp hv with rfl | hv
  · exact hrest.tables.cached.sound.asOf
  · rw [hvs, List.append_nil] at hv
    exact hall v hv

/-- **Block ownership.**  Between any two calls the free map marks the metadata blocks and the
blocks that a pointer of an allocated inode holds, and no block is held by two pointers.  So no call
comes to the panic of `bfree`. -/
theorem owned_of_exec :
    Owned s.sb s.disk (dinode s.disk s.sb) ∧
      ∀ a, Fs.stops s a ≠ some (.panic .freeingFreeBlock) := by
  have hrest := rest_of_exec h hboot hrun
  refine ⟨hrest.tables.cached.sound.disk.owned, fun a hs => ?_⟩
  obtain ⟨pr, -, hhalt⟩ := hrest.stops hs
  rcases hhalt.ne_of_not_benign (by decide) with he | he
  · cases he
  · cases he

/-- **No holes.**  Whenever a call releases a sleep lock, and between any two calls, every block of
every file, up to its size, has an address.  So `readi` never comes to a block without an address,
wherever it is called, and `bmap` changes nothing for it (`bmap_eq`).  No call comes to `log_write`
outside of a transaction. -/
theorem noHoles_of_exec :
    (∀ v ∈ s.snapshot :: s.history.released, ∀ i, i < v.sb.ninodes →
      (dinode v.disk v.sb i).type ≠ 0 → (dinode v.disk v.sb i).NoHoles v.disk) ∧
    s.history.filled = 0 ∧
    (∀ ip off n, 0 < (s.inode ip).ref → (s.inode ip).valid = true →
      ∃ r, readi ip off n s = .ok (r, s)) ∧
    ∀ a, Fs.stops s a ≠ some (.panic .logWriteOutside) := by
  have hrest := rest_of_exec h hboot hrun
  have hsound := hrest.tables.cached.sound
  obtain ⟨hall, hfilled⟩ := sound_of_exec h hboot hrun
  refine ⟨fun v hv => (hall v hv s).disk.noHoles, hfilled,
    fun ip off n href hv => readi_ok (hsound.noHoles href hv) off n, fun a hs => ?_⟩
  obtain ⟨pr, -, hhalt⟩ := hrest.stops hs
  rcases hhalt.ne_of_not_benign (by decide) with he | he
  · cases he
  · cases he

/-- **References.**  Between any two calls no operation of the log is open.  A place of the inode
cache is referred to by the open files and the current directories that its count says, and a file
structure by so many descriptors.  No inode is in two places, and an inode that is referred to is
allocated on the disk. -/
theorem references_of_exec :
    s.outstanding = 0 ∧ (∀ ip, (s.inode ip).ref = holders s ip) ∧
      (∀ f, (s.file f).ref = descs s.proc f) ∧
      (∀ ip iq, 0 < holders s ip → 0 < holders s iq →
        (s.inode ip).inum = (s.inode iq).inum → ip = iq) ∧
      ∀ ip, 0 < holders s ip → (dinode s.disk s.sb (s.inode ip).inum).type ≠ 0 := by
  have hrest := rest_of_exec h hboot hrun
  have href : ∀ ip, (s.inode ip).ref = holders s ip := hrest.tables.cached.ref
  refine ⟨hrest.outstanding, href, hrest.tables.ref, fun ip iq hp hq => ?_, fun ip hp ht => ?_⟩
  · rw [← href] at hp hq
    exact hrest.tables.cached.sound.inj ip iq hp hq
  · obtain ⟨nd, hnd⟩ := hrest.tables.alloc ip hp
    have hfree : s.abs.node (s.abs.tag ip).inum = none := if_neg fun hc => hc.2 ht
    rw [hfree] at hnd
    cases hnd

/-- What every change to the inodes keeps is true after every run.  The inode `i` is the current
directory of the process that makes the call. -/
theorem nodes_invariant {P : (ℕ → Option Node) → Prop}
    (hP : ∀ i m m', Effect (readsb disk).ninodes
      (Orderly m ∧ Closed m ∧ Live m ROOTINO ∧ Live m i) m m' → P m → P m')
    (hstart : P (nodeOf (readsb disk) disk)) : P s.abs.node := by
  obtain ⟨hrest0, hn0, hnode0, -⟩ := (userinit_spec h).ok hboot
  refine (exec_invariant (I := fun s => Rest s ∧ s.abs.ninodes = (readsb disk).ninodes ∧
    P s.abs.node) ?_
    ⟨hrest0, hn0, hnode0 ▸ hstart⟩ hrun).2.2
  rintro s a t r ⟨hrest, hn, hnode⟩ hstep
  obtain ⟨pr, -, hafter⟩ := hrest.step hstep
  refine ⟨hafter.rest, hafter.works.ninodes.trans hn, ?_⟩
  rcases hafter.works.effect with hshed | ⟨heffect, -⟩
  · exact hP 0 _ _ (.of_shed hshed) hnode
  · exact hP _ _ _ (hn ▸ heffect) hnode

/-- **The cache is written through.**  Whenever a call releases a sleep lock, and between any two
calls, a valid copy of an inode is what the disk holds.  To discard it makes no difference to who
locks the inode next. -/
theorem copies_of_exec {v : Snapshot} (hv : v ∈ s.snapshot :: s.history.released) {ip : Icache}
    (href : 0 < (v.inode ip).ref) (hvalid : (v.inode ip).valid = true) :
    (v.inode ip).din = dinode v.disk v.sb (v.inode ip).inum ∧
      ∀ t : State, ilock ip ((t.asOf v).forget ip) = ilock ip (t.asOf v) := by
  have hsound := (sound_of_exec h hboot hrun).1 v hv
  exact ⟨((hsound s).copy ip href hvalid).1, fun t => (hsound t).ilock_forget href hvalid⟩

end Exec

end Boot

/-! ## A small image -/

/-- Block 1: the super block with these numbers. -/
def superBlock (l : List UInt32) : Block :=
  l.zipIdx.foldr (fun v blk => putEntry v.2 v.1 blk) zeroBlock

/-- A root directory with its two entries, as a block. -/
def rootBlock : Block := blit zeroBlock 0 (newEntry ROOTINO dot ++ newEntry ROOTINO dotdot)

/-- The inode of the root directory, which has the one block 4. -/
def rootDinode : Dinode := ⟨T_DIR, 0, 0, 1, 32, fun k => if k = 0 then 4 else 0⟩

/-- A disk with an empty root directory and with this byte as its free map. -/
def rootDisk (bits : UInt8) : Disk
  | 1 => superBlock [12, 8, 8, 0, 2, 2, 3]
  | 2 => putDinode ROOTINO rootDinode zeroBlock
  | 3 => fun x => if x = 0 then bits else 0
  | 4 => rootBlock
  | _ => zeroBlock

section Small

instance : Fintype Ptr :=
  Fintype.ofEquiv (Fin (NDIRECT + 1) ⊕ Fin NINDIRECT)
    { toFun := fun x => x.elim .addr .entry
      invFun := fun q => match q with
        | .addr k => .inl k
        | .entry j => .inr j
      left_inv := fun x => by cases x <;> rfl
      right_inv := fun q => by cases q <;> rfl }

/-- The blocks below `m` are in use, and `owner` names the pointer that holds each data block of
them. -/
theorem owned_of_owner {sb : Superblock} {disk : Disk} {m : ℕ} (owner : ℕ → ℕ × Ptr)
    (hpos : 0 < sb.nmeta) (hmeta : sb.nmeta ≤ m) (hm : m ≤ sb.size)
    (hptr : ∀ i < sb.ninodes, (dinode disk sb i).type ≠ 0 → ∀ q, (dinode disk sb i).ptr disk q ≠ 0 →
      sb.nmeta ≤ (dinode disk sb i).ptr disk q ∧ (dinode disk sb i).ptr disk q < m ∧
        owner ((dinode disk sb i).ptr disk q) = (i, q))
    (howner : ∀ b < m, sb.nmeta ≤ b → pointers sb disk (dinode disk sb) (owner b) = b)
    (hused : ∀ b < sb.size, used disk sb b = true ↔ b < m) : Owned sb disk (dinode disk sb) := by
  have hback : ∀ x, pointers sb disk (dinode disk sb) x ≠ 0 →
      sb.nmeta ≤ pointers sb disk (dinode disk sb) x ∧ pointers sb disk (dinode disk sb) x < m ∧
        owner (pointers sb disk (dinode disk sb) x) = x := by
    rintro ⟨i, q⟩ hx
    by_cases hi : i < sb.ninodes ∧ (dinode disk sb i).type ≠ 0
    · rw [pointers_of_alloc hi.1 hi.2] at hx ⊢
      exact hptr i hi.1 hi.2 q hx
    · exact absurd (if_neg hi) hx
  refine ⟨hpos, fun x y hx hxy => ?_, fun x hx => ?_, fun b hb => (hused b hb).trans ?_⟩
  · rw [← (hback x hx).2.2, hxy, (hback y (by rwa [← hxy])).2.2]
  · exact ⟨(hback x hx).1, (hback x hx).2.1.trans_le hm⟩
  · constructor
    · intro hlt
      by_cases hb' : b < sb.nmeta
      · exact Or.inl hb'
      · have hown := howner b hlt (Nat.not_lt.mp hb')
        exact Or.inr ⟨owner b, by omega, hown⟩
    · rintro (hlt | ⟨x, hx, rfl⟩)
      · exact hlt.trans_le hmeta
      · exact (hback x hx).2.1

theorem readsb_rootDisk : readsb (rootDisk 0x1F) = tinySb := by decide

theorem rootDisk_node {i : ℕ} {nd : Node}
    (hi : nodeOf (readsb (rootDisk 0x1F)) (rootDisk 0x1F) i = some nd) :
    i = ROOTINO ∧ nd = (dinode (rootDisk 0x1F) tinySb 1).node (rootDisk 0x1F) := by
  have htype : ∀ i < 8, (dinode (rootDisk 0x1F) tinySb i).type ≠ 0 → i = 1 := by decide
  rw [readsb_rootDisk, nodeOf] at hi
  split_ifs at hi with hc
  obtain rfl := htype i hc.1 hc.2
  exact ⟨rfl, (Option.some.inj hi).symm⟩

/-- The free map `0x1F` marks the four metadata blocks and the block of the root directory. -/
theorem rootDisk_image : Image (rootDisk 0x1F) := by
  have howned : Owned tinySb (rootDisk 0x1F) (dinode (rootDisk 0x1F) tinySb) := by
    refine owned_of_owner (m := 5) (fun _ => (1, .addr 0)) (by decide) (by decide)
      (by decide) ?_ ?_ ?_
    · decide +kernel
    · decide +kernel
    · decide +kernel
  refine ⟨?_, ?_, ?_⟩
  · rw [readsb_rootDisk]
    refine ⟨⟨by decide, by decide, by decide, by decide, by decide, by decide⟩, readsb_rootDisk,
      howned, ?_⟩
    decide +kernel
  · intro i nd hi _ k hk
    obtain ⟨-, rfl⟩ := rootDisk_node hi
    rw [readsb_rootDisk]
    have hlen : ((dinode (rootDisk 0x1F) tinySb 1).node (rootDisk 0x1F)).data.length = 32 := by
      decide +kernel
    have hbound : ∀ k < 2, (direntAt ((dinode (rootDisk 0x1F) tinySb 1).node (rootDisk 0x1F)).data
        k).inum < 8 := by decide +kernel
    rw [hlen] at hk
    exact hbound k (by change 16 * (k + 1) ≤ 32 at hk; omega)
  · rw [readsb_rootDisk]
    exact ⟨_, if_pos ⟨by decide, by decide⟩⟩

variable {disk : Disk} {as : List (Slot × Call)}

def initproc : Slot := 0

/-- A machine without devices boots. -/
def boot (disk : Disk) : Except Stop (Unit × State) :=
  userinit initproc (init disk fun _ => ⟨none, none⟩)

def ran (disk : Disk) (as : List (Slot × Call)) : Option (State × List Reply) :=
  (boot disk).toOption.bind fun r => Lib.exec step r.2 as

/-- A run whose outcome has been computed. -/
theorem exists_run_bind {α : Type} {F : State × List Reply → Option α} {v : α}
    (h : (ran disk as).bind F = some v) :
    ∃ s0 s rs, boot disk = .ok ((), s0) ∧
      Lib.exec step s0 as = some (s, rs) ∧ F (s, rs) = some v := by
  rw [ran] at h
  cases hboot : boot disk with
  | error e =>
    rw [hboot] at h
    cases h
  | ok r =>
    obtain ⟨u, s0⟩ := r
    rw [hboot] at h
    obtain ⟨⟨s, rs⟩, hexec, hF⟩ := Option.bind_eq_some_iff.mp h
    exact ⟨s0, s, rs, rfl, hexec, hF⟩

theorem exists_run {α : Type} {F : State × List Reply → α} {v : α}
    (h : (ran disk as).map F = some v) :
    ∃ s0 s rs, boot disk = .ok ((), s0) ∧
      Lib.exec step s0 as = some (s, rs) ∧ F (s, rs) = v := by
  rw [Option.map_eq_bind] at h
  obtain ⟨s0, s, rs, hboot, hrun, hF⟩ := exists_run_bind h
  exact ⟨s0, s, rs, hboot, hrun, Option.some.inj hF⟩

/-- The first process creates the file `/f`, writes a byte to it, closes it and removes it. -/
def fileRun : List (Slot × Call) :=
  [.open [slash, 102] (O_CREATE ||| O_RDWR), .write 0 [7], .resume, .close 0,
    .unlink [slash, 102]].map
    fun a => (initproc, a)

/-- The calls of `fileRun` release eleven sleep locks. -/
theorem exists_fileRun : ∃ s0 s rs, boot (rootDisk 0x1F) = .ok ((), s0) ∧
      Lib.exec step s0 fileRun = some (s, rs) ∧
      rs = [.int 0, .busy, .int 1, .int 0, .int 0] ∧ s.history.released.length = 11 := by
  obtain ⟨s0, s, rs, hboot, hrun, hat⟩ := exists_run
    (F := fun x => (x.2, x.1.history.released.length))
    (show (ran (rootDisk 0x1F) fileRun).map _ =
      some ([.int 0, .busy, .int 1, .int 0, .int 0], 11) by decide +kernel)
  exact ⟨s0, s, rs, hboot, hrun, Prod.mk.inj hat⟩

theorem owned_of_exec_fileRun : ∃ s0 s rs, boot (rootDisk 0x1F) = .ok ((), s0) ∧
      Lib.exec step s0 fileRun = some (s, rs) ∧
      rs = [.int 0, .busy, .int 1, .int 0, .int 0] ∧
      Owned s.sb s.disk (dinode s.disk s.sb) ∧
      ∀ a, stops s a ≠ some (.panic .freeingFreeBlock) := by
  obtain ⟨s0, s, rs, hboot, hrun, hrs, -⟩ := exists_fileRun
  exact ⟨s0, s, rs, hboot, hrun, hrs, owned_of_exec rootDisk_image hboot hrun⟩

/-- A root directory with a third entry, which names inode 8.  There are the inodes below 8, and the
block in which inode 8 would lie is the free map. -/
def strayDisk : Disk
  | 2 => putDinode ROOTINO { rootDinode with size := 48 } zeroBlock
  | 4 => blit rootBlock 32 (newEntry 8 [120])
  | b => rootDisk 0x1F b

/-- Open the file that the third entry names, and write a byte to it. -/
def strayRun : List (Slot × Call) :=
  [.open [slash, 120] O_RDWR, .write 0 [7], .resume].map fun a => (initproc, a)

/-- The free map of `strayDisk` is exact, and no file has a hole.  The write takes block 5, and
`iupdate` stores the inode over the free map, in which block 5 is then free. -/
theorem owned_lost :
    Owned (readsb strayDisk) strayDisk (dinode strayDisk (readsb strayDisk)) ∧
    (∀ i, i < (readsb strayDisk).ninodes → (dinode strayDisk (readsb strayDisk) i).type ≠ 0 →
      (dinode strayDisk (readsb strayDisk) i).NoHoles strayDisk) ∧
    ∃ s0 s rs, boot strayDisk = .ok ((), s0) ∧
      Lib.exec step s0 strayRun = some (s, rs) ∧
      stops s (initproc, .close 0) = some (.panic .freeingFreeBlock) := by
  refine ⟨?_, by decide +kernel, ?_⟩
  · have hsb : readsb strayDisk = tinySb := by decide +kernel
    rw [hsb]
    refine owned_of_owner (m := 5) (fun _ => (1, .addr 0)) (by decide) (by decide)
      (by decide) ?_ ?_ ?_
    · decide +kernel
    · decide +kernel
    · decide +kernel
  · exact exists_run (F := fun x => stops x.1 (initproc, .close 0)) (by decide +kernel)

theorem noHoles_of_exec_fileRun : ∃ s0 s rs, boot (rootDisk 0x1F) = .ok ((), s0) ∧
      Lib.exec step s0 fileRun = some (s, rs) ∧ s.history.released.length = 11 ∧
      (∀ v ∈ s.snapshot :: s.history.released, ∀ i, i < v.sb.ninodes →
        (dinode v.disk v.sb i).type ≠ 0 → (dinode v.disk v.sb i).NoHoles v.disk) ∧
      s.history.filled = 0 ∧
      (∀ ip off n, 0 < (s.inode ip).ref → (s.inode ip).valid = true →
        ∃ r, readi ip off n s = .ok (r, s)) ∧
      ∀ a, stops s a ≠ some (.panic .logWriteOutside) := by
  obtain ⟨s0, s, rs, hboot, hrun, -, hlen⟩ := exists_fileRun
  exact ⟨s0, s, rs, hboot, hrun, hlen, noHoles_of_exec rootDisk_image hboot hrun⟩

/-- The first process creates the file `/f` and writes a zero to it, which takes a block. -/
def writeRun : List (Slot × Call) :=
  [.open [slash, 102] (O_CREATE ||| O_RDWR), .write 0 [0], .resume].map fun a => (initproc, a)

/-- The first process creates the file `/f` and links it as `/g`. -/
def linkRun : List (Slot × Call) :=
  [.open [slash, 102] (O_CREATE ||| O_RDWR), .link [slash, 102] [slash, 103]].map
    fun a => (initproc, a)

/-- In the middle of `sys_link` the file is unlocked with its two links, before there is an entry
`g`. -/
theorem copies_of_exec_linkRun : ∃ s0 s rs v ip, boot (rootDisk 0x1F) = .ok ((), s0) ∧
      Lib.exec step s0 linkRun = some (s, rs) ∧ v ∈ s.history.released ∧
      (v.inode ip).inum = 2 ∧ (v.inode ip).din.nlink = 2 ∧
      (nodeOf v.sb v.disk ROOTINO).bind (Node.find · [103]) = none ∧
      (v.inode ip).din = dinode v.disk v.sb (v.inode ip).inum ∧
      ∀ t : State, ilock ip ((t.asOf v).forget ip) = ilock ip (t.asOf v) := by
  have hcompute : (ran (rootDisk 0x1F) linkRun).bind (fun x => x.1.history.released[4]?.map fun v =>
      ((v.inode 1).inum, (v.inode 1).ref, (v.inode 1).valid, (v.inode 1).din.nlink,
          (nodeOf v.sb v.disk ROOTINO).bind (Node.find · [103]))) =
      some (2, 2, true, 2, none) := by
    decide +kernel
  obtain ⟨s0, s, rs, hboot, hrun, hat⟩ := exists_run_bind hcompute
  obtain ⟨v, hv, hat⟩ := Option.map_eq_some_iff.mp hat
  simp only [Prod.mk.injEq] at hat
  obtain ⟨hinum, href, hvalid, hlink, hfind⟩ := hat
  have hmem := List.mem_of_getElem? hv
  exact ⟨s0, s, rs, v, 1, hboot, hrun, hmem, hinum, hlink, hfind,
    copies_of_exec rootDisk_image hboot hrun (List.mem_cons_of_mem _ hmem)
      (by rw [href]; decide) hvalid⟩

theorem references_of_exec_writeRun : ∃ s0 s rs, boot (rootDisk 0x1F) = .ok ((), s0) ∧
      Lib.exec step s0 writeRun = some (s, rs) ∧ ∀ ip, (s.inode ip).ref = holders s ip := by
  obtain ⟨s0, s, rs, hboot, hrun, -⟩ := exists_run (F := fun _ => ())
    (show (ran (rootDisk 0x1F) writeRun).map _ = some () by decide +kernel)
  exact ⟨s0, s, rs, hboot, hrun, (references_of_exec rootDisk_image hboot hrun).2.1⟩

/-- If the free map does not mark the block of inodes, the write takes it and fills it with zeros.
The disk then holds nothing of the root directory, which the cache still has. -/
theorem copies_lost :
    (∀ i, i < (readsb (rootDisk 0x1B)).ninodes →
      (dinode (rootDisk 0x1B) (readsb (rootDisk 0x1B)) i).type ≠ 0 →
      (dinode (rootDisk 0x1B) (readsb (rootDisk 0x1B)) i).NoHoles (rootDisk 0x1B)) ∧
    ∃ s0 s rs ip, boot (rootDisk 0x1B) = .ok ((), s0) ∧
      Lib.exec step s0 writeRun = some (s, rs) ∧
      0 < (s.inode ip).ref ∧ (s.inode ip).valid = true ∧ (s.inode ip).locked = false ∧
      (s.inode ip).din ≠ dinode s.disk s.sb (s.inode ip).inum := by
  refine ⟨by decide +kernel, ?_⟩
  obtain ⟨s0, s, rs, hboot, hrun, hat⟩ := exists_run
    (F := fun x => ((x.1.inode 0).inum, (x.1.inode 0).ref,
      (x.1.inode 0).valid, (x.1.inode 0).locked,
      (x.1.inode 0).din.type, (dinode x.1.disk x.1.sb 1).type))
    (show (ran (rootDisk 0x1B) writeRun).map _ =
      some (1, 1, true, false, T_DIR, 0) by decide +kernel)
  simp only [Prod.mk.injEq] at hat
  obtain ⟨hinum, href, hv, hl, ht, ht'⟩ := hat
  refine ⟨s0, s, rs, 0, hboot, hrun, by rw [href]; decide, hv, hl, fun heq => ?_⟩
  rw [hinum] at heq
  rw [heq, ht'] at ht
  exact absurd ht (by decide)

/-- The inode of a file of thirteen blocks, the last of them in the table of addresses in block
17. -/
def tallDinode : Dinode := ⟨T_FILE, 0, 0, 1, 12 * 512 + 1, fun k => UInt32.ofNat (5 + k)⟩

/-- A disk with the root directory and the tall file.  Its free map does not mark block 17. -/
def tallDisk : Disk
  | 1 => superBlock [24, 20, 8, 0, 2, 2, 3]
  | 2 => putDinode 2 tallDinode (putDinode ROOTINO { rootDinode with size := 48 } zeroBlock)
  | 3 => blit zeroBlock 0 [0xFF, 0xFF, 0x05]
  | 4 => blit rootBlock 32 (newEntry 2 [103])
  | 17 => putEntry 0 18 zeroBlock
  | _ => zeroBlock

/-- If the free map does not mark a table of addresses, the write takes it and fills it with zeros.
The file that had it has a hole. -/
theorem noHoles_lost :
    (∀ i, i < (readsb tallDisk).ninodes → (dinode tallDisk (readsb tallDisk) i).type ≠ 0 →
      (dinode tallDisk (readsb tallDisk) i).NoHoles tallDisk) ∧
    ∃ s0 s rs, boot tallDisk = .ok ((), s0) ∧
      Lib.exec step s0 writeRun = some (s, rs) ∧ (∀ ip, (s.inode ip).locked = false) ∧
      (dinode s.disk s.sb 2).type ≠ 0 ∧ ¬ (dinode s.disk s.sb 2).NoHoles s.disk := by
  constructor
  · have hsize : ∀ i < (readsb tallDisk).ninodes,
        (dinode tallDisk (readsb tallDisk) i).size.toNat ≤ 12 * 512 + 1 := by decide +kernel
    have haddr : ∀ i < (readsb tallDisk).ninodes, ∀ bn < 13,
        bn * BSIZE < (dinode tallDisk (readsb tallDisk) i).size.toNat →
        (dinode tallDisk (readsb tallDisk) i).addr tallDisk bn ≠ 0 := by decide +kernel
    intro i hi _ bn hbn
    have hle := hsize i hi
    exact haddr i hi bn (by change bn * 512 < _ at hbn; omega) hbn
  · obtain ⟨s0, s, rs, hboot, hrun, hat⟩ := exists_run
      (F := fun x => ((dinode x.1.disk x.1.sb 2).type, (dinode x.1.disk x.1.sb 2).size,
        (dinode x.1.disk x.1.sb 2).addr x.1.disk 12, decide (∀ ip, (x.1.inode ip).locked = false)))
      (show (ran tallDisk writeRun).map _ = some (T_FILE, 12 * 512 + 1, 0, true) by decide +kernel)
    simp only [Prod.mk.injEq, decide_eq_true_eq] at hat
    obtain ⟨ht, hsize, haddr, hl⟩ := hat
    refine ⟨s0, s, rs, hboot, hrun, hl, by rw [ht]; decide, fun hfull => ?_⟩
    exact hfull 12 (by rw [hsize]; decide) haddr

end Small

end Xv6.Fs
