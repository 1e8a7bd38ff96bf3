import Xv6.Fs.Cache
import Xv6.Fs.Syscall

/-!
# Files are sequences of bytes

`readi` and `writei`, called in any order on any inodes that are not devices, are the reading and
writing of byte sequences.  The abstract machine (`Access.spec`) has one list of bytes for each
inode number; it knows neither blocks nor addresses.  A call of `readi` or `writei` returns what the
abstract call returns, and the contents of the inodes after it are what the abstract machine has.

The one thing that the abstract machine does not show is a disk without free blocks: there
`writei` stops in `balloc`.  That is the only way in which a call can stop.
-/

namespace Xv6.Fs

open Lib

inductive Access
  | readi (ip : Icache) (off n : UInt32)
  | writei (ip : Icache) (src : ℕ → UInt8) (off n : UInt32)

inductive Answer
  | bytes (r : Option (List UInt8))
  | int (r : ℤ)
  deriving DecidableEq

def Answer.failed : Answer → Bool
  | .bytes r => r.isNone
  | .int r => r = -1

namespace Access

def place : Access → Icache
  | readi ip _ _ => ip
  | writei ip _ _ _ => ip

def run : Access → Op Answer
  | readi ip off n => do return .bytes (← Fs.readi ip off n)
  | writei ip src off n => do return .int (← Fs.writei ip src off n)

/-- A write is made inside a transaction; a read need not be. -/
def InTrans (s : State) : Access → Prop
  | readi _ _ _ => True
  | writei _ _ _ _ => 1 ≤ s.outstanding

def step (s : State) (a : Access) : Option (State × Answer) :=
  match a.run s with
  | .ok (r, s') => some (s', r)
  | .error _ => none

/-- The call on sequences of bytes, one for each inode number. -/
def spec (inum : Icache → ℕ) (m : ℕ → List UInt8) : Access → Option ((ℕ → List UInt8) × Answer)
  | readi ip off n => some (m, .bytes (readData (m (inum ip)) off n))
  | writei ip src off n =>
    match writeData (m (inum ip)) off.toNat (slice src 0 n.toNat) with
    | none => some (m, .int (-1))
    | some l => some (upd m (inum ip) l, .int n.toNat)

end Access

def contents (s : State) (i : ℕ) : List UInt8 :=
  match s.abs.node i with
  | some nd => nd.data
  | none => []

/-- The place holds a valid copy of an inode that is not a device. -/
def Regular (s : State) (ip : Icache) : Prop :=
  0 < (s.inode ip).ref ∧ (s.inode ip).valid = true ∧ (s.inode ip).din.type ≠ T_DEV

section Refinement

variable {s s' : State} {ip iq : Icache} {nd : Node} {i : ℕ} {l : List UInt8}

theorem Regular.held (hr : Regular s ip) (h : Sound s) :
    ∃ nd, Held s.abs ip (s.inode ip).inum nd ∧ nd.type ≠ T_DEV :=
  ⟨(s.inode ip).din.node s.disk, ⟨rfl, hr.1, hr.2.1, h.node_eq hr.1 hr.2.1⟩, hr.2.2⟩

theorem Held.contents_eq (hh : Held s.abs ip i nd) : contents s i = nd.data := by
  rw [contents, hh.node]

/-- After a change to the contents of a node, its contents are the new ones and the others are as
they were. -/
theorem contents_putNode (habs : s'.abs = s.abs.putNode i (some { nd with data := l })) :
    contents s' = upd (contents s) i l := by
  funext j
  rw [contents, habs]
  by_cases hj : j = i
  · rw [hj, Abs.putNode_self, upd_self]
  · rw [Abs.putNode_of_ne _ hj, upd_of_ne hj]
    rfl

theorem Regular.putNode (hr : Regular s iq) (h : Sound s) (h' : Sound s')
    (hnode : s.abs.node i = some nd)
    (habs : s'.abs = s.abs.putNode i (some { nd with data := l })) :
    Regular s' iq ∧ (s'.inode iq).inum = (s.inode iq).inum := by
  have htag : (s'.inode iq).tag = (s.inode iq).tag := congrFun (congrArg Abs.tag habs) iq
  have href : (s'.inode iq).ref = (s.inode iq).ref := congrArg Tag.ref htag
  have hvalid : (s'.inode iq).valid = (s.inode iq).valid := congrArg Tag.valid htag
  have hinum : (s'.inode iq).inum = (s.inode iq).inum := congrArg Tag.inum htag
  obtain ⟨h1, h2, h3⟩ := hr
  refine ⟨⟨by rwa [href], by rwa [hvalid], ?_⟩, hinum⟩
  have hold := h.node_eq h1 h2
  have hnew := h'.node_eq (by rwa [href]) (by rwa [hvalid])
  have hnode' := congrFun (congrArg Abs.node habs) (s'.inode iq).inum
  rw [show s'.abs.node _ = _ from hnew, hinum] at hnode'
  by_cases hi : (s.inode iq).inum = i
  · rw [hi, Abs.putNode_self] at hnode'
    rw [hi, show nodeOf s.sb s.disk i = _ from hnode] at hold
    have ht : (s'.inode iq).din.type = nd.type := congrArg Node.type (Option.some.inj hnode')
    have ht' : nd.type = (s.inode iq).din.type := congrArg Node.type (Option.some.inj hold)
    rwa [ht, ht']
  · rw [Abs.putNode_of_ne _ hi, show s.abs.node _ = _ from hold] at hnode'
    have ht : (s'.inode iq).din.type = (s.inode iq).din.type :=
      congrArg Node.type (Option.some.inj hnode')
    rwa [ht]

theorem Access.run_spec (h : Sound s) (a : Access) (ho : a.InTrans s)
    (hr : Regular s a.place) :
    wp a.run s
      (fun r s' => Sound s' ∧ s'.outstanding = s.outstanding ∧
        (∀ iq, Regular s iq → Regular s' iq ∧ (s'.inode iq).inum = (s.inode iq).inum) ∧
        a.spec (fun ip => (s.inode ip).inum) (contents s) = some (contents s', r) ∧
        (r.failed = true → s' = s))
      (fun e => e = .panic .ballocOutOfBlocks ∧
        ∃ ip src off n, a = .writei ip src off n ∧
          ¬ Credit s ip (Ptr.span off.toNat n.toNat)) := by
  obtain ⟨nd, hh, ht⟩ := hr.held h
  have hdata := hh.contents_eq
  cases a with
  | readi ip off n =>
    rw [Access.run, wp_bind]
    refine wp_of_ok (hh.readi h ht off n) ?_
    refine ⟨h, rfl, fun iq hq => ⟨hq, rfl⟩, ?_, fun _ => rfl⟩
    rw [Access.spec, show contents s (s.inode ip).inum = nd.data from hdata]
  | writei ip src off n =>
    rw [Access.run, Access.spec, show contents s (s.inode ip).inum = nd.data from hdata]
    refine (hh.writei h ho ht src off n).chain (fun e he => ⟨he.1, ip, src, off, n, rfl, he.2⟩) ?_
    intro r s' hq
    rw [wp_pure]
    cases hw : writeData nd.data off.toNat (slice src 0 n.toNat) with
    | none =>
      rw [hw] at hq
      obtain ⟨rfl, rfl⟩ := hq
      exact ⟨h, rfl, fun iq hq => ⟨hq, rfl⟩, rfl, fun _ => rfl⟩
    | some l =>
      rw [hw] at hq
      obtain ⟨rfl, h', habs⟩ := hq
      refine ⟨h', congrArg Abs.outstanding habs, fun iq hq => hq.putNode h h' hh.node habs, ?_, ?_⟩
      · rw [contents_putNode habs]
        rfl
      · intro hfail
        have hneg : (n.toNat : ℤ) = -1 := of_decide_eq_true hfail
        omega

end Refinement

section Runs

variable {s s' : State} {as : List Access} {rs : List Answer} {a : Access}

/-- The invariant of a run: what the calls need, and that the places hold what they held. -/
structure Serving (s0 s : State) : Prop where
  sound : Sound s
  trans : s.outstanding = s0.outstanding
  regular : ∀ ip, Regular s0 ip → Regular s ip ∧ (s.inode ip).inum = (s0.inode ip).inum

/-- Only the number of the inode that the call is about matters. -/
theorem Access.spec_congr {inum inum' : Icache → ℕ} {m : ℕ → List UInt8}
    (h : inum a.place = inum' a.place) : a.spec inum m = a.spec inum' m := by
  cases a with
  | readi ip off n => rw [Access.spec, Access.spec, show inum ip = inum' ip from h]
  | writei ip src off n => rw [Access.spec, Access.spec, show inum ip = inum' ip from h]

theorem Access.step_eq_some_iff {r : Answer} : a.step s = some (s', r) ↔ a.run s = .ok (r, s') := by
  rw [Access.step]
  cases a.run s with
  | ok x =>
    obtain ⟨r', t⟩ := x
    constructor
    · intro h
      cases h
      rfl
    · intro h
      cases h
      rfl
  | error e =>
    constructor
    · intro h
      cases h
    · intro h
      cases h

theorem Serving.inTrans {s0 : State} (h : Serving s0 s) (ho : a.InTrans s0) : a.InTrans s := by
  cases a with
  | readi ip off n => trivial
  | writei ip src off n =>
    rw [Access.InTrans, h.trans]
    exact ho

/-- The calls of a list find what they need at every point of the run. -/
theorem Serving.exec (h : Sound s) (hreg : ∀ a ∈ as, a.InTrans s ∧ Regular s a.place)
    (hrun : Lib.exec Access.step s as = some (s', rs)) :
    Serving s s' ∧
      Lib.exec (Access.spec fun ip => (s.inode ip).inum) (contents s) as =
        some (contents s', rs) := by
  refine exec_induction (P := fun as s' rs =>
    (∀ a ∈ as, a.InTrans s ∧ Regular s a.place) → Serving s s' ∧
    Lib.exec (Access.spec fun ip => (s.inode ip).inum) (contents s) as = some (contents s', rs))
    ?_ ?_ hrun hreg
  · exact fun _ => ⟨⟨h, rfl, fun ip hip => ⟨hip, rfl⟩⟩, rfl⟩
  · intro as t rs a u r _ ih hstep hreg
    obtain ⟨hs, hspec⟩ := ih fun b hb => hreg b (List.mem_append_left _ hb)
    obtain ⟨hin, hr⟩ := hreg a (List.mem_append_right _ (List.mem_singleton_self a))
    obtain ⟨ha, hinum⟩ := hs.regular _ hr
    have hspec' := Access.run_spec hs.sound a (hs.inTrans hin) ha
    obtain ⟨hu, hout, hkeep, hans, -⟩ := hspec'.ok (Access.step_eq_some_iff.mp hstep)
    refine ⟨⟨hu, hout.trans hs.trans, fun ip hip => ?_⟩, ?_⟩
    · obtain ⟨h1, h2⟩ := hs.regular ip hip
      obtain ⟨h3, h4⟩ := hkeep ip h1
      exact ⟨h3, h4.trans h2⟩
    · have hsame : a.spec (fun ip => (t.inode ip).inum) (contents t) =
          a.spec (fun ip => (s.inode ip).inum) (contents t) := Access.spec_congr hinum
      exact exec_concat_iff.mpr ⟨contents t, rs, r, hspec, hsame ▸ hans, rfl⟩

theorem Regular.length_contents {ip : Icache} (hr : Regular s ip) (h : Sound s) :
    (contents s (s.inode ip).inum).length = (s.inode ip).din.size.toNat := by
  obtain ⟨nd, hh, -⟩ := hr.held h
  rw [hh.contents_eq, hh.size_eq h]

/-- **Files are sequences of bytes.**  A run of `readi` and `writei` gives the answers of the
abstract machine and ends with its contents, and the length of the contents is the size of the
inode.  At every point of the run, a call that returns `-1` changes nothing, and the only way in
which a call can stop is that `balloc` finds no block for a write. -/
theorem exec_access_refines (h : Sound s) (hreg : ∀ a ∈ as, a.InTrans s ∧ Regular s a.place)
    (hrun : Lib.exec Access.step s as = some (s', rs)) :
    Lib.exec (Access.spec fun ip => (s.inode ip).inum) (contents s) as = some (contents s', rs) ∧
      (∀ ip, Regular s ip →
        (contents s' (s.inode ip).inum).length = (s'.inode ip).din.size.toNat) ∧
      ∀ a : Access, a.InTrans s → Regular s a.place →
        (∀ r u, a.run s' = .ok (r, u) → r.failed = true → u = s') ∧
        ∀ e, a.run s' = .error e → e = .panic .ballocOutOfBlocks ∧
          ∃ ip src off n, a = .writei ip src off n ∧
            ¬ Credit s' ip (Ptr.span off.toNat n.toNat) := by
  obtain ⟨hs, hspec⟩ := Serving.exec h hreg hrun
  refine ⟨hspec, fun ip hip => ?_, fun a ho ha => ?_⟩
  · obtain ⟨hip', hinum⟩ := hs.regular ip hip
    rw [← hinum, hip'.length_contents hs.sound]
  · have hcall := Access.run_spec hs.sound a (hs.inTrans ho) (hs.regular _ ha).1
    exact ⟨fun r u hok hfail => (hcall.ok hok).2.2.2.2 hfail, fun e herr => hcall.error herr⟩

end Runs

/-! ## A small disk -/

/-- Twelve blocks, of which eight are for data, and eight inodes. -/
def tinySb : Superblock := ⟨12, 8, 8, 0, 2, 2, 3⟩

/-- A disk without files: the super block, one block of inodes, the bitmap, and data blocks. -/
def tinyDisk : Disk
  | 1 =>
    ([12, 8, 8, 0, 2, 2, 3] : List UInt32).zipIdx.foldr (fun v blk =>
      putEntry v.2 v.1 blk) zeroBlock
  | 3 => fun x => if x = 0 then 0x0F else 0
  | _ => zeroBlock

theorem tinyDisk_sound : DiskSound tinySb tinyDisk :=
  DiskSound.empty ⟨by decide, by decide, by decide, by decide, by decide, by decide⟩
    (by decide +kernel) (by decide +kernel) (by decide +kernel)

def newFile : Op Icache := do
  beginOp
  let ip ← ialloc T_FILE
  ilock ip
  return ip

theorem newFile_spec {s : State} (h : Cached s 0) :
    wp newFile s (fun ip s' => Sound s' ∧ 1 ≤ s'.outstanding ∧ Regular s' ip) (fun _ => True) := by
  have h1 : Cached { s with outstanding := s.outstanding + 1 } 0 :=
    .of_ref_eq_zero h.sound.disk h.ref fun ip => h.sound.unlocked ip (h.ref ip)
  rw [newFile, wp_bind, beginOp, wp_modify]
  refine (ialloc_spec h1 (Nat.le_add_left _ _) (show T_FILE ≠ 0 by decide)).chain
    (fun _ _ => trivial) ?_
  rintro ip s2 ⟨i, -, -, -, h2, hk2, hinum, -⟩
  refine (ilock_spec h2 (pos_add_single _ _)).chain (fun _ _ => trivial) ?_
  rintro _ s3 ⟨h3, hk3, nd, hh⟩
  rw [wp_pure]
  refine ⟨h3.sound, ?_, hh.ref, hh.valid, ?_⟩
  · have hout := hk3.outstanding.trans hk2.outstanding
    show 1 ≤ s3.abs.outstanding
    rw [hout]
    exact Nat.le_add_left 1 s.outstanding
  · rw [hh.type_eq h3.sound]
    have hnode := hk2.node_of_some (hk3.node_of_some hh.node)
    rw [hinum, Abs.putNode_self] at hnode
    rw [← Option.some.inj hnode]
    exact show T_FILE ≠ T_DEV by decide

/-- Three bytes are written to a new file, and two of them are read. -/
theorem exec_access_refines_newFile : ∃ s s' ip rs,
    Lib.exec Access.step s [.writei ip (fun k => UInt8.ofNat k + 5) 0 3, .readi ip 1 8] =
      some (s', rs) ∧
      rs = [.int 3, .bytes (some [6, 7])] ∧
      Lib.exec (Access.spec fun ip => (s.inode ip).inum) (contents s)
        [.writei ip (fun k => UInt8.ofNat k + 5) 0 3, .readi ip 1 8] = some (contents s', rs) := by
  have hrun : ((newFile (init tinyDisk fun _ => ⟨none, none⟩)).toOption.bind fun r =>
      Lib.exec Access.step r.2
        [.writei r.1 (fun k => UInt8.ofNat k + 5) 0 3, .readi r.1 1 8]).map Prod.snd =
      some [.int 3, .bytes (some [6, 7])] := by
    decide +kernel
  have hdisk : DiskSound (readsb tinyDisk) tinyDisk := by
    rw [tinyDisk_sound.super]
    exact tinyDisk_sound
  have hspec := newFile_spec (s := init tinyDisk fun _ => ⟨none, none⟩)
    (.of_ref_eq_zero hdisk (fun _ => rfl) fun _ => rfl)
  cases hnew : newFile (init tinyDisk fun _ => ⟨none, none⟩) with
  | error e =>
    rw [hnew] at hrun
    cases hrun
  | ok r =>
    obtain ⟨ip, s⟩ := r
    obtain ⟨hs, ho, hreg⟩ := hspec.ok hnew
    rw [hnew] at hrun
    obtain ⟨⟨s', rs⟩, hexec, hrs⟩ := Option.map_eq_some_iff.mp hrun
    refine ⟨s, s', ip, rs, hexec, hrs, (exec_access_refines hs ?_ hexec).1⟩
    intro a ha
    rcases List.mem_cons.mp ha with rfl | ha
    · exact ⟨ho, hreg⟩
    · rw [List.mem_singleton.mp ha]
      exact ⟨trivial, hreg⟩

end Xv6.Fs
