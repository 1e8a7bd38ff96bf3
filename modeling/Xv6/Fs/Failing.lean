import Xv6.Fs.Filewrite

/-!
# System calls on names that fail

`open`, `mkdir`, `mknod`, `link` and `unlink` walk along paths, and can find at many places that
they have to return `-1`.  `link` has counted a link by then, and takes it back.  The references
that a call has taken on its way are dropped, and no inode goes with them: an inode without links is
there only as long as an open file or a process holds it (`Tidy`), and these have references of
their own.

`open` with `O_CREATE` is the exception.  It makes the inode and its entry first, and looks for a
file structure and a descriptor then.  If there is none it returns `-1`, and the new file stays
(`untouched_lost`).  `untouched_iff_of_exec` says that this is the only way in which a call that
fails leaves something behind.
-/

namespace Xv6.Fs

open Lib

/-- The same inodes are allocated, with the same link counts, and the directories have the same
entries. -/
structure Untouched (m m' : ℕ → Option Node) : Prop where
  free : ∀ i, m i = none → m' i = none
  alloc : ∀ i nd, m i = some nd → ∃ nd', m' i = some nd' ∧ nd'.type = nd.type ∧
    nd'.nlink = nd.nlink ∧
    (nd.type = T_DIR → nd'.data = nd.data)

theorem Untouched.refl (m : ℕ → Option Node) : Untouched m m :=
  ⟨fun _ hi => hi, fun _ nd hi => ⟨nd, hi, rfl, rfl, fun _ => rfl⟩⟩

/-- The calls that make and remove names. -/
def Call.OnNames : Call → Prop
  | .open _ _ | .mkdir _ | .mknod _ _ _ | .link _ _ | .unlink _ => True
  | _ => False

/-- `open` is going to make a file, and there is no room for another open file. -/
def Wasted (s : State) (pr : Proc) : Call → Prop
  | .open path omode => Creates s pr.cwd path omode ∧ ¬ Room s pr
  | _ => False

section Steps

variable {s s' : State} {p : Slot} {pr : Proc} {a : Call}

/-- **A call that fails.** -/
theorem Rest.untouched_iff (h : Rest s) (ht : Tidy (holders s) s.abs) (hp : s.proc p = some pr)
    (ha : a.OnNames) (hs : Fs.step s (p, a) = some (s', .int (-1))) :
    Untouched s.abs.node s'.abs.node ↔ ¬ Wasted s pr a := by
  obtain ⟨pr', hp', hen, hcall⟩ := step_eq_some_iff.mp hs
  obtain rfl : pr' = pr := Option.some.inj (hp'.symm.trans hp)
  have hpos := holders_cwd_pos hp
  -- the calls that change nothing
  have hforgoes : ∀ {w : Prop} {m : Op Reply} {E : Stop → Prop},
      wp m s (fun r t => Done w (holders s) (holders s) s t ∧ Forgoes s.abs.node t.abs.node r) E →
      m s = .ok (.int (-1), s') → Untouched s.abs.node s'.abs.node := by
    intro w m E hm hok
    obtain ⟨hdone, hshed⟩ := hm.ok hok
    rw [ht.node_eq hdone.serves (hshed rfl)]
    exact .refl _
  cases a with
  | «open» path omode =>
    have hidle : pr'.pending = none := Option.isNone_iff_eq_none.mp hen
    obtain ⟨-, hfail⟩ := (h.sysOpen hp hidle path omode).ok hcall
    obtain ⟨hserves, ⟨hnot, hshed⟩ | ⟨hyes, i, hnone, hlive⟩⟩ := hfail rfl
    · refine iff_of_true ?_ hnot
      rw [ht.node_eq hserves hshed]
      exact .refl _
    · refine iff_of_false ?_ (not_not.mpr hyes)
      intro hun
      obtain ⟨nd, hi, -⟩ := hlive
      rw [hun.free i (hnone ht)] at hi
      cases hi
  | mkdir path =>
    exact iff_of_true
      (hforgoes (sysCreate_spec h.tables.cached h.tables.bounded hpos (by decide) path)
      hcall) id
  | mknod path major minor =>
    exact iff_of_true
      (hforgoes (sysCreate_spec h.tables.cached h.tables.bounded hpos (by decide) path)
      hcall) id
  | link old new =>
    exact iff_of_true
      (hforgoes (sysLink_spec h.tables.cached h.tables.bounded hpos old new) hcall) id
  | unlink path =>
    exact iff_of_true
      (hforgoes (sysUnlink_spec h.tables.cached h.tables.bounded hpos path) hcall) id
  | _ => exact absurd ha id

end Steps

/-! ## Runs -/

/-- Every inode of the disk has links.  So it is on a disk that `mkfs` has made. -/
def Linked (disk : Disk) : Prop := ∀ i nd, nodeOf (readsb disk) disk i = some nd → nd.nlink ≠ 0

section Runs

variable {disk : Disk} {devsw : ℕ → Devsw} {p q : Slot} {s0 s s' : State} {as : List (Slot × Call)}
  {rs : List Reply} {pr : Proc} {a : Call} (h : Image disk) (hlinked : Linked disk)
  (hboot : userinit q (init disk devsw) = .ok ((), s0)) (hrun : Lib.exec step s0 as = some (s, rs))
include h hlinked hboot hrun

/-- **Inodes without links** are held by open files and processes, in every state that is
reached. -/
theorem tidy_of_exec : Rest s ∧ Tidy (holders s) s.abs := by
  obtain ⟨hrest, -, hnode, -⟩ := (userinit_spec h).ok hboot
  have htidy : Tidy (holders s0) s0.abs := by
    intro i nd hi hdead
    rw [hnode] at hi
    exact absurd hdead (hlinked i nd hi)
  refine exec_invariant (I := fun s => Rest s ∧ Tidy (holders s) s.abs) ?_ ⟨hrest, htidy⟩ hrun
  rintro s a t r ⟨hs, ht⟩ hstep
  obtain ⟨pr, -, hafter⟩ := hs.step hstep
  exact ⟨hafter.rest, hafter.works.tidy ht⟩

/-- **A call on names that fails changes nothing**, in every state that is reached, unless it is an
`open` that makes a file and then has no room for it. -/
theorem untouched_iff_of_exec (hp : s.proc p = some pr) (ha : a.OnNames)
    (hs : step s (p, a) = some (s', .int (-1))) : Untouched s.abs.node s'.abs.node ↔
      ¬ Wasted s pr a := by
  obtain ⟨hrest, htidy⟩ := tidy_of_exec h hlinked hboot hrun
  exact hrest.untouched_iff htidy hp ha hs

/-- **No inode is lost.**  In every state that is reached, an inode that is allocated on the disk
and has no links left is in the cache, and it is an open file or the current directory of a
process. -/
theorem reclaimed_of_exec {i : ℕ} (hi : i < s.sb.ninodes) (ht : (dinode s.disk s.sb i).type ≠ 0)
    (hlink : (dinode s.disk s.sb i).nlink = 0) : ∃ ip, 0 < holders s ip ∧
      (s.inode ip).inum = i := by
  obtain ⟨-, htidy⟩ := tidy_of_exec h hlinked hboot hrun
  obtain ⟨ip, hip, hinum, -⟩ := htidy i _ (if_pos ⟨hi, ht⟩) hlink
  exact ⟨ip, hip, hinum⟩

end Runs

theorem rootDisk_linked : Linked (rootDisk 0x1F) := by
  intro i nd hi
  obtain ⟨-, rfl⟩ := rootDisk_node hi
  decide

/-- A file is removed while it is open. -/
theorem reclaimed_of_exec_unlinked : ∃ s0 s rs, boot (rootDisk 0x1F) = .ok ((), s0) ∧
      Lib.exec step s0 [(initproc, .open [slash, 102] O_CREATE), (initproc, .unlink [slash, 102])] =
        some (s, rs) ∧ ∃ ip, 0 < holders s ip ∧ (s.inode ip).inum = 2 := by
  have hcompute : (ran (rootDisk 0x1F)
      [(initproc, .open [slash, 102] O_CREATE), (initproc, .unlink [slash, 102])]).map
      (fun x => decide (2 < x.1.sb.ninodes ∧ (dinode x.1.disk x.1.sb 2).type ≠ 0 ∧
        (dinode x.1.disk x.1.sb 2).nlink = 0)) = some true := by
    decide +kernel
  obtain ⟨s0, s, rs, hboot, hrun, hy⟩ := exists_run hcompute
  obtain ⟨hi, ht, hlink⟩ := of_decide_eq_true hy
  exact ⟨s0, s, rs, hboot, hrun,
    reclaimed_of_exec rootDisk_image rootDisk_linked hboot hrun hi ht hlink⟩

/-- A file that is not there is opened. -/
theorem untouched_of_absent : ∃ s0 s s' rs, boot (rootDisk 0x1F) = .ok ((), s0) ∧
      Lib.exec step s0 [(initproc, .mkdir [slash, 100])] = some (s, rs) ∧
      step s (initproc, .open [slash, 102] 0) = some (s', .int (-1)) ∧
      Untouched s.abs.node s'.abs.node := by
  have hcompute : (ran (rootDisk 0x1F) [(initproc, .mkdir [slash, 100])]).bind
      (fun x => (step x.1 (initproc, .open [slash, 102] 0)).map fun y =>
        ((x.1.proc initproc).isSome, y.2)) = some (true, .int (-1)) := by
    decide +kernel
  obtain ⟨s0, s, rs, hboot, hrun, hy⟩ := exists_run_bind hcompute
  obtain ⟨⟨s', r⟩, hopen, hy⟩ := Option.map_eq_some_iff.mp hy
  simp only [Prod.mk.injEq] at hy
  obtain ⟨hsome, rfl⟩ := hy
  obtain ⟨pr, hp⟩ := Option.isSome_iff_exists.mp hsome
  refine ⟨s0, s, s', rs, hboot, hrun, hopen, ?_⟩
  refine (untouched_iff_of_exec rootDisk_image rootDisk_linked hboot hrun hp
    (show Call.OnNames (.open [slash, 102] 0) from trivial) hopen).mpr ?_
  exact fun hw => hw.1.1 rfl

/-- The first process opens the root directory, and duplicates the descriptor until there is none
left. -/
def fillRun : List (Slot × Call) :=
  (initproc, .open [slash] 0) :: List.replicate 15 (initproc, .dup 0)

/-- **A call that fails and changes something.**  All descriptors are used.  `open` with `O_CREATE`
returns `-1`, and there is a new inode with an entry for it. -/
theorem untouched_lost : ∃ s0 s s' rs, boot (rootDisk 0x1F) = .ok ((), s0) ∧
      Lib.exec step s0 fillRun = some (s, rs) ∧
      step s (initproc, .open [slash, 102] (O_CREATE ||| O_RDWR)) = some (s', .int (-1)) ∧
      s.abs.node 2 = none ∧ (∃ nd, s'.abs.node 2 = some nd ∧ nd.type = T_FILE ∧ nd.nlink = 1) ∧
      ¬ Untouched s.abs.node s'.abs.node := by
  have hcompute : (ran (rootDisk 0x1F) fillRun).bind
      (fun x => (step x.1 (initproc, .open [slash, 102] (O_CREATE ||| O_RDWR))).map fun y =>
        ((x.1.abs.node 2).isNone, (y.1.abs.node 2).map fun nd => (nd.type, nd.nlink), y.2)) =
      some (true, some (T_FILE, 1), .int (-1)) := by
    decide +kernel
  obtain ⟨s0, s, rs, hboot, hrun, hy⟩ := exists_run_bind hcompute
  obtain ⟨⟨s', r⟩, hopen, hy⟩ := Option.map_eq_some_iff.mp hy
  simp only [Prod.mk.injEq, Option.isNone_iff_eq_none, Option.map_eq_some_iff] at hy
  obtain ⟨hnone, ⟨nd, hi, ht, hn⟩, rfl⟩ := hy
  refine ⟨s0, s, s', rs, hboot, hrun, hopen, hnone, ⟨nd, hi, ht, hn⟩, fun hun => ?_⟩
  rw [hun.free 2 hnone] at hi
  cases hi

end Xv6.Fs
