import Xv6.Fs.Runs

/-!
# The shape of a directory

`dirlookup` returns the first entry with a name, and `isdirempty` looks at the entries from the
third on.  Both take for granted that a name stands in one entry of a directory at most and that the
first two entries are `.` and `..`.  Nothing checks that, but nothing breaks it either: `dirlink`
writes to an entry that is not in use, after it has not found the name, and `unlink` clears no entry
called `.` or `..`.

`Shaped` says this of one directory.  Each change to the inodes keeps it (`Change.formed`), and so
does every run of system calls (`formed_of_exec`).
-/

namespace Xv6.Fs

open Lib

/-! ## Names -/

theorem strncmp_strncpy_self (n : ℕ) (p : List UInt8) : strncmp n p (strncpy p n) = true := by
  induction n generalizing p with
  | zero => rfl
  | succ n ih =>
    rw [strncpy, strncmp]
    by_cases h : p.headD 0 = 0
    · rw [if_pos h, h]
      rfl
    · rw [if_neg h, List.headD_cons, if_neg (not_ne_iff.mpr rfl), if_neg h]
      exact ih _

/-- Who finds the stored name and the name `e` has found two equal names. -/
theorem namecmp_of_stored {name u e : Name} (hu : namecmp u (strncpy name DIRSIZ) = true)
    (he : namecmp u e = true) : namecmp name e = true := by
  have hname : namecmp name u = true :=
    (strncmp_congr (strncmp_strncpy_self DIRSIZ name)).symm.trans hu
  have hself : namecmp u u = true := (strncmp_congr hname).trans hname
  exact (strncmp_congr he).trans ((strncmp_congr hself).symm.trans hname)

/-! ## Directories -/

/-- Entry `k` of the directory is in use and has the name. -/
def HasEntry (l : List UInt8) (k : ℕ) (name : Name) : Prop :=
  DESIZE * (k + 1) ≤ l.length ∧ (direntAt l k).Named name

/-- No two entries have the same name. -/
def Distinct (l : List UInt8) : Prop := ∀ name i j, HasEntry l i name → HasEntry l j name → i = j

/-- **The shape of a directory.** -/
structure Shaped (l : List UInt8) : Prop where
  distinct : Distinct l
  dot : HasEntry l 0 dot
  dotdot : HasEntry l 1 dotdot

section Entries

variable {l m : List UInt8} {i j k d : ℕ} {name u : Name}

/-- Entry `k` is there, or is the next one. -/
def RoomAt (l : List UInt8) (k : ℕ) : Prop := DESIZE * k = l.length ∨ DESIZE * (k + 1) ≤ l.length

theorem RoomAt.le (h : RoomAt l k) : DESIZE * k ≤ l.length :=
  h.elim (fun h => h.le) (le_trans (Nat.mul_le_mul_left _ (Nat.le_succ k)))

theorem Vacant.roomAt (h : Vacant l k name) : RoomAt l k := h.room.imp_right And.left

theorem hasEntry_splice_iff (hk : RoomAt l k) (hm : m.length = DESIZE) (hjk : j ≠ k) :
    HasEntry (splice l (DESIZE * k) m) j u ↔ HasEntry l j u := by
  rw [HasEntry, HasEntry, direntAt_splice_of_ne hk.le hm hjk, length_splice_entry hk.le hm]
  refine and_congr_left' ⟨fun h => ?_, fun h => h.trans (Nat.le_max_left _ _)⟩
  change 16 * k = l.length ∨ 16 * (k + 1) ≤ l.length at hk
  change 16 * (j + 1) ≤ max l.length (16 * (k + 1)) at h
  change 16 * (j + 1) ≤ l.length
  omega

/-- The new entry is not in use, or has a name that no other entry has. -/
theorem Distinct.splice (h : Distinct l) (hk : RoomAt l k) (hm : m.length = DESIZE)
    (hnew : ∀ u, (Dirent.ofBytes m).Named u → ∀ j, ¬ HasEntry l j u) :
    Distinct (Lib.splice l (DESIZE * k) m) := by
  have hother : ∀ u j, j ≠ k → HasEntry (Lib.splice l (DESIZE * k) m) k u →
      ¬ HasEntry (Lib.splice l (DESIZE * k) m) j u := by
    intro u j hjk hu hj
    have hnamed := hu.2
    rw [direntAt_splice_self hk.le hm] at hnamed
    exact hnew u hnamed j ((hasEntry_splice_iff hk hm hjk).mp hj)
  intro u i j hi hj
  by_cases hik : i = k
  · by_contra hij
    rw [hik] at hi hij
    exact hother u j (Ne.symm hij) hi hj
  · by_cases hjk : j = k
    · rw [hjk] at hj
      exact absurd hi (hother u i hik hj)
    · exact h u i j ((hasEntry_splice_iff hk hm hik).mp hi) ((hasEntry_splice_iff hk hm hjk).mp hj)

/-- An entry behind the first two is written over. -/
theorem Shaped.splice (h : Shaped l) (hk : RoomAt l k) (hm : m.length = DESIZE)
    (hnew : ∀ u, (Dirent.ofBytes m).Named u → ∀ j, ¬ HasEntry l j u) (h0 : 0 ≠ k) (h1 : 1 ≠ k) :
    Shaped (Lib.splice l (DESIZE * k) m) where
  distinct := h.distinct.splice hk hm hnew
  dot := (hasEntry_splice_iff hk hm h0).mpr h.dot
  dotdot := (hasEntry_splice_iff hk hm h1).mpr h.dotdot

theorem Vacant.ne (h : Vacant l k name) (hj : HasEntry l j u) : j ≠ k := by
  rintro rfl
  rcases h.room with hend | ⟨-, hzero⟩
  · have hle := hj.1
    change 16 * j = l.length at hend
    change 16 * (j + 1) ≤ l.length at hle
    omega
  · exact hj.2.1 hzero

theorem name_newEntry (i : ℕ) (name : Name) :
    (Dirent.ofBytes (newEntry i name)).name = strncpy name DIRSIZ := by
  rw [newEntry, Dirent.ofBytes, Dirent.toBytes]
  exact List.drop_left' (length_leBytes _ _)

/-- No entry has the name of the entry that `dirlink` writes. -/
theorem Vacant.not_hasEntry (h : Vacant l k name) (i : ℕ)
    (hu : (Dirent.ofBytes (newEntry i name)).Named u) (j : ℕ) : ¬ HasEntry l j u := by
  intro hj
  have hname := hu.2
  rw [name_newEntry] at hname
  exact h.fresh j hj.1 ⟨hj.2.1, namecmp_of_stored hname hj.2.2⟩

/-- **`dirlink`** keeps the shape. -/
theorem Shaped.enter (h : Shaped l) (hv : Vacant l k name) (i : ℕ) :
    Shaped (Lib.splice l (DESIZE * k) (newEntry i name)) :=
  h.splice hv.roomAt (length_newEntry i name) (fun _ hu j => hv.not_hasEntry i hu j) (hv.ne h.dot)
    (hv.ne h.dotdot)

/-- **`unlink`** keeps the shape. -/
theorem Shaped.clear (h : Shaped l) (hk : DESIZE * (k + 1) ≤ l.length)
    (hdot : namecmp Fs.dot (direntAt l k).name = false)
    (hdotdot : namecmp Fs.dotdot (direntAt l k).name = false) :
    Shaped (Lib.splice l (DESIZE * k) noEntry) := by
  refine h.splice (Or.inr hk) length_noEntry (fun u hu => absurd (by decide) hu.1) ?_ ?_
  · rintro rfl
    rw [h.dot.2.2] at hdot
    cases hdot
  · rintro rfl
    rw [h.dotdot.2.2] at hdotdot
    cases hdotdot

theorem direntAt_newEntry (i : ℕ) (name : Name) :
    direntAt (newEntry i name) 0 = Dirent.ofBytes (newEntry i name) := by
  rw [direntAt, Nat.mul_zero, List.drop_zero, ← length_newEntry i name, List.take_length]

/-- **A new directory** has the shape. -/
theorem shaped_dots (hi : i % 2 ^ 16 ≠ 0) (hd : d % 2 ^ 16 ≠ 0)
    (hv : Vacant (newEntry i dot) k dotdot) :
    Shaped (Lib.splice (newEntry i dot) (DESIZE * k) (newEntry d dotdot)) := by
  have hnamed : ∀ {n : ℕ} {name : Name}, n % 2 ^ 16 ≠ 0 →
      (Dirent.ofBytes (newEntry n name)).Named name := by
    intro n name hn
    refine ⟨by rwa [inum_newEntry], ?_⟩
    rw [name_newEntry]
    exact strncmp_strncpy_self DIRSIZ name
  have hfirst : HasEntry (newEntry i dot) 0 dot :=
    ⟨(length_newEntry i dot).ge, by rw [direntAt_newEntry]; exact hnamed hi⟩
  have honly : ∀ {j u}, HasEntry (newEntry i dot) j u → j = 0 := by
    intro j u hj
    have hle := hj.1
    rw [length_newEntry] at hle
    change 16 * (j + 1) ≤ 16 at hle
    omega
  have hk : k = 1 := by
    have hne := hv.ne hfirst
    have hroom := hv.room
    rw [length_newEntry] at hroom
    change 16 * k = 16 ∨ 16 * (k + 1) ≤ 16 ∧ _ at hroom
    omega
  subst hk
  refine ⟨Distinct.splice (fun u i j hi hj => (honly hi).trans (honly hj).symm) hv.roomAt
    (length_newEntry d dotdot) fun _ hu j => hv.not_hasEntry d hu j,
    (hasEntry_splice_iff hv.roomAt (length_newEntry d dotdot) (by decide)).mpr hfirst, ?_, ?_⟩
  · rw [length_splice_entry hv.le (length_newEntry d dotdot)]
    exact Nat.le_max_right _ _
  · rw [direntAt_splice_self hv.le (length_newEntry d dotdot)]
    exact hnamed hd

end Entries

/-! ## All directories -/

/-- **All directories are in shape.**  Inode 0 is not used. -/
structure Formed (m : ℕ → Option Node) : Prop where
  zero : m 0 = none
  shaped : ∀ i nd, m i = some nd → nd.type = T_DIR → Shaped nd.data

section Formed

variable {n : ℕ} {w : Prop} {m m' : ℕ → Option Node} {i : ℕ} {x : Node}

theorem Shed.formed (h : Shed m m') (hf : Formed m) : Formed m' := by
  refine ⟨Option.eq_none_iff_forall_ne_some.mpr fun nd hnd => ?_,
    fun i nd hi => hf.shaped i nd (h.of_some hi)⟩
  have hz := h.of_some hnd
  rw [hf.zero] at hz
  cases hz

theorem Formed.upd (h : Formed m) (hi : i ≠ 0) (hx : x.type = T_DIR → Shaped x.data) :
    Formed (Lib.upd m i (some x)) := by
  refine ⟨by rw [upd_of_ne hi.symm]; exact h.zero, fun j nd hj ht => ?_⟩
  by_cases hji : j = i
  · rw [hji, upd_self] at hj
    rw [← Option.some.inj hj] at ht ⊢
    exact hx ht
  · rw [upd_of_ne hji] at hj
    exact h.shaped j nd hj ht

theorem Formed.ne_zero (h : Formed m) (hi : m i = some x) : i ≠ 0 := by
  rintro rfl
  rw [h.zero] at hi
  cases hi

/-- **Every change** keeps all directories in shape. -/
theorem Change.formed (h : Change n w m m') (hn : n ≤ 2 ^ 16) (hf : Formed m) : Formed m' := by
  have hmod : ∀ {j}, j < n → j ≠ 0 → j % 2 ^ 16 ≠ 0 := by
    intro j hj hz
    rwa [Nat.mod_eq_of_lt (hj.trans_le hn)]
  cases h with
  | none => exact hf
  | write hi ht l => exact hf.upd (hf.ne_zero hi) fun hdir => absurd hdir ht
  | link hi hin ht hd hdir hv hw =>
    refine (hf.upd (hf.ne_zero hi) fun h => ?_).upd (hf.ne_zero hd) fun _ => ?_
    · exact absurd h ht
    · exact (hf.shaped _ _ hd hdir).enter hv _
  | create hi hpos hin ht hd hdir hv hw =>
    refine (hf.upd (Nat.pos_iff_ne_zero.mp hpos) fun h => absurd h ht).upd
      (hf.ne_zero hd) fun _ => ?_
    exact (hf.shaped _ _ hd hdir).enter hv _
  | mkdir hi hpos hin hdn hd hdir hv hv' hw =>
    have hi0 := Nat.pos_iff_ne_zero.mp hpos
    have hd0 := hf.ne_zero hd
    refine (hf.upd hi0 fun _ => ?_).upd hd0 fun _ => (hf.shaped _ _ hd hdir).enter hv _
    exact shaped_dots (hmod hin hi0) (hmod hdn hd0) hv'
  | @unlink i d k nd dd hk hi hne hlink hempty =>
    refine (hf.upd (hf.ne_zero hk.node) fun _ => ?_).upd (hf.ne_zero hi) fun hdir => ?_
    · exact (hf.shaped _ _ hk.node hk.type).clear hk.le hk.dot hk.dotdot
    · exact hf.shaped i nd hi hdir

/-- **Directories keep their shape.**  If in every directory of the disk the names are distinct and
the first two entries are `.` and `..`, this is so after every run of system calls of any
processes. -/
theorem formed_of_exec {disk : Disk} {devsw : ℕ → Devsw} {p : Slot} {s0 s : State}
    {as : List (Slot × Call)} {rs : List Reply} (h : Image disk)
    (hf : Formed (nodeOf (readsb disk) disk)) (hboot : userinit p (init disk devsw) = .ok ((), s0))
    (hrun : Lib.exec Fs.step s0 as = some (s, rs)) : Formed s.abs.node := by
  refine nodes_invariant h hboot hrun (fun w m m' heffect hm => ?_) hf
  obtain ⟨m1, m2, h1, h2, h3⟩ := heffect
  exact h3.formed (h2.formed h.sound.wf.inum (h1.formed hm))

end Formed

theorem rootDisk_formed : Formed (nodeOf (readsb (rootDisk 0x1F)) (rootDisk 0x1F)) := by
  have hdata : ((dinode (rootDisk 0x1F) tinySb 1).node (rootDisk 0x1F)).data =
      splice (newEntry 1 dot) (DESIZE * 1) (newEntry 1 dotdot) := by decide +kernel
  refine ⟨Option.eq_none_iff_forall_ne_some.mpr fun nd hi => ?_, fun i nd hi _ => ?_⟩
  · exact absurd (rootDisk_node hi).1 (by decide)
  obtain ⟨rfl, rfl⟩ := rootDisk_node hi
  rw [hdata]
  refine shaped_dots (by decide) (by decide) ⟨by decide, Or.inl rfl, fun j hj => ?_⟩
  obtain rfl : j = 0 := by
    change 16 * (j + 1) ≤ 16 at hj
    omega
  decide

/-- The first process makes a directory. -/
theorem formed_of_exec_mkdir : ∃ s0 s rs, boot (rootDisk 0x1F) = .ok ((), s0) ∧
      Lib.exec step s0 [(initproc, .mkdir [slash, 100])] = some (s, rs) ∧ Formed s.abs.node := by
  obtain ⟨s0, s, rs, hboot, hrun, -⟩ := exists_run (F := fun _ => ())
    (show (ran (rootDisk 0x1F) [(initproc, .mkdir [slash, 100])]).map _ = some () by decide +kernel)
  exact ⟨s0, s, rs, hboot, hrun, formed_of_exec rootDisk_image rootDisk_formed hboot hrun⟩

end Xv6.Fs
