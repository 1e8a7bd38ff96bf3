import Mathlib.Data.List.DropRight
import Xv6.Fs.Entries

/-!
# Walking along a path

One lemma for each function on directories, in the terms of `State.abs`: `dirlookup` finds an entry
or there is none, `dirlink` writes one, and `namex` walks from one inode to the next.

The inode numbers in a directory are those of the disk (`Bounded`), so what `dirlookup` finds can be
fetched.  It need not be allocated.  `ilock` stops at an inode that is not, and a walk can come to
one: the entry `..` of a directory that was removed is still there.  A walk that starts at an inode
with links and meets only entries of inodes with links never stops in this way (`Closed`, `Live`).

The stops that matter to the callers are those that are not `Benign`.
-/

namespace Xv6.Fs

open Lib

/-! ## What the walk needs of the nodes -/

/-- The entries of a directory name inodes of the disk. -/
def Node.Bounded (n : ℕ) (nd : Node) : Prop :=
  nd.type = T_DIR → ∀ k, DESIZE * (k + 1) ≤ nd.data.length → (direntAt nd.data k).inum < n

/-- So do those of all directories. -/
def Bounded (a : Abs) : Prop := ∀ i nd, a.node i = some nd → nd.Bounded a.ninodes

/-- The inode is allocated and has links. -/
def Live (m : ℕ → Option Node) (i : ℕ) : Prop := ∃ nd, m i = some nd ∧ nd.nlink ≠ 0

/-- The entries of the directories with links name inodes with links. -/
def Closed (m : ℕ → Option Node) : Prop :=
  ∀ i nd, m i = some nd → nd.nlink ≠ 0 → nd.type = T_DIR → ∀ k, DESIZE * (k + 1) ≤ nd.data.length →
    (direntAt nd.data k).inum ≠ 0 → Live m (direntAt nd.data k).inum

/-- The stops that can happen in a file system that is in order. -/
def Stop.Benign (e : Stop) : Prop :=
  e ≠ .panic .freeingFreeBlock ∧ e ≠ .panic .logWriteOutside ∧ e ≠ .panic .ilockNoType ∧
    e ≠ .panic .unlinkNlink

instance (e : Stop) : Decidable e.Benign := inferInstanceAs (Decidable (_ ∧ _))

section Keeping

variable {c : Icache → ℕ} {a a' : Abs} {i : ℕ}

theorem Keeps.bounded (h : Keeps c a a') (hb : Bounded a) : Bounded a' := by
  intro i nd hi
  rw [h.ninodes]
  exact hb i nd (h.node_of_some hi)

theorem Keeps.live (h : Keeps c a a') (hl : Live a.node i) : Live a'.node i := by
  obtain ⟨nd, hi, hn⟩ := hl
  rcases h.shed i with hsame | ⟨-, nd', hi', hn'⟩
  · exact ⟨nd, hsame.trans hi, hn⟩
  · rw [hi] at hi'
    cases hi'
    exact absurd hn' hn

theorem Keeps.closed (h : Keeps c a a') (hc : Closed a.node) : Closed a'.node :=
  fun i nd hi hn ht k hk hz => h.live (hc i nd (h.node_of_some hi) hn ht k hk hz)

end Keeping

/-- The references are in the tags, so an operation that changes contents only does not change
them. -/
theorem Cached.of_abs {s s' : State} {c : Icache → ℕ} (h : Cached s c) (hs : Sound s')
    (htag : s'.abs.tag = s.abs.tag) : Cached s' c := by
  refine ⟨hs, fun ip => ?_⟩
  have hr : (s'.abs.tag ip).ref = (s.abs.tag ip).ref := by rw [htag]
  exact hr.trans (h.ref ip)

/-! ## The loops over a directory -/

theorem desize_mul_lt {i n : ℕ} (h : i < (n + DESIZE - 1) / DESIZE) : DESIZE * i < n := by
  change i < (n + 16 - 1) / 16 at h
  change 16 * i < n
  omega

theorem not_dvd_of_part {i n : ℕ} (h : DESIZE * i < n) (hpart : ¬ DESIZE * (i + 1) ≤ n) :
    ¬ DESIZE ∣ n := by
  change 16 * i < n at h
  change ¬ 16 * (i + 1) ≤ n at hpart
  change ¬ 16 ∣ n
  omega

theorem desize_mul_dirents {n : ℕ} (h : DESIZE ∣ n) : DESIZE * ((n + DESIZE - 1) / DESIZE) = n := by
  change 16 ∣ n at h
  change 16 * ((n + 16 - 1) / 16) = n
  omega

section Loops

variable {s : State} {dp : Icache} {d : ℕ} {nd : Node} {name : Name}

theorem Held.dirents_eq (hh : Held s.abs dp d nd) (h : Sound s) :
    dirents (s.inode dp).din = (nd.data.length + DESIZE - 1) / DESIZE := by
  rw [dirents, hh.size_eq h]

theorem Held.readDirent (hh : Held s.abs dp d nd) (h : Sound s) (ht : nd.type = T_DIR) {k : ℕ}
    (hk : DESIZE * k < nd.data.length) :
    Fs.readDirent dp (DESIZE * k) s =
      .ok (if DESIZE * (k + 1) ≤ nd.data.length then some (direntAt nd.data k) else none, s) := by
  have hle := hh.length_le h
  have hmax : MAXFILE * BSIZE < 2 ^ 31 := by decide
  have hD : DESIZE = 16 := rfl
  have hoff : (UInt32.ofNat (DESIZE * k)).toNat = DESIZE * k :=
    UInt32.toNat_ofNat_of_lt' (by rw [UInt32.size]; omega)
  have hn : (UInt32.ofNat DESIZE).toNat = DESIZE := rfl
  have hread := hh.readi h (by rw [ht]; decide) (UInt32.ofNat (DESIZE * k)) (UInt32.ofNat DESIZE)
  rw [readData, hoff, hn, if_neg (by omega)] at hread
  have hlen : ((nd.data.drop (DESIZE * k)).take DESIZE).length = DESIZE ↔
      DESIZE * (k + 1) ≤ nd.data.length := by
    rw [List.length_take, List.length_drop, Nat.mul_succ]
    omega
  rw [Fs.readDirent, bind_ok hread]
  show Except.ok
    ((if ((nd.data.drop (DESIZE * k)).take DESIZE).length = DESIZE then _ else _), s) = _
  simp only [hlen]
  rfl

/-- What the loop of `dirlookup` makes of the `n` entries from `i` on. -/
def Searched (nd : Node) (name : Name) (i n : ℕ) : Option (ℕ × ℕ) → Prop
  | none => ∀ k, i ≤ k → k < i + n →
      DESIZE * (k + 1) ≤ nd.data.length ∧ ¬ (direntAt nd.data k).Named name
  | some (inum, off) => ∃ k, off = DESIZE * k ∧ DESIZE * (k + 1) ≤ nd.data.length ∧
      (direntAt nd.data k).Named name ∧ inum = (direntAt nd.data k).inum ∧
      ∀ j, i ≤ j → j < k → ¬ (direntAt nd.data j).Named name

theorem Held.dirlookupLoop (hh : Held s.abs dp d nd) (h : Sound s) (ht : nd.type = T_DIR)
    (name : Name) {i n : ℕ} (hn : i + n = (nd.data.length + DESIZE - 1) / DESIZE) :
    wp (Fs.dirlookupLoop dp name n (DESIZE * i)) s (fun r s' => s' = s ∧ Searched nd name i n r)
      (fun e => e = .panic .dirlookupRead ∧ ¬ DESIZE ∣ nd.data.length) := by
  induction n generalizing i with
  | zero => exact ⟨rfl, fun k h1 h2 => absurd h2 (by omega)⟩
  | succ n ih =>
    have hread := hh.readDirent h ht (desize_mul_lt (i := i) (by omega))
    rw [Fs.dirlookupLoop, wp_bind]
    refine wp_of_ok hread ?_
    by_cases hfull : DESIZE * (i + 1) ≤ nd.data.length
    · rw [if_pos hfull]
      have hnext := ih (i := i + 1) (by omega)
      -- an entry that is not the one: go on
      have hskip : ¬ (direntAt nd.data i).Named name →
          wp (Fs.dirlookupLoop dp name n (DESIZE * i + DESIZE)) s
            (fun r s' => s' = s ∧ Searched nd name i (n + 1) r)
            (fun e => e = .panic .dirlookupRead ∧ ¬ DESIZE ∣ nd.data.length) := by
        intro hnot
        rw [← Nat.mul_succ]
        refine hnext.mono ?_ fun _ he => he
        rintro (_ | ⟨inum, off⟩) s' ⟨hs', hr⟩
        · refine ⟨hs', fun k h1 h2 => ?_⟩
          rcases Nat.eq_or_lt_of_le h1 with rfl | hlt
          · exact ⟨hfull, hnot⟩
          · exact hr k hlt (by omega)
        · obtain ⟨k, hoff, hle, hnamed, hinum, hfirst⟩ := hr
          refine ⟨hs', k, hoff, hle, hnamed, hinum, fun j h1 h2 => ?_⟩
          rcases Nat.eq_or_lt_of_le h1 with rfl | hlt
          · exact hnot
          · exact hfirst j hlt h2
      show wp (if (direntAt nd.data i).inum = 0 then _ else _) s _ _
      rw [wp_ite]
      refine ⟨fun hz => hskip fun hnm => hnm.1 hz, fun hz => ?_⟩
      rw [wp_ite]
      refine ⟨fun hnm => ⟨rfl, i, rfl, hfull, ⟨hz, hnm⟩, rfl, fun j h1 h2 => ?_⟩,
        fun hnm => hskip fun hn => hnm hn.2⟩
      omega
    · rw [if_neg hfull]
      exact ⟨rfl, not_dvd_of_part (desize_mul_lt (by omega)) hfull⟩

/-- The loop of `dirlink` from entry `i` on: an empty entry, or the end of a directory of full
entries. -/
theorem Held.emptyDirent (hh : Held s.abs dp d nd) (h : Sound s) (ht : nd.type = T_DIR)
    (hfull : DESIZE ∣ nd.data.length) {i n : ℕ}
    (hn : i + n = (nd.data.length + DESIZE - 1) / DESIZE) :
    wp (Fs.emptyDirent dp n (DESIZE * i)) s
      (fun off s' => s' = s ∧ ∃ k, off = DESIZE * k ∧ (DESIZE * k = nd.data.length ∨
        DESIZE * (k + 1) ≤ nd.data.length ∧ (direntAt nd.data k).inum = 0))
      (fun e => e = .panic .dirlinkRead) := by
  induction n generalizing i with
  | zero =>
    refine ⟨rfl, i, rfl, Or.inl ?_⟩
    rw [Nat.add_zero] at hn
    rw [hn, desize_mul_dirents hfull]
  | succ n ih =>
    have hread := hh.readDirent h ht (desize_mul_lt (i := i) (by omega))
    rw [Fs.emptyDirent, wp_bind]
    refine wp_of_ok hread ?_
    have hle : DESIZE * (i + 1) ≤ nd.data.length := by
      rw [← desize_mul_dirents hfull]
      exact Nat.mul_le_mul_left _ (by omega)
    rw [if_pos hle]
    show wp (if (direntAt nd.data i).inum = 0 then _ else _) s _ _
    rw [wp_ite]
    refine ⟨fun hz => ⟨rfl, i, rfl, Or.inr ⟨hle, hz⟩⟩, fun _ => ?_⟩
    rw [← Nat.mul_succ]
    exact ih (by omega)

end Loops

def Node.index (nd : Node) (name : Name) : Option ℕ :=
  (List.range (nd.data.length / DESIZE)).find? fun k => (direntAt nd.data k).Named name

def Node.find (nd : Node) (name : Name) : Option ℕ :=
  (nd.index name).map fun k => (direntAt nd.data k).inum

section Find

variable {nd : Node} {name : Name} {k : ℕ}

theorem lt_dirents_iff {n : ℕ} : k < n / DESIZE ↔ DESIZE * (k + 1) ≤ n := by
  change k < n / 16 ↔ 16 * (k + 1) ≤ n
  omega

theorem Node.index_eq_none_iff :
    nd.index name = none ↔ ∀ k, DESIZE * (k + 1) ≤ nd.data.length →
      ¬ (direntAt nd.data k).Named name := by
  rw [Node.index, List.find?_eq_none]
  simp only [List.mem_range, lt_dirents_iff, decide_eq_true_eq]

theorem Node.index_eq_some_iff :
    nd.index name = some k ↔ DESIZE * (k + 1) ≤ nd.data.length ∧ (direntAt nd.data k).Named name ∧
      ∀ j, j < k → ¬ (direntAt nd.data j).Named name := by
  rw [Node.index, List.find?_range_eq_some]
  simp only [List.mem_range, lt_dirents_iff, decide_eq_true_eq, Bool.not_eq_eq_eq_not,
    Bool.not_true,
    decide_eq_false_iff_not]
  exact ⟨fun h => ⟨h.2.1, h.1, h.2.2⟩, fun h => ⟨h.2.1, h.1, h.2.2⟩⟩

theorem Node.find_eq_none_iff :
    nd.find name = none ↔ ∀ k, DESIZE * (k + 1) ≤ nd.data.length →
      ¬ (direntAt nd.data k).Named name := by
  rw [Node.find, Option.map_eq_none_iff, Node.index_eq_none_iff]

theorem Node.find_eq_some (hk : DESIZE * (k + 1) ≤ nd.data.length)
    (hnamed : (direntAt nd.data k).Named name)
    (hfirst : ∀ j, j < k → ¬ (direntAt nd.data j).Named name) :
    nd.find name = some (direntAt nd.data k).inum :=
  Option.map_eq_some_iff.mpr ⟨k, Node.index_eq_some_iff.mpr ⟨hk, hnamed, hfirst⟩, rfl⟩

end Find

/-! ## The functions on directories -/

theorem locked_putInode {s : State} {ip : Icache} {n : Inode} (hn : n.locked = (s.inode ip).locked)
    (iq : Icache) : ((s.putInode ip n).inode iq).locked = (s.inode iq).locked := by
  by_cases hq : iq = ip
  · rw [hq, putInode_self, hn]
  · rw [putInode_of_ne hq]

theorem iget_locked (s : State) (i : ℕ) :
    wp (iget i) s (fun _ s' => ∀ iq, (s'.inode iq).locked = (s.inode iq).locked)
      (fun _ => True) := by
  rw [iget, wp_bind, wp_get]
  cases (List.finRange NINODE).find? fun ip => 0 < (s.inode ip).ref ∧ (s.inode ip).inum = i with
  | some ip =>
    rw [wp_bind, wp_setInode, wp_pure]
    exact locked_putInode rfl
  | none =>
    cases (List.finRange NINODE).find? fun ip => (s.inode ip).ref = 0 with
    | none => trivial
    | some ip =>
      rw [wp_bind, wp_setInode, wp_pure]
      exact locked_putInode rfl

theorem idup_locked (s : State) (ip : Icache) :
    wp (idup ip) s (fun _ s' => ∀ iq, (s'.inode iq).locked = (s.inode iq).locked)
      (fun _ => True) := by
  rw [idup, wp_bind, wp_setInode, wp_pure]
  exact locked_putInode rfl

/-- `iget` stops if all places of the cache are taken by other inodes. -/
theorem iget_full (s : State) (i : ℕ) :
    wp (iget i) s (fun _ _ => True)
      (fun e => e = .panic .igetNoInodes ∧ ∀ iq, 0 < (s.inode iq).ref ∧ (s.inode iq).inum ≠ i) := by
  rw [iget, wp_bind, wp_get]
  cases hhit : (List.finRange NINODE).find? fun ip => 0 < (s.inode ip).ref ∧
    (s.inode ip).inum = i with
  | some ip => trivial
  | none =>
    cases hempty : (List.finRange NINODE).find? fun ip => (s.inode ip).ref = 0 with
    | some ip => trivial
    | none =>
      refine ⟨rfl, fun iq => ?_⟩
      have hmiss := List.find?_eq_none.mp hhit iq (List.mem_finRange iq)
      have htaken := List.find?_eq_none.mp hempty iq (List.mem_finRange iq)
      rw [decide_eq_true_eq] at hmiss htaken
      have hpos := Nat.pos_of_ne_zero htaken
      exact ⟨hpos, fun hi => hmiss ⟨hpos, hi⟩⟩

section Directories

variable {s : State} {c : Icache → ℕ} {dp ip : Icache} {d : ℕ} {nd : Node} {name : Name}

/-- What `dirlookup` returns: the first entry with the name, or that there is none. -/
def Found (c : Icache → ℕ) (s : State) (nd : Node) (name : Name) :
    Option (Icache × ℕ) → State → Prop
  | none, s' => s' = s ∧ DESIZE ∣ nd.data.length ∧
      ∀ k, DESIZE * (k + 1) ≤ nd.data.length → ¬ (direntAt nd.data k).Named name
  | some (ip, off), s' => ∃ k, off = DESIZE * k ∧ DESIZE * (k + 1) ≤ nd.data.length ∧
      (direntAt nd.data k).Named name ∧ Cached s' (c + Pi.single ip 1) ∧
      Keeps c s.abs s'.abs ∧ (s'.abs.tag ip).inum = (direntAt nd.data k).inum ∧
      (∀ iq, (s'.inode iq).locked = (s.inode iq).locked) ∧
      nd.find name = some (direntAt nd.data k).inum

/-- **`dirlookup`** finds the first entry with the name, or there is none.  In a directory of full
entries it stops only for want of a place in the cache. -/
theorem dirlookup_exact (h : Cached s c) (hb : Bounded s.abs) (hh : Held s.abs dp d nd)
    (ht : nd.type = T_DIR) :
    wp (dirlookup dp name) s (Found c s nd name)
      (fun e => e = .panic .dirlookupRead ∧ ¬ DESIZE ∣ nd.data.length ∨
        e = .panic .igetNoInodes ∧ ∃ i, nd.find name = some i ∧
          ∀ iq, 0 < (s.inode iq).ref ∧ (s.inode iq).inum ≠ i) := by
  rw [dirlookup, wp_bind, wp_get, wp_ite]
  refine ⟨fun hne => absurd ((hh.type_eq h.sound).trans ht) hne, fun _ => ?_⟩
  rw [hh.dirents_eq h.sound]
  have hloop := hh.dirlookupLoop h.sound ht name (i := 0) (Nat.zero_add _)
  refine hloop.chain (fun _ => Or.inl) ?_
  rintro (_ | ⟨inum, off⟩) s' ⟨rfl, hr⟩
  · refine ⟨rfl, ?_, fun k hk => (hr k (Nat.zero_le k) ?_).2⟩
    · by_contra hdvd
      have hlast := (hr ((nd.data.length + DESIZE - 1) / DESIZE - 1) (Nat.zero_le _) ?_).1
      · change ¬ 16 ∣ nd.data.length at hdvd
        change 16 * ((nd.data.length + 16 - 1) / 16 - 1 + 1) ≤ nd.data.length at hlast
        omega
      · change ¬ 16 ∣ nd.data.length at hdvd
        change (nd.data.length + 16 - 1) / 16 - 1 < 0 + (nd.data.length + 16 - 1) / 16
        omega
    · change 16 * (k + 1) ≤ nd.data.length at hk
      change k < 0 + (nd.data.length + 16 - 1) / 16
      omega
  · obtain ⟨k, rfl, hk, hnamed, rfl, hfirst⟩ := hr
    have hi := hb d nd hh.node ht k hk
    have hfind := Node.find_eq_some hk hnamed fun j => hfirst j (Nat.zero_le j)
    show wp (iget _ >>= fun ip => pure (some (ip, DESIZE * k))) s' _ _
    have hget := ((iget_spec h hi).and (iget_locked s' _)).and (iget_full s' _)
    refine (hget.mono (fun _ _ hq => hq.1) fun e he => Or.inr ⟨he.2.1, _, hfind, he.2.2⟩).bind ?_
    rintro ip s'' ⟨⟨h', hk', hinum⟩, hlock⟩
    exact ⟨k, rfl, hk, hnamed, h', hk', hinum, hlock, hfind⟩

theorem dirlookup_spec (h : Cached s c) (hb : Bounded s.abs) (hh : Held s.abs dp d nd)
    (ht : nd.type = T_DIR) :
    wp (dirlookup dp name) s (Found c s nd name) Stop.Benign := by
  refine (dirlookup_exact h hb hh ht).mono (fun _ _ hq => hq) ?_
  rintro e (⟨rfl, -⟩ | ⟨rfl, -⟩)
  · decide
  · decide

def newEntry (inum : ℕ) (name : Name) : List UInt8 := (⟨inum, strncpy name DIRSIZ⟩ : Dirent).toBytes

@[simp] theorem length_newEntry (inum : ℕ) (name : Name) : (newEntry inum name).length = DESIZE :=
  Dirent.length_toBytes_strncpy inum name

/-- There is room for an entry at `k`, and the name is new. -/
structure Vacant (l : List UInt8) (k : ℕ) (name : Name) : Prop where
  full : DESIZE ∣ l.length
  room : DESIZE * k = l.length ∨ DESIZE * (k + 1) ≤ l.length ∧ (direntAt l k).inum = 0
  fresh : ∀ j, DESIZE * (j + 1) ≤ l.length → ¬ (direntAt l j).Named name

/-- What `dirlink` does if there is no entry with the name. -/
theorem Held.enterDirent (hh : Held s.abs dp d nd) (h : Cached s c) (ho : 1 ≤ s.outstanding)
    (ht : nd.type = T_DIR) (hfull : DESIZE ∣ nd.data.length)
    (hfresh : ∀ k, DESIZE * (k + 1) ≤ nd.data.length → ¬ (direntAt nd.data k).Named name)
    (inum : ℕ) :
    wp (do
        let off ← Fs.emptyDirent dp (dirents ((← get).inode dp).din) 0
        let de : Dirent := ⟨inum, strncpy name DIRSIZ⟩
        let r ← Fs.writei dp de.memory (UInt32.ofNat off) (UInt32.ofNat DESIZE)
        if r ≠ DESIZE then throw (.panic .dirlink)
        else return true) s
      (fun r s' => Cached s' c ∧ r = true ∧ ∃ k, Vacant nd.data k name ∧ s'.abs = s.abs.putNode d
        (some { nd with data := splice nd.data (DESIZE * k) (newEntry inum name) }))
      (fun e => e.Benign ∧ e ≠ .hang) := by
  rw [wp_bind, wp_get, hh.dirents_eq h.sound]
  refine (hh.emptyDirent h.sound ht hfull (i := 0) (Nat.zero_add _)).chain
    (fun e he => by rw [he]; decide) ?_
  rintro off s2 ⟨rfl, k, rfl, hroom⟩
  have hle := hh.length_le h.sound
  have hkle : DESIZE * k ≤ nd.data.length := by
    rcases hroom with hroom | ⟨hroom, -⟩
    · exact hroom.le
    · exact le_trans (Nat.mul_le_mul_left _ (Nat.le_succ k)) hroom
  have hmax : MAXFILE * BSIZE < 2 ^ 31 := by decide
  have hoff : (UInt32.ofNat (DESIZE * k)).toNat = DESIZE * k :=
    UInt32.toNat_ofNat_of_lt' (by rw [UInt32.size]; omega)
  have hn : (UInt32.ofNat DESIZE).toNat = DESIZE := rfl
  have hsrc : slice (Dirent.memory ⟨inum, strncpy name DIRSIZ⟩) 0 DESIZE = newEntry inum name := by
    have hlen := length_newEntry inum name
    have hget : slice (Dirent.memory ⟨inum, strncpy name DIRSIZ⟩) 0 DESIZE =
        (newEntry inum name).take DESIZE := slice_getD hlen.ge
    rw [hget, ← hlen, List.take_length]
  have hw := hh.writei h.sound ho (by rw [ht]; decide) (Dirent.memory ⟨inum, strncpy name DIRSIZ⟩)
    (UInt32.ofNat (DESIZE * k)) (UInt32.ofNat DESIZE)
  rw [hoff, hn, hsrc] at hw
  refine hw.chain (fun e he => by rw [he.1]; decide) ?_
  intro r s3 hr
  cases hdata : writeData nd.data (DESIZE * k) (newEntry inum name) with
  | none =>
    rw [hdata] at hr
    obtain ⟨rfl, -⟩ := hr
    rw [wp_ite]
    exact ⟨fun _ => show Stop.Benign _ ∧ _ by decide, fun hne => absurd (by decide) hne⟩
  | some l =>
    rw [hdata] at hr
    obtain ⟨rfl, hs, habs⟩ := hr
    have hl : l = splice nd.data (DESIZE * k) (newEntry inum name) := by
      rw [writeData] at hdata
      split_ifs at hdata
      exact (Option.some.inj hdata).symm
    rw [wp_ite]
    refine ⟨fun hne => absurd rfl hne, fun _ => ?_⟩
    refine ⟨h.of_abs hs (by rw [habs]; rfl), rfl, k, ⟨hfull, hroom, hfresh⟩, ?_⟩
    rw [habs, hl]

/-- **`dirlink`** writes an entry, unless there is one with the name. -/
theorem dirlink_spec (h : Cached s c) (hb : Bounded s.abs) (ho : 1 ≤ s.outstanding)
    (hh : Held s.abs dp d nd) (ht : nd.type = T_DIR) (inum : ℕ) :
    wp (dirlink dp name inum) s
      (fun r s' => Cached s' c ∧
        (r = false ∧ Keeps c s.abs s'.abs ∨
          r = true ∧ ∃ k, Vacant nd.data k name ∧ s'.abs = s.abs.putNode d
            (some { nd with data := splice nd.data (DESIZE * k) (newEntry inum name) })))
      Stop.Benign := by
  rw [dirlink]
  refine (dirlookup_spec h hb hh ht).bind ?_
  rintro (_ | ⟨iq, off⟩) s1 hr
  · obtain ⟨rfl, hfull, hfresh⟩ := hr
    refine (hh.enterDirent h ho ht hfull hfresh inum).mono ?_ fun _ he => he.1
    exact fun r s' hq => ⟨hq.1, Or.inr hq.2⟩
  · obtain ⟨k, -, -, -, h1, hk1, -⟩ := hr
    show wp (iput iq >>= fun _ => pure false) s1 _ _
    refine (iput_spec h1 (ho.trans_eq hk1.outstanding.symm)).chain
      (fun e he => by rw [he]; decide) ?_
    rintro _ s2 ⟨h2, hk2⟩
    exact ⟨h2, Or.inl ⟨rfl, hk1.trans hk2⟩⟩

theorem iunlockput_tidy (h : Cached s (c + Pi.single ip 1)) (ho : 1 ≤ s.outstanding) :
    wp (iunlockput ip) s
      (fun _ s' => Cached s' c ∧ Keeps c s.abs s'.abs ∧
        (Tidy (c + Pi.single ip 1) s.abs → Tidy c s'.abs))
      Stop.Benign := by
  have hpos := pos_add_single c ip
  rw [iunlockput]
  refine (iunlock_spec h hpos).chain (fun e he => by rw [he]; decide) ?_
  rintro _ s1 ⟨h1, hk1⟩
  refine (iput_tidy h1 (ho.trans_eq hk1.outstanding.symm)).mono ?_ fun e he => by rw [he.1]; decide
  rintro _ s2 ⟨h2, hk2, htidy⟩
  exact ⟨h2, hk1.of_add.trans hk2, fun ht => htidy (ht.keeps hk1)⟩

theorem iunlockput_spec (h : Cached s (c + Pi.single ip 1)) (ho : 1 ≤ s.outstanding) :
    wp (iunlockput ip) s (fun _ s' => Cached s' c ∧ Keeps c s.abs s'.abs) Stop.Benign :=
  (iunlockput_tidy h ho).mono (fun _ _ hq => ⟨hq.1, hq.2.1⟩) fun _ he => he

/-- The lock was free before `ilock` and is not after it; the other locks are as they were. -/
theorem ilock_locked (s : State) (ip : Icache) :
    wp (ilock ip) s
      (fun _ s' => ((s.inode ip).locked = false ∧ (s'.inode ip).locked = true) ∧
        ∀ iq, iq ≠ ip → s'.inode iq = s.inode iq)
      (fun e => e = .hang → (s.inode ip).locked = true) := by
  rw [ilock, wp_bind, wp_get, wp_ite]
  refine ⟨fun _ he => (by cases he), fun _ => ?_⟩
  rw [wp_bind, acquiresleep, wp_bind, wp_get, wp_ite]
  refine ⟨fun hl _ => hl, fun hl => ?_⟩
  have hfree := Bool.eq_false_of_not_eq_true hl
  rw [wp_setInode, wp_bind, wp_get, putInode_self, wp_ite]
  refine ⟨fun _ => ⟨⟨hfree, by rw [putInode_self]⟩, fun iq hq => putInode_of_ne hq⟩, fun _ => ?_⟩
  rw [wp_bind, wp_setInode, wp_ite]
  refine ⟨fun _ he => (by cases he), fun _ => ⟨⟨hfree, ?_⟩, fun iq hq => ?_⟩⟩
  · rw [putInode_self, putInode_self]
  · rw [putInode_of_ne hq, putInode_of_ne hq]

/-- **`iunlockput`** of an inode that is locked does not stop. -/
theorem iunlockput_exact (h : Cached s (c + Pi.single ip 1)) (ho : 1 ≤ s.outstanding)
    (hl : (s.inode ip).locked = true) :
    wp (iunlockput ip) s
      (fun _ s' => (Cached s' c ∧ Keeps c s.abs s'.abs) ∧
        ∀ iq, (s'.inode iq).locked = true → iq ≠ ip ∧ (s.inode iq).locked = true)
      (fun _ => False) := by
  have hpos := pos_add_single c ip
  have hok := iunlock_ok (by rwa [h.ref]) hl
  obtain ⟨h1, hk1⟩ := (iunlock_spec h hpos).ok hok
  rw [iunlockput, wp_bind]
  refine wp_of_ok hok ?_
  refine (iput_exact h1 (ho.trans_eq hk1.outstanding.symm)).mono ?_ ?_
  · rintro _ s2 ⟨⟨h2, hk2, -⟩, hlock⟩
    refine ⟨⟨h2, hk1.of_add.trans hk2⟩, fun iq hq => ?_⟩
    obtain ⟨hne, hq⟩ := hlock iq hq
    rw [note_inode, putInode_of_ne hne] at hq
    exact ⟨hne, hq⟩
  · rintro e ⟨-, hlocked⟩
    rw [note_inode, putInode_self] at hlocked
    cases hlocked

end Directories

/-! ## Paths -/

/-- The elements of a path, one `skipelem` after the other. -/
def elems : ℕ → Name → List Name
  | 0, _ => []
  | fuel + 1, path =>
    match skipelem path with
    | none => []
    | some (name, rest) => name :: elems fuel rest

def components (path : Name) : List Name := elems path.length path

section Elements

variable {path name rest : Name}

/-- A turn of `skipelem` takes something off the path, and what is left does not begin with a
slash. -/
theorem skipelem_some (h : skipelem path = some (name, rest)) :
    rest.length < path.length ∧ (rest.headD 0 = 0 ↔ skipelem rest = none) := by
  rw [skipelem] at h
  dsimp only at h
  split_ifs at h with hz
  generalize hs : path.dropWhile (· = slash) = s at h hz
  obtain ⟨-, hrest⟩ := Prod.mk.inj (Option.some.inj h)
  have hle : s.length ≤ path.length := by
    rw [← hs]
    exact (List.dropWhile_suffix _).length_le
  obtain ⟨c, l, rfl⟩ : ∃ c l, s = c :: l := by
    cases s with
    | nil => exact absurd rfl hz
    | cons c l => exact ⟨c, l, rfl⟩
  have hc : c ≠ slash ∧ c ≠ 0 := by
    refine ⟨fun hslash => ?_, hz⟩
    have hhead := List.head?_dropWhile_not (fun x => decide (x = slash)) path
    rw [hs] at hhead
    rw [hslash] at hhead
    simp at hhead
  have hidem : rest.dropWhile (· = slash) = rest := by
    rw [← hrest]
    exact List.dropWhile_idempotent _ _
  constructor
  · have hlen : rest.length ≤ ((c :: l).drop ((c :: l).takeWhile fun x => x ≠ slash ∧
      x ≠ 0).length).length := by
      rw [← hrest]
      exact (List.dropWhile_suffix _).length_le
    rw [List.takeWhile_cons_of_pos (by simpa using hc), List.length_drop, List.length_cons,
      List.length_cons] at hlen
    rw [List.length_cons] at hle
    omega
  · rw [skipelem]
    dsimp only
    rw [hidem]
    by_cases hh : rest.headD 0 = 0
    · rw [if_pos hh]
      exact iff_of_true hh rfl
    · rw [if_neg hh]
      exact iff_of_false hh nofun

theorem elems_eq_nil_iff {fuel : ℕ} (h : skipelem path = some (name, rest))
    (hlen : path.length ≤ fuel + 1) :
    elems fuel rest = [] ↔ rest.headD 0 = 0 := by
  obtain ⟨hlt, hiff⟩ := skipelem_some h
  rw [hiff]
  cases fuel with
  | zero =>
    obtain rfl : rest = [] := List.length_eq_zero_iff.mp (by omega)
    exact iff_of_true rfl rfl
  | succ fuel =>
    rw [elems]
    cases hs : skipelem rest with
    | none => exact iff_of_true rfl rfl
    | some e => exact iff_of_false (List.cons_ne_nil _ _) nofun

end Elements

/-- **The walk along the elements of a path**, as a function of the nodes.  It ends at an inode, or
with nothing: there is no such entry, or the inode is no directory.  The walk stops with `none` at
an inode that is not allocated. -/
def follow (m : ℕ → Option Node) (parent : Bool) : ℕ → List Name → Option (Option (ℕ × Name))
  | i, [] => some (if parent then none else some (i, []))
  | i, name :: rest =>
    match m i with
    | none => none
    | some nd =>
      if nd.type ≠ T_DIR then some none
      else if parent ∧ rest = [] then some (some (i, name))
      else
        match nd.find name with
        | none => some none
        | some j => follow m parent j rest

section Follow

variable {m m' : ℕ → Option Node} {parent : Bool} {i : ℕ} {nd : Node} {name : Name}
  {names : List Name}
  {r : Option (ℕ × Name)}

theorem follow_notDir (hi : m i = some nd) (ht : nd.type ≠ T_DIR) :
    follow m parent i (name :: names) = some none := by
  simp only [follow, hi, if_pos ht]

theorem follow_missing (hi : m i = some nd) (ht : nd.type = T_DIR) (hlast : ¬ (parent ∧ names = []))
    (hfind : nd.find name = none) : follow m parent i (name :: names) = some none := by
  simp only [follow, hi, ne_eq, ht, not_true, if_false, if_neg hlast, hfind]

theorem follow_last (hi : m i = some nd) (ht : nd.type = T_DIR) :
    follow m true i [name] = some (some (i, name)) := by
  simp only [follow, hi, ne_eq, ht, not_true, if_false, and_self, if_true]

theorem follow_next (hi : m i = some nd) (ht : nd.type = T_DIR) (hlast : ¬ (parent ∧ names = []))
    {j : ℕ} (hfind : nd.find name = some j) :
    follow m parent i (name :: names) = follow m parent j names := by
  simp only [follow, hi, ne_eq, ht, not_true, if_false, if_neg hlast, hfind]

/-- With more inodes, a walk that has ended ends in the same way. -/
theorem follow_of_subset (h : ∀ i nd, m' i = some nd → m i = some nd)
    (hr : follow m' parent i names = some r) : follow m parent i names = some r := by
  induction names generalizing i with
  | nil => exact hr
  | cons name names ih =>
    cases hi : m' i with
    | none => simp only [follow, hi, reduceCtorEq] at hr
    | some nd =>
      rw [follow, hi] at hr
      rw [follow, h i nd hi]
      dsimp only at hr ⊢
      split_ifs at hr ⊢ with ht hlast
      · exact hr
      · exact hr
      · cases hfind : nd.find name with
        | none =>
          rw [hfind] at hr
          exact hr
        | some j =>
          rw [hfind] at hr
          exact ih hr

/-- The walk comes to the inode, with as many of the names as it takes. -/
def Comes (m : ℕ → Option Node) (start : ℕ) (names : List Name) (i : ℕ) : Prop :=
  ∃ pre, pre <+: names ∧ follow m false start pre = some (some (i, []))

variable {j k : ℕ}

theorem Comes.start (m : ℕ → Option Node) (i : ℕ) (names : List Name) : Comes m i names i :=
  ⟨[], List.nil_prefix, rfl⟩

theorem Comes.next (hi : m i = some nd) (ht : nd.type = T_DIR) (hfind : nd.find name = some j)
    (h : Comes m j names k) : Comes m i (name :: names) k := by
  obtain ⟨pre, hpre, hfollow⟩ := h
  exact ⟨name :: pre, List.prefix_cons_iff.mpr (Or.inr ⟨pre, rfl, hpre⟩),
    (follow_next hi ht (by simp) hfind).trans hfollow⟩

theorem Comes.of_subset (h : Comes m' i names j) (hsub : ∀ i nd, m' i = some nd → m i = some nd) :
    Comes m i names j := by
  obtain ⟨pre, hpre, hfollow⟩ := h
  exact ⟨pre, hpre, follow_of_subset hsub hfollow⟩

/-- Where all entries name inodes with links, a walk comes to no other inodes. -/
theorem Comes.live (h : Comes m i names j) (hcl : Closed m) (hl : Live m i) : Live m j := by
  obtain ⟨pre, -, hfollow⟩ := h
  induction pre generalizing i with
  | nil =>
    cases hfollow
    exact hl
  | cons name pre ih =>
    obtain ⟨nd, hi, hn⟩ := hl
    rw [follow, hi] at hfollow
    dsimp only at hfollow
    split_ifs at hfollow with ht hlast
    · cases hfollow
    · exact hlast.1.elim
    · cases hfind : nd.find name with
      | none =>
        rw [hfind] at hfollow
        cases hfollow
      | some j =>
        obtain ⟨k, hindex, rfl⟩ := Option.map_eq_some_iff.mp hfind
        obtain ⟨hk, hnamed, -⟩ := Node.index_eq_some_iff.mp hindex
        rw [hfind] at hfollow
        exact ih (hcl i nd hi hn (not_not.mp ht) k hk hnamed.1) hfollow

end Follow

section Paths

variable {s : State} {c : Icache → ℕ} {ip cwd : Icache} {path : Name} {parent : Bool}

/-- What a walk from `ip` returns: nothing, or a reference to an inode.  The parent of a path is a
directory, and its copy is valid. -/
def Walked (c : Icache → ℕ) (s : State) (start : ℕ) (parent : Bool) (r : Option (Icache × Name))
    (s' : State) : Prop :=
  Keeps c s.abs s'.abs ∧ match r with
    | none => Cached s' c
    | some (ip, _) => Cached s' (c + Pi.single ip 1) ∧
        (Closed s.abs.node → Live s.abs.node start → Live s'.abs.node (s'.abs.tag ip).inum) ∧
        (parent = true → ∃ nd, Held s'.abs ip (s'.abs.tag ip).inum nd ∧ nd.type = T_DIR)

theorem Walked.of_keeps {s' t : State} {start next : ℕ} {r : Option (Icache × Name)}
    (h : Walked c s' next parent r t) (hk : Keeps c s.abs s'.abs)
    (hlive : Closed s.abs.node → Live s.abs.node start → Live s'.abs.node next) :
    Walked c s start parent r t := by
  obtain ⟨hk', hr⟩ := h
  cases r with
  | none => exact ⟨hk.trans hk', hr⟩
  | some x =>
    exact ⟨hk.trans hk', hr.1, fun hcl hl => hr.2.1 (hk.closed hcl) (hlive hcl hl), hr.2.2⟩

/-- How a walk can stop. -/
def Lost (s : State) (start : ℕ) (e : Stop) : Prop :=
  e.Benign ∨ e = .panic .ilockNoType ∧ ¬ (Closed s.abs.node ∧ Live s.abs.node start)

/-- How the walk can stop at inode `i`.  The references `c` are those of others; besides them there
is the one place `ip` that the walk itself may hold. -/
inductive StopsAt (c : Icache → ℕ) (s : State) (i : ℕ) : Stop → Prop
  /-- all places of the cache are taken by other inodes -/
  | full (h : ∀ iq, 0 < c iq ∧ (s.abs.tag iq).inum ≠ i) : StopsAt c s i (.panic .igetNoInodes)
  /-- so are all but the one that the walk holds for a directory with an entry for the inode -/
  | fullBut (ip : Icache) {j : ℕ} {nd : Node} {name : Name} (hj : s.abs.node j = some nd)
    (ht : nd.type = T_DIR) (hfind : nd.find name = some i)
    (h : ∀ iq, iq ≠ ip → 0 < c iq ∧ (s.abs.tag iq).inum ≠ i) :
    StopsAt c s i (.panic .igetNoInodes)
  /-- the inode is not allocated, or will not be once nobody refers to it -/
  | free (h : ¬ Live s.abs.node i) : StopsAt c s i (.panic .ilockNoType)
  /-- the inode is a directory that ends inside an entry -/
  | cut {nd : Node} (h : s.abs.node i = some nd) (ht : nd.type = T_DIR)
    (hcut : ¬ DESIZE ∣ nd.data.length) :
    StopsAt c s i (.panic .dirlookupRead)
  /-- the inode was locked when the walk began -/
  | locked {iq : Icache} (hc : 0 < c iq) (h : (s.abs.tag iq).inum = i)
    (hl : (s.inode iq).locked = true) : StopsAt c s i .hang

/-- **How a walk can stop**: at an inode that it comes to. -/
def Stuck (c : Icache → ℕ) (s : State) (start : ℕ) (names : List Name) (e : Stop) : Prop :=
  ∃ i, Comes s.abs.node start names i ∧ StopsAt c s i e

theorem Stuck.lost {start : ℕ} {names : List Name} {e : Stop} (h : Stuck c s start names e) :
    Lost s start e := by
  obtain ⟨i, hcomes, hstop⟩ := h
  cases hstop with
  | full => exact Or.inl (by decide)
  | fullBut => exact Or.inl (by decide)
  | free hnot => exact Or.inr ⟨rfl, fun ⟨hcl, hl⟩ => hnot (hcomes.live hcl hl)⟩
  | cut => exact Or.inl (by decide)
  | locked => exact Or.inl (by decide)

/-- The rest of a walk, from a state with fewer nodes and fewer locks. -/
theorem StopsAt.of_keeps {s' : State} {i : ℕ} {e : Stop} (h : StopsAt c s' i e)
    (hk : Keeps c s.abs s'.abs)
    (hlock : ∀ iq, (s'.inode iq).locked = true → (s.inode iq).locked = true) :
    StopsAt c s i e := by
  cases h with
  | full h => exact .full fun iq => ⟨(h iq).1, hk.inum iq (h iq).1 ▸ (h iq).2⟩
  | fullBut ip hj ht hfind h =>
    exact .fullBut ip (hk.node_of_some hj) ht hfind fun iq hq =>
      ⟨(h iq hq).1, hk.inum iq (h iq hq).1 ▸ (h iq hq).2⟩
  | free h => exact .free fun hl => h (hk.live hl)
  | cut h ht hcut => exact .cut (hk.node_of_some h) ht hcut
  | locked hc h hl => exact .locked hc ((hk.inum _ hc).symm.trans h) (hlock _ hl)

theorem Stuck.of_keeps {s' : State} {start : ℕ} {names : List Name} {e : Stop}
    (h : Stuck c s' start names e) (hk : Keeps c s.abs s'.abs)
    (hlock : ∀ iq, (s'.inode iq).locked = true → (s.inode iq).locked = true) :
    Stuck c s start names e := by
  obtain ⟨i, hcomes, hstop⟩ := h
  exact ⟨i, hcomes.of_subset fun _ _ => hk.node_of_some, hstop.of_keeps hk hlock⟩

/-- Where the walk ended, as `follow` says it. -/
def ended (s : State) (r : Option (Icache × Name)) : Option (ℕ × Name) :=
  r.map fun x => ((s.abs.tag x.1).inum, x.2)

theorem namexEnd_spec (h : Cached s (c + Pi.single ip 1)) (ho : 1 ≤ s.outstanding)
    (hl : ∀ iq, (s.inode iq).locked = true → 0 < c iq) :
    wp (namexLoop.namexEnd parent ip) s
      (fun r s' => Walked c s (s.abs.tag ip).inum parent r s' ∧
        follow s.abs.node parent (s.abs.tag ip).inum [] = some (ended s' r))
      (Stuck c s (s.abs.tag ip).inum []) := by
  cases parent with
  | true =>
    show wp (iput ip >>= fun _ => pure none) s _ _
    refine (iput_tidy h ho).chain ?_ ?_
    · rintro _ ⟨rfl, hlocked⟩
      exact ⟨_, .start .., .locked (hl ip hlocked) rfl hlocked⟩
    rintro _ s' ⟨h', hk, -⟩
    exact ⟨⟨hk, h'⟩, rfl⟩
  | false => exact ⟨⟨Keeps.refl c s.abs, h, fun _ hl => hl, nofun⟩, rfl⟩

/-- The walk ends at the parent, a directory. -/
theorem namexParent_spec (parent : Bool) {i : ℕ} {nd : Node} {E : Stop → Prop}
    (h : Cached s (c + Pi.single ip 1)) (hh : Held s.abs ip i nd) (ht : nd.type = T_DIR)
    (hl : (s.inode ip).locked = true) (name : Name) :
    wp (iunlock ip >>= fun _ => pure (some (ip, name))) s
      (fun r s' => Walked c s i parent r s' ∧ ended s' r = some (i, name)) E := by
  have hpos := pos_add_single c ip
  have hok := iunlock_ok hh.ref hl
  obtain ⟨h', hk⟩ := (iunlock_spec h hpos).ok hok
  rw [wp_bind]
  refine wp_of_ok hok ?_
  generalize (s.putInode ip { s.inode ip with locked := false }).note _ = s' at h' hk ⊢
  have hinum : (s'.abs.tag ip).inum = i := (hk.inum ip hpos).trans hh.inum
  refine ⟨⟨hk.of_add, h', fun _ hlive => ?_, fun _ => ⟨nd, ?_, ht⟩⟩, ?_⟩
  · rw [hinum]
    exact hk.live hlive
  · rw [hinum]
    exact hh.keeps hk hpos (hpos.trans_eq (h'.ref ip).symm)
  · show some ((s'.abs.tag ip).inum, name) = some (i, name)
    rw [hinum]

/-- **The loop of `namex`** follows the elements of the path. -/
theorem namexLoop_spec (parent : Bool) (fuel : ℕ) (path : Name) (h : Cached s (c + Pi.single ip 1))
    (hb : Bounded s.abs) (ho : 1 ≤ s.outstanding)
    (hl : ∀ iq, (s.inode iq).locked = true → 0 < c iq) (hlen : path.length ≤ fuel) :
    wp (namexLoop parent fuel ip path) s
      (fun r s' => Walked c s (s.abs.tag ip).inum parent r s' ∧
        follow s.abs.node parent (s.abs.tag ip).inum (elems fuel path) = some (ended s' r))
      (Stuck c s (s.abs.tag ip).inum (elems fuel path)) := by
  induction fuel generalizing s ip path with
  | zero => exact namexEnd_spec h ho hl
  | succ fuel ih =>
    rw [namexLoop, elems]
    cases hskip : skipelem path with
    | none => exact namexEnd_spec h ho hl
    | some e =>
      obtain ⟨name, rest⟩ := e
      have hpos := pos_add_single c ip
      show wp (ilock ip >>= fun _ => _) s _ _
      refine ((ilock_spec h hpos).and (ilock_locked s ip)).chain ?_ ?_
      · rintro e ⟨rfl | ⟨rfl, hnone⟩, hlocked⟩
        · exact ⟨_, .start .., .locked (hl ip (hlocked rfl)) rfl (hlocked rfl)⟩
        · refine ⟨_, .start .., .free ?_⟩
          rintro ⟨nd, hnd, -⟩
          rw [hnone] at hnd
          cases hnd
      rintro _ s1 ⟨⟨h1, hk1, nd, hh1⟩, ⟨-, hl1⟩, hother⟩
      have ho1 : 1 ≤ s1.outstanding := ho.trans_eq hk1.outstanding.symm
      have hb1 := hk1.bounded hb
      have hnode := hk1.node_of_some hh1.node
      rw [wp_bind, wp_get, hh1.type_eq h1.sound, wp_ite]
      refine ⟨fun ht => ?_, fun ht => ?_⟩
      · refine (iunlockput_exact h1 ho1 hl1).chain (fun _ => False.elim) ?_
        rintro _ s2 ⟨⟨h2, hk2⟩, -⟩
        exact ⟨⟨hk1.of_add.trans hk2, h2⟩, follow_notDir hnode ht⟩
      rw [ne_eq, not_not] at ht
      have hlast := elems_eq_nil_iff hskip hlen
      rw [wp_ite, ← hlast]
      refine ⟨fun hend => ?_, fun hend => ?_⟩
      · refine (namexParent_spec parent h1 hh1 ht hl1 name).mono ?_ fun _ he => he
        rintro r s2 ⟨hwalked, hended⟩
        refine ⟨hwalked.of_keeps hk1.of_add fun _ => hk1.live, ?_⟩
        dsimp only
        rw [hended, hend.2, hend.1, follow_last hnode ht]
      · refine (dirlookup_exact h1 hb1 hh1 ht).chain ?_ ?_
        · rintro e (⟨rfl, hdvd⟩ | ⟨rfl, i, hfind, hfull⟩)
          · exact ⟨_, .start .., .cut hnode ht hdvd⟩
          · refine ⟨i, .next hnode ht hfind (.start ..), .fullBut ip hnode ht hfind fun iq hq => ?_⟩
            have hc : 0 < (c + Pi.single ip 1 : Icache → ℕ) iq := h1.ref iq ▸ (hfull iq).1
            have hinum := hk1.inum iq hc
            rw [add_single_of_ne c hq] at hc
            exact ⟨hc, hinum ▸ (hfull iq).2⟩
        rintro (_ | ⟨next, off⟩) s2 hr
        · obtain ⟨rfl, -, hnone⟩ := hr
          show wp (iunlockput ip >>= fun _ => pure none) s2 _ _
          refine (iunlockput_exact h1 ho1 hl1).chain (fun _ => False.elim) ?_
          rintro _ s3 ⟨⟨h3, hk3⟩, -⟩
          exact ⟨⟨hk1.of_add.trans hk3, h3⟩,
            follow_missing hnode ht hend (Node.find_eq_none_iff.mpr hnone)⟩
        · obtain ⟨k, -, hk, hnamed, h2, hk2, hinum, hl2, hfind⟩ := hr
          show wp (iunlockput ip >>= fun _ => _) s2 _ _
          rw [add_right_comm] at h2
          refine ((iunlockput_exact h2 (ho1.trans_eq hk2.outstanding.symm)
            ((hl2 ip).trans hl1)).mono
            (fun _ _ hq => hq) fun _ => False.elim).bind ?_
          rintro _ s3 ⟨⟨h3, hk3⟩, hl3⟩
          have hkeep : Keeps c s.abs s3.abs := (hk1.trans hk2).of_add.trans hk3.of_add
          have hnext : (s3.abs.tag next).inum = (direntAt nd.data k).inum := by
            rw [hk3.inum next (pos_add_single _ _), hinum]
          -- the next inode has links if this one has
          have hlive : Closed s.abs.node → Live s.abs.node (s.abs.tag ip).inum →
              Live s3.abs.node (s3.abs.tag next).inum := by
            intro hcl hl
            obtain ⟨nd', hnd', hn⟩ := hk1.live hl
            rw [hh1.node] at hnd'
            cases hnd'
            rw [hnext]
            exact hk3.live (hk2.live (hk1.closed hcl _ nd hh1.node hn ht k hk hnamed.1))
          have hshort : rest.length ≤ fuel := by
            have hlt := (skipelem_some hskip).1
            omega
          have hlock : ∀ iq, (s3.inode iq).locked = true → (s.inode iq).locked = true := by
            intro iq hq
            obtain ⟨hne, hq⟩ := hl3 iq hq
            rwa [hl2, hother iq hne] at hq
          refine (ih rest h3 (hkeep.bounded hb) (ho.trans_eq hkeep.outstanding.symm)
            (fun iq hq => hl iq (hlock iq hq)) hshort).mono ?_ ?_
          rotate_left
          · intro e he
            rw [hnext] at he
            obtain ⟨i, hcomes, hstop⟩ := he.of_keeps hkeep hlock
            exact ⟨i, .next hnode ht hfind hcomes, hstop⟩
          rintro r s4 ⟨hwalked, hfollow⟩
          refine ⟨hwalked.of_keeps hkeep hlive, ?_⟩
          rw [follow_next hnode ht hend hfind, ← hnext]
          exact follow_of_subset (fun _ _ => hkeep.node_of_some) hfollow

def startOf (s : State) (cwd : Icache) (path : Name) : ℕ :=
  if path.headD 0 = slash then ROOTINO else (s.abs.tag cwd).inum

/-- **`namex`** returns a reference, and leaves the references that others hold alone. -/
theorem namex_spec (path : Name) (parent : Bool) (h : Cached s c) (hb : Bounded s.abs)
    (ho : 1 ≤ s.outstanding) (hroot : ROOTINO < s.sb.ninodes) (hcwd : 0 < c cwd) :
    wp (namex cwd path parent) s
      (fun r s' => Walked c s (startOf s cwd path) parent r s' ∧
        follow s.abs.node parent (startOf s cwd path) (components path) = some (ended s' r))
      (Stuck c s (startOf s cwd path) (components path)) := by
  have hl : ∀ iq, (s.inode iq).locked = true → 0 < c iq := by
    intro iq hq
    by_contra hc
    have hfree := h.sound.unlocked iq ((h.ref iq).trans (Nat.eq_zero_of_not_pos hc))
    rw [hfree] at hq
    cases hq
  have hwalk : ∀ ip s1, Cached s1 (c + Pi.single ip 1) → Keeps c s.abs s1.abs →
      (∀ iq, (s1.inode iq).locked = (s.inode iq).locked) →
      (s1.abs.tag ip).inum = startOf s cwd path →
      wp (namexLoop parent path.length ip path) s1
        (fun r s' => Walked c s (startOf s cwd path) parent r s' ∧
          follow s.abs.node parent (startOf s cwd path) (components path) = some (ended s' r))
        (Stuck c s (startOf s cwd path) (components path)) := by
    intro ip s1 h1 hk1 hlock hinum
    have hlock1 : ∀ iq, (s1.inode iq).locked = true → (s.inode iq).locked = true :=
      fun iq hq => (hlock iq).symm.trans hq
    have hloop := namexLoop_spec parent path.length path h1 (hk1.bounded hb)
      (ho.trans_eq hk1.outstanding.symm) (fun iq hq => hl iq (hlock1 iq hq)) le_rfl
    rw [hinum] at hloop
    refine hloop.mono ?_ fun e he => he.of_keeps hk1 hlock1
    rintro r s2 ⟨hwalked, hfollow⟩
    exact ⟨hwalked.of_keeps hk1 fun _ => hk1.live,
      follow_of_subset (fun _ _ => hk1.node_of_some) hfollow⟩
  rw [namex, wp_ite]
  refine ⟨fun hs => ?_, fun hs => ?_⟩
  · have hstart : startOf s cwd path = ROOTINO := if_pos hs
    refine (((iget_spec h hroot).and (iget_locked s ROOTINO)).and (iget_full s ROOTINO)).chain ?_ ?_
    · rintro e ⟨-, rfl, hfull⟩
      exact ⟨ROOTINO, hstart ▸ .start .., .full fun iq => ⟨h.ref iq ▸ (hfull iq).1, (hfull iq).2⟩⟩
    rintro ip s1 ⟨⟨⟨h1, hk1, hinum⟩, hlock⟩, -⟩
    exact hwalk ip s1 h1 hk1 hlock (hinum.trans hstart.symm)
  · refine ((idup_spec h hcwd).and (idup_locked s cwd)).chain (fun _ he => he.1.elim) ?_
    rintro ip s1 ⟨⟨rfl, h1, hk1⟩, hlock⟩
    exact hwalk ip s1 h1 hk1 hlock (by rw [hk1.inum ip hcwd, startOf, if_neg hs])

end Paths

end Xv6.Fs
