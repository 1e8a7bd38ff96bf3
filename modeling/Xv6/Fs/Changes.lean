import Xv6.Fs.Walk

/-!
# What a system call does to the nodes

A system call drops the references that it took on its way, and with the last one an inode without
links goes (`Shed`).  Apart from that it changes at most one thing (`Change`): it writes to a file,
it adds an entry to a directory, for an old inode or a new one, or it removes an entry.  `Effect`
puts these together, and what is true of the nodes between two calls is proved by cases on it.

`Serves` is the other side of a call: what it leaves to those who hold references to the inodes.
-/

namespace Xv6.Fs

open Lib

/-- Some inodes without links are gone. -/
def Shed (m m' : ℕ → Option Node) : Prop :=
  ∀ i, m' i = m i ∨ m' i = none ∧ ∃ nd, m i = some nd ∧ nd.nlink = 0

namespace Shed

variable {m m' m'' : ℕ → Option Node} {i : ℕ} {nd : Node}

protected theorem refl (m : ℕ → Option Node) : Shed m m := fun _ => Or.inl rfl

theorem trans (h : Shed m m') (h' : Shed m' m'') : Shed m m'' := by
  intro i
  rcases h i with h1 | ⟨h1, hdead⟩
  · rw [← h1]
    exact h' i
  · rcases h' i with h2 | ⟨h2, -⟩
    · exact Or.inr ⟨h2.trans h1, hdead⟩
    · exact Or.inr ⟨h2, hdead⟩

theorem of_some (h : Shed m m') (hi : m' i = some nd) : m i = some nd := by
  rcases h i with h1 | ⟨h1, -⟩
  · rw [← h1, hi]
  · rw [h1] at hi
    cases hi

theorem live (h : Shed m m') (hl : Live m i) : Live m' i := by
  obtain ⟨nd, hi, hn⟩ := hl
  rcases h i with h1 | ⟨-, nd', hi', hdead⟩
  · exact ⟨nd, h1.trans hi, hn⟩
  · rw [hi] at hi'
    cases hi'
    exact absurd hdead hn

theorem upd (h : Shed m m') (i : ℕ) (x : Option Node) : Shed (upd m i x) (upd m' i x) := by
  intro j
  by_cases hj : j = i
  · rw [hj, upd_self, upd_self]
    exact Or.inl rfl
  · rw [upd_of_ne hj, upd_of_ne hj]
    exact h j

/-- An inode that was changed before can be put back as it was. -/
theorem restore {x : Option Node} (h : Shed (Lib.upd m i x) m') : Shed m (Lib.upd m' i (m i)) := by
  have hr := h.upd i (m i)
  rwa [upd_upd, upd_eq_self] at hr

end Shed

/-- The directory entry `DESIZE` zero bytes long. -/
def noEntry : List UInt8 := List.replicate DESIZE 0

@[simp] theorem length_noEntry : noEntry.length = DESIZE := List.length_replicate

/-- The directory with an entry for inode `i` at `k`. -/
def Node.enter (dd : Node) (k i : ℕ) (name : Name) : Node :=
  { dd with data := splice dd.data (DESIZE * k) (newEntry i name) }

/-- The directory without its entry `k`. -/
def Node.clear (dd : Node) (k : ℕ) : Node := { dd with data := splice dd.data (DESIZE * k) noEntry }

/-- The directory, with no entries but perhaps the first two. -/
def Node.Empty (nd : Node) : Prop :=
  ∀ k, 2 ≤ k → DESIZE * (k + 1) ≤ nd.data.length → (direntAt nd.data k).inum = 0

/-- Entry `k` of the directory `d` names the inode `i`, and is neither `.` nor `..`. -/
structure Names (m : ℕ → Option Node) (d : ℕ) (dd : Node) (k i : ℕ) : Prop where
  node : m d = some dd
  type : dd.type = T_DIR
  le : DESIZE * (k + 1) ≤ dd.data.length
  inum : (direntAt dd.data k).inum = i
  ne : i ≠ 0
  dot : namecmp dot (direntAt dd.data k).name = false
  dotdot : namecmp dotdot (direntAt dd.data k).name = false

/-- **One change to the nodes**, on a disk with `n` inodes.  If the walk to it is in order (`w`), an
entry is added to a directory with links only. -/
inductive Change (n : ℕ) (w : Prop) (m : ℕ → Option Node) : (ℕ → Option Node) → Prop
  | none : Change n w m m
  /-- a write to a file -/
  | write {i : ℕ} {nd : Node} (hi : m i = some nd) (ht : nd.type ≠ T_DIR) (l : List UInt8) :
      Change n w m (upd m i (some { nd with data := l }))
  /-- `link` -/
  | link {i d k : ℕ} {nd dd : Node} {name : Name} (hi : m i = some nd) (hin : i < n)
      (ht : nd.type ≠ T_DIR) (hd : m d = some dd) (hdir : dd.type = T_DIR)
      (hv : Vacant dd.data k name) (hw : w → dd.nlink ≠ 0) :
      Change n w m (upd (upd m i (some { nd with nlink := nd.nlink + 1 }))
        d (some (dd.enter k i name)))
  /-- `open` with `O_CREATE`, and `mknod` -/
  | create {i d k : ℕ} {dd : Node} {name : Name} {type major minor : Int16} (hi : m i = Option.none)
      (hpos : 0 < i) (hin : i < n) (ht : type ≠ T_DIR) (hd : m d = some dd) (hdir : dd.type = T_DIR)
      (hv : Vacant dd.data k name) (hw : w → dd.nlink ≠ 0) :
      Change n w m (upd (upd m i (some ⟨type, major, minor, 1, []⟩)) d (some (dd.enter k i name)))
  /-- `mkdir` -/
  | mkdir {i d k k' : ℕ} {dd : Node} {name : Name} {major minor : Int16} (hi : m i = Option.none)
      (hpos : 0 < i) (hin : i < n) (hdn : d < n) (hd : m d = some dd) (hdir : dd.type = T_DIR)
      (hv : Vacant dd.data k name) (hv' : Vacant (newEntry i Fs.dot) k' Fs.dotdot)
      (hw : w → dd.nlink ≠ 0) :
      Change n w m (upd (upd m i (some
        ((⟨T_DIR, major, minor, 1, newEntry i Fs.dot⟩ : Node).enter k' d Fs.dotdot))) d
        (some (Node.enter { dd with nlink := dd.nlink + 1 } k i name)))
  /-- `unlink` -/
  | unlink {i d k : ℕ} {nd dd : Node} (hk : Names m d dd k i) (hi : m i = some nd) (hne : i ≠ d)
      (hlink : 1 ≤ nd.nlink) (hempty : nd.type = T_DIR → nd.Empty) :
      Change n w m (upd (upd m d (some (Node.clear
        { dd with nlink := if nd.type = T_DIR then dd.nlink - 1 else dd.nlink } k))) i
        (some { nd with nlink := nd.nlink - 1 }))

/-- **The effect of a system call**: one change, and inodes without links that go before or after
it. -/
def Effect (n : ℕ) (w : Prop) (m m' : ℕ → Option Node) : Prop :=
  ∃ m1 m2, Shed m m1 ∧ Change n w m1 m2 ∧ Shed m2 m'

namespace Effect

variable {n : ℕ} {w : Prop} {m m' m'' : ℕ → Option Node}

theorem of_shed (h : Shed m m') : Effect n w m m' := ⟨m, m, Shed.refl m, .none, h⟩

theorem of_change (h : Change n w m m') : Effect n w m m' := ⟨m, m', Shed.refl m, h, Shed.refl m'⟩

theorem shed_trans (h : Shed m m') (h' : Effect n w m' m'') : Effect n w m m'' := by
  obtain ⟨m1, m2, h1, h2, h3⟩ := h'
  exact ⟨m1, m2, h.trans h1, h2, h3⟩

theorem trans_shed (h : Effect n w m m') (h' : Shed m' m'') : Effect n w m m'' := by
  obtain ⟨m1, m2, h1, h2, h3⟩ := h
  exact ⟨m1, m2, h1, h2, h3.trans h'⟩

end Effect

/-! ## The entries stay in bounds -/

section Bounds

variable {n : ℕ} {nd dd : Node} {k i : ℕ} {name : Name}

theorem inum_newEntry (i : ℕ) (name : Name) :
    (Dirent.ofBytes (newEntry i name)).inum = i % 2 ^ 16 := by
  have hlen : (leBytes 2 i).length = 2 := length_leBytes _ _
  rw [newEntry, Dirent.ofBytes, Dirent.toBytes]
  show leNat ((leBytes 2 i ++ strncpy name DIRSIZ).take 2) = _
  rw [List.take_left' hlen, leNat_leBytes]
  rfl

/-- A directory in which one entry is written. -/
theorem Node.Bounded.splice (h : dd.Bounded n) {m : List UInt8} (hk : DESIZE * k ≤ dd.data.length)
    (hm : m.length = DESIZE)
    (hfull : DESIZE * k = dd.data.length ∨ DESIZE * (k + 1) ≤ dd.data.length)
    (hi : (Dirent.ofBytes m).inum < n) (x : Int16) :
    Node.Bounded n { dd with nlink := x, data := splice dd.data (DESIZE * k) m } := by
  intro ht j hj
  show (direntAt (Lib.splice dd.data (DESIZE * k) m) j).inum < n
  change DESIZE * (j + 1) ≤ (Lib.splice dd.data (DESIZE * k) m).length at hj
  rw [length_splice_entry hk hm] at hj
  by_cases hjk : j = k
  · rw [hjk, direntAt_splice_self hk hm]
    exact hi
  · rw [direntAt_splice_of_ne hk hm hjk]
    refine h ht j ?_
    rcases hfull with hfull | hfull
    · change 16 * (j + 1) ≤ max dd.data.length (16 * (k + 1)) at hj
      change 16 * (j + 1) ≤ dd.data.length
      change 16 * k = dd.data.length at hfull
      omega
    · rwa [Nat.max_eq_left hfull] at hj

theorem Vacant.le {l : List UInt8} (h : Vacant l k name) : DESIZE * k ≤ l.length := by
  rcases h.room with hr | ⟨hr, -⟩
  · exact hr.le
  · exact le_trans (Nat.mul_le_mul_left _ (Nat.le_succ k)) hr

theorem Node.Bounded.enter (h : dd.Bounded n) (hv : Vacant dd.data k name) (hi : i < n)
    (x : Int16) :
    (Node.enter { dd with nlink := x } k i name).Bounded n := by
  refine h.splice hv.le (length_newEntry i name) (hv.room.imp_right And.left) ?_ x
  rw [inum_newEntry]
  exact lt_of_le_of_lt (Nat.mod_le i _) hi

theorem Node.Bounded.clear (h : dd.Bounded n) (hk : DESIZE * (k + 1) ≤ dd.data.length) (hn : 0 < n)
    (x : Int16) : (Node.clear { dd with nlink := x } k).Bounded n := by
  refine h.splice (le_trans (Nat.mul_le_mul_left _ (Nat.le_succ k)) hk)
    length_noEntry (Or.inr hk) ?_ x
  have hz : (Dirent.ofBytes noEntry).inum = 0 := by decide
  rwa [hz]

theorem bounded_newEntry (hi : i < n) {type major minor x : Int16} :
    Node.Bounded n ⟨type, major, minor, x, newEntry i name⟩ := by
  intro _ k hk
  change DESIZE * (k + 1) ≤ (newEntry i name).length at hk
  rw [length_newEntry] at hk
  obtain rfl : k = 0 := by
    change 16 * (k + 1) ≤ 16 at hk
    omega
  show (Dirent.ofBytes (((newEntry i name).drop (DESIZE * 0)).take DESIZE)).inum < n
  rw [Nat.mul_zero, List.drop_zero, ← length_newEntry i name, List.take_length, inum_newEntry]
  exact lt_of_le_of_lt (Nat.mod_le i _) hi

theorem Change.bounded {w : Prop} {m m' : ℕ → Option Node} (h : Change n w m m') (hn : 0 < n)
    (hb : ∀ i nd, m i = some nd → nd.Bounded n) : ∀ i nd, m' i = some nd → nd.Bounded n := by
  have hput : ∀ {m : ℕ → Option Node} {i : ℕ} {x : Node}, (∀ j nd, m j = some nd → nd.Bounded n) →
      x.Bounded n → ∀ j nd, upd m i (some x) j = some nd → nd.Bounded n := by
    intro m i x hm hx j nd hj
    by_cases hji : j = i
    · rw [hji, upd_self] at hj
      rwa [← Option.some.inj hj]
    · rw [upd_of_ne hji] at hj
      exact hm j nd hj
  cases h with
  | none => exact hb
  | write hi ht l => exact hput hb fun hdir => absurd hdir ht
  | link hi hin ht hd hdir hv hw =>
    exact hput (hput hb fun h => absurd h ht) ((hb _ _ hd).enter hv hin _)
  | create hi hpos hin ht hd hdir hv hw =>
    exact hput (hput hb fun h => absurd h ht) ((hb _ _ hd).enter hv hin _)
  | @mkdir i d k k' dd name major minor hi hpos hin hdn hd hdir hv hv' hw =>
    have hdots : Node.Bounded n ⟨T_DIR, major, minor, 1, newEntry i dot⟩ := bounded_newEntry hin
    exact hput (hput hb (hdots.enter hv' hdn 1)) ((hb _ _ hd).enter hv hin _)
  | unlink hk hi hne hlink hempty =>
    have hsame := hb _ _ hi
    exact hput (hput hb ((hb _ _ hk.node).clear hk.le hn _)) fun ht => hsame ht

theorem Effect.bounded {w : Prop} {a a' : Abs} (h : Effect a.ninodes w a.node a'.node)
    (hn : a'.ninodes = a.ninodes) (hpos : 0 < a.ninodes) (hb : Bounded a) : Bounded a' := by
  obtain ⟨m1, m2, h1, h2, h3⟩ := h
  intro i nd hi
  rw [hn]
  exact h2.bounded hpos (fun j nd hj => hb j nd (h1.of_some hj)) i nd (h3.of_some hi)

end Bounds

/-! ## What is left to the others -/

/-- What a system call leaves to those who hold the references `c`: the inodes behind them are still
there, with the types that they had. -/
structure Serves (c : Icache → ℕ) (a a' : Abs) : Prop where
  ninodes : a'.ninodes = a.ninodes
  file : a'.file = a.file
  proc : a'.proc = a.proc
  history : a.history.Grows a'.history
  inum : ∀ ip, 0 < c ip → (a'.tag ip).inum = (a.tag ip).inum
  valid : ∀ ip, 0 < c ip → (a.tag ip).valid = true → (a'.tag ip).valid = true
  node : ∀ ip nd, 0 < c ip → a.node (a.tag ip).inum = some nd →
    ∃ nd', a'.node (a.tag ip).inum = some nd' ∧ nd'.type = nd.type

namespace Serves

variable {c c' : Icache → ℕ} {a a' a'' : Abs} {ip : Icache} {i : ℕ} {nd nd' : Node}

theorem of_keeps (h : Keeps c a a') : Serves c a a' :=
  ⟨h.ninodes, h.file, h.proc, h.history, h.inum, h.valid,
    fun ip nd hc hnd => ⟨nd, (h.node ip hc).trans hnd, rfl⟩⟩

theorem trans (h : Serves c a a') (h' : Serves c a' a'') : Serves c a a'' where
  ninodes := h'.ninodes.trans h.ninodes
  file := h'.file.trans h.file
  proc := h'.proc.trans h.proc
  history := h.history.trans h'.history
  inum := fun ip hc => (h'.inum ip hc).trans (h.inum ip hc)
  valid := fun ip hc hv => h'.valid ip hc (h.valid ip hc hv)
  node := fun ip nd hc hnd => by
    obtain ⟨nd1, h1, ht1⟩ := h.node ip nd hc hnd
    rw [← h.inum ip hc] at h1
    obtain ⟨nd2, h2, ht2⟩ := h'.node ip nd1 hc h1
    rw [h.inum ip hc] at h2
    exact ⟨nd2, h2, ht2.trans ht1⟩

theorem mono (h : Serves c a a') (hle : ∀ ip, 0 < c' ip → 0 < c ip) : Serves c' a a' :=
  ⟨h.ninodes, h.file, h.proc, h.history, fun ip hc => h.inum ip (hle ip hc),
    fun ip hc => h.valid ip (hle ip hc), fun ip nd hc => h.node ip nd (hle ip hc)⟩

theorem of_add (h : Serves (c + Pi.single ip 1) a a') : Serves c a a' :=
  h.mono fun iq hq => lt_of_lt_of_le hq (Nat.le_add_right (c iq) _)

/-- A node is changed, and keeps its type; or it is new. -/
theorem putNode (h : ∀ nd, a.node i = some nd → nd.type = nd'.type) :
    Serves c a (a.putNode i (some nd')) where
  ninodes := rfl
  file := rfl
  proc := rfl
  history := .refl _
  inum := fun _ _ => rfl
  valid := fun _ _ hv => hv
  node := fun ip nd _ hnd => by
    by_cases hi : (a.tag ip).inum = i
    · rw [hi] at hnd ⊢
      exact ⟨nd', Abs.putNode_self .., (h nd hnd).symm⟩
    · exact ⟨nd, (Abs.putNode_of_ne a hi _).trans hnd, rfl⟩

end Serves

/-- The inodes without links are all served, so none of them is gone. -/
theorem Tidy.node_eq {c : Icache → ℕ} {a a' : Abs} (h : Tidy c a) (hs : Serves c a a')
    (hshed : Shed a.node a'.node) : a'.node = a.node := by
  funext i
  rcases hshed i with hsame | ⟨hnone, nd, hi, hdead⟩
  · exact hsame
  · obtain ⟨ip, hc, rfl, -⟩ := h i nd hi hdead
    obtain ⟨nd', hnd', -⟩ := hs.node ip nd hc hi
    rw [hnone] at hnd'
    cases hnd'

theorem Held.serves_putNode {c : Icache → ℕ} {a : Abs} {ip : Icache} {i : ℕ} {nd x : Node}
    (hh : Held a ip i nd) (ht : x.type = nd.type) : Serves c a (a.putNode i (some x)) :=
  Serves.putNode fun y hy => by
    rw [hh.node] at hy
    rw [← Option.some.inj hy, ht]

end Xv6.Fs
