import Xv6.Fs.Changes
import Xv6.Fs.Syscall

/-!
# The system calls on names

What `link`, `unlink`, `create`, `open` and `chdir` do between `begin_op` and `end_op`, in the terms
of `Effect` and `Serves`: one change to the nodes, inodes without links that go, and nothing that
concerns the references of others.

A call stops for one of the reasons that a file system in order has (`Stop.Benign`), or because a
walk came to an inode that is not allocated or has no links.  The latter needs a directory without
links to start from (`Halted`).
-/

namespace Xv6.Fs

open Lib

/-! ## Before and after -/

/-- A state inside a transaction, with the references `c`. -/
structure Begun (s : State) (c : Icache → ℕ) : Prop where
  cached : Cached s c
  bounded : Bounded s.abs
  trans : 1 ≤ s.outstanding

/-- What a part of a call does to the nodes, and what it leaves to those who hold the references
`c`.  There are the references `c'` after it. -/
structure Done (w : Prop) (c c' : Icache → ℕ) (s s' : State) : Prop where
  cached : Cached s' c'
  effect : Effect s.abs.ninodes w s.abs.node s'.abs.node
  serves : Serves c s.abs s'.abs
  outstanding : s'.outstanding = s.outstanding
  tidy : Tidy c s.abs → Tidy c' s'.abs

/-- The link counts are not negative. -/
def Orderly (m : ℕ → Option Node) : Prop := ∀ i nd, m i = some nd → 0 ≤ nd.nlink

/-- Walks from the root and from the directory `cwd` meet inodes with links. -/
def Sane (s : State) (cwd : Icache) : Prop :=
  Closed s.abs.node ∧ Live s.abs.node ROOTINO ∧ Live s.abs.node (s.abs.tag cwd).inum

/-- How a walk of a process with the current directory `cwd` can stop. -/
def Strayed (s : State) (cwd : Icache) (e : Stop) : Prop :=
  e.Benign ∨ e = .panic .ilockNoType ∧ ¬ Sane s cwd

/-- How a call of the process can stop. -/
def Halted (s : State) (cwd : Icache) (e : Stop) : Prop :=
  e.Benign ∨ e = .panic .ilockNoType ∧ ¬ (Orderly s.abs.node ∧ Sane s cwd) ∨
    e = .panic .unlinkNlink ∧ ∃ d dd k i nd, Names s.abs.node d dd k i ∧ s.abs.node i = some nd ∧
      nd.nlink < 1

/-- A call that fails leaves the nodes as they are, apart from inodes without links. -/
def Forgoes (m m' : ℕ → Option Node) (r : Reply) : Prop := r = .int (-1) → Shed m m'

theorem forgoes_zero (m m' : ℕ → Option Node) : Forgoes m m' (.int 0) :=
  fun h => absurd h (by decide)

section Basics

variable {s s1 s2 : State} {c c1 c2 : Icache → ℕ} {ip cwd : Icache} {e : Stop} {E : Stop → Prop}
  {Q : Unit → State → Prop}

theorem le_add_single (c : Icache → ℕ) (ip : Icache) : c ≤ c + Pi.single ip 1 :=
  fun _ => Nat.le_add_right _ _

theorem Keeps.shed_node {a a' : Abs} (h : Keeps c a a') : Shed a.node a'.node := h.shed

theorem Begun.keep (h : Begun s c) (h1 : Cached s1 c1) (hk : Keeps c2 s.abs s1.abs) : Begun s1 c1 :=
  ⟨h1, hk.bounded h.bounded, h.trans.trans_eq hk.outstanding.symm⟩

variable {w : Prop}

theorem Done.of_keeps (h1 : Cached s1 c1) (hle : c ≤ c1) (hk : Keeps c s.abs s1.abs) :
    Done w c c1 s s1 :=
  ⟨h1, .of_shed hk.shed, .of_keeps hk, hk.outstanding, fun ht => (ht.keeps hk).mono hle⟩

theorem Done.trans_keeps (h : Done w c c1 s s1) (h2 : Cached s2 c2)
    (hk : Keeps c s1.abs s2.abs) (ht : Tidy c1 s1.abs → Tidy c2 s2.abs) : Done w c c2 s s2 :=
  ⟨h2, h.effect.trans_shed hk.shed, h.serves.trans (.of_keeps hk),
    hk.outstanding.trans h.outstanding,
    fun h0 => ht (h.tidy h0)⟩

theorem Done.of_add (h : Done w (c + Pi.single ip 1) c1 s s1) : Done w c c1 s s1 :=
  ⟨h.cached, h.effect, h.serves.of_add, h.outstanding,
    fun ht => h.tidy (ht.mono (le_add_single c ip))⟩

theorem Done.keeps_trans (hk : Keeps c s.abs s1.abs) (h : Done w c c2 s1 s2) :
    Done w c c2 s s2 := by
  have heff := h.effect
  rw [hk.ninodes] at heff
  exact ⟨h.cached, .shed_trans hk.shed heff, (Serves.of_keeps hk).trans h.serves,
    h.outstanding.trans hk.outstanding, fun ht => h.tidy (ht.keeps hk)⟩

theorem Done.bounded (h : Done w c c1 s s1) (hb : Bounded s.abs) : Bounded s1.abs :=
  h.effect.bounded h.serves.ninodes
    (lt_of_le_of_lt (Nat.zero_le _) (show ROOTINO < s.abs.ninodes from by
      rw [← h.serves.ninodes]
      exact h.cached.sound.disk.wf.root)) hb

theorem Halted.of_benign (h : e.Benign) : Halted s cwd e := Or.inl h

theorem Live.startOf {path : Name} (hroot : Live s.abs.node ROOTINO)
    (hcwd : Live s.abs.node (s.abs.tag cwd).inum) : Live s.abs.node (Fs.startOf s cwd path) := by
  unfold Fs.startOf
  split_ifs
  · exact hroot
  · exact hcwd

/-- A walk from the root or from the current directory. -/
theorem Lost.strayed {path : Name} (h : Lost s (startOf s cwd path) e) : Strayed s cwd e := by
  rcases h with h | ⟨rfl, hnot⟩
  · exact Or.inl h
  · exact Or.inr ⟨rfl, fun ⟨hcl, hroot, hcwd⟩ => hnot ⟨hcl, hroot.startOf hcwd⟩⟩

theorem Strayed.halted (h : Strayed s cwd e) : Halted s cwd e := by
  rcases h with h | ⟨rfl, hnot⟩
  · exact Or.inl h
  · exact Or.inr (Or.inl ⟨rfl, fun hs => hnot hs.2⟩)

theorem ilock_node {nd : Node} (h : Cached s c) (hc : 0 < c ip)
    (hnode : s.abs.node (s.abs.tag ip).inum = some nd) :
    wp (ilock ip) s
      (fun _ s' => Cached s' c ∧ Keeps c s.abs s'.abs ∧ Held s'.abs ip (s.abs.tag ip).inum nd ∧
        (s.inode ip).locked = false ∧ (s'.inode ip).locked = true)
      Stop.Benign := by
  refine ((ilock_spec h hc).and (ilock_locked s ip)).mono ?_ ?_
  · rintro _ s' ⟨⟨h', hk, nd', hh⟩, hl, -⟩
    have hsame := hk.node ip hc
    rw [hnode, hh.node] at hsame
    rw [← Option.some.inj hsame]
    exact ⟨h', hk, hh, hl⟩
  · rintro e ⟨rfl | ⟨-, hnone⟩, -⟩
    · decide
    · rw [hnode] at hnone
      cases hnone

theorem ilock_walked {s0 : State} (h : Cached s c) (hc : 0 < c ip)
    (hlive : Sane s0 cwd → Live s.abs.node (s.abs.tag ip).inum) :
    wp (ilock ip) s
      (fun _ s' => Cached s' c ∧ Keeps c s.abs s'.abs ∧
        ∃ nd, Held s'.abs ip (s.abs.tag ip).inum nd)
      (Strayed s0 cwd) := by
  refine (ilock_spec h hc).mono (fun _ _ hq => hq) ?_
  rintro e (rfl | ⟨rfl, hnone⟩)
  · exact Or.inl (by decide)
  · refine Or.inr ⟨rfl, fun hsane => ?_⟩
    obtain ⟨nd, hnd, -⟩ := hlive hsane
    rw [hnone] at hnd
    cases hnd

theorem Held.relink {i : ℕ} {nd : Node} (hh : Held s.abs ip i nd) (h : Cached s c)
    (ho : 1 ≤ s.outstanding) (g : Int16 → Int16) {β : Type} {k : Op β} {Q : β → State → Prop}
    (hk : ∀ s', Cached s' c → s'.abs = s.abs.putNode i (some { nd with nlink := g nd.nlink }) →
      wp k s' Q E) :
    wp (do
        setDin ip fun d => { d with nlink := g d.nlink }
        iupdate ip
        k) s Q E := by
  refine hh.update h.sound ho (fun _ => by rfl) (fun _ => by rfl) (fun _ => by rfl) ?_
  intro s' hs' habs'
  obtain ⟨-, hnd⟩ := hh.din_node h.sound
  have hmajor : (s.inode ip).din.major = nd.major := congrArg Node.major hnd
  have hminor : (s.inode ip).din.minor = nd.minor := congrArg Node.minor hnd
  simp only [hmajor, hminor, hh.nlink_eq h.sound] at habs'
  exact hk s' (h.of_abs hs' (by rw [habs']; rfl)) habs'

def State.begin (s : State) : State := { s with outstanding := s.outstanding + 1 }

def State.commit (s : State) : State :=
  { s with
    outstanding := s.outstanding - 1
    logged := if s.outstanding = 1 then [] else s.logged }

@[simp] theorem wp_beginOp : wp beginOp s Q E ↔ Q () s.begin := Iff.rfl

@[simp] theorem wp_endOp : wp endOp s Q E ↔ Q () s.commit := Iff.rfl

theorem Cached.begin (h : Cached s c) : Cached s.begin c :=
  ⟨⟨h.sound.disk, h.sound.inum, h.sound.inj, h.sound.copy, h.sound.unlocked⟩, h.ref⟩

theorem Cached.commit (h : Cached s c) : Cached s.commit c :=
  ⟨⟨h.sound.disk, h.sound.inum, h.sound.inj, h.sound.copy, h.sound.unlocked⟩, h.ref⟩

/-- A transaction from its beginning to its end. -/
theorem Done.commit (h : Done w c c1 s.begin s1) : Done w c c1 s s1.commit where
  cached := h.cached.commit
  effect := h.effect
  tidy := h.tidy
  serves := ⟨h.serves.ninodes, h.serves.file, h.serves.proc, h.serves.history, h.serves.inum,
    h.serves.valid, h.serves.node⟩
  outstanding := by
    show s1.outstanding - 1 = s.outstanding
    rw [h.outstanding]
    exact Nat.add_sub_cancel _ _

theorem namei_spec (h : Begun s c) (hcwd : 0 < c cwd) (path : Name) :
    wp (namei cwd path) s
      (fun r s' => Keeps c s.abs s'.abs ∧ match r with
        | none => Cached s' c
        | some ip => Cached s' (c + Pi.single ip 1) ∧
            (Sane s cwd → Live s'.abs.node (s'.abs.tag ip).inum))
      (Strayed s cwd) := by
  have hroot := h.cached.sound.disk.wf.root
  rw [namei]
  refine ((namex_spec path false h.cached h.bounded h.trans hroot hcwd).mono (fun _ _ hq => hq.1)
    fun _ he => he.lost.strayed).bind ?_
  rintro (_ | ⟨ip, nm⟩) s' ⟨hk, hr⟩
  · exact ⟨hk, hr⟩
  · exact ⟨hk, hr.1, fun hs => hr.2.1 hs.1 (hs.2.1.startOf hs.2.2)⟩

theorem nameiparent_spec (h : Begun s c) (hcwd : 0 < c cwd) (path : Name) :
    wp (nameiparent cwd path) s
      (fun r s' => Keeps c s.abs s'.abs ∧ match r with
        | none => Cached s' c
        | some (dp, _) => Cached s' (c + Pi.single dp 1) ∧
            (Sane s cwd → Live s'.abs.node (s'.abs.tag dp).inum) ∧
            ∃ dd, Held s'.abs dp (s'.abs.tag dp).inum dd ∧ dd.type = T_DIR)
      (Strayed s cwd) := by
  have hroot := h.cached.sound.disk.wf.root
  refine (namex_spec path true h.cached h.bounded h.trans hroot hcwd).mono ?_ fun _ he =>
    he.lost.strayed
  rintro (_ | ⟨dp, nm⟩) s' ⟨⟨hk, hr⟩, -⟩
  · exact ⟨hk, hr⟩
  · exact ⟨hk, hr.1, fun hs => hr.2.1 hs.1 (hs.2.1.startOf hs.2.2), hr.2.2 rfl⟩

theorem nameiparent_follow (h : Begun s c) (hcwd : 0 < c cwd) (path : Name) :
    wp (nameiparent cwd path) s
      (fun r s' => follow s.abs.node true (startOf s cwd path) (components path) =
        some (ended s' r))
      (fun _ => True) :=
  (namex_spec path true h.cached h.bounded h.trans h.cached.sound.disk.wf.root hcwd).mono
    (fun _ _ hq => hq.2) fun _ _ => trivial

end Basics

/-! ## `link` -/

section Nodes

variable {m : ℕ → Option Node} {i j : ℕ} {nd x : Node}

theorem nlink_add_one_ne_zero {n : Int16} (h : 0 ≤ n) : n + 1 ≠ 0 := by
  intro hz
  have hn : n = -1 := by
    have := congrArg (· - 1) hz
    simpa using this
  rw [hn] at h
  exact absurd h (by decide)

theorem Live.upd (h : Live m j) (hx : x.nlink ≠ 0) : Live (Lib.upd m i (some x)) j := by
  by_cases hj : j = i
  · exact ⟨x, by rw [hj, upd_self], hx⟩
  · obtain ⟨nd, hnd, hn⟩ := h
    exact ⟨nd, by rw [upd_of_ne hj, hnd], hn⟩

theorem Closed.upd_file (h : Closed m) (ht : x.type ≠ T_DIR) (hx : x.nlink ≠ 0) :
    Closed (Lib.upd m i (some x)) := by
  intro j nd hj hn hdir k hk hz
  by_cases hji : j = i
  · rw [hji, upd_self] at hj
    rw [← Option.some.inj hj] at hdir
    exact absurd hdir ht
  · rw [upd_of_ne hji] at hj
    exact (h j nd hj hn hdir k hk hz).upd hx

end Nodes

/-- What a call of a process with the current directory `cwd` does, and its reply. -/
abbrev Answers (c : Icache → ℕ) (cwd : Icache) (s : State) (r : Reply) (s' : State) : Prop :=
  Done (Orderly s.abs.node ∧ Sane s cwd) c c s s' ∧ Forgoes s.abs.node s'.abs.node r

/-- A part of a call that begins with the references `c'` and ends in `s1` with the references
`c`. -/
structure Ended (c' c : Icache → ℕ) (s s1 : State) : Prop where
  cached : Cached s1 c
  serves : Serves c s.abs s1.abs
  outstanding : s1.outstanding = s.outstanding
  tidy : Tidy c' s.abs → Tidy c s1.abs

section Link

variable {s : State} {c : Icache → ℕ} {ip : Icache} {pr : Proc} {nd : Node}

/-- **The path `bad` of `sys_link`** takes the link back. -/
theorem linkBad_spec (h : Begun s (c + Pi.single ip 1))
    (hnode : s.abs.node (s.abs.tag ip).inum = some { nd with nlink := nd.nlink + 1 }) :
    wp (linkBad ip) s
      (fun _ s' => ∃ s1, s' = s1.commit ∧
        Shed (upd s.abs.node (s.abs.tag ip).inum (some nd)) s1.abs.node ∧
        Ended (c + Pi.single ip 1) c s s1)
      Stop.Benign := by
  have hpos := pos_add_single c ip
  rw [linkBad]
  refine (ilock_node h.cached hpos hnode).bind ?_
  rintro _ s1 ⟨h1, hk1, hh1, -, -⟩
  have hb1 := h.keep h1 hk1
  refine hh1.relink h1 hb1.trans (· - 1) ?_
  intro s2 h2 habs2
  have hlink : nd.nlink + 1 - 1 = nd.nlink := by simp
  simp only [hlink] at habs2
  have ho2 : s2.outstanding = s1.outstanding := congrArg Abs.outstanding habs2
  refine (iunlockput_tidy h2 (by rw [ho2]; exact hb1.trans)).bind ?_
  rintro _ s3 ⟨h3, hk3, ht3⟩
  rw [wp_bind, wp_endOp]
  refine ⟨s3, rfl, ?_, h3, ?_, (hk3.outstanding.trans ho2).trans hk1.outstanding, fun ht => ?_⟩
  · refine (hk1.shed_node.upd (s.abs.tag ip).inum (some nd)).trans ?_
    have hshed := hk3.shed_node
    rwa [habs2] at hshed
  · refine ((Serves.of_keeps hk1.of_add).trans ?_).trans (.of_keeps hk3)
    rw [habs2]
    exact hh1.serves_putNode rfl
  · rw [habs2] at ht3
    exact ht3 ((ht.keeps hk1).putNode hh1 hpos _)

/-- What `sys_link` does once it has counted the link. -/
theorem linkEntry_spec (h : Begun s (c + Pi.single ip 1)) (hcwd : 0 < c pr.cwd)
    (hw : w → Sane s pr.cwd)
    (hnode : s.abs.node (s.abs.tag ip).inum = some { nd with nlink := nd.nlink + 1 })
    (ht : nd.type ≠ T_DIR) (new : Name) :
    wp (do
        match ← nameiparent pr.cwd new with
        | none => linkBad ip
        | some (dp, name) =>
          ilock dp
          if ← dirlink dp name ((← get).inode ip).inum then
            iunlockput dp
            iput ip
            endOp
            return .int 0
          else
            iunlockput dp
            linkBad ip) s
      (fun r s' => ∃ s1, s' = s1.commit ∧
        Effect s.abs.ninodes w (upd s.abs.node (s.abs.tag ip).inum (some nd)) s1.abs.node ∧
        Forgoes (upd s.abs.node (s.abs.tag ip).inum (some nd)) s1.abs.node r ∧
        Ended (c + Pi.single ip 1) c s s1)
      (Strayed s pr.cwd) := by
  have hpos := pos_add_single c ip
  -- the link is taken back, in a state in which the inode is as it was
  have hbad : ∀ s1, Cached s1 (c + Pi.single ip 1) → Keeps (c + Pi.single ip 1) s.abs s1.abs →
      wp (linkBad ip) s1
        (fun r s' => ∃ s2, s' = s2.commit ∧
          Effect s.abs.ninodes w (upd s.abs.node (s.abs.tag ip).inum (some nd)) s2.abs.node ∧
          Forgoes (upd s.abs.node (s.abs.tag ip).inum (some nd)) s2.abs.node r ∧
          Ended (c + Pi.single ip 1) c s s2)
        (Strayed s pr.cwd) := by
    intro s1 h1 hk1
    have hinum := hk1.inum ip hpos
    have hnode1 : s1.abs.node (s1.abs.tag ip).inum = some { nd with nlink := nd.nlink + 1 } := by
      rw [hinum, hk1.node ip hpos, hnode]
    refine (linkBad_spec (h.keep h1 hk1) hnode1).mono ?_ fun _ => Or.inl
    rintro _ s' ⟨s2, rfl, hshed, h2, hserves, hout, htidy⟩
    rw [hinum] at hshed
    have hback := (hk1.shed_node.upd (s.abs.tag ip).inum (some nd)).trans hshed
    exact ⟨s2, rfl, .of_shed hback, fun _ => hback, h2, (Serves.of_keeps hk1.of_add).trans hserves,
      hout.trans hk1.outstanding, fun ht => htidy (ht.keeps hk1)⟩
  refine (nameiparent_spec h (hcwd.trans_le (Nat.le_add_right _ _)) new).bind ?_
  rintro (_ | ⟨dp, name⟩) s1 ⟨hk1, hr1⟩
  · exact hbad s1 hr1 hk1
  obtain ⟨h1, hlive1, dd, hh1, hdir⟩ := hr1
  have hposd := pos_add_single (c + Pi.single ip 1) dp
  refine (ilock_node h1 hposd hh1.node).chain (fun _ => Or.inl) ?_
  rintro _ s2 ⟨h2, hk2, hh2, -, -⟩
  have hk : Keeps (c + Pi.single ip 1) s.abs s2.abs := hk1.trans hk2.of_add
  have hb2 := h.keep h2 hk
  have hinum : (s2.inode ip).inum = (s.inode ip).inum := hk.inum ip hpos
  generalize hd : (s1.abs.tag dp).inum = d at hh2
  rw [wp_bind, wp_get, hinum]
  refine (dirlink_spec h2 hb2.bounded hb2.trans hh2 hdir _).chain (fun _ => Or.inl) ?_
  rintro r s3 ⟨h3, ⟨rfl, hk3⟩ | ⟨rfl, k, hv, habs3⟩⟩
  · have hb3 := hb2.keep h3 hk3
    show wp (iunlockput dp >>= fun _ => linkBad ip) s3 _ _
    refine (iunlockput_spec h3 hb3.trans).chain (fun _ => Or.inl) ?_
    rintro _ s4 ⟨h4, hk4⟩
    exact hbad s4 h4 ((hk.trans hk3.of_add).trans hk4)
  · have ho3 : s3.outstanding = s2.outstanding := congrArg Abs.outstanding habs3
    show wp (iunlockput dp >>= fun _ => _) s3 _ _
    refine (iunlockput_tidy h3 (by rw [ho3]; exact hb2.trans)).chain (fun _ => Or.inl) ?_
    rintro _ s4 ⟨h4, hk4, ht4⟩
    have ho4 : s4.outstanding = s2.outstanding := hk4.outstanding.trans ho3
    refine (iput_tidy h4 (by rw [ho4]; exact hb2.trans)).chain
      (fun e he => Or.inl (by rw [he.1]; decide)) ?_
    rintro _ s5 ⟨h5, hk5, ht5⟩
    rw [wp_bind, wp_endOp]
    refine ⟨s5, rfl, ?_, forgoes_zero _ _, h5, ?_, (hk5.outstanding.trans ho4).trans hk.outstanding,
      fun ht => ?_⟩
    · have hm : s2.abs.node (s.abs.tag ip).inum = some { nd with nlink := nd.nlink + 1 } := by
        rw [hk.node ip hpos, hnode]
      have hne : d ≠ (s.abs.tag ip).inum := by
        rintro rfl
        rw [hh2.node] at hm
        rw [Option.some.inj hm] at hdir
        exact ht hdir
      have hin : (s.abs.tag ip).inum < s.abs.ninodes :=
        h.cached.sound.inum ip (hpos.trans_eq (h.cached.ref ip).symm)
      have hlink : w → dd.nlink ≠ 0 := fun hsane => by
        obtain ⟨dd', hdd', hn⟩ := hlive1 (hw hsane)
        rw [hh1.node] at hdd'
        rwa [Option.some.inj hdd']
      have hchange := Change.link (n := s.abs.ninodes) (k := k)
        (m := upd s2.abs.node (s.abs.tag ip).inum (some nd)) upd_self hin ht
        ((upd_of_ne hne).trans hh2.node) hdir hv hlink
      rw [upd_upd, ← hm, upd_eq_self] at hchange
      refine ⟨_, _, hk.shed_node.upd _ _, hchange, ?_⟩
      have hshed := hk4.shed_node.trans hk5.shed_node
      rwa [habs3] at hshed
    · have hput : Serves c s2.abs s3.abs := by
        rw [habs3]
        exact hh2.serves_putNode rfl
      exact (((Serves.of_keeps hk.of_add).trans hput).trans (.of_keeps hk4.of_add)).trans
        (.of_keeps hk5)
    · have ht3 : Tidy (c + Pi.single ip 1 + Pi.single dp 1) s3.abs := by
        rw [habs3]
        exact ((ht.keeps hk).mono (le_add_single _ _)).putNode hh2 hposd _
      exact ht5 (ht4 ht3)

theorem sysLink_spec (h : Cached s c) (hb : Bounded s.abs) (hcwd : 0 < c pr.cwd) (old new : Name) :
    wp (sysLink pr old new) s
      (Answers c pr.cwd s)
      (Halted s pr.cwd) := by
  have h0 : Begun s.begin c := ⟨h.begin, hb, Nat.le_add_left _ _⟩
  rw [sysLink, wp_bind, wp_beginOp]
  refine (namei_spec h0 hcwd old).chain (fun _ he => he.halted) ?_
  rintro (_ | ip) s1 ⟨hk1, hr1⟩
  · rw [wp_bind, wp_endOp]
    exact ⟨(Done.of_keeps hr1 le_rfl hk1).commit, fun _ => hk1.shed⟩
  obtain ⟨h1, hlive1⟩ := hr1
  have hpos := pos_add_single c ip
  refine (ilock_walked h1 hpos hlive1).chain (fun _ he => he.halted) ?_
  rintro _ s2 ⟨h2, hk2, nd, hh2⟩
  have hk02 : Keeps c s.begin.abs s2.abs := hk1.trans hk2.of_add
  have hb2 := h0.keep h2 hk02
  rw [wp_bind, wp_get, hh2.type_eq h2.sound, wp_ite]
  refine ⟨fun _ => ?_, fun ht => ?_⟩
  · refine (iunlockput_spec h2 hb2.trans).chain (fun _ => Halted.of_benign) ?_
    rintro _ s3 ⟨h3, hk3⟩
    rw [wp_bind, wp_endOp]
    exact ⟨(Done.of_keeps h3 le_rfl (hk02.trans hk3)).commit, fun _ => (hk02.trans hk3).shed⟩
  -- the link is counted before there is an entry for it
  refine hh2.relink h2 hb2.trans (· + 1) ?_
  intro s3 h3 habs3
  have htag3 : s3.abs.tag = s2.abs.tag := by rw [habs3]; rfl
  have ho3 : s3.outstanding = s2.outstanding := congrArg Abs.outstanding habs3
  refine (iunlock_spec h3 hpos).chain (fun e he => Halted.of_benign (by rw [he]; decide)) ?_
  rintro _ s4 ⟨h4, hk4⟩
  have hi : (s1.abs.tag ip).inum = (s2.abs.tag ip).inum := (hk2.inum ip hpos).symm
  rw [hi] at hh2 habs3
  have hinum : (s4.abs.tag ip).inum = (s2.abs.tag ip).inum := by
    rw [hk4.inum ip hpos, htag3]
  have hnode3 : s3.abs.node (s2.abs.tag ip).inum = some { nd with nlink := nd.nlink + 1 } := by
    rw [habs3, Abs.putNode_self]
  have hnode4 : s4.abs.node (s4.abs.tag ip).inum = some { nd with nlink := nd.nlink + 1 } := by
    rw [hinum, ← hnode3, ← htag3]
    exact hk4.node ip hpos
  have hb3 : Begun s3 (c + Pi.single ip 1) := by
    refine ⟨h3, ?_, by rw [ho3]; exact hb2.trans⟩
    rw [habs3]
    intro j x hj
    by_cases hji : j = (s2.abs.tag ip).inum
    · rw [hji, Abs.putNode_self] at hj
      rw [← Option.some.inj hj]
      exact fun hdir => absurd hdir ht
    · rw [Abs.putNode_of_ne _ hji] at hj
      exact hb2.bounded j x hj
  have hsane : Orderly s.abs.node ∧ Sane s pr.cwd → Sane s4 pr.cwd := by
    rintro ⟨hnonneg, hcl, hroot, hlive⟩
    have hx : nd.nlink + 1 ≠ 0 := nlink_add_one_ne_zero (hnonneg _ _ (hk02.node_of_some hh2.node))
    have hcl3 : Closed s3.abs.node := by
      rw [habs3]
      exact (hk02.closed hcl).upd_file ht hx
    have hlive3 : ∀ {j}, Live s.abs.node j → Live s3.abs.node j := fun {j} hj => by
      have hj2 : Live s2.abs.node j := hk02.live hj
      rw [habs3]
      exact hj2.upd hx
    refine ⟨hk4.closed hcl3, hk4.live (hlive3 hroot), ?_⟩
    rw [hk4.inum pr.cwd (hcwd.trans_le (Nat.le_add_right _ _)), htag3, hk02.inum pr.cwd hcwd]
    exact hk4.live (hlive3 hlive)
  refine (linkEntry_spec (hb3.keep h4 hk4) hcwd hsane hnode4 ht new).mono ?_ ?_
  · rintro r s' ⟨s5, rfl, heff, hfail, h5, hserves, hout, htidy⟩
    have hshed : Shed s2.abs.node (upd s4.abs.node (s2.abs.tag ip).inum (some nd)) := by
      have hshed := hk4.shed_node
      rw [habs3] at hshed
      have hrestore := Shed.restore hshed
      rwa [hh2.node] at hrestore
    have hput : Serves c s2.abs s3.abs := by
      rw [habs3]
      exact hh2.serves_putNode rfl
    have hk04 := ((Serves.of_keeps hk02).trans hput).trans (.of_keeps hk4.of_add)
    rw [hinum, hk04.ninodes] at heff
    rw [hinum] at hfail
    refine ⟨Done.commit ⟨h5, .shed_trans (hk02.shed_node.trans hshed) heff, hk04.trans hserves, ?_,
      fun htidy0 => htidy ?_⟩, fun hr => (hk02.shed_node.trans hshed).trans (hfail hr)⟩
    · exact hout.trans ((hk4.outstanding.trans ho3).trans hk02.outstanding)
    · have ht2 : Tidy (c + Pi.single ip 1) s2.abs := (htidy0.keeps hk02).mono (le_add_single _ _)
      have ht3 : Tidy (c + Pi.single ip 1) s3.abs := by
        rw [habs3]
        exact ht2.putNode hh2 hpos _
      exact ht3.keeps hk4
  · rintro e (he | ⟨rfl, hnot⟩)
    · exact .of_benign he
    · exact Or.inr (Or.inl ⟨rfl, fun hs => hnot (hsane hs)⟩)

end Link

/-! ## `unlink` -/

/-- A name that is the same as `p` is `u` only if `p` is. -/
theorem strncmp_congr {n : ℕ} {p t u : List UInt8} (h : strncmp n p t = true) :
    strncmp n u t = strncmp n p u := by
  induction n generalizing p t u with
  | zero => rfl
  | succ n ih =>
    rw [strncmp] at h
    split_ifs at h with hne hz
    · rw [strncmp, strncmp, ← not_ne_iff.mp hne, hz]
      by_cases hu : u.headD 0 = 0
      · rw [hu]
        rfl
      · rw [if_pos hu, if_pos (Ne.symm hu)]
    · rw [strncmp, strncmp, ← not_ne_iff.mp hne]
      by_cases hu : p.headD 0 = u.headD 0
      · rw [← hu, if_neg (not_ne_iff.mpr rfl), if_neg hz, if_neg (not_ne_iff.mpr rfl), if_neg hz]
        exact ih h
      · rw [if_pos (Ne.symm hu), if_pos hu]

theorem namecmp_of_namecmp {p t u : List UInt8} (h : namecmp p t = true)
    (hu : namecmp p u = false) :
    namecmp u t = false := (strncmp_congr h).trans hu

section Unlink

variable {s : State} {c : Icache → ℕ} {dp ip : Icache} {d i k : ℕ} {nd dd : Node} {pr : Proc}

theorem Held.isdiremptyLoop (hh : Held s.abs ip d nd) (h : Sound s) (ht : nd.type = T_DIR) {n : ℕ}
    (hn : n = 0 ∨ i + n = (nd.data.length + DESIZE - 1) / DESIZE) :
    wp (Fs.isdiremptyLoop ip n (DESIZE * i)) s
      (fun r s' => s' = s ∧ (r = true ↔ ∀ k, i ≤ k → k < i + n → DESIZE * (k + 1) ≤ nd.data.length →
        (direntAt nd.data k).inum = 0))
      (fun e => e = .panic .isdiremptyReadi ∧ ¬ DESIZE ∣ nd.data.length) := by
  induction n generalizing i with
  | zero => exact ⟨rfl, fun _ k h1 h2 => absurd h2 (by omega), fun _ => rfl⟩
  | succ n ih =>
    have hlt := desize_mul_lt (i := i) (n := nd.data.length) (by omega)
    have hread := hh.readDirent h ht hlt
    rw [Fs.isdiremptyLoop, wp_bind]
    refine wp_of_ok hread ?_
    by_cases hfull : DESIZE * (i + 1) ≤ nd.data.length
    · rw [if_pos hfull]
      show wp (if (direntAt nd.data i).inum ≠ 0 then _ else _) s _ _
      rw [wp_ite]
      refine ⟨fun hne => ⟨rfl, nofun, fun hall => absurd (hall i le_rfl (by omega) hfull) hne⟩,
        fun hz => ?_⟩
      rw [← Nat.mul_succ]
      refine (ih (i := i + 1) (by omega)).mono ?_ fun _ he => he
      rintro r s' ⟨hs', hr⟩
      refine ⟨hs',
        hr.trans ⟨fun hall k h1 h2 => ?_, fun hall k h1 h2 => hall k (by omega) (by omega)⟩⟩
      rcases Nat.eq_or_lt_of_le h1 with rfl | hlt
      · exact fun _ => not_ne_iff.mp hz
      · exact hall k hlt (by omega)
    · rw [if_neg hfull]
      exact ⟨rfl, not_dvd_of_part hlt hfull⟩

theorem Held.isdirempty (hh : Held s.abs ip d nd) (h : Sound s) (ht : nd.type = T_DIR) :
    wp (Fs.isdirempty ip) s (fun r s' => s' = s ∧ (r = true ↔ nd.Empty))
      (fun e => e = .panic .isdiremptyReadi ∧ ¬ DESIZE ∣ nd.data.length) := by
  rw [Fs.isdirempty, wp_bind, wp_get, hh.dirents_eq h, Nat.mul_comm]
  refine (hh.isdiremptyLoop h ht (i := 2) (by omega)).mono ?_ fun _ he => he
  rintro r s' ⟨hs', hr⟩
  refine ⟨hs', hr.trans ⟨fun hall k hk hle => hall k hk ?_ hle, fun hall k hk _ => hall k hk⟩⟩
  change 16 * (k + 1) ≤ nd.data.length at hle
  change k < 2 + ((nd.data.length + 16 - 1) / 16 - 2)
  omega

theorem unlinkBad_spec (h : Begun s (c + Pi.single dp 1)) :
    wp (unlinkBad dp) s
      (fun _ s' => ∃ s1, s' = s1.commit ∧ Cached s1 c ∧ Keeps c s.abs s1.abs) Stop.Benign := by
  rw [unlinkBad]
  refine (iunlockput_spec h.cached h.trans).bind ?_
  rintro _ s1 ⟨h1, hk1⟩
  rw [wp_bind, wp_endOp]
  exact ⟨s1, rfl, h1, hk1⟩

theorem Held.clearEntry (hh : Held s.abs dp d dd) (h : Cached s c) (ho : 1 ≤ s.outstanding)
    (ht : dd.type = T_DIR) (hk : DESIZE * (k + 1) ≤ dd.data.length) :
    wp (Fs.writei dp (fun _ => 0) (UInt32.ofNat (DESIZE * k)) (UInt32.ofNat DESIZE)) s
      (fun r s' => r = DESIZE ∧ Cached s' c ∧ s'.abs = s.abs.putNode d (some (dd.clear k)))
      Stop.Benign := by
  have hle := hh.length_le h.sound
  have hmax : MAXFILE * BSIZE < 2 ^ 31 := by decide
  have hD : DESIZE = 16 := rfl
  rw [Nat.mul_succ] at hk
  have hoff : (UInt32.ofNat (DESIZE * k)).toNat = DESIZE * k :=
    UInt32.toNat_ofNat_of_lt' (by rw [UInt32.size]; omega)
  have hn : (UInt32.ofNat DESIZE).toNat = DESIZE := rfl
  have hw := hh.writei h.sound ho (by rw [ht]; decide) (fun _ => 0) (UInt32.ofNat (DESIZE * k))
    (UInt32.ofNat DESIZE)
  have hzero : slice (fun _ => (0 : UInt8)) 0 DESIZE = noEntry := by decide
  have hdata : writeData dd.data (DESIZE * k) noEntry =
      some (splice dd.data (DESIZE * k) noEntry) := by
    rw [writeData, length_noEntry, if_neg (by omega)]
  rw [hoff, hn, hzero, hdata] at hw
  refine hw.mono ?_ fun e he => by rw [he.1]; decide
  rintro r s' ⟨hr, hs', habs⟩
  exact ⟨hr, h.of_abs hs' (by rw [habs]; rfl), habs⟩

/-- The end of `sys_unlink`, after the directory has been changed. -/
theorem unlinkEnd_spec (h : Cached s (c + Pi.single dp 1 + Pi.single ip 1)) (ho : 1 ≤ s.outstanding)
    (hi : Held s.abs ip i nd) :
    wp (do
        iunlockput dp
        setDin ip fun d => { d with nlink := d.nlink - 1 }
        iupdate ip
        iunlockput ip
        endOp
        return Reply.int 0) s
      (fun r s' => r = .int 0 ∧ ∃ s1, s' = s1.commit ∧
        Shed (upd s.abs.node i (some { nd with nlink := nd.nlink - 1 })) s1.abs.node ∧
        Ended (c + Pi.single dp 1 + Pi.single ip 1) c s s1)
      Stop.Benign := by
  have hpos := pos_add_single c ip
  rw [add_right_comm] at h ⊢
  refine (iunlockput_tidy h ho).bind ?_
  rintro _ s1 ⟨h1, hk1, ht1⟩
  have hi1 := hi.keeps hk1 hpos (hpos.trans_eq (h1.ref ip).symm)
  refine hi1.relink h1 (ho.trans_eq hk1.outstanding.symm) (· - 1) ?_
  intro s2 h2 habs2
  have ho2 : s2.outstanding = s.outstanding :=
    (congrArg Abs.outstanding habs2).trans hk1.outstanding
  refine (iunlockput_tidy h2 (by rw [ho2]; exact ho)).bind ?_
  rintro _ s3 ⟨h3, hk3, ht3⟩
  rw [wp_bind, wp_endOp]
  refine ⟨rfl, s3, rfl, ?_, h3, ?_, hk3.outstanding.trans ho2, fun ht => ?_⟩
  · refine (hk1.shed_node.upd i (some { nd with nlink := nd.nlink - 1 })).trans ?_
    have hshed := hk3.shed_node
    rwa [habs2] at hshed
  · have hput : Serves c s1.abs s2.abs := by
      rw [habs2]
      exact hi1.serves_putNode rfl
    exact ((Serves.of_keeps hk1.of_add).trans hput).trans (.of_keeps hk3)
  · rw [habs2] at ht3
    exact ht3 ((ht1 ht).putNode hi1 hpos _)

/-- `sys_unlink` once the entry and the inode are known. -/
theorem unlinkEntry_spec (h : Begun s (c + Pi.single dp 1 + Pi.single ip 1))
    (hd : Held s.abs dp d dd) (hi : Held s.abs ip i nd) (hne : d ≠ i) (ht : dd.type = T_DIR)
    (hk : DESIZE * (k + 1) ≤ dd.data.length) :
    wp (unlinkEntry dp ip (DESIZE * k)) s
      (fun r s' => r = .int 0 ∧ ∃ s1, s' = s1.commit ∧
        Shed (upd (upd s.abs.node d (some (Node.clear
          { dd with nlink := if nd.type = T_DIR then dd.nlink - 1 else dd.nlink } k))) i
          (some { nd with nlink := nd.nlink - 1 })) s1.abs.node ∧
        Ended (c + Pi.single dp 1 + Pi.single ip 1) c s s1)
      Stop.Benign := by
  rw [unlinkEntry]
  refine (hd.clearEntry h.cached h.trans ht hk).bind ?_
  rintro r s1 ⟨rfl, h1, habs1⟩
  rw [wp_ite]
  refine ⟨fun hn => absurd rfl hn, fun _ => ?_⟩
  have ho1 : s1.outstanding = s.outstanding := congrArg Abs.outstanding habs1
  have hi1 : Held s1.abs ip i nd := by
    rw [habs1]
    exact ⟨hi.inum, hi.ref, hi.valid, (Abs.putNode_of_ne _ hne.symm _).trans hi.node⟩
  -- the end of the call, after the links of the directory are right
  have hend : ∀ s2 x, Cached s2 (c + Pi.single dp 1 + Pi.single ip 1) →
      s2.abs = s.abs.putNode d (some (Node.clear { dd with nlink := x } k)) →
      wp (do
          iunlockput dp
          setDin ip fun d => { d with nlink := d.nlink - 1 }
          iupdate ip
          iunlockput ip
          endOp
          return Reply.int 0) s2
        (fun r s' => r = .int 0 ∧ ∃ s1, s' = s1.commit ∧
          Shed (upd (upd s.abs.node d (some (Node.clear { dd with nlink := x } k))) i
            (some { nd with nlink := nd.nlink - 1 })) s1.abs.node ∧
          Ended (c + Pi.single dp 1 + Pi.single ip 1) c s s1)
        Stop.Benign := by
    intro s2 x h2 habs2
    have ho2 : s2.outstanding = s.outstanding := congrArg Abs.outstanding habs2
    have hi2 : Held s2.abs ip i nd := by
      rw [habs2]
      exact ⟨hi.inum, hi.ref, hi.valid, (Abs.putNode_of_ne _ hne.symm _).trans hi.node⟩
    refine (unlinkEnd_spec h2 (by rw [ho2]; exact h.trans) hi2).mono ?_ fun _ he => he
    rintro _ s' ⟨hr, s3, rfl, hshed, h3, hserves, hout, htidy⟩
    refine ⟨hr, s3, rfl, ?_, h3, ?_, hout.trans ho2, fun ht => htidy ?_⟩
    · rwa [habs2] at hshed
    · refine Serves.trans ?_ hserves
      rw [habs2]
      exact hd.serves_putNode rfl
    · rw [habs2]
      exact ht.putNode hd ((pos_add_single c dp).trans_le (Nat.le_add_right _ _)) _
  rw [wp_bind, wp_get, hi1.type_eq h1.sound]
  dsimp only
  rw [wp_ite]
  refine ⟨fun hdir => ?_, fun hdir => ?_⟩
  · have hd1 : Held s1.abs dp d (dd.clear k) := by
      rw [habs1]
      exact ⟨hd.inum, hd.ref, hd.valid, Abs.putNode_self ..⟩
    refine hd1.relink h1 (by rw [ho1]; exact h.trans) (· - 1) ?_
    intro s2 h2 habs2
    rw [if_pos hdir]
    refine hend s2 (dd.nlink - 1) h2 ?_
    rw [habs2, habs1, Abs.putNode, Abs.putNode, upd_upd]
    rfl
  · rw [if_neg hdir]
    exact hend s1 dd.nlink h1 habs1

theorem sysUnlink_spec (h : Cached s c) (hb : Bounded s.abs) (hcwd : 0 < c pr.cwd) (path : Name) :
    wp (sysUnlink pr path) s
      (Answers c pr.cwd s)
      (Halted s pr.cwd) := by
  have h0 : Begun s.begin c := ⟨h.begin, hb, Nat.le_add_left _ _⟩
  rw [sysUnlink, wp_bind, wp_beginOp]
  refine (nameiparent_spec h0 hcwd path).chain (fun _ he => he.halted) ?_
  rintro (_ | ⟨dp, name⟩) s1 ⟨hk1, hr1⟩
  · rw [wp_bind, wp_endOp]
    exact ⟨(Done.of_keeps hr1 le_rfl hk1).commit, fun _ => hk1.shed⟩
  obtain ⟨h1, hlive1, dd, hh1, hdir⟩ := hr1
  have hposd := pos_add_single c dp
  refine (ilock_node h1 hposd hh1.node).chain (fun _ => Halted.of_benign) ?_
  rintro _ s2 ⟨h2, hk2, hh2, -, hlock2⟩
  have hk : Keeps c s.begin.abs s2.abs := hk1.trans hk2.of_add
  have hb2 := h0.keep h2 hk
  -- the way out without a change
  have hbad : ∀ s3, Cached s3 (c + Pi.single dp 1) → Keeps c s.begin.abs s3.abs →
      wp (unlinkBad dp) s3
        (Answers c pr.cwd s)
        (Halted s pr.cwd) := by
    intro s3 h3 hk3
    refine (unlinkBad_spec (h0.keep h3 hk3)).mono ?_ fun _ => Halted.of_benign
    rintro _ s' ⟨s4, rfl, h4, hk4⟩
    exact ⟨(Done.of_keeps h4 le_rfl (hk3.trans hk4)).commit, fun _ => (hk3.trans hk4).shed⟩
  rw [wp_ite]
  refine ⟨fun _ => hbad s2 h2 hk, fun hname => ?_⟩
  refine (dirlookup_spec h2 hb2.bounded hh2 hdir).chain (fun _ => Halted.of_benign) ?_
  rintro (_ | ⟨ip, off⟩) s3 hr3
  · obtain ⟨rfl, -, -⟩ := hr3
    exact hbad s3 h2 hk
  obtain ⟨k, rfl, hle, hnamed, h3, hk3, hinum3, hlock3, -⟩ := hr3
  have hlive3 : Sane s.begin pr.cwd → Live s3.abs.node (s3.abs.tag ip).inum := by
    intro hsane
    obtain ⟨dd', hdd', hn⟩ := hk2.live (hlive1 hsane)
    rw [hh2.node] at hdd'
    cases hdd'
    rw [hinum3]
    exact hk3.live (hk.closed hsane.1 _ dd hh2.node hn hdir k hle hnamed.1)
  have hposi := pos_add_single (c + Pi.single dp 1) ip
  have hilock := (ilock_walked h3 hposi hlive3).and (ilock_locked s3 ip)
  refine hilock.chain (fun _ he => he.1.halted) ?_
  rintro _ s4 ⟨⟨h4, hk4, nd, hi4⟩, ⟨hfree, -⟩, -⟩
  have hk04 : Keeps c s.begin.abs s4.abs := (hk.trans hk3.of_add).trans hk4.of_add.of_add
  have hb4 := h0.keep h4 hk04
  have hk24 : Keeps (c + Pi.single dp 1) s2.abs s4.abs := hk3.trans hk4.of_add
  have hd4 : Held s4.abs dp (s1.abs.tag dp).inum dd := by
    refine hh2.keeps hk24 hposd ?_
    show 0 < (s4.inode dp).ref
    rw [h4.ref, Pi.add_apply]
    omega
  -- the lock of the directory is held, so the inode is another one
  have hne : (s1.abs.tag dp).inum ≠ (s3.abs.tag ip).inum := by
    intro heq
    have hsame : dp = ip := h4.sound.inj dp ip hd4.ref hi4.ref
      ((hd4.inum.trans heq).trans hi4.inum.symm)
    rw [← hsame, hlock3, hlock2] at hfree
    cases hfree
  rw [not_or, Bool.not_eq_true, Bool.not_eq_true] at hname
  have hnames : Names s4.abs.node (s1.abs.tag dp).inum dd k (s3.abs.tag ip).inum := by
    refine ⟨hd4.node, hdir, hle, hinum3.symm, ?_, ?_, ?_⟩
    · rw [hinum3]
      exact hnamed.1
    · exact namecmp_of_namecmp hnamed.2 hname.1
    · exact namecmp_of_namecmp hnamed.2 hname.2
  rw [wp_bind, wp_get]
  dsimp only
  rw [hi4.nlink_eq h4.sound, hi4.type_eq h4.sound, wp_ite]
  refine ⟨fun hlt => ?_, fun hlink => ?_⟩
  · exact Or.inr (Or.inr ⟨rfl, _, dd, k, _, nd,
      { hnames with node := hk04.node_of_some hd4.node }, hk04.node_of_some hi4.node, hlt⟩)
  have hunlink : (nd.type = T_DIR → nd.Empty) →
      wp (unlinkEntry dp ip (DESIZE * k)) s4
        (Answers c pr.cwd s)
        (Halted s pr.cwd) := by
    intro hempty
    refine (unlinkEntry_spec hb4 hd4 hi4 hne hdir hle).mono ?_ fun _ => Halted.of_benign
    rintro r s' ⟨hr, s5, rfl, hshed, h5, hserves, hout, htidy⟩
    refine ⟨Done.commit ⟨h5, ⟨_, _, hk04.shed_node, ?_, hshed⟩,
      (Serves.of_keeps hk04).trans hserves, hout.trans hk04.outstanding, fun ht => htidy ?_⟩, ?_⟩
    · exact Change.unlink hnames hi4.node hne.symm (Int16.not_lt.mp hlink) hempty
    · exact ((ht.keeps hk04).mono (le_add_single _ _)).mono (le_add_single _ _)
    · rw [hr]
      exact forgoes_zero _ _
  rw [wp_ite]
  refine ⟨fun hisdir => ?_, fun hnotdir => hunlink fun hisdir => absurd hisdir hnotdir⟩
  refine (hi4.isdirempty h4.sound hisdir).chain
    (fun e he => Halted.of_benign (by rw [he.1]; decide)) ?_
  rintro r s5 ⟨rfl, hr⟩
  rw [wp_ite]
  refine ⟨fun hr' => hunlink fun _ => hr.mp hr', fun _ => ?_⟩
  refine (iunlockput_spec h4 hb4.trans).chain (fun _ => Halted.of_benign) ?_
  rintro _ s6 ⟨h6, hk6⟩
  exact hbad s6 h6 (hk04.trans hk6.of_add)

end Unlink

end Xv6.Fs
