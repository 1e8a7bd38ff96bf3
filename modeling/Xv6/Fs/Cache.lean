import Xv6.Fs.Nodes
import Xv6.Lib.Ledger

/-!
# The operations of the inode layer

One lemma for each operation, in the terms of `State.abs`: what `iget`, `idup`, `ilock`, `iunlock`,
`iput` and `ialloc` do to the nodes and to the places of the cache, and how they can stop.  `Held a
ip i nd` says that the place `ip` holds a valid copy of inode `i`, with the node `nd`; it is what
`ilock` establishes, and what reading and writing need.

References are counted by a function `c` on the places of the cache (`Cached`), and every lemma is
stated for the references `c` of everybody else as a frame: what is true of a place that somebody
else holds stays true of it (`Keeps`), whatever the operation does with its own references.
-/

namespace Xv6.Fs

open Lib

/-- The place `ip` holds a valid copy of inode `i`, with the node `nd`. -/
structure Held (a : Abs) (ip : Icache) (i : ℕ) (nd : Node) : Prop where
  inum : (a.tag ip).inum = i
  ref : 0 < (a.tag ip).ref
  valid : (a.tag ip).valid = true
  node : a.node i = some nd

section Reading

variable {s : State} {ip : Icache} {i : ℕ} {nd : Node}

theorem writei_dev (ht : (s.inode ip).din.type = T_DEV) (src : ℕ → UInt8) (off n : UInt32) :
    ∃ r, Fs.writei ip src off n s = .ok (r, s) := by
  show ∃ r, (if (s.inode ip).din.type = T_DEV then _ else _ : Op ℤ) s = _
  rw [if_pos ht]
  by_cases hm : (s.inode ip).din.major < 0 ∨ (NDEV : ℤ) ≤ (s.inode ip).din.major.toInt
  · rw [if_pos hm]
    exact ⟨-1, rfl⟩
  · rw [if_neg hm]
    cases (s.devsw (s.inode ip).din.major.toInt.toNat).write with
    | none => exact ⟨-1, rfl⟩
    | some write => exact ⟨write (slice src 0 n.toNat), rfl⟩

variable (hh : Held s.abs ip i nd) (h : Sound s)

include hh h

theorem Held.din_node : (s.inode ip).inum = i ∧ (s.inode ip).din.node s.disk = nd := by
  have hnode := h.node_eq hh.ref hh.valid
  obtain rfl : (s.inode ip).inum = i := hh.inum
  exact ⟨rfl, Option.some.inj (hnode.symm.trans hh.node)⟩

theorem Held.type_eq : (s.inode ip).din.type = nd.type :=
  congrArg Node.type (hh.din_node h).2

theorem Held.nlink_eq : (s.inode ip).din.nlink = nd.nlink :=
  congrArg Node.nlink (hh.din_node h).2

theorem Held.size_eq : (s.inode ip).din.size.toNat = nd.data.length := by
  rw [← (hh.din_node h).2]
  exact (Dinode.length_data _ _).symm

theorem Held.length_le : nd.data.length ≤ MAXFILE * BSIZE := by
  rw [← hh.size_eq h]
  exact (h.noHoles hh.ref hh.valid).size_le

theorem Held.readi (ht : nd.type ≠ T_DEV)
    (off n : UInt32) : Fs.readi ip off n s = .ok (readData nd.data off n, s) := by
  have hdata : (s.inode ip).din.data s.disk = nd.data := congrArg Node.data (hh.din_node h).2
  rw [readi_eq (h.noHoles hh.ref hh.valid) (by rwa [hh.type_eq h]), hdata]

theorem Held.writei (ho : 1 ≤ s.outstanding)
    (ht : nd.type ≠ T_DEV) (src : ℕ → UInt8) (off n : UInt32) :
    wp (Fs.writei ip src off n) s
      (fun r s' => match writeData nd.data off.toNat (slice src 0 n.toNat) with
        | none => r = -1 ∧ s' = s
        | some l => r = n.toNat ∧ Sound s' ∧
            s'.abs = s.abs.putNode i (some { nd with data := l }))
      (fun e => e = .panic .ballocOutOfBlocks ∧
        ¬ Credit s ip (Ptr.span off.toNat n.toNat)) := by
  obtain ⟨hi, hnd⟩ := hh.din_node h
  have hdata : (s.inode ip).din.data s.disk = nd.data := congrArg Node.data hnd
  have hw := writei_spec h ho hh.ref hh.valid (by rwa [hh.type_eq h]) src off n
  rwa [hdata, hi, hnd] at hw

variable {E : Stop → Prop}

/-- A change of the links or the device numbers of a locked inode, stored. -/
theorem Held.update (ho : 1 ≤ s.outstanding)
    {f : Dinode → Dinode} (htype : ∀ d, (f d).type = d.type) (hsize : ∀ d, (f d).size = d.size)
    (haddrs : ∀ d, (f d).addrs = d.addrs) {β : Type} {k : Op β} {Q : β → State → Prop}
    (hk : ∀ s', Sound s' → s'.abs = s.abs.putNode i
        (some { nd with
          major := (f (s.inode ip).din).major
          minor := (f (s.inode ip).din).minor
          nlink := (f (s.inode ip).din).nlink }) → wp k s' Q E) :
    wp (do
        setDin ip f
        iupdate ip
        k) s Q E := by
  obtain ⟨hi, hnd⟩ := hh.din_node h
  obtain ⟨hs', habs⟩ := h.store_meta ho hh.ref hh.valid (htype (s.inode ip).din)
    (hsize _) (haddrs _)
  rw [wp_bind, wp_setDin, wp_bind]
  refine wp_of_ok (iupdate_eq (by exact ho) ip) (hk _ hs' (habs.trans ?_))
  have hdata : (f (s.inode ip).din).data s.disk = nd.data := by
    rw [← hnd]
    show slice _ 0 (f (s.inode ip).din).size.toNat = slice _ 0 (s.inode ip).din.size.toNat
    rw [hsize]
    refine slice_congr fun x _ _ => ?_
    rw [Dinode.byte, Dinode.byte, Dinode.addr_of_addrs (haddrs _)]
  rw [hi, Dinode.node, hdata, htype]
  rw [← hnd]
  rfl

end Reading

/-! ## The places of the cache -/

variable {n : Inode}

theorem Sound.putInode {s : State} (h : Sound s) (ip : Icache)
    (hinum : 0 < n.ref → n.inum < s.sb.ninodes)
    (hinj : 0 < n.ref → ∀ iq, iq ≠ ip → 0 < (s.inode iq).ref → (s.inode iq).inum ≠ n.inum)
    (hcopy : 0 < n.ref → n.valid = true →
      n.din = dinode s.disk s.sb n.inum ∧ n.din.type ≠ 0)
    (hunlocked : n.ref = 0 → n.locked = false) : Sound (s.putInode ip n) :=
  h.place rfl h.disk putInode_self (fun _ => putInode_of_ne) (fun _ _ _ => rfl)
    hinum hinj hcopy hunlocked

theorem putInode_abs (s : State) (ip : Icache) (n : Inode) :
    (s.putInode ip n).abs = s.abs.putTag ip n.tag := by
  refine Abs.ext rfl rfl (funext fun iq => ?_) rfl rfl rfl rfl rfl
  show ((s.putInode ip n).inode iq).tag = upd (fun iq => (s.inode iq).tag) ip n.tag iq
  by_cases hq : iq = ip
  · rw [hq, putInode_self, upd_self]
  · rw [putInode_of_ne hq, upd_of_ne hq]

/-- A place in use stays sound when only its count, its lock, or nothing changes. -/
theorem Sound.putRef {s : State} {ip : Icache} (h : Sound s) (href : 0 < (s.inode ip).ref) {r : ℕ}
    {l : Bool} (hl : r = 0 → l = false) :
    Sound (s.putInode ip { s.inode ip with ref := r, locked := l }) :=
  h.putInode ip (fun _ => h.inum ip href)
    (fun _ iq hq hr heq => hq (h.inj iq ip hr href heq)) (fun _ hv => h.copy ip href hv) hl

/-! ## The history -/

/-- The state as of a snapshot. -/
def State.asOf (s : State) (v : Snapshot) : State :=
  { s with sb := v.sb, disk := v.disk, inode := v.inode }

theorem Sound.asOf {s : State} (h : Sound s) (t : State) : Sound (t.asOf s.snapshot) :=
  ⟨h.disk, h.inum, h.inj, h.copy, h.unlocked⟩

/-- The history goes on.  Sleep locks are released with the disk and the cache in order, and `readi`
comes to no block without an address. -/
structure History.Grows (h h' : History) : Prop where
  released : ∃ vs, h'.released = vs ++ h.released ∧ ∀ v ∈ vs, ∀ s : State, Sound (s.asOf v)
  filled : h'.filled = h.filled

namespace History.Grows

variable {h h' h'' : History}

protected theorem refl (h : History) : h.Grows h :=
  ⟨⟨[], rfl, fun _ hv => absurd hv List.not_mem_nil⟩, rfl⟩

theorem of_eq (heq : h' = h) : h.Grows h' := heq ▸ .refl h

theorem trans (hg : h.Grows h') (hg' : h'.Grows h'') : h.Grows h'' := by
  obtain ⟨⟨vs, hvs, hall⟩, hf⟩ := hg
  obtain ⟨⟨vs', hvs', hall'⟩, hf'⟩ := hg'
  refine ⟨⟨vs' ++ vs, by rw [hvs', hvs, List.append_assoc], fun v hv => ?_⟩, hf'.trans hf⟩
  exact (List.mem_append.mp hv).elim (hall' v) (hall v)

theorem note {s : State} {v : Snapshot} (hv : ∀ t : State, Sound (t.asOf v)) :
    s.history.Grows (s.note v).history :=
  ⟨⟨[v], rfl, fun _ hu => List.mem_singleton.mp hu ▸ hv⟩, rfl⟩

end History.Grows

/-! ## References -/

/-- The cache is in order, and `c` counts the references to each place. -/
structure Cached (s : State) (c : Icache → ℕ) : Prop where
  sound : Sound s
  ref : ∀ ip, (s.inode ip).ref = c ip

/-- What an operation leaves to those who hold the references `c`.  The inodes behind them stay
where they are; of the other inodes, those without links may be freed. -/
structure Keeps (c : Icache → ℕ) (a a' : Abs) : Prop where
  ninodes : a'.ninodes = a.ninodes
  file : a'.file = a.file
  proc : a'.proc = a.proc
  devsw : a'.devsw = a.devsw
  outstanding : a'.outstanding = a.outstanding
  history : a.history.Grows a'.history
  inum : ∀ ip, 0 < c ip → (a'.tag ip).inum = (a.tag ip).inum
  valid : ∀ ip, 0 < c ip → (a.tag ip).valid = true → (a'.tag ip).valid = true
  node : ∀ ip, 0 < c ip → a'.node (a.tag ip).inum = a.node (a.tag ip).inum
  shed : ∀ i, a'.node i = a.node i ∨
    a'.node i = none ∧ ∃ nd, a.node i = some nd ∧ nd.nlink = 0

namespace Keeps

variable {c c' : Icache → ℕ} {a a' a'' : Abs} {ip : Icache} {i : ℕ} {nd : Node}

protected theorem refl (c : Icache → ℕ) (a : Abs) : Keeps c a a :=
  ⟨rfl, rfl, rfl, rfl, rfl, .refl _, fun _ _ => rfl, fun _ _ hv => hv, fun _ _ => rfl,
    fun _ => Or.inl rfl⟩

theorem trans (h : Keeps c a a') (h' : Keeps c a' a'') : Keeps c a a'' where
  ninodes := h'.ninodes.trans h.ninodes
  file := h'.file.trans h.file
  proc := h'.proc.trans h.proc
  devsw := h'.devsw.trans h.devsw
  outstanding := h'.outstanding.trans h.outstanding
  history := h.history.trans h'.history
  inum := fun ip hc => (h'.inum ip hc).trans (h.inum ip hc)
  valid := fun ip hc hv => h'.valid ip hc (h.valid ip hc hv)
  node := fun ip hc => by
    have h2 := h'.node ip hc
    rw [h.inum ip hc] at h2
    exact h2.trans (h.node ip hc)
  shed := fun i => by
    rcases h.shed i with h1 | ⟨h1, hdead⟩
    · rw [← h1]
      exact h'.shed i
    · rcases h'.shed i with h2 | ⟨h2, -⟩
      · exact Or.inr ⟨h2.trans h1, hdead⟩
      · exact Or.inr ⟨h2, hdead⟩

theorem mono (h : Keeps c a a') (hle : ∀ ip, 0 < c' ip → 0 < c ip) : Keeps c' a a' :=
  ⟨h.ninodes, h.file, h.proc, h.devsw, h.outstanding, h.history,
    fun ip hc => h.inum ip (hle ip hc), fun ip hc => h.valid ip (hle ip hc),
      fun ip hc => h.node ip (hle ip hc), h.shed⟩

theorem of_add (h : Keeps (c + Pi.single ip 1) a a') : Keeps c a a' :=
  h.mono fun iq hq => lt_of_lt_of_le hq (Nat.le_add_right (c iq) _)

theorem node_of_some (h : Keeps c a a') (hi : a'.node i = some nd) : a.node i = some nd := by
  rcases h.shed i with h1 | ⟨h1, -⟩
  · rw [← h1, hi]
  · rw [h1] at hi
    cases hi

/-- A place that is not recycled is used differently. -/
theorem putTag {t : Tag} (h : 0 < c ip → t.inum = (a.tag ip).inum ∧
    ((a.tag ip).valid = true → t.valid = true)) : Keeps c a (a.putTag ip t) where
  ninodes := rfl
  file := rfl
  proc := rfl
  devsw := rfl
  outstanding := rfl
  history := .refl _
  inum := fun iq hc => by
    show (upd a.tag ip t iq).inum = _
    by_cases hq : iq = ip
    · rw [hq] at hc ⊢
      rw [upd_self, (h hc).1]
    · rw [upd_of_ne hq]
  valid := fun iq hc hv => by
    show (upd a.tag ip t iq).valid = true
    by_cases hq : iq = ip
    · rw [hq] at hc hv ⊢
      rw [upd_self]
      exact (h hc).2 hv
    · rwa [upd_of_ne hq]
  node := fun _ _ => rfl
  shed := fun _ => Or.inl rfl

end Keeps

theorem Held.keeps {a a' : Abs} {ip : Icache} {i : ℕ} {nd : Node} {c : Icache → ℕ}
    (hh : Held a ip i nd) (hk : Keeps c a a') (hc : 0 < c ip) (href : 0 < (a'.tag ip).ref) :
    Held a' ip i nd where
  inum := (hk.inum ip hc).trans hh.inum
  ref := href
  valid := hk.valid ip hc hh.valid
  node := by
    have hn := hk.node ip hc
    rw [hh.inum] at hn
    exact hn.trans hh.node

/-- The inodes without links are there for those who hold the references `c`, and have been read. -/
def Tidy (c : Icache → ℕ) (a : Abs) : Prop :=
  ∀ i nd, a.node i = some nd → nd.nlink = 0 →
    ∃ ip, 0 < c ip ∧ (a.tag ip).inum = i ∧ (a.tag ip).valid = true

namespace Tidy

variable {c c' : Icache → ℕ} {a a' : Abs} {ip : Icache} {i : ℕ} {nd : Node}

theorem keeps (h : Tidy c a) (hk : Keeps c a a') : Tidy c a' := by
  intro i nd hi hdead
  obtain ⟨ip, hc, hinum, hv⟩ := h i nd (hk.node_of_some hi) hdead
  exact ⟨ip, hc, (hk.inum ip hc).trans hinum, hk.valid ip hc hv⟩

theorem mono (h : Tidy c a) (hle : c ≤ c') : Tidy c' a := by
  intro i nd hi hdead
  obtain ⟨iq, hc, hinum, hv⟩ := h i nd hi hdead
  exact ⟨iq, lt_of_lt_of_le hc (hle iq), hinum, hv⟩

theorem drop (h : Tidy (c + Pi.single ip 1) a) (hk : Keeps c a a')
    (hlast : ∀ nd, a'.node (a.tag ip).inum = some nd → nd.nlink = 0 → (a.tag ip).valid = true →
      0 < c ip) : Tidy c a' := by
  intro i nd hi hdead
  obtain ⟨iq, hc, hinum, hv⟩ := h i nd (hk.node_of_some hi) hdead
  have hcq : 0 < c iq := by
    by_cases hq : iq = ip
    · rw [hq] at hinum hv ⊢
      rw [← hinum] at hi
      exact hlast nd hi hdead hv
    · rwa [add_single_of_ne c hq] at hc
  exact ⟨iq, hcq, (hk.inum iq hcq).trans hinum, hk.valid iq hcq hv⟩

theorem putNode (h : Tidy c a) (hh : Held a ip i nd) (hc : 0 < c ip) (x : Option Node) :
    Tidy c (a.putNode i x) := by
  intro j y hj hdead
  by_cases hji : j = i
  · exact ⟨ip, hc, hh.inum.trans hji.symm, hh.valid⟩
  · rw [Abs.putNode_of_ne a hji] at hj
    exact h j y hj hdead

end Tidy

namespace Cached

variable {s : State} {c : Icache → ℕ} {ip : Icache} {i : ℕ}

theorem of_ref_eq_zero (hd : DiskSound s.sb s.disk) (href : ∀ ip, (s.inode ip).ref = 0)
    (hl : ∀ ip, (s.inode ip).locked = false) : Cached s 0 := by
  have hno : ∀ {ip : Icache}, ¬ 0 < (s.inode ip).ref := fun {ip} h => by
    rw [href] at h
    exact absurd h (lt_irrefl 0)
  exact ⟨⟨hd, fun _ h => absurd h hno, fun _ _ h => absurd h hno, fun _ h => absurd h hno,
    fun ip _ => hl ip⟩, href⟩

theorem putInode (h : Cached s c) {c' : Icache → ℕ}
    (hs : Sound (s.putInode ip n)) (hself : n.ref = c' ip) (hother : ∀ iq, iq ≠ ip → c iq = c' iq) :
    Cached (s.putInode ip n) c' := by
  refine ⟨hs, fun iq => ?_⟩
  by_cases hq : iq = ip
  · rw [hq, putInode_self, hself]
  · rw [putInode_of_ne hq, h.ref, hother iq hq]

theorem putRef (h : Cached s c) (ip : Icache) (c' : Icache → ℕ) {l : Bool} (hc : 0 < c ip)
    (hl : c' ip = 0 → l = false) (hother : ∀ iq, iq ≠ ip → c iq = c' iq) :
    Cached (s.putInode ip { s.inode ip with ref := c' ip, locked := l }) c' ∧
      Keeps c' s.abs (s.putInode ip { s.inode ip with ref := c' ip, locked := l }).abs := by
  have href : 0 < (s.inode ip).ref := by rwa [h.ref]
  refine ⟨h.putInode (h.sound.putRef href hl) rfl hother, ?_⟩
  rw [putInode_abs]
  exact Keeps.putTag fun _ => ⟨rfl, fun hv => hv⟩

theorem note (h : Cached s c) {v : Snapshot} (hv : ∀ t : State, Sound (t.asOf v)) :
    Cached (s.note v) c ∧ Keeps c s.abs (s.note v).abs :=
  ⟨⟨⟨h.sound.disk, h.sound.inum, h.sound.inj, h.sound.copy, h.sound.unlocked⟩, h.ref⟩,
    { Keeps.refl c s.abs with history := .note hv }⟩

end Cached

section Operations

variable {s : State} {c : Icache → ℕ} {ip : Icache} {i : ℕ}

/-- **`iget`** adds a reference to the inode. -/
theorem iget_spec (h : Cached s c) (hi : i < s.sb.ninodes) :
    wp (iget i) s
      (fun ip s' => Cached s' (c + Pi.single ip 1) ∧ Keeps c s.abs s'.abs ∧
        (s'.abs.tag ip).inum = i)
      (fun e => e = .panic .igetNoInodes) := by
  rw [iget, wp_bind, wp_get]
  cases hhit : (List.finRange NINODE).find? fun ip =>
      0 < (s.inode ip).ref ∧ (s.inode ip).inum = i with
  | some ip =>
    have hfound := List.find?_some hhit
    obtain ⟨href, hinum⟩ := of_decide_eq_true hfound
    rw [wp_bind, wp_setInode, wp_pure]
    refine ⟨h.putInode (h.sound.putRef href fun hr => absurd hr (Nat.succ_ne_zero _)) ?_ ?_, ?_, ?_⟩
    · rw [add_single_self, h.ref]
    · exact fun iq hq => (add_single_of_ne c hq).symm
    · rw [putInode_abs]
      exact Keeps.putTag fun _ => ⟨rfl, fun hv => hv⟩
    · rw [putInode_abs, Abs.putTag_self]
      exact hinum
  | none =>
    have hmiss : ∀ iq, 0 < (s.inode iq).ref → (s.inode iq).inum ≠ i := by
      intro iq hq heq
      have hnot := List.find?_eq_none.mp hhit iq (List.mem_finRange iq)
      exact hnot (decide_eq_true ⟨hq, heq⟩)
    cases hempty : (List.finRange NINODE).find? fun ip => (s.inode ip).ref = 0 with
    | none => exact rfl
    | some ip =>
      have hfound := List.find?_some hempty
      have href : (s.inode ip).ref = 0 := of_decide_eq_true hfound
      have hc : c ip = 0 := (h.ref ip).symm.trans href
      have hlock := h.sound.unlocked ip href
      rw [wp_bind, wp_setInode, wp_pure]
      have hs' := h.sound.putInode ip (n := { s.inode ip with inum := i, ref := 1, valid := false })
        (fun _ => hi) (fun _ iq _ hr => hmiss iq hr) (fun _ hv => absurd hv Bool.false_ne_true)
        fun _ => hlock
      refine ⟨h.putInode hs' ?_ fun iq hq => (add_single_of_ne c hq).symm, ?_, ?_⟩
      · rw [add_single_self, hc]
      · rw [putInode_abs]
        exact Keeps.putTag fun hpos => absurd hpos (by omega)
      · rw [putInode_abs, Abs.putTag_self]
        rfl

/-- `iget` of an inode that is not in the cache takes a free place. -/
theorem iget_miss (hmiss : ∀ iq, 0 < (s.inode iq).ref → (s.inode iq).inum ≠ i)
    (hfree : ∃ iq, (s.inode iq).ref = 0) :
    ∃ ip, (s.inode ip).ref = 0 ∧ iget i s =
      .ok (ip, s.putInode ip { s.inode ip with inum := i, ref := 1, valid := false }) := by
  have hhit : (List.finRange NINODE).find? (fun ip =>
      0 < (s.inode ip).ref ∧ (s.inode ip).inum = i) = none :=
    List.find?_eq_none.mpr fun iq _ hq => hmiss iq (of_decide_eq_true hq).1 (of_decide_eq_true hq).2
  obtain ⟨ip, hempty⟩ : ∃ ip, (List.finRange NINODE).find? (fun ip =>
      (s.inode ip).ref = 0) = some ip := by
    rw [← Option.isSome_iff_exists, List.find?_isSome]
    obtain ⟨iq, hq⟩ := hfree
    exact ⟨iq, List.mem_finRange iq, decide_eq_true hq⟩
  have hfound := List.find?_some hempty
  refine ⟨ip, of_decide_eq_true hfound, ?_⟩
  rw [iget, bind_ok (show (get : Op State) s = .ok (s, s) from rfl)]
  simp only [hhit, hempty]
  rfl

theorem ilock_miss (href : 0 < (s.inode ip).ref) (hl : (s.inode ip).locked = false)
    (hv : (s.inode ip).valid = false) (ht : (dinode s.disk s.sb (s.inode ip).inum).type ≠ 0) :
    ilock ip s = .ok ((), s.putInode ip { s.inode ip with
      locked := true, valid := true, din := dinode s.disk s.sb (s.inode ip).inum }) := by
  have hrun : wp (ilock ip) s (fun _ s' => s' = s.putInode ip { s.inode ip with
      locked := true, valid := true, din := dinode s.disk s.sb (s.inode ip).inum })
      (fun _ => False) := by
    rw [ilock, wp_bind, wp_get, wp_ite]
    refine ⟨fun hlt => absurd hlt (by omega), fun _ => ?_⟩
    rw [wp_bind, acquiresleep, wp_bind, wp_get, wp_ite]
    refine ⟨fun hlock => absurd (hl.symm.trans hlock) (by decide), fun _ => ?_⟩
    rw [wp_setInode, wp_bind, wp_get, putInode_self, wp_ite]
    refine ⟨fun hval => absurd (hv.symm.trans hval) (by decide), fun _ => ?_⟩
    rw [wp_bind, wp_setInode, wp_ite]
    refine ⟨fun hz => absurd hz ht, fun _ => ?_⟩
    rw [wp_pure, putInode_self, putInode_putInode]
    rfl
  cases hout : ilock ip s with
  | error e => exact (hrun.error hout).elim
  | ok r => rw [← hrun.ok hout]

/-- An allocated inode that is not in the cache is fetched by `iget` and `ilock`. -/
theorem fetch_miss (hmiss : ∀ iq, 0 < (s.inode iq).ref → (s.inode iq).inum ≠ i)
    (hfree : ∃ iq, (s.inode iq).ref = 0)
    (hl : ∀ iq, (s.inode iq).ref = 0 → (s.inode iq).locked = false)
    (ht : (dinode s.disk s.sb i).type ≠ 0) :
    ∃ ip s1, (s.inode ip).ref = 0 ∧ iget i s = .ok (ip, s1) ∧
      ilock ip s1 = .ok ((), s.putInode ip ⟨i, 1, true, true, dinode s.disk s.sb i⟩) := by
  obtain ⟨ip, href, hget⟩ := iget_miss hmiss hfree
  refine ⟨ip, _, href, hget, ?_⟩
  have hself : (s.putInode ip { s.inode ip with inum := i, ref := 1, valid := false }).inode ip =
      { s.inode ip with inum := i, ref := 1, valid := false } := putInode_self
  rw [ilock_miss (by rw [hself]; exact Nat.one_pos) (by rw [hself]; exact hl ip href)
    (by rw [hself]) (by rw [hself]; exact ht), hself, putInode_putInode]
  rfl

theorem idup_spec (h : Cached s c) (hc : 0 < c ip) :
    wp (idup ip) s
      (fun iq s' => iq = ip ∧ Cached s' (c + Pi.single ip 1) ∧ Keeps c s.abs s'.abs)
      (fun _ => False) := by
  have href : 0 < (s.inode ip).ref := by rwa [h.ref]
  rw [idup, wp_bind, wp_setInode, wp_pure]
  refine ⟨rfl, h.putInode (h.sound.putRef href fun hr => absurd hr (Nat.succ_ne_zero _)) ?_ ?_, ?_⟩
  · rw [add_single_self, h.ref]
  · exact fun iq hq => (add_single_of_ne c hq).symm
  · rw [putInode_abs]
    exact Keeps.putTag fun _ => ⟨rfl, fun hv => hv⟩

theorem wp_acquiresleep {Q : Unit → State → Prop} (hE : (s.inode ip).locked = true → E .hang)
    (hQ : Q () (s.putInode ip { s.inode ip with locked := true })) :
    wp (acquiresleep ip) s Q E := by
  rw [acquiresleep, wp_bind, wp_get, wp_ite]
  exact ⟨hE, fun _ => hQ⟩

/-- **`ilock`** makes the copy of an allocated inode valid. -/
theorem ilock_spec (h : Cached s c) (hc : 0 < c ip) :
    wp (ilock ip) s
      (fun _ s' => Cached s' c ∧ Keeps c s.abs s'.abs ∧
        ∃ nd, Held s'.abs ip (s.abs.tag ip).inum nd)
      (fun e => e = .hang ∨
        e = .panic .ilockNoType ∧ s.abs.node (s.abs.tag ip).inum = none) := by
  have href : 0 < (s.inode ip).ref := by rwa [h.ref]
  rw [ilock, wp_bind, wp_get, wp_ite]
  refine ⟨fun hlt => absurd hlt (by omega), fun _ => ?_⟩
  rw [wp_bind]
  refine wp_acquiresleep (fun _ => Or.inl rfl) ?_
  obtain ⟨h1, hk1⟩ := h.putRef ip c (l := true) hc (fun hz => absurd hz (by omega))
    fun _ _ => rfl
  rw [← h.ref ip] at h1 hk1
  generalize hs1 : s.putInode ip { s.inode ip with locked := true } = s1 at h1 hk1 ⊢
  have hinum : (s1.inode ip).inum = (s.inode ip).inum := hk1.inum ip hc
  have href1 : 0 < (s1.inode ip).ref := by rwa [h1.ref]
  rw [wp_bind, wp_get, wp_ite]
  refine ⟨fun hv => ?_, fun hv => ?_⟩
  · refine ⟨h1, hk1, (s1.inode ip).din.node s1.disk, hinum, href1, hv, ?_⟩
    have hnode := h1.sound.node_eq href1 hv
    rwa [hinum] at hnode
  · rw [wp_bind, wp_setInode, wp_ite]
    have hi := h1.sound.inum ip href1
    refine ⟨fun ht => Or.inr ⟨rfl, ?_⟩, fun ht => ?_⟩
    · rw [← hk1.node ip hc]
      show nodeOf s1.sb s1.disk (s.inode ip).inum = none
      rw [← hinum, nodeOf, if_neg fun hn => hn.2 ht]
    · have hs2 := h1.sound.putInode ip (n := { s1.inode ip with
          din := dinode s1.disk s1.sb (s1.inode ip).inum, valid := true }) (fun _ => hi)
        (fun hr iq hq hr' heq => hq (h1.sound.inj iq ip hr' hr heq)) (fun _ _ => ⟨rfl, ht⟩)
        fun hz => absurd hz (by exact ne_of_gt href1)
      refine ⟨h1.putInode hs2 (h1.ref ip) fun _ _ => rfl, hk1.trans ?_, _, ?_, ?_, ?_,
        if_pos ⟨?_, ?_⟩⟩
      · rw [putInode_abs]
        exact Keeps.putTag fun _ => ⟨rfl, fun _ => rfl⟩
      · rw [putInode_abs, Abs.putTag_self]
        exact hinum
      · rw [putInode_abs, Abs.putTag_self]
        exact href1
      · rw [putInode_abs, Abs.putTag_self]
        rfl
      · show (s.inode ip).inum < s1.sb.ninodes
        rwa [← hinum]
      · show (dinode s1.disk s1.sb (s.inode ip).inum).type ≠ 0
        rwa [← hinum]

theorem iunlock_spec (h : Cached s c) (hc : 0 < c ip) :
    wp (iunlock ip) s (fun _ s' => Cached s' c ∧ Keeps c s.abs s'.abs)
      (fun e => e = .panic .iunlock) := by
  obtain ⟨h1, hk1⟩ := h.putRef ip c (l := false) hc (fun _ => rfl) fun _ _ => rfl
  rw [← h.ref ip] at h1 hk1
  obtain ⟨h2, hk2⟩ := h1.note h1.sound.asOf
  rw [iunlock, wp_bind, wp_get, wp_ite]
  exact ⟨fun _ => rfl, fun _ => ⟨h2, hk1.trans hk2⟩⟩

theorem iunlock_ok (href : 0 < (s.inode ip).ref) (hl : (s.inode ip).locked = true) :
    iunlock ip s = .ok ((), (s.putInode ip { s.inode ip with locked := false }).note
      (s.putInode ip { s.inode ip with locked := false }).snapshot) := by
  unfold iunlock
  refine (bind_ok (a := s) (by rfl)).trans ?_
  dsimp only
  rw [if_neg (by rw [hl]; simp; omega)]
  rfl

end Operations

/-! ## Freeing an inode -/

section Freeing

variable {s s' : State} {c : Icache → ℕ} {ip : Icache}

/-- The disk after the blocks of an inode were freed and its type was set to zero. -/
theorem Sound.free (h : Sound s) (ho : 1 ≤ s.outstanding) (href : 0 < (s.inode ip).ref)
    (hv : (s.inode ip).valid = true) {β : Type} {k : Op β} {Q : β → State → Prop}
    (hk : ∀ s', Local s s' ip → DiskSound s.sb s'.disk →
      Spares s.sb s.disk s'.disk (s.inode ip).inum →
      nodeOf s.sb s'.disk (s.inode ip).inum = none → wp k s' Q E) :
    wp (do
        itrunc ip
        setDin ip fun d => { d with type := 0 }
        iupdate ip
        k) s Q E := by
  have hr := h.ready ho href hv
  refine (itrunc_spec hr).chain (fun _ => False.elim) ?_
  rintro _ s1 ⟨hloc, -, hdisk, hview, hblock, hf⟩
  rw [wp_bind, wp_setDin, wp_bind]
  refine wp_of_ok (iupdate_eq (by exact hf.trans) ip) ?_
  have hsb : s1.sb = s.sb := hloc.sb
  have hi := h.inum ip href
  have hi1 : (s1.inode ip).inum < s1.sb.ninodes := by rwa [hloc.inum, hsb]
  generalize hs2 : s1.putDin ip { (s1.inode ip).din with type := 0 } = s2
  have hloc2 : Local s1 s2 ip := by
    rw [← hs2]
    exact Local.putDin s1 ip _
  have hdisk2 : s2.disk = s1.disk := by rw [← hs2]; rfl
  have hdin2 : (s2.inode ip).din.type = 0 := by rw [← hs2, putDin_self]
  have hi2 : (s2.inode ip).inum < s2.sb.ninodes := by rwa [hloc2.inum, hloc2.sb]
  have hwf2 : s2.sb.Wf := by rw [hloc2.sb, hsb]; exact h.disk.wf
  -- the table of inodes and the data blocks on the disk
  have hself : (dinode (s2.update ip).disk s.sb (s.inode ip).inum).type = 0 := by
    rw [← hsb, ← hloc2.sb, dinode_update, ← hloc.inum, ← hloc2.inum, view_self, hdin2]
  have hother : ∀ j, j < s.sb.ninodes → j ≠ (s.inode ip).inum →
      dinode (s2.update ip).disk s.sb j = dinode s.disk s.sb j := by
    intro j hj hji
    have h1 := hdisk j hj
    rw [hview j hj hji, view_of_ne hji] at h1
    rw [← h1, ← hsb, ← hloc2.sb, dinode_update,
      view_of_ne (by rwa [hloc2.inum, hloc.inum]), hdisk2]
  have hdata : ∀ b, s.sb.nmeta ≤ b → (s2.update ip).disk b = s.disk b := by
    intro b hb
    rw [block_update hwf2 hi2 (by rwa [hloc2.sb, hsb]), hdisk2, hblock b hb]
  have hsp : Spares s.sb s.disk (s2.update ip).disk (s.inode ip).inum :=
    Spares.of_block (fun j hj _ ht p hp => (h.disk.owned.ptr_range hj ht hp).1) hother hdata
  refine hk _ (hloc.trans (hloc2.trans (Local.write s2 ip _ _)))
    ?_ hsp (if_neg fun hn => hn.2 hself)
  refine h.disk.change hsp ?_ ?_ fun ht => absurd hself ht
  · rw [readsb_update hwf2, hdisk2, hf.super, hsb, h.disk.super]
  · have hex := hf.exact
    rw [hsb] at hex
    refine hex.congr (fun b _ => ?_) ?_
    · have hu := used_update hwf2 hi2 b
      rwa [hloc2.sb, hsb, hdisk2] at hu
    · rintro ⟨j, p⟩
      rw [cleared]
      by_cases hji : j = (s.inode ip).inum
      · rw [if_pos hji, pointers, if_neg]
        rw [hji]
        exact fun hn => hn.2 hself
      · rw [if_neg hji, pointers, pointers]
        by_cases hj : j < s.sb.ninodes
        · simp only [hother j hj hji, view_of_ne hji]
          by_cases ht : (dinode s.disk s.sb j).type = 0
          · rw [if_neg fun hn => hn.2 ht, if_neg fun hn => hn.2 ht]
          · rw [if_pos ⟨hj, ht⟩, if_pos ⟨hj, ht⟩]
            exact Dinode.ptr_congr
              (fun hp => hdata _ (h.disk.owned.ptr_range hj ht hp).1) p
        · rw [if_neg fun hn => hj hn.1, if_neg fun hn => hj hn.1]

/-- The place of an inode that was freed has no valid copy. -/
theorem Sound.emptied (h : Sound s) (hloc : Local s s' ip) (hdisk : DiskSound s.sb s'.disk)
    (hsp : Spares s.sb s.disk s'.disk (s.inode ip).inum) (href : 0 < (s.inode ip).ref)
    (hinum : n.inum = (s.inode ip).inum) (hv : n.valid = false) (hl : n.locked = false) :
    Sound (s'.putInode ip n) := by
  refine h.place hloc.sb hdisk putInode_self (fun iq hq =>
    (putInode_of_ne hq).trans (hloc.inode iq hq))
    (fun _ => h.din_spared hsp href) (fun _ => ?_) (fun _ iq hq hr heq => ?_) (fun _ hv' => ?_)
    fun _ => hl
  · rw [hinum]
    exact h.inum ip href
  · exact hq (h.inj iq ip hr href (heq.trans hinum))
  · rw [hv] at hv'
    cases hv'

/-- Freeing an inode without links that nobody else refers to. -/
theorem Cached.emptied (h : Cached s (c + Pi.single ip 1)) (hloc : Local s s' ip)
    (hdisk : DiskSound s.sb s'.disk) (hsp : Spares s.sb s.disk s'.disk (s.inode ip).inum)
    (hnone : nodeOf s.sb s'.disk (s.inode ip).inum = none) (href : (s.inode ip).ref = 1)
    (hv : (s.inode ip).valid = true) (hlink : (s.inode ip).din.nlink = 0)
    (hn : n.ref = 0) (hinum : n.inum = (s.inode ip).inum) (hv' : n.valid = false)
    (hl : n.locked = false) :
    Cached (s'.putInode ip n) c ∧ Keeps c s.abs (s'.putInode ip n).abs := by
  have hpos : 0 < (s.inode ip).ref := by omega
  have hc : c ip = 0 := by
    have hr := h.ref ip
    rw [add_single_self] at hr
    omega
  have hnode : (s'.putInode ip n).abs.node = upd s.abs.node (s.inode ip).inum none := by
    show nodeOf s'.sb s'.disk = _
    rw [hloc.sb]
    exact h.sound.disk.node_upd hsp hnone
  have hother : ∀ iq, 0 < c iq → iq ≠ ip := by
    rintro iq hq rfl
    omega
  refine ⟨⟨h.sound.emptied hloc hdisk hsp hpos hinum hv' hl, fun iq => ?_⟩, ?_⟩
  · by_cases hqi : iq = ip
    · rw [hqi, putInode_self, hn, hc]
    · rw [putInode_of_ne hqi, hloc.inode iq hqi, h.ref, add_single_of_ne c hqi]
  have htag : ∀ iq, 0 < c iq → (s'.putInode ip n).abs.tag iq = s.abs.tag iq := by
    intro iq hq
    show ((s'.putInode ip n).inode iq).tag = (s.inode iq).tag
    rw [putInode_of_ne (hother iq hq), hloc.inode iq (hother iq hq)]
  refine ⟨?_, hloc.file, hloc.proc, hloc.devsw, hloc.outstanding, .of_eq hloc.history,
    fun iq hq => ?_, fun iq hq => ?_, fun iq hq => ?_, fun i => ?_⟩
  · exact congrArg Superblock.ninodes hloc.sb
  · rw [htag iq hq]
  · rw [htag iq hq]
    exact fun hv => hv
  · have hq' : 0 < (s.inode iq).ref := by
      rw [h.ref, add_single_of_ne c (hother iq hq)]
      exact hq
    rw [hnode]
    exact upd_of_ne fun heq => hother iq hq (h.sound.inj iq ip hq' hpos heq)
  · rw [hnode]
    by_cases hi : i = (s.inode ip).inum
    · rw [hi]
      exact Or.inr ⟨upd_self, _, h.sound.node_eq hpos hv, hlink⟩
    · exact Or.inl (upd_of_ne hi)

/-- **`iput`** drops a reference, and frees the inode if it was the last one and there are no links.
An inode that was never read is not freed.  The lock is taken for this, so `iput` waits if the inode
is locked. -/
theorem iput_exact (h : Cached s (c + Pi.single ip 1)) (ho : 1 ≤ s.outstanding) :
    wp (iput ip) s
      (fun _ s' => (Cached s' c ∧ Keeps c s.abs s'.abs ∧
          (Tidy (c + Pi.single ip 1) s.abs → Tidy c s'.abs)) ∧
        ∀ iq, (s'.inode iq).locked = true → iq ≠ ip ∧ (s.inode iq).locked = true)
      (fun e => e = .hang ∧ (s.inode ip).locked = true) := by
  have href := h.ref ip
  rw [add_single_self] at href
  rw [iput, wp_bind]
  refine wp_acquiresleep (fun hl => ⟨rfl, hl⟩) ?_
  obtain ⟨h1, hk1⟩ := h.putRef ip (c + Pi.single ip 1) (l := true)
    (by rw [add_single_self]; omega) (fun hz => by rw [add_single_self] at hz; omega)
    fun _ _ => rfl
  rw [← h.ref ip] at h1 hk1
  generalize hs1 : s.putInode ip { s.inode ip with locked := true } = s1 at h1 hk1 ⊢
  -- the lock of `ip` is free in the end, and the other locks are as they were
  have hlock : ∀ {s2 : State} {n : Inode}, (∀ iq, iq ≠ ip → s2.inode iq = s1.inode iq) →
      n.locked = false → ∀ iq, ((s2.putInode ip n).inode iq).locked = true →
        iq ≠ ip ∧ (s.inode iq).locked = true := by
    intro s2 n hs2 hn iq hl
    by_cases hq : iq = ip
    · rw [hq, putInode_self, hn] at hl
      cases hl
    · rw [putInode_of_ne hq, hs2 iq hq, ← hs1, putInode_of_ne hq] at hl
      exact ⟨hq, hl⟩
  have ho1 : 1 ≤ s1.outstanding := ho.trans_eq hk1.outstanding.symm
  have href1 := h1.ref ip
  rw [add_single_self] at href1
  have hk := hk1.of_add
  rw [wp_bind, wp_get, wp_ite]
  refine ⟨fun hfree => ?_, fun hfree => ?_⟩
  · obtain ⟨hv, hlink, hone⟩ := hfree
    have hpos : 0 < (s1.inode ip).ref := by omega
    rw [wp_bind, ifree]
    refine h1.sound.free ho1 hpos hv fun s2 hloc hdisk hsp hnone => ?_
    rw [wp_setInode, wp_bind, wp_releasesleep, wp_setInode]
    simp only [putInode_self, putInode_putInode, note_inode, note_putInode]
    have hs3 := h1.sound.emptied hloc hdisk hsp hpos
      (n := ⟨(s2.inode ip).inum, (s2.inode ip).ref, false, false, (s2.inode ip).din⟩)
        hloc.inum rfl rfl
    obtain ⟨h3, hk3⟩ := h1.emptied hloc hdisk hsp hnone hone hv hlink
      (n := ⟨(s2.inode ip).inum, (s2.inode ip).ref - 1, false, false, (s2.inode ip).din⟩)
      (by rw [hloc.ref, hone]) hloc.inum rfl rfl
    obtain ⟨h4, hk4⟩ := h3.note hs3.asOf
    have hk34 := hk3.trans hk4
    refine ⟨⟨h4, hk.trans hk34, fun htidy => (htidy.keeps hk1).drop hk34 fun nd hnd => ?_⟩,
      hlock hloc.inode rfl⟩
    change nodeOf s2.sb s2.disk (s1.inode ip).inum = some nd at hnd
    rw [hloc.sb, hnone] at hnd
    cases hnd
  · rw [wp_bind, wp_releasesleep, wp_setInode]
    simp only [putInode_self, putInode_putInode, note_inode, note_putInode]
    have hs2 := h1.sound.putRef (show 0 < (s1.inode ip).ref by omega) (r := (s1.inode ip).ref)
      (l := false) fun _ => rfl
    have hsub : (s1.inode ip).ref - 1 = c ip := by omega
    rw [hsub]
    obtain ⟨h2, hk2⟩ := h1.putRef ip c (l := false)
      (by rw [add_single_self]; omega) (fun _ => rfl) fun iq hq => add_single_of_ne c hq
    obtain ⟨h3, hk3⟩ := h2.note hs2.asOf
    replace hk2 := hk2.trans hk3
    refine ⟨⟨h3, hk.trans hk2, fun htidy => (htidy.keeps hk1).drop hk2 fun nd hnd hdead hv => ?_⟩,
      hlock (fun _ _ => rfl) rfl⟩
    -- the inode was kept although it has no links, so there are other references
    have hnd1 := (hk2.node_of_some hnd).symm.trans (h1.sound.node_eq (by omega) hv)
    have hlink : (s1.inode ip).din.nlink = 0 := by
      rw [← hdead, Option.some.inj hnd1]
      rfl
    by_contra hc
    exact hfree ⟨hv, hlink, by omega⟩

theorem iput_tidy (h : Cached s (c + Pi.single ip 1)) (ho : 1 ≤ s.outstanding) :
    wp (iput ip) s
      (fun _ s' => Cached s' c ∧ Keeps c s.abs s'.abs ∧
        (Tidy (c + Pi.single ip 1) s.abs → Tidy c s'.abs))
      (fun e => e = .hang ∧ (s.inode ip).locked = true) :=
  (iput_exact h ho).mono (fun _ _ hq => hq.1) fun _ he => he

theorem iput_spec (h : Cached s (c + Pi.single ip 1)) (ho : 1 ≤ s.outstanding) :
    wp (iput ip) s (fun _ s' => Cached s' c ∧ Keeps c s.abs s'.abs) (fun e => e = .hang) :=
  (iput_tidy h ho).mono (fun _ _ hq => ⟨hq.1, hq.2.1⟩) fun _ he => he.1

end Freeing

/-! ## Allocating an inode -/

section Allocating

variable {s : State} {c : Icache → ℕ} {i : ℕ} {type : Int16}

/-- The state after `ialloc` has claimed inode `i`. -/
def State.claim (s : State) (i : ℕ) (type : Int16) : State :=
  s.write (IBLOCK i s.sb)
    (putDinode i { Dinode.zero with type := type } (s.disk (IBLOCK i s.sb)))

theorem dinode_claim (s : State) (i : ℕ) (type : Int16) (j : ℕ) :
    dinode (s.claim i type).disk s.sb j =
      upd (dinode s.disk s.sb) i { Dinode.zero with type := type } j :=
  dinode_putDinode s.disk s.sb _ j _

theorem Dinode.ptr_of_empty {d : Dinode} (h : ∀ k, d.addrs k = 0) (disk : Disk) (p : Ptr) :
    d.ptr disk p = 0 := by
  cases p with
  | addr k => rw [Dinode.ptr, h]; rfl
  | entry j => rw [Dinode.ptr, if_pos (h _)]

/-- A free inode is given the record of an empty file. -/
theorem DiskSound.putEmpty {sb : Superblock} {disk : Disk} (h : DiskSound sb disk)
    (hi : i < sb.ninodes) (hfree : (dinode disk sb i).type = 0) {d : Dinode} (hsize : d.size = 0)
    (haddrs : ∀ k, d.addrs k = 0) :
    DiskSound sb (upd disk (IBLOCK i sb) (putDinode i d (disk (IBLOCK i sb)))) ∧
      Spares sb disk (upd disk (IBLOCK i sb) (putDinode i d (disk (IBLOCK i sb)))) i := by
  generalize hdisk' : upd disk (IBLOCK i sb) (putDinode i d (disk (IBLOCK i sb))) = disk'
  have hdin : ∀ j, dinode disk' sb j = if j = i then d else dinode disk sb j := by
    intro j
    rw [← hdisk']
    exact dinode_putDinode disk sb i j d
  have hdata : ∀ b, sb.nmeta ≤ b → disk' b = disk b := by
    intro b hb
    have h1 := h.wf.iblock_lt hi
    have h2 := h.wf.bmapstart_lt_nmeta
    rw [← hdisk']
    exact upd_of_ne (by omega)
  have hother : ∀ j, j ≠ i → dinode disk' sb j = dinode disk sb j :=
    fun j hji => (hdin j).trans (if_neg hji)
  have hself : dinode disk' sb i = d := (hdin i).trans (if_pos rfl)
  have hsp : Spares sb disk disk' i :=
    Spares.of_block (fun j hj _ ht p hp => (h.owned.ptr_range hj ht hp).1)
      (fun j _ hji => hother j hji) hdata
  refine ⟨h.change hsp ?_ ?_ fun _ => ?_, hsp⟩
  · rw [← hdisk']
    exact Superblock.Wf.readsb_update (h.wf.two_le_iblock _)
  · refine h.owned.congr (fun b _ => ?_) ?_
    · rw [← hdisk']
      exact used_update_of_ne
        (ne_of_gt (lt_of_lt_of_le (h.wf.iblock_lt hi) (bmapstart_le_bblock b))) _
    · rintro ⟨j, p⟩
      rw [pointers, pointers]
      by_cases hji : j = i
      · simp only [hji, hself, Dinode.ptr_of_empty haddrs, ite_self]
        exact (if_neg fun hn => hn.2 hfree).symm
      · simp only [hother j hji]
        by_cases hj : j < sb.ninodes ∧ (dinode disk sb j).type ≠ 0
        · rw [if_pos hj, if_pos hj]
          exact Dinode.ptr_congr (fun hp => hdata _ (h.owned.ptr_range hj.1 hj.2 hp).1) p
        · rw [if_neg hj, if_neg hj]
  · rw [hself]
    intro bn hbn
    rw [hsize] at hbn
    exact absurd hbn (Nat.not_lt_zero _)

/-- A free inode has no valid copy in the cache, so claiming it leaves the cache sound. -/
theorem Cached.claim (h : Cached s c) (hi : i < s.sb.ninodes)
    (hfree : (dinode s.disk s.sb i).type = 0) (ht : type ≠ 0) :
    Cached (s.claim i type) c ∧
      (s.claim i type).abs = s.abs.putNode i (some ⟨type, 0, 0, 0, []⟩) := by
  obtain ⟨hdisk, hsp⟩ : DiskSound s.sb (s.claim i type).disk ∧
      Spares s.sb s.disk (s.claim i type).disk i :=
    h.sound.disk.putEmpty hi hfree rfl fun _ => rfl
  refine ⟨⟨⟨hdisk, h.sound.inum, h.sound.inj, fun ip href hv => ?_, h.sound.unlocked⟩, h.ref⟩, ?_⟩
  · have hcopy := h.sound.copy ip href hv
    have hne : (s.inode ip).inum ≠ i := by
      intro heq
      rw [heq] at hcopy
      rw [hcopy.1] at hcopy
      exact hcopy.2 hfree
    refine ⟨hcopy.1.trans ?_, hcopy.2⟩
    exact (hsp.din _ (h.sound.inum ip href) hne).symm
  · refine Abs.ext rfl (h.sound.disk.node_upd hsp ?_) rfl rfl rfl rfl rfl rfl
    have hself : dinode (s.claim i type).disk s.sb i = { Dinode.zero with type := type } :=
      (dinode_claim s i type i).trans upd_self
    rw [nodeOf, hself, if_pos ⟨hi, ht⟩]
    rfl

theorem iget_node (s : State) (i : ℕ) :
    wp (iget i) s (fun _ s' => s'.abs.node = s.abs.node) (fun _ => True) := by
  rw [iget, wp_bind, wp_get]
  cases (List.finRange NINODE).find? fun ip => 0 < (s.inode ip).ref ∧ (s.inode ip).inum = i with
  | some ip => exact rfl
  | none =>
    cases (List.finRange NINODE).find? fun ip => (s.inode ip).ref = 0 with
    | none => trivial
    | some ip => exact rfl

/-- **`ialloc`** makes a new, empty inode with a number that was free. -/
theorem ialloc_spec (h : Cached s c) (ho : 1 ≤ s.outstanding) (ht : type ≠ 0) :
    wp (ialloc type) s
      (fun ip s' => ∃ i, 0 < i ∧ i < s.sb.ninodes ∧ s.abs.node i = none ∧
        Cached s' (c + Pi.single ip 1) ∧
        Keeps c (s.abs.putNode i (some ⟨type, 0, 0, 0, []⟩)) s'.abs ∧ (s'.abs.tag ip).inum = i ∧
        s'.abs.node i = some ⟨type, 0, 0, 0, []⟩)
      (fun e => e = .panic .iallocNoInodes ∨ e = .panic .igetNoInodes) := by
  rw [ialloc, wp_bind, wp_get]
  cases hfind : (List.range' 1 (s.sb.ninodes - 1)).find? fun i =>
      (dinode s.disk s.sb i).type = 0 with
  | none => exact Or.inl rfl
  | some i =>
    have hmem := List.mem_range'_1.mp (List.mem_of_find?_eq_some hfind)
    have hfound := List.find?_some hfind
    have hfree : (dinode s.disk s.sb i).type = 0 := of_decide_eq_true hfound
    have hi : i < s.sb.ninodes := by omega
    obtain ⟨h1, habs⟩ := h.claim hi hfree ht
    rw [wp_bind]
    refine wp_logWrite ho (((iget_spec h1 hi).and (iget_node _ i)).mono ?_ fun _ he => Or.inr he.1)
    rintro ip s' ⟨⟨h', hk, hinum⟩, hnode⟩
    rw [habs] at hk hnode
    refine ⟨i, by omega, hi, if_neg fun hn => hn.2 hfree, h', hk, hinum, ?_⟩
    rw [hnode, Abs.putNode_self]

end Allocating

end Xv6.Fs
