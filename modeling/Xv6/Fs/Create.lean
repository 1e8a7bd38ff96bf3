import Xv6.Fs.Calls

/-!
# The system calls that create and open

`create` looks for the name, and makes a new inode and an entry for it if there is none.  A new
directory gets its entries `.` and `..` before it has an entry itself.  In between the nodes are not
as a call may leave them: the new inode has a link and no entry, and its parent counts an entry `..`
that is not there yet.  `create_spec` says that all of it together is one change.
-/

namespace Xv6.Fs

open Lib

/-- The path leads to a directory, and its last element is not the name of an entry there. -/
def Missing (m : ℕ → Option Node) (start : ℕ) (path : Name) : Prop :=
  ∃ d name dd, follow m true start (components path) = some (some (d, name)) ∧ m d = some dd ∧
    dd.find name = none

variable {m : ℕ → Option Node}

theorem missing_iff {start d : ℕ} {path name : Name} {dd : Node}
    (h : follow m true start (components path) = some (some (d, name))) (hd : m d = some dd) :
    Missing m start path ↔ dd.find name = none := by
  refine ⟨?_, fun hfind => ⟨d, name, dd, h, hd, hfind⟩⟩
  rintro ⟨d', name', dd', h', hd', hfind⟩
  rw [h, Option.some.injEq, Option.some.injEq, Prod.mk.injEq] at h'
  obtain ⟨rfl, rfl⟩ := h'
  rw [hd] at hd'
  rwa [Option.some.inj hd']

theorem not_missing {start : ℕ} {path : Name}
    (h : follow m true start (components path) = some none) : ¬ Missing m start path := by
  rintro ⟨d, name, dd, h', -, -⟩
  rw [h] at h'
  cases h'

section Create

variable {s : State} {c : Icache → ℕ} {dp ip : Icache} {d i : ℕ} {nd dd : Node}
  {pr : Proc} {name : Name}
  {type major minor : Int16} {w : Prop} {a : Abs}

theorem Bounded.putNode (h : Bounded a) {i : ℕ} {x : Node} (hx : x.Bounded a.ninodes) :
    Bounded (a.putNode i (some x)) := by
  intro j nd hj
  by_cases hji : j = i
  · rw [hji, Abs.putNode_self] at hj
    rw [← Option.some.inj hj]
    exact hx
  · rw [Abs.putNode_of_ne a hji] at hj
    exact h j nd hj

theorem Vacant.nil {k : ℕ} (h : Vacant [] k name) : k = 0 := by
  rcases h.room with hr | ⟨hr, -⟩
  · change 16 * k = 0 at hr
    omega
  · change 16 * (k + 1) ≤ 0 at hr
    omega

theorem Held.putNode_of_ne (hh : Held a ip i nd) (h : i ≠ d) (x : Option Node) :
    Held (a.putNode d x) ip i nd :=
  ⟨hh.inum, hh.ref, hh.valid, (Abs.putNode_of_ne a h x).trans hh.node⟩

theorem Held.putNode_self (hh : Held a ip i nd) (x : Node) : Held (a.putNode i (some x)) ip i x :=
  ⟨hh.inum, hh.ref, hh.valid, Abs.putNode_self a i (some x)⟩

theorem createDots_spec (h : Begun s c) (hd : Held s.abs dp d dd)
    (hi : Held s.abs ip i ⟨T_DIR, major, minor, 1, []⟩) (hne : d ≠ i) :
    wp (createDots dp ip) s
      (fun _ s' => Cached s' c ∧ ∃ k, Vacant (newEntry i dot) k dotdot ∧
        s'.abs = (s.abs.putNode d (some { dd with nlink := dd.nlink + 1 })).putNode i
          (some ((⟨T_DIR, major, minor, 1, newEntry i dot⟩ : Node).enter k d dotdot)))
      Stop.Benign := by
  have hin : i < s.abs.ninodes := hi.inum ▸ h.cached.sound.inum ip hi.ref
  rw [createDots]
  refine hd.relink h.cached h.trans (· + 1) ?_
  intro s1 h1 habs1
  have hi1 : Held s1.abs ip i ⟨T_DIR, major, minor, 1, []⟩ := by
    rw [habs1]
    exact hi.putNode_of_ne hne.symm _
  have hb1 : Bounded s1.abs := by
    rw [habs1]
    exact h.bounded.putNode fun ht => h.bounded d dd hd.node ht
  have ho1 : s1.outstanding = s.outstanding := congrArg Abs.outstanding habs1
  have hinum : (s1.inode ip).inum = i := hi1.inum
  rw [wp_bind, wp_get, hinum]
  refine (dirlink_spec h1 hb1 (by rw [ho1]; exact h.trans) hi1 rfl i).bind ?_
  rintro r s2 ⟨h2, ⟨rfl, -⟩ | ⟨rfl, k, hv, habs2⟩⟩
  · exact show Stop.Benign _ by decide
  obtain rfl := hv.nil
  have hdata : splice [] (DESIZE * 0) (newEntry i dot) = newEntry i dot := by
    rw [splice, Nat.mul_zero, List.take_zero, List.nil_append, List.drop_nil, List.append_nil]
  simp only [hdata] at habs2
  have hi2 : Held s2.abs ip i ⟨T_DIR, major, minor, 1, newEntry i dot⟩ := by
    rw [habs2]
    exact hi1.putNode_self _
  have hd2 : (s2.inode dp).inum = d := by
    have htag : s2.abs.tag = s.abs.tag := by rw [habs2, habs1]; rfl
    show (s2.abs.tag dp).inum = d
    rw [htag, hd.inum]
  have hn2 : s2.abs.ninodes = s.abs.ninodes := by rw [habs2, habs1]; rfl
  have hb2 : Bounded s2.abs := by
    rw [habs2]
    refine hb1.putNode (bounded_newEntry ?_)
    rw [habs1]
    exact hin
  have ho2 : s2.outstanding = s.outstanding := (congrArg Abs.outstanding habs2).trans ho1
  show wp (get >>= fun t => _) s2 _ _
  rw [wp_bind, wp_get, hd2]
  refine (dirlink_spec h2 hb2 (by rw [ho2]; exact h.trans) hi2 rfl d).bind ?_
  rintro r s3 ⟨h3, ⟨rfl, -⟩ | ⟨rfl, k, hv', habs3⟩⟩
  · exact show Stop.Benign _ by decide
  refine ⟨h3, k, hv', ?_⟩
  rw [habs3, habs2, habs1]
  exact congrArg (fun m => { s.abs with node := m }) upd_upd

/-- The entry for a new inode `i`, in a state that differs from `s0` in the new inode and in the
links of the directory. -/
theorem createEntry_spec {s0 : State} {X : Node} {x : Int16}
    (h : Cached s (c + Pi.single dp 1 + Pi.single ip 1)) (ho : 1 ≤ s.outstanding)
    (hb : Bounded s0.abs) (hd : Held s0.abs dp d dd) (hdir : dd.type = T_DIR)
    (hi : Held s0.abs ip i nd) (hne : d ≠ i) (hX : X.Bounded s0.abs.ninodes)
    (habs : s.abs = (s0.abs.putNode i (some X)).putNode d (some { dd with nlink := x })) {β : Type}
    {k : Op β} {Q : β → State → Prop}
    (hk : ∀ s' j, Cached s' (c + Pi.single dp 1 + Pi.single ip 1) → Vacant dd.data j name →
      s'.abs = (s0.abs.putNode i (some X)).putNode d
        (some (Node.enter { dd with nlink := x } j i name)) → wp k s' Q Stop.Benign) :
    wp (do
        if !(← dirlink dp name ((← get).inode ip).inum) then throw (.panic .createDirlink)
        else k) s Q Stop.Benign := by
  have hd' : Held s.abs dp d { dd with nlink := x } := by
    rw [habs]
    exact (hd.putNode_of_ne hne (some X)).putNode_self _
  have hi' : Held s.abs ip i X := by
    rw [habs]
    exact (hi.putNode_self X).putNode_of_ne hne.symm _
  have hb' : Bounded s.abs := by
    rw [habs]
    exact (hb.putNode hX).putNode fun ht => hb d dd hd.node ht
  have hinum : (s.inode ip).inum = i := hi'.inum
  rw [wp_bind, wp_get, hinum]
  refine (dirlink_spec h hb' ho hd' hdir i).bind ?_
  rintro r s1 ⟨h1, ⟨rfl, -⟩ | ⟨rfl, j, hv, habs1⟩⟩
  · exact show Stop.Benign _ by decide
  refine hk s1 j h1 hv ?_
  have htwice : ((s0.abs.putNode i (some X)).putNode d (some { dd with nlink := x })).putNode d
      (some (Node.enter { dd with nlink := x } j i name)) =
      (s0.abs.putNode i (some X)).putNode d (some (Node.enter { dd with nlink := x } j i name)) :=
    congrArg (fun m => { s0.abs with node := m }) upd_upd
  rw [← htwice, ← habs]
  exact habs1

/-- **`create` of a name that is not there** makes an inode and an entry. -/
theorem createNew_spec (h : Begun s (c + Pi.single dp 1)) (hd : Held s.abs dp d dd)
    (hdir : dd.type = T_DIR) (hw : w → dd.nlink ≠ 0) (htype : type ≠ 0) {β : Type}
    {k : Icache → Op β}
    {Q : β → State → Prop}
    (hk : ∀ ip i nd s', Done w (c + Pi.single dp 1) (c + Pi.single dp 1 + Pi.single ip 1) s s' →
      Held s'.abs ip i nd → nd.type = type → s.abs.node i = none → nd.nlink = 1 →
      wp (k ip) s' Q Stop.Benign) :
    wp (do
        let ip ← ialloc type
        ilock ip
        setDin ip fun d => { d with major := major, minor := minor, nlink := 1 }
        iupdate ip
        if type = T_DIR then createDots dp ip
        if !(← dirlink dp name ((← get).inode ip).inum) then throw (.panic .createDirlink)
        else k ip) s Q Stop.Benign := by
  refine (ialloc_spec h.cached h.trans htype).chain ?_ ?_
  · rintro e (rfl | rfl)
    · decide
    · decide
  rintro ip s1 ⟨i, hpos, hin, hnone, h1, hk1, hinum, hnode1⟩
  have hne : d ≠ i := by
    rintro rfl
    rw [hd.node] at hnone
    cases hnone
  have hdn : d < s.abs.ninodes := hd.inum ▸ h.cached.sound.inum dp hd.ref
  have hposd := pos_add_single c dp
  have hposi := pos_add_single (c + Pi.single dp 1) ip
  refine (ilock_node h1 hposi (by rw [hinum]; exact hnode1)).bind ?_
  rintro _ s2 ⟨h2, hk2, hi2, -, -⟩
  rw [hinum] at hi2
  have hk12 : Keeps (c + Pi.single dp 1) (s.abs.putNode i (some ⟨type, 0, 0, 0, []⟩)) s2.abs :=
    hk1.trans hk2.of_add
  have hd2 : Held s2.abs dp d dd := by
    refine (hd.putNode_of_ne hne _).keeps hk12 hposd ?_
    show 0 < (s2.inode dp).ref
    rw [h2.ref, Pi.add_apply]
    omega
  have hb2 : Bounded s2.abs := hk12.bounded (h.bounded.putNode fun _ k hle => by
    change 16 * (k + 1) ≤ 0 at hle
    omega)
  have ho2 : 1 ≤ s2.outstanding := h.trans.trans_eq hk12.outstanding.symm
  refine hi2.update h2.sound ho2 (fun _ => by rfl) (fun _ => by rfl) (fun _ => by rfl) ?_
  intro s3 hs3 habs3
  have h3 : Cached s3 _ := h2.of_abs hs3 (by rw [habs3]; rfl)
  have ho3 : s3.outstanding = s2.outstanding := congrArg Abs.outstanding habs3
  -- the entry for the new inode, after the links of the directory are right
  have hfin : ∀ s4 X x, Cached s4 (c + Pi.single dp 1 + Pi.single ip 1) →
      s4.outstanding = s2.outstanding → X.Bounded s2.abs.ninodes → X.type = type → X.nlink = 1 →
      s4.abs = (s2.abs.putNode i (some X)).putNode d (some { dd with nlink := x }) →
      (∀ k, Vacant dd.data k name → Change s.abs.ninodes w (upd s2.abs.node i none)
        (upd (upd s2.abs.node i (some X)) d (some (Node.enter { dd with nlink := x } k i name)))) →
      wp (do
          if !(← dirlink dp name ((← get).inode ip).inum) then throw (.panic .createDirlink)
          else k ip) s4 Q Stop.Benign := by
    intro s4 X x h4 ho4 hX hXtype hXlink habs4 hchange
    refine createEntry_spec h4 (by rw [ho4]; exact ho2) hb2 hd2 hdir hi2 hne hX habs4 ?_
    intro s' j h' hv habs'
    have hi' : Held s'.abs ip i X := by
      rw [habs']
      exact (hi2.putNode_self X).putNode_of_ne hne.symm _
    refine hk ip i X s' ⟨h', ⟨_, _, ?_, hchange j hv, ?_⟩, ?_, ?_, fun ht => ?_⟩
      hi' hXtype hnone hXlink
    · have hshed := Shed.restore hk12.shed_node
      rwa [hnone] at hshed
    · rw [habs']
      exact .refl _
    · have hclaim :
        Serves (c + Pi.single dp 1) s.abs (s.abs.putNode i (some ⟨type, 0, 0, 0, []⟩)) :=
        Serves.putNode fun y hy => by
          rw [hnone] at hy
          cases hy
      rw [habs']
      exact ((hclaim.trans (.of_keeps hk12)).trans (hi2.serves_putNode hXtype)).trans
        ((hd2.putNode_of_ne hne _).serves_putNode rfl)
    · exact (congrArg Abs.outstanding habs').trans hk12.outstanding
    · have ht2 : Tidy (c + Pi.single dp 1 + Pi.single ip 1) s2.abs := by
        intro j y hj hdead
        by_cases hji : j = i
        · exact ⟨ip, hposi, hi2.inum.trans hji.symm, hi2.valid⟩
        · have hj0 := hk12.node_of_some hj
          rw [Abs.putNode_of_ne _ hji] at hj0
          obtain ⟨iq, hq, hinumq, hvq⟩ := ht j y hj0 hdead
          exact ⟨iq, hq.trans_le (Nat.le_add_right _ _), (hk12.inum iq hq).trans hinumq,
            hk12.valid iq hq hvq⟩
      rw [habs']
      exact (ht2.putNode hi2 hposi _).putNode (hd2.putNode_of_ne hne _)
        (hposd.trans_le (Nat.le_add_right _ _)) _
  by_cases hisdir : type = T_DIR
  · subst hisdir
    rw [if_pos rfl]
    have hi3 : Held s3.abs ip i ⟨T_DIR, major, minor, 1, []⟩ := by
      rw [habs3]
      exact hi2.putNode_self _
    have hd3 : Held s3.abs dp d dd := by
      rw [habs3]
      exact hd2.putNode_of_ne hne _
    have hb3 : Bounded s3.abs := by
      rw [habs3]
      exact hb2.putNode fun _ k hle => by
        change 16 * (k + 1) ≤ 0 at hle
        omega
    refine (createDots_spec ⟨h3, hb3, by rw [ho3]; exact ho2⟩ hd3 hi3 hne).bind ?_
    rintro _ s4 ⟨h4, k', hv', habs4⟩
    have hdots : Node.Bounded s2.abs.ninodes ⟨T_DIR, major, minor, 1, newEntry i dot⟩ :=
      bounded_newEntry (hin.trans_eq hk12.ninodes.symm)
    refine hfin s4 _ (dd.nlink + 1)
      h4 ?_ (hdots.enter hv' (hdn.trans_eq hk12.ninodes.symm) 1) rfl rfl
      ?_ ?_
    · rw [← ho3]
      exact congrArg Abs.outstanding habs4
    · rw [habs4, habs3]
      refine congrArg (fun m => { s2.abs with node := m }) ?_
      show upd (upd (upd s2.abs.node i _) d _) i _ = upd (upd s2.abs.node i _) d _
      rw [upd_comm hne.symm, upd_upd]
      exact upd_comm hne
    · intro k hv
      have hchange :
        Change s.abs.ninodes w (upd s2.abs.node i none) (upd (upd (upd s2.abs.node i none) i
          (some ((⟨T_DIR, major, minor, 1, newEntry i dot⟩ : Node).enter k' d dotdot))) d
          (some (Node.enter { dd with nlink := dd.nlink + 1 } k i name))) :=
        .mkdir upd_self hpos hin hdn ((upd_of_ne hne).trans hd2.node) hdir hv hv' hw
      rwa [upd_upd] at hchange
  · rw [if_neg hisdir]
    refine hfin s3 ⟨type, major, minor, 1, []⟩ dd.nlink h3 ho3 (fun ht => absurd ht hisdir) rfl rfl
      ?_ ?_
    · have hsame : upd (s3.abs.node) d (some dd) = s3.abs.node := by
        have hd3 : s3.abs.node d = some dd := by
          rw [habs3]
          exact (hd2.putNode_of_ne hne _).node
        rw [← hd3, upd_eq_self]
      rw [← habs3]
      exact (congrArg (fun m => { s3.abs with node := m }) hsame).symm
    · intro k hv
      have hchange :
        Change s.abs.ninodes w (upd s2.abs.node i none) (upd (upd (upd s2.abs.node i none) i
          (some ⟨type, major, minor, 1, []⟩)) d (some (dd.enter k i name))) :=
        .create upd_self hpos hin hisdir ((upd_of_ne hne).trans hd2.node) hdir hv hw
      rwa [upd_upd] at hchange

/-- **`create`** makes an inode if the name is missing, and changes nothing if it is not. -/
theorem create_spec (h : Begun s c) (hcwd : 0 < c pr.cwd) (hw : w → Sane s pr.cwd)
    (htype : type ≠ 0) (path : Name) :
    wp (create pr path type major minor) s
      (fun r s' => match r with
        | none => Done w c c s s' ∧ Shed s.abs.node s'.abs.node ∧
            ¬ Missing s.abs.node (startOf s pr.cwd path) path
        | some ip => Done w c (c + Pi.single ip 1) s s' ∧
            (∃ i nd, Held s'.abs ip i nd ∧ nd.type = type) ∧
            (Missing s.abs.node (startOf s pr.cwd path) path ∧
                (∃ i, (Tidy c s.abs → s.abs.node i = none) ∧ Live s'.abs.node i) ∨
              ¬ Missing s.abs.node (startOf s pr.cwd path) path ∧ Shed s.abs.node s'.abs.node))
      (Strayed s pr.cwd) := by
  rw [create]
  refine ((nameiparent_spec h hcwd path).and (nameiparent_follow h hcwd path)).chain
    (fun _ he => he.1) ?_
  rintro (_ | ⟨dp, name⟩) s1 ⟨⟨hk1, hr1⟩, hfollow⟩
  · exact ⟨Done.of_keeps hr1 le_rfl hk1, hk1.shed, not_missing hfollow⟩
  obtain ⟨h1, hlive1, dd, hh1, hdir⟩ := hr1
  have hposd := pos_add_single c dp
  refine (ilock_node h1 hposd hh1.node).chain (fun _ => Or.inl) ?_
  rintro _ s2 ⟨h2, hk2, hh2, -, -⟩
  have hk : Keeps c s.abs s2.abs := hk1.trans hk2.of_add
  have hb2 := h.keep h2 hk
  have hmissing := missing_iff hfollow (hk.node_of_some hh2.node)
  have hlink : Sane s pr.cwd → dd.nlink ≠ 0 := fun hsane => by
    obtain ⟨dd', hdd', hn⟩ := hlive1 hsane
    rw [hh1.node] at hdd'
    rwa [Option.some.inj hdd']
  refine (dirlookup_spec h2 hb2.bounded hh2 hdir).chain (fun _ => Or.inl) ?_
  rintro (_ | ⟨ip, off⟩) s3 hr3
  · obtain ⟨rfl, -, hnone⟩ := hr3
    refine wp.mono (createNew_spec hb2 hh2 hdir (fun hw' => hlink (hw hw')) htype ?_)
      (fun _ _ hq => hq)
      fun _ => Or.inl
    intro ip i nd s4 hdone hi ht hnew hone
    have hposi := pos_add_single c ip
    have h4 := hdone.cached
    rw [add_right_comm] at h4
    refine (iunlockput_tidy h4 (hb2.trans.trans_eq hdone.outstanding.symm)).bind ?_
    rintro _ s' ⟨h', hk', ht'⟩
    have hdone' : Done w c (c + Pi.single ip 1) s3 s' := hdone.of_add.trans_keeps h' hk'.of_add
      fun htidy => ht' (by rwa [add_right_comm])
    have hi' := hi.keeps hk' hposi (hposi.trans_eq (h'.ref ip).symm)
    refine ⟨hdone'.keeps_trans hk, ⟨i, nd, hi', ht⟩,
      Or.inl ⟨?_, i, fun htidy => ?_, nd, hi'.node, ?_⟩⟩
    · exact hmissing.mpr (Node.find_eq_none_iff.mpr hnone)
    · rw [← htidy.node_eq (.of_keeps hk) hk.shed]
      exact hnew
    · rw [hone]
      decide
  obtain ⟨k, rfl, hle, hnamed, h3, hk3, hinum3, -, hfind⟩ := hr3
  have hnot : ¬ Missing s.abs.node (startOf s pr.cwd path) path := by
    rw [hmissing, hfind]
    exact nofun
  have hlive3 : Sane s pr.cwd → Live s3.abs.node (s3.abs.tag ip).inum := fun hsane => by
    rw [hinum3]
    exact hk3.live (hk.closed hsane.1 _ dd hh2.node (hlink hsane) hdir k hle hnamed.1)
  have ho3 : 1 ≤ s3.outstanding := hb2.trans.trans_eq hk3.outstanding.symm
  rw [add_right_comm] at h3
  show wp (iunlockput dp >>= fun _ => _) s3 _ _
  refine (iunlockput_spec h3 ho3).chain (fun _ => Or.inl) ?_
  rintro _ s4 ⟨h4, hk4⟩
  have hpos := pos_add_single c ip
  have hlive4 : Sane s pr.cwd → Live s4.abs.node (s4.abs.tag ip).inum := fun hsane => by
    rw [hk4.inum ip hpos]
    exact hk4.live (hlive3 hsane)
  have hk04 : Keeps c s.abs s4.abs := (hk.trans hk3.of_add).trans hk4.of_add
  refine (ilock_walked h4 hpos hlive4).bind ?_
  rintro _ s5 ⟨h5, hk5, nd, hi5⟩
  have hk05 : Keeps c s.abs s5.abs := hk04.trans hk5.of_add
  have hb5 := h.keep h5 hk05
  rw [wp_bind, wp_get, hi5.type_eq h5.sound, wp_ite]
  refine ⟨fun hfile => ?_, fun _ => ?_⟩
  · exact ⟨Done.of_keeps h5 (le_add_single c ip) hk05, ⟨_, nd, hi5, hfile.2.trans hfile.1.symm⟩,
      Or.inr ⟨hnot, hk05.shed⟩⟩
  · refine (iunlockput_spec h5 hb5.trans).chain (fun _ => Or.inl) ?_
    rintro _ s6 ⟨h6, hk6⟩
    exact ⟨Done.of_keeps h6 le_rfl (hk05.trans hk6), (hk05.trans hk6).shed, hnot⟩

theorem sysCreate_spec (h : Cached s c) (hb : Bounded s.abs) (hcwd : 0 < c pr.cwd)
    (htype : type ≠ 0) (path : Name) :
    wp (sysCreate pr path type major minor) s
      (Answers c pr.cwd s)
      (Halted s pr.cwd) := by
  have h0 : Begun s.begin c := ⟨h.begin, hb, Nat.le_add_left _ _⟩
  have hw : Orderly s.abs.node ∧ Sane s pr.cwd → Sane s.begin pr.cwd := And.right
  rw [sysCreate, wp_bind, wp_beginOp]
  refine (create_spec h0 hcwd hw htype path).chain (fun _ he => he.halted) ?_
  rintro (_ | ip) s1 hr1
  · rw [wp_bind, wp_endOp]
    exact ⟨hr1.1.commit, fun _ => hr1.2.1⟩
  obtain ⟨hdone, -⟩ := hr1
  have ho1 : 1 ≤ s1.outstanding := h0.trans.trans_eq hdone.outstanding.symm
  refine (iunlockput_tidy hdone.cached ho1).chain (fun _ => Halted.of_benign) ?_
  rintro _ s2 ⟨h2, hk2, ht2⟩
  rw [wp_bind, wp_endOp]
  exact ⟨(hdone.trans_keeps h2 hk2 ht2).commit, forgoes_zero _ _⟩

/-- `open` makes a new inode: it is asked to, and the name is missing. -/
def Creates (s : State) (cwd : Icache) (path : Name) (omode : ℕ) : Prop :=
  omode &&& O_CREATE ≠ 0 ∧ Missing s.abs.node (startOf s cwd path) path

/-- The inode that **`sys_open`** opens.  A directory is opened for reading only. -/
theorem openInode_spec (h : Begun s c) (hcwd : 0 < c pr.cwd) (hw : w → Sane s pr.cwd)
    (path : Name) (omode : ℕ) :
    wp (openInode pr path omode) s
      (fun r s' => match r with
        | none => Done w c c s s' ∧ Shed s.abs.node s'.abs.node ∧ ¬ Creates s pr.cwd path omode
        | some ip => Done w c (c + Pi.single ip 1) s s' ∧
            (∃ i nd, Held s'.abs ip i nd ∧ (nd.type = T_DIR → omode = 0)) ∧
            (Creates s pr.cwd path omode ∧
                (∃ i, (Tidy c s.abs → s.abs.node i = none) ∧ Live s'.abs.node i) ∨
              ¬ Creates s pr.cwd path omode ∧ Shed s.abs.node s'.abs.node))
      (Strayed s pr.cwd) := by
  rw [openInode, wp_ite]
  refine ⟨fun hcreate => ?_, fun hcreate => ?_⟩
  · refine (create_spec h hcwd hw (by decide) path).mono ?_ fun _ he => he
    rintro (_ | ip) s' hr
    · exact ⟨hr.1, hr.2.1, fun hc => hr.2.2 hc.2⟩
    · obtain ⟨hdone, ⟨i, nd, hi, ht⟩, hnew⟩ := hr
      refine ⟨hdone, ⟨i, nd, hi, fun hdir => absurd (ht.symm.trans hdir) (by decide)⟩, ?_⟩
      exact hnew.imp (fun hq => ⟨⟨hcreate, hq.1⟩, hq.2⟩) fun hq => ⟨fun hc => hq.1 hc.2, hq.2⟩
  have hnot : ¬ Creates s pr.cwd path omode := fun hc => hcreate hc.1
  refine (namei_spec h hcwd path).bind ?_
  rintro (_ | ip) s1 ⟨hk1, hr1⟩
  · exact ⟨Done.of_keeps hr1 le_rfl hk1, hk1.shed, hnot⟩
  obtain ⟨h1, hlive1⟩ := hr1
  refine (ilock_walked h1 (pos_add_single c ip) hlive1).bind ?_
  rintro _ s2 ⟨h2, hk2, nd, hi2⟩
  have hk : Keeps c s.abs s2.abs := hk1.trans hk2.of_add
  rw [wp_bind, wp_get, hi2.type_eq h2.sound, wp_ite]
  refine ⟨fun _ => ?_, fun hmode => ?_⟩
  · refine (iunlockput_spec h2 (h.keep h2 hk).trans).chain (fun _ => Or.inl) ?_
    rintro _ s3 ⟨h3, hk3⟩
    exact ⟨Done.of_keeps h3 le_rfl (hk.trans hk3), (hk.trans hk3).shed, hnot⟩
  · refine ⟨Done.of_keeps h2 (le_add_single c ip) hk, ⟨_, nd, hi2, fun hdir => ?_⟩,
      Or.inr ⟨hnot, hk.shed⟩⟩
    by_contra hne
    exact hmode ⟨hdir, hne⟩

end Create

end Xv6.Fs
