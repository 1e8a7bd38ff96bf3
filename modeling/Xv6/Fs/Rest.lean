import Xv6.Fs.Tables

/-!
# The file system between two calls

`Rest` is what holds between two system calls, also while a process is in the middle of a `write` or
of its `exit`.  Each call has one lemma: it comes back to such a state, or it stops as `Halted`
says.  What it did in between is in `After`.  `Rest.syscall` puts them together.
-/

namespace Xv6.Fs

open Lib

/-- A process in the middle of `write` has the file open for writing. -/
def Proc.Ready (file : Fin NFILE → File) (pr : Proc) : Prop :=
  ∀ fd l n, pr.pending = some (.write fd l n) →
    ∃ f, pr.ofile fd = some f ∧ (file f).type = .inode ∧ (file f).writable = true

/-- **The file system at rest.**  Every reference belongs to a file or to a process. -/
structure Rest (s : State) : Prop where
  tables : Tables s (cwdRefs s.proc) (descs s.proc)
  outstanding : s.outstanding = 0
  ready : ∀ p pr, s.proc p = some pr → pr.Ready s.file

/-- The inodes behind the references `c` are still there. -/
def Stays (c : Icache → ℕ) (a a' : Abs) : Prop :=
  ∀ ip, 0 < c ip → (a'.tag ip).inum = (a.tag ip).inum ∧
    ∀ nd, a.node (a.tag ip).inum = some nd → ∃ nd', a'.node (a.tag ip).inum = some nd'

/-- **What a call does to the nodes.**  It drops references, or it makes a change and drops none of
the references `c`. -/
structure Works (w : Prop) (c c' : Icache → ℕ) (s s' : State) : Prop where
  ninodes : s'.abs.ninodes = s.abs.ninodes
  history : s.history.Grows s'.history
  effect : Shed s.abs.node s'.abs.node ∨
    Effect s.abs.ninodes w s.abs.node s'.abs.node ∧ Stays c s.abs s'.abs
  tidy : Tidy c s.abs → Tidy c' s'.abs

/-- **What a call does.** -/
structure After (w : Prop) (s s' : State) : Prop where
  rest : Rest s'
  works : Works w (holders s) (holders s') s s'

section Works

variable {s s1 s2 : State} {c c' c'' : Icache → ℕ} {w : Prop}

theorem Drops.works (h : Drops c c' s s1) : Works w c c' s s1 :=
  ⟨h.ninodes, h.history, Or.inl h.shed, h.tidy⟩

theorem Done.works (h : Done w c c' s s1) : Works w c c' s s1 where
  ninodes := h.serves.ninodes
  history := h.serves.history
  effect := Or.inr ⟨h.effect, fun ip hc => ⟨h.serves.inum ip hc, fun nd hnd => by
    obtain ⟨nd', hnd', -⟩ := h.serves.node ip nd hc hnd
    exact ⟨nd', hnd'⟩⟩⟩
  tidy := h.tidy

theorem Works.refl (w : Prop) (c : Icache → ℕ) (s : State) : Works w c c s s :=
  ⟨rfl, .refl _, Or.inl (Shed.refl _), fun ht => ht⟩

/-- The call goes on, keeps the references `c` and drops or takes others. -/
theorem Works.trans_keeps (h : Works w c c' s s1) (hk : Keeps c s1.abs s2.abs)
    (ht : Tidy c' s1.abs → Tidy c'' s2.abs) : Works w c c'' s s2 where
  ninodes := hk.ninodes.trans h.ninodes
  history := h.history.trans hk.history
  effect := by
    rcases h.effect with hshed | ⟨heff, hstays⟩
    · exact Or.inl (hshed.trans hk.shed)
    · refine Or.inr ⟨heff.trans_shed hk.shed, fun ip hc => ?_⟩
      obtain ⟨hinum, hnode⟩ := hstays ip hc
      refine ⟨(hk.inum ip hc).trans hinum, fun nd hnd => ?_⟩
      obtain ⟨nd', hnd'⟩ := hnode nd hnd
      have hsame := hk.node ip hc
      rw [hinum, hnd'] at hsame
      exact ⟨nd', hsame⟩
  tidy := fun h0 => ht (h.tidy h0)

end Works

section Ready

variable {file file' : Fin NFILE → File} {proc proc' : Slot → Option Proc} {pr : Proc}

theorem Proc.Ready.of_pending (h : ∀ fd l n, pr.pending ≠ some (.write fd l n)) : pr.Ready file :=
  fun fd l n hp => absurd hp (h fd l n)

theorem Proc.Ready.of_none (h : pr.pending = none) : pr.Ready file :=
  .of_pending fun _ _ _ hp => by
    rw [h] at hp
    cases hp

/-- The files that there were and are descriptors for are open as they were, and a process is as it
was or is ready. -/
theorem ready_of (h : ∀ p pr, proc p = some pr → pr.Ready file)
    (hfile : ∀ f, 0 < descs proc f → 0 < descs proc' f → (file' f).mode = (file f).mode)
    (hproc : ∀ p pr, proc' p = some pr → pr.Ready file' ∨ proc p = some pr) :
    ∀ p pr, proc' p = some pr → pr.Ready file' := by
  intro p pr hp
  rcases hproc p pr hp with hready | hold
  · exact hready
  · intro fd l n hpend
    obtain ⟨f, hf, ht, hw⟩ := h p pr hold fd l n hpend
    obtain ⟨ht', hw'⟩ := Prod.mk.inj (hfile f (descs_pos hold hf) (descs_pos hp hf))
    exact ⟨f, hf, ht'.trans ht, hw'.trans hw⟩

theorem ready_or_eq {p : Slot} {o : Option Proc} (ho : ∀ pr, o = some pr → pr.Ready file') :
    ∀ q pr, upd proc p o q = some pr → pr.Ready file' ∨ proc q = some pr := by
  intro q pr hq
  by_cases hqp : q = p
  · rw [hqp, upd_self] at hq
    exact Or.inl (ho pr hq)
  · rw [upd_of_ne hqp] at hq
    exact Or.inr hq

theorem ready_idle (h : pr.pending = none) : ∀ pr', some pr = some pr' → pr'.Ready file := by
  rintro _ ⟨⟩
  exact .of_none h

end Ready

section Calls

variable {s s' : State} {w : Prop} {p : Slot} {pr : Proc} {f : Fin NFILE} {c : Icache → ℕ}
  {r : Fin NFILE → ℕ} {ip : Icache} {nd : Node} {i : ℕ}

theorem holders_cwd_pos (hp : s.proc p = some pr) : 0 < holders s pr.cwd :=
  (cwdRefs_pos hp).trans_le (Nat.le_add_left _ _)

theorem Rest.begun (h : Rest s) : Begun s.begin (holders s) :=
  ⟨h.tables.cached.begin, h.tables.bounded, Nat.le_add_left _ _⟩

theorem pos_or_of_add_single {P : Icache → Prop} (h : P ip) (iq : Icache)
    (hq : 0 < (c + Pi.single ip 1 : Icache → ℕ) iq) : 0 < c iq ∨ P iq := by
  by_cases hqi : iq = ip
  · exact Or.inr (hqi ▸ h)
  · rw [add_single_of_ne _ hqi] at hq
    exact Or.inl hq

theorem holders_ip_pos (hf : (s.file f).type = .inode) : 0 < holders s (s.file f).ip :=
  (inodeRefs_pos hf).trans_le (Nat.le_add_right _ _)

theorem After.refl (h : Rest s) : After w s s := ⟨h, .refl w _ s⟩

theorem Rest.done (h : Rest s) (hd : Done w (holders s) (holders s) s s') : After w s s' := by
  have hfile : s'.file = s.file := hd.serves.file
  have hproc : s'.proc = s.proc := hd.serves.proc
  have htab : Tables s' (cwdRefs s.proc) (descs s.proc) :=
    h.tables.serve hd.serves hd.cached (hd.bounded h.tables.bounded) le_rfl fun _ => Or.inl
  refine ⟨⟨by rwa [hproc], hd.outstanding.trans h.outstanding, ?_⟩, ?_⟩
  · rw [hproc, hfile]
    exact h.ready
  · rw [show holders s' = holders s by rw [holders, holders, hfile, hproc]]
    exact hd.works

/-- A call that changes the file table in counts and offsets only. -/
theorem Rest.retouched (h : Rest s) (ht : Tables s' (cwdRefs s.proc) (descs s.proc))
    (hproc : s'.proc = s.proc) (ho : s'.outstanding = s.outstanding)
    (hw : Works w (holders s) (inodeRefs s'.file + cwdRefs s.proc) s s')
    (hfile : ∀ f, 0 < descs s.proc f → (s'.file f).mode = (s.file f).mode) : After w s s' := by
  refine ⟨⟨by rwa [hproc], ho.trans h.outstanding, ?_⟩, ?_⟩
  · rw [hproc]
    exact ready_of h.ready (fun f hf _ => hfile f hf) fun _ _ => Or.inr
  · show Works w (holders s) (inodeRefs s'.file + cwdRefs s'.proc) s s'
    rwa [hproc]

/-- A call that leaves the processes alone but for the slot `p`. -/
theorem Rest.replaced (h : Rest s) {o : Option Proc}
    (hproc : s'.proc = upd s.proc p o) (hc : cwdRefs (upd s.proc p o) = c)
    (hd : descs (upd s.proc p o) = r) (ht : Tables s' c r) (ho : s'.outstanding = 0)
    (hw : Works w (holders s) (inodeRefs s'.file + c) s s')
    (hfile : ∀ f, 0 < descs s.proc f → 0 < r f → (s'.file f).mode = (s.file f).mode)
    (hready : ∀ pr, o = some pr → pr.Ready s'.file) : After w s s' := by
  subst hc hd
  refine ⟨⟨by rwa [hproc], ho, ?_⟩, ?_⟩
  · rw [hproc]
    exact ready_of h.ready hfile (ready_or_eq hready)
  · show Works w (holders s) (inodeRefs s'.file + cwdRefs s'.proc) s s'
    rwa [hproc]

/-- A process is replaced after the call, and keeps its references. -/
theorem After.putProc (h : After w s s') (hp : s'.proc p = some pr) {pr' : Proc}
    (hcwd : pr'.cwd = pr.cwd) (hofile : pr'.ofile = pr.ofile) (hready : pr'.Ready s'.file) :
    After w s (s'.putProc p (some pr')) := by
  have hc : cwdRefs (upd s'.proc p (some pr')) = cwdRefs s'.proc := cwdRefs_upd_of_eq hp hcwd
  have hd : descs (upd s'.proc p (some pr')) = descs s'.proc := descs_upd_of_eq hp hofile
  refine ⟨⟨?_, h.rest.outstanding, ?_⟩, h.works.ninodes, h.works.history,
    h.works.effect, fun ht => ?_⟩
  · show Tables _ (cwdRefs (upd s'.proc p _)) (descs (upd s'.proc p _))
    rw [hc, hd]
    exact h.rest.tables.putProc p _
  · refine ready_of h.rest.ready (fun _ _ _ => rfl) (ready_or_eq fun pr1 hpr1 => ?_)
    rwa [← Option.some.inj hpr1]
  · show Tidy (inodeRefs s'.file + cwdRefs (upd s'.proc p _)) _
    rw [hc]
    exact h.works.tidy ht

/-! ## Descriptors -/

theorem argfd_some {fd : ℤ} {d : Fin NOFILE} (h : argfd pr fd = some (d, f)) :
    pr.ofile d = some f := by
  rw [argfd] at h
  split_ifs at h with hfd
  obtain ⟨f', hf', heq⟩ := Option.map_eq_some_iff.mp h
  rw [Prod.mk.injEq] at heq
  rw [← heq.1, ← heq.2]
  exact hf'

theorem fdalloc_spec (hp : s.proc p = some pr) (f : Fin NFILE) :
    wp (fdalloc p pr f) s
      (fun o s' => match o with
        | none => s' = s ∧ ∀ fd, pr.ofile fd ≠ none
        | some fd => pr.ofile fd = none ∧
            s' = s.putProc p (some { pr with ofile := upd pr.ofile fd (some f) }))
      (fun _ => False) := by
  rw [fdalloc]
  split
  · rename_i fd hfd
    have hfree := List.find?_some hfd
    rw [Option.isNone_iff_eq_none] at hfree
    rw [wp_bind, wp_setProc hp]
    exact ⟨hfree, rfl⟩
  · rename_i hnone
    refine ⟨rfl, fun fd hfd => ?_⟩
    exact List.find?_eq_none.mp hnone fd (List.mem_finRange fd) (Option.isNone_iff_eq_none.mpr hfd)

/-- There is a file structure and a descriptor for another open file. -/
def Room (s : State) (pr : Proc) : Prop := (∃ f, (s.file f).ref = 0) ∧ ∃ fd, pr.ofile fd = none

/-- **A file structure and a descriptor for it**, or nothing has changed. -/
theorem Tables.openFile (h : Tables s c r) (hp : s.proc p = some pr) :
    wp (Fs.openFile p pr) s
      (fun o s' => match o with
        | none => s' = s ∧ ¬ Room s pr
        | some (f, fd) => r f = 0 ∧ pr.ofile fd = none ∧
            s' = (s.putFile f { s.file f with ref := 1 }).putProc p
              (some { pr with ofile := upd pr.ofile fd (some f) }) ∧
            Tables s' c (r + Pi.single f 1))
      (fun _ => False) := by
  rw [Fs.openFile]
  refine h.filealloc.bind ?_
  rintro (_ | f) s1 hr1
  · obtain ⟨rfl, hfull⟩ := hr1
    exact ⟨rfl, fun hroom => hroom.1.elim hfull⟩
  obtain ⟨hzero, rfl⟩ := hr1
  refine (fdalloc_spec (s := s.putFile f { s.file f with ref := 1 }) hp f).bind ?_
  rintro (_ | fd) s2 hr2
  · -- the file structure is closed again, which puts it back as it was
    obtain ⟨rfl, hfull⟩ := hr2
    have htype := h.closed f hzero
    have href := (h.ref f).trans hzero
    show wp (Fs.fileclose f >>= fun _ => pure none) _ _ _
    rw [wp_bind, Fs.fileclose, wp_bind, wp_get, putFile_self]
    dsimp only
    rw [if_neg (by decide), if_neg (by decide), htype, wp_bind, wp_setFile, putFile_self]
    have hsame : ({ s.file f with ref := 0, type := .none } : File) = s.file f := by
      rw [← href, ← htype]
    refine ⟨?_, fun hroom => hroom.2.elim hfull⟩
    show { s with file := upd (upd s.file f _) f { s.file f with ref := 0, type := .none } } = s
    rw [upd_upd, hsame, upd_eq_self]
  · obtain ⟨hfd, rfl⟩ := hr2
    refine ⟨hzero, hfd, rfl, Tables.putProc ?_ p _⟩
    refine h.retouch rfl rfl rfl ?_ (fun f' hf => add_single_of_ne _ hf) fun _ => hzero
    rw [add_single_self, hzero]

theorem Rest.sysDup (h : Rest s) (hp : s.proc p = some pr) (hidle : pr.pending = none) (fd : ℤ) :
    wp (Fs.sysDup p pr fd) s (fun _ s' => After w s s') Stop.Benign := by
  rw [Fs.sysDup]
  cases harg : argfd pr fd with
  | none => exact After.refl h
  | some x =>
    obtain ⟨d, f⟩ := x
    have hpos : 0 < descs s.proc f := descs_pos hp (argfd_some harg)
    refine (fdalloc_spec hp f).chain (fun _ => False.elim) ?_
    rintro (_ | fd') s1 hr1
    · obtain ⟨rfl, -⟩ := hr1
      exact After.refl h
    obtain ⟨hfree, rfl⟩ := hr1
    refine ((h.tables.putProc p _).filedup hpos).chain (fun _ => False.elim) ?_
    rintro _ s2 ⟨rfl, h2⟩
    have hfile : inodeRefs (upd s.file f { s.file f with ref := (s.file f).ref + 1 }) =
        inodeRefs s.file := inodeRefs_upd_of_eq rfl
    refine h.replaced rfl (cwdRefs_upd_of_eq hp rfl) (descs_open hp hfree f) h2 h.outstanding
      ⟨rfl, .refl _, Or.inl (Shed.refl _), fun ht => ?_⟩ (fun f' _ _ => ?_) (ready_idle hidle)
    · show Tidy (inodeRefs (upd s.file f { s.file f with ref := (s.file f).ref + 1 }) + _) _
      rw [hfile]
      exact ht
    · exact putFile_mode (s := s) (by exact rfl) f'

/-- The offset of an open file is moved, and the inode unlocked. -/
theorem Tables.moveOff (h : Tables s c r) (hf : (s.file f).type = .inode) (o : UInt32) :
    wp (iunlock (s.file f).ip) (s.putFile f { s.file f with off := o })
      (fun _ s' => Tables s' c r ∧ inodeRefs s'.file = inodeRefs s.file ∧ s'.proc = s.proc ∧
        s'.outstanding = s.outstanding ∧
        (∀ w s0, Works w (inodeRefs s.file + c) (inodeRefs s.file + c) s0 s →
          Works w (inodeRefs s.file + c) (inodeRefs s.file + c) s0 s') ∧
        ∀ f', (s'.file f').mode = (s.file f').mode)
      Stop.Benign := by
  have hsame : inodeRefs (s.putFile f { s.file f with off := o }).file = inodeRefs s.file :=
    inodeRefs_upd_of_eq rfl
  have h1 : Tables (s.putFile f { s.file f with off := o }) c r :=
    h.retouch rfl rfl rfl (h.ref f) (fun _ _ => rfl) fun hz => hz
  have hcached := h1.cached
  rw [hsame] at hcached
  refine (iunlock_spec hcached ((inodeRefs_pos hf).trans_le (Nat.le_add_right _ _))).mono ?_
    fun e he => by rw [he]; decide
  rintro _ s' ⟨h', hk⟩
  have hfile : s'.file = (s.putFile f { s.file f with off := o }).file := hk.file
  have h2 : Tables s' c r := h1.keep (by rwa [hsame]) (by rwa [hsame])
  refine ⟨h2, by rw [hfile, hsame], hk.proc, hk.outstanding, fun w s0 hw => ?_, fun f' => ?_⟩
  · have hw1 : Works w _ _ s0 (s.putFile f { s.file f with off := o }) :=
      ⟨hw.ninodes, hw.history, hw.effect, hw.tidy⟩
    exact hw1.trans_keeps hk fun ht => ht.keeps hk
  · rw [hfile]
    exact putFile_mode (by exact rfl) f'

/-- **The loop of `fork` over the open files** -/
theorem Tables.dupAll (h : Tables s c r) (fds : List (Fin NOFILE))
    (hpos : ∀ fd f, pr.ofile fd = some f → 0 < r f) :
    wp (Fs.dupAll pr fds) s
      (fun _ s' => Tables s' c (r + (fds.map fun fd => fdRef (pr.ofile fd)).sum) ∧
        inodeRefs s'.file = inodeRefs s.file ∧ s' = { s with file := s'.file } ∧
        ∀ f', (s'.file f').mode = (s.file f').mode)
      (fun _ => False) := by
  induction fds generalizing s r with
  | nil => exact ⟨by simpa using h, rfl, rfl, fun _ => rfl⟩
  | cons fd fds ih =>
    rw [Fs.dupAll]
    cases hfd : pr.ofile fd with
    | none =>
      refine (ih h hpos).mono ?_ fun _ he => he
      rintro _ s' ⟨h', hrest⟩
      refine ⟨?_, hrest⟩
      rw [List.map_cons, List.sum_cons, hfd, fdRef, zero_add]
      exact h'
    | some f =>
      refine (h.filedup (hpos fd f hfd)).bind ?_
      rintro _ s1 ⟨hs1, h1⟩
      refine (ih h1 fun fd' f' hf' => (hpos fd' f' hf').trans_le (Nat.le_add_right _ _)).mono ?_
        fun _ he => he
      rintro _ s' ⟨h', hin, hs', hfile⟩
      subst hs1
      refine ⟨?_, hin.trans (inodeRefs_upd_of_eq rfl), hs', fun f' =>
        (hfile f').trans (putFile_mode (by exact rfl) f')⟩
      rw [List.map_cons, List.sum_cons, hfd, fdRef, ← add_assoc]
      exact h'

theorem Rest.fileread (h : Rest s) (f : Fin NFILE) (n : UInt32) :
    wp (Fs.fileread f n) s (fun _ s' => After w s s') Stop.Benign := by
  rw [Fs.fileread, wp_bind, wp_get]
  dsimp only
  rw [wp_ite]
  refine ⟨fun _ => After.refl h, fun _ => ?_⟩
  cases htype : (s.file f).type with
  | none => exact show Stop.Benign _ by decide
  | inode =>
    have hpos := holders_ip_pos htype
    obtain ⟨nd, hnd⟩ := h.tables.alloc _ hpos
    refine (ilock_node h.tables.cached hpos hnd).bind ?_
    rintro _ s1 ⟨h1, hk1, hh1, -, -⟩
    have hfile : s1.file = s.file := hk1.file
    obtain ⟨r, hr⟩ := readi_ok (h1.sound.noHoles hh1.ref hh1.valid) (s.file f).off n
    rw [wp_bind]
    refine wp_of_ok hr ?_
    rw [wp_bind, wp_setFile]
    have ht1 : Tables s1 (cwdRefs s.proc) (descs s.proc) := h.tables.keep hk1 h1
    have hmove := ht1.moveOff (f := f) (by rw [hfile]; exact htype)
      ((s1.file f).off + UInt32.ofNat (r.getD []).length)
    rw [hfile] at hmove
    rw [hfile]
    refine hmove.bind ?_
    rintro _ s2 ⟨h2, hsame, hproc, hout, hworks, hfile2⟩
    refine h.retouched h2 (hproc.trans hk1.proc) (hout.trans hk1.outstanding) ?_
      fun f' _ => hfile2 f'
    rw [hsame]
    exact hworks w s (Drops.of_keeps hk1).works

theorem Rest.filestat (h : Rest s) (f : Fin NFILE) :
    wp (Fs.filestat f) s (fun _ s' => After w s s') Stop.Benign := by
  rw [Fs.filestat, wp_bind, wp_get]
  dsimp only
  cases htype : (s.file f).type with
  | none => exact After.refl h
  | inode =>
    have hpos := holders_ip_pos htype
    obtain ⟨nd, hnd⟩ := h.tables.alloc _ hpos
    refine (ilock_node h.tables.cached hpos hnd).bind ?_
    rintro _ s1 ⟨h1, hk1, -, -, -⟩
    rw [wp_bind, wp_get]
    refine (iunlock_spec h1 hpos).chain (fun e he => by rw [he]; decide) ?_
    rintro _ s2 ⟨h2, hk2⟩
    exact h.done (.of_keeps h2 le_rfl (hk1.trans hk2))

theorem Held.readAll (hh : Held s.abs ip i nd) (h : Sound s)
    (reads : List (UInt32 × UInt32)) : Fs.readAll ip reads s = .ok ((), s) := by
  induction reads with
  | nil => rfl
  | cons x reads ih =>
    obtain ⟨off, n⟩ := x
    obtain ⟨r, hr⟩ := readi_ok (h.noHoles hh.ref hh.valid) off n
    rw [Fs.readAll, bind_ok hr]
    exact ih

/-! ## Writing -/

theorem Held.writes (hh : Held s.abs ip i nd) (h : Cached s c) (hc : 0 < c ip)
    (ho : 1 ≤ s.outstanding) (ht : nd.type ≠ T_DIR) (src : ℕ → UInt8) (off n : UInt32) :
    wp (Fs.writei ip src off n) s (fun _ s' => Done w c c s s') Stop.Benign := by
  by_cases hdev : nd.type = T_DEV
  · obtain ⟨r, hr⟩ := writei_dev ((hh.type_eq h.sound).trans hdev) src off n
    exact wp_of_ok hr (.of_keeps h le_rfl (Keeps.refl _ _))
  · refine (hh.writei h.sound ho hdev src off n).mono ?_ fun e he => by rw [he.1]; decide
    intro r s' hr
    cases hdata : writeData nd.data off.toNat (slice src 0 n.toNat) with
    | none =>
      rw [hdata] at hr
      obtain ⟨-, rfl⟩ := hr
      exact .of_keeps h le_rfl (Keeps.refl _ _)
    | some l =>
      rw [hdata] at hr
      obtain ⟨-, hs', habs⟩ := hr
      refine ⟨h.of_abs hs' (by rw [habs]; rfl), ?_, ?_, congrArg Abs.outstanding habs,
        fun htidy => ?_⟩
      · rw [habs]
        exact .of_change (.write hh.node ht l)
      · rw [habs]
        exact hh.serves_putNode rfl
      · rw [habs]
        exact htidy.putNode hh hc _

theorem Rest.filewriteTurn (h : Rest s) (hf : (s.file f).type = .inode)
    (hw : (s.file f).writable = true) (l : List UInt8) :
    wp (Fs.filewriteTurn f l) s
      (fun _ s' => After w s s' ∧ s'.proc = s.proc ∧
        ∀ f', (s'.file f').mode = (s.file f').mode)
      Stop.Benign := by
  have hpos := holders_ip_pos hf
  obtain ⟨nd, hnd⟩ := h.tables.alloc _ hpos
  rw [Fs.filewriteTurn, wp_bind, wp_get]
  dsimp only
  rw [wp_bind, wp_beginOp]
  refine (ilock_node h.tables.cached.begin hpos hnd).bind ?_
  rintro _ s1 ⟨h1, hk1, hh1, -, -⟩
  have ho1 : 1 ≤ s1.outstanding := (Nat.le_add_left 1 s.outstanding).trans_eq hk1.outstanding.symm
  refine (hh1.writes (w := w) h1 hpos ho1 (h.tables.plain f nd hf hw hnd) _ _ _).bind ?_
  intro r s2 hdone1
  have hdone : Done w (holders s) (holders s) s.begin s2 := hdone1.keeps_trans hk1
  have hfile : s2.file = s.file := hdone.serves.file
  have ht2 : Tables s2 (cwdRefs s.proc) (descs s.proc) :=
    h.tables.begin.serve hdone.serves hdone.cached (hdone.bounded h.tables.bounded) le_rfl
      fun _ => Or.inl
  rw [wp_bind, wp_setFile]
  have hmove := ht2.moveOff (f := f) (by rw [hfile]; exact hf)
    ((s2.file f).off + UInt32.ofNat r.toNat)
  rw [hfile] at hmove
  rw [hfile]
  refine hmove.bind ?_
  rintro _ s3 ⟨h3, hsame, hproc, hout, hworks, hfile3⟩
  have hout3 : s3.outstanding = s.outstanding + 1 := hout.trans hdone.outstanding
  rw [wp_bind, wp_endOp]
  have hproc3 : s3.proc = s.proc := hproc.trans hdone.serves.proc
  refine ⟨h.retouched h3.commit hproc3 ?_ ?_ fun f' _ => hfile3 f', hproc3, hfile3⟩
  · show s3.outstanding - 1 = s.outstanding
    rw [hout3]
    exact Nat.add_sub_cancel _ _
  · have hw3 := hworks w s.begin hdone.works
    show Works w (holders s) (inodeRefs s3.file + _) s s3.commit
    rw [hsame]
    exact ⟨hw3.ninodes, hw3.history, hw3.effect, hw3.tidy⟩

variable (h : Rest s) (hp : s.proc p = some pr)

include h hp

theorem Rest.sysWrite (fd : ℤ) (l : List UInt8) :
    wp (Fs.sysWrite p pr fd l) s (fun _ s' => After w s s') Stop.Benign := by
  rw [Fs.sysWrite]
  cases harg : argfd pr fd with
  | none => exact After.refl h
  | some x =>
    obtain ⟨d, f⟩ := x
    have hofile := argfd_some harg
    dsimp only
    rw [wp_ite]
    refine ⟨fun _ => After.refl h, fun _ => ?_⟩
    rw [wp_bind, wp_get]
    rw [wp_ite]
    refine ⟨fun _ => After.refl h, fun hwritable => ?_⟩
    rw [Bool.not_eq_true', Bool.not_eq_false] at hwritable
    cases htype : (s.file f).type with
    | none => exact show Stop.Benign _ by decide
    | inode =>
      dsimp only
      rw [wp_ite]
      refine ⟨fun _ => After.refl h, fun _ => ?_⟩
      rw [wp_bind, wp_setProc hp]
      refine (After.refl h).putProc hp rfl rfl fun fd' l' n' hpend => ?_
      cases hpend
      exact ⟨f, hofile, htype, hwritable⟩

theorem Rest.writeTurn {fd : Fin NOFILE}
    (hofile : pr.ofile fd = some f) (hf : (s.file f).type = .inode)
    (hw : (s.file f).writable = true) (l : List UInt8) (n : ℕ) :
    wp (Fs.writeTurn p f fd l n) s (fun _ s' => After w s s') Stop.Benign := by
  rw [Fs.writeTurn]
  refine (h.filewriteTurn (w := w) hf hw l).bind ?_
  rintro r s1 ⟨hafter, hproc, hfile⟩
  have hp1 : s1.proc p = some pr := by rw [hproc, hp]
  rw [wp_ite]
  refine ⟨fun _ => ?_, fun _ => ?_⟩
  · rw [wp_bind, wp_setProc hp1]
    exact hafter.putProc hp1 rfl rfl (.of_none rfl)
  rw [wp_ite]
  refine ⟨fun _ => show Stop.Benign _ by decide, fun _ => ?_⟩
  rw [wp_ite]
  refine ⟨fun _ => ?_, fun _ => ?_⟩
  · rw [wp_bind, wp_setProc hp1]
    exact hafter.putProc hp1 rfl rfl (.of_none rfl)
  · rw [wp_bind, wp_setProc hp1]
    refine hafter.putProc hp1 rfl rfl fun fd' l' n' hpend => ?_
    cases hpend
    obtain ⟨ht', hw'⟩ := Prod.mk.inj (hfile f)
    exact ⟨f, hofile, ht'.trans hf, hw'.trans hw⟩

/-! ## Closing -/

theorem Rest.sysClose (hidle : pr.pending = none) (fd : ℤ) :
    wp (Fs.sysClose p pr fd) s (fun _ s' => After w s s') Stop.Benign := by
  rw [Fs.sysClose]
  cases harg : argfd pr fd with
  | none => exact After.refl h
  | some x =>
    obtain ⟨d, f⟩ := x
    have hofile := argfd_some harg
    dsimp only
    rw [wp_bind, wp_setProc hp]
    have h1 := h.tables.putProc p (some { pr with ofile := upd pr.ofile d none })
    rw [descs_close hp hofile] at h1
    refine h1.fileclose.bind ?_
    rintro _ s2 ⟨h2, hdrops, hfile⟩
    exact h.replaced hdrops.proc (cwdRefs_upd_of_eq hp rfl) rfl h2
      (hdrops.outstanding.trans h.outstanding)
      ⟨hdrops.ninodes, hdrops.history, Or.inl hdrops.shed, hdrops.tidy⟩ (fun f _ => hfile f)
        (ready_idle hidle)

theorem Rest.exitTurn (hexit : pr.pending = some .exit) :
    wp (Fs.exitTurn p pr) s (fun _ s' => After w s s') Stop.Benign := by
  rw [Fs.exitTurn]
  cases hfind : (List.finRange NOFILE).findSome? fun fd => (pr.ofile fd).map fun f => (fd, f) with
  | some x =>
    obtain ⟨fd, f⟩ := x
    obtain ⟨fd', -, hfd'⟩ := List.exists_of_findSome?_eq_some hfind
    obtain ⟨f', hf', heq⟩ := Option.map_eq_some_iff.mp hfd'
    rw [Prod.mk.injEq] at heq
    obtain ⟨rfl, rfl⟩ := heq
    have h1 := h.tables
    rw [descs_close hp hf'] at h1
    refine h1.fileclose.bind ?_
    rintro _ s2 ⟨h2, hdrops, hfile⟩
    have hp2 : s2.proc p = some pr := by rw [hdrops.proc, hp]
    rw [wp_bind, wp_setProc hp2]
    refine h.replaced (o := some { pr with ofile := upd pr.ofile fd' none }) ?_
      (cwdRefs_upd_of_eq hp rfl) rfl (h2.putProc p _) (hdrops.outstanding.trans h.outstanding)
      ⟨hdrops.ninodes, hdrops.history, Or.inl hdrops.shed, hdrops.tidy⟩ (fun f _ => hfile f) ?_
    · show upd s2.proc p _ = _
      rw [hdrops.proc]
    · rintro _ ⟨⟩
      refine .of_pending fun fd l n hpend => ?_
      rw [show pr.pending = _ from hpend] at hexit
      cases hexit
  | none =>
    have hnone : ∀ fd, pr.ofile fd = none := fun fd => by
      have := List.findSome?_eq_none_iff.mp hfind fd (List.mem_finRange fd)
      exact Option.map_eq_none_iff.mp this
    have hc := cwdRefs_clear hp
    have hd : descs (upd s.proc p none) = descs s.proc := by
      have hsum := descs_upd s.proc p none
      have hrow : fileRefs (some pr) = 0 := Finset.sum_eq_zero fun fd _ => by rw [hnone fd, fdRef]
      rw [hp, hrow, fileRefs, add_zero, add_zero] at hsum
      exact hsum
    have h1 := h.tables
    rw [hc] at h1
    rw [wp_bind, wp_beginOp]
    refine h1.iput.bind ?_
    rintro _ s2 ⟨h2, hfile, hdrops⟩
    rw [wp_bind, wp_endOp, wp_bind, wp_modify]
    show After w s (s2.commit.putProc p none)
    refine h.replaced (o := none) ?_ rfl hd (h2.putProc p none)
      (hdrops.outstanding.trans h.outstanding)
      ⟨hdrops.ninodes, hdrops.history, Or.inl hdrops.shed, ?_⟩ (fun f _ _ => ?_)
        fun _ ho => by cases ho
    · show upd s2.commit.proc p none = _
      rw [show s2.commit.proc = s.proc from hdrops.proc]
    · show Tidy (holders s) _ → Tidy (inodeRefs s2.commit.file + _) _
      rw [hfile, holders, hc]
      exact hdrops.tidy
    · show (s2.commit.file f).mode = _
      rw [hfile]

/-! ## Opening -/

/-- What **`sys_open`** does with the inode: it is left to a file structure, or let go. -/
theorem Rest.openEnd {s1 : State} {omode : ℕ} (hidle : pr.pending = none)
    (hdone : Done w (holders s) (holders s + Pi.single ip 1) s.begin s1) (hi : Held s1.abs ip i nd)
    (hmode : nd.type = T_DIR → omode = 0) :
    wp (do
        match ← Fs.openFile p pr with
        | none =>
          iunlockput ip
          endOp
          return Reply.int (-1)
        | some (f, fd) =>
          iunlock ip
          endOp
          setFile f fun g => { g with
            type := .inode
            ip := ip
            off := 0
            readable := omode &&& O_WRONLY = 0
            writable := omode &&& O_WRONLY ≠ 0 ∨ omode &&& O_RDWR ≠ 0 }
          return .int fd) s1
      (fun r s' => After w s s' ∧
        (r = .int (-1) → ¬ Room s pr ∧ Serves (holders s) s.abs s'.abs ∧
          Shed s1.abs.node s'.abs.node))
      Stop.Benign := by
  have ho1 : s1.outstanding = s.outstanding + 1 := hdone.outstanding
  have hfile1 : s1.file = s.file := hdone.serves.file
  have hproc1 : s1.proc = s.proc := hdone.serves.proc
  have hcached1 := hdone.cached
  rw [holders, add_assoc] at hcached1
  have ht1 : Tables s1 (cwdRefs s.proc + Pi.single ip 1) (descs s.proc) := by
    refine h.tables.begin.serve hdone.serves hcached1 (hdone.bounded h.tables.bounded) le_rfl
      (pos_or_of_add_single ⟨nd, ?_⟩)
    rw [hi.inum, hi.node]
  refine (ht1.openFile (hproc1 ▸ hp)).chain (fun _ => False.elim) ?_
  rintro (_ | ⟨f, fd⟩) s2 hr2
  · obtain ⟨rfl, hfull⟩ := hr2
    have htidy := iunlockput_tidy hdone.cached (show 1 ≤ s2.outstanding by omega)
    refine htidy.bind ?_
    rintro _ s3 ⟨h3, hk3, ht3⟩
    rw [wp_bind, wp_endOp]
    have hend := (hdone.trans_keeps h3 hk3 ht3).commit
    refine ⟨h.done hend, fun _ => ⟨?_, hend.serves, hk3.shed⟩⟩
    rwa [Room, hfile1] at hfull
  -- the file structure is not closed any more, and does not refer to the inode yet
  obtain ⟨hzero, hfd, hs2, ht2⟩ := hr2
  have hall : inodeRefs s2.file + (cwdRefs s.proc + Pi.single ip 1) =
    holders s + Pi.single ip 1 := by
    have hsame : inodeRefs s2.file = inodeRefs s.file := by
      rw [hs2, ← hfile1]
      exact inodeRefs_upd_of_eq rfl
    rw [hsame, ← add_assoc, holders]
  have hworks2 : Works w (holders s) (holders s + Pi.single ip 1) s s2 := by
    rw [hs2]
    exact ⟨hdone.works.ninodes, hdone.works.history, hdone.works.effect, hdone.works.tidy⟩
  have hpos2 : 0 < (inodeRefs s2.file + (cwdRefs s.proc + Pi.single ip 1) : Icache → ℕ) ip := by
    rw [hall]
    exact pos_add_single _ ip
  refine (iunlock_spec ht2.cached hpos2).chain (fun e he => by rw [he]; decide) ?_
  rintro _ s3 ⟨h3, hk3⟩
  have ht3 : Tables s3 (cwdRefs s.proc + Pi.single ip 1) (descs s.proc + Pi.single f 1) :=
    ht2.keep hk3 h3
  have hworks3 : Works w (holders s) (holders s + Pi.single ip 1) s s3 := by
    rw [hall] at hk3
    exact hworks2.trans_keeps hk3.of_add fun ht => ht.keeps hk3
  rw [wp_bind, wp_endOp, wp_bind, wp_setFile]
  have hfile3 : s3.commit.file = upd s.file f { s.file f with ref := 1 } := by
    show s3.abs.file = _
    rw [hk3.file, hs2, ← hfile1]
    rfl
  have hproc3 : s3.commit.proc = upd s.proc p
      (some { pr with ofile := upd pr.ofile fd (some f) }) := by
    show s3.abs.proc = _
    rw [hk3.proc, hs2, ← hproc1]
    rfl
  have htype3 : (s3.commit.file f).type = .none := by
    rw [hfile3, upd_self]
    exact h.tables.closed f hzero
  rw [wp_pure]
  refine ⟨h.replaced hproc3 (cwdRefs_upd_of_eq hp rfl) (descs_open hp hfd f) ?_ ?_
    ⟨hworks3.ninodes, hworks3.history, hworks3.effect, fun ht => ?_⟩ (fun f' hf' _ => ?_)
    (ready_idle hidle), fun hr => ?_⟩
  · refine ht3.commit.adopt htype3 rfl ?_ ?_ ?_
    · rw [add_single_self, hzero, hfile3, upd_self]
    · exact (pos_add_single _ f).ne'
    · intro hwritable nd' hnd'
      rw [decide_eq_true_eq] at hwritable
      have hnode : s3.abs.node (s3.abs.tag ip).inum = some nd := by
        rw [hk3.inum ip hpos2, hk3.node ip hpos2, hs2]
        show s1.abs.node (s1.abs.tag ip).inum = some nd
        rw [hi.inum, hi.node]
      rw [← Option.some.inj (hnode.symm.trans hnd')]
      intro hdir
      rw [hmode hdir] at hwritable
      rcases hwritable with hne | hne
      · exact hne (Nat.zero_and _)
      · exact hne (Nat.zero_and _)
  · show s3.outstanding - 1 = 0
    have ho3 : s3.outstanding = s1.outstanding := by
      rw [show s3.outstanding = s2.outstanding from hk3.outstanding, hs2]
      rfl
    rw [ho3, ho1, h.outstanding]
  · show Tidy (inodeRefs (upd s3.commit.file f _) + cwdRefs s.proc) _
    have hsame : inodeRefs s3.commit.file = inodeRefs s.file := by
      rw [hfile3]
      exact inodeRefs_upd_of_eq rfl
    rw [inodeRefs_open htype3 rfl, hsame, add_right_comm]
    exact hworks3.tidy ht
  · have hne : f' ≠ f := by
      rintro rfl
      omega
    rw [putFile_of_ne hne, hfile3, upd_of_ne hne]
  · have hfd : (fd : ℤ) = -1 := Reply.int.inj hr
    omega

/-- **`sys_open`**.  If it fails, it has made an inode and found no room for the open file, or it
has changed nothing. -/
theorem Rest.sysOpen (hidle : pr.pending = none) (path : Name) (omode : ℕ) :
    wp (Fs.sysOpen p pr path omode) s
      (fun r s' => After (Orderly s.abs.node ∧ Sane s pr.cwd) s s' ∧ (r = .int (-1) →
        Serves (holders s) s.abs s'.abs ∧
          (¬ (Creates s pr.cwd path omode ∧ ¬ Room s pr) ∧ Shed s.abs.node s'.abs.node ∨
            (Creates s pr.cwd path omode ∧ ¬ Room s pr) ∧
              ∃ i, (Tidy (holders s) s.abs → s.abs.node i = none) ∧ Live s'.abs.node i)))
      (Halted s pr.cwd) := by
  have h0 := h.begun
  have hw : Orderly s.abs.node ∧ Sane s pr.cwd → Sane s.begin pr.cwd := And.right
  rw [Fs.sysOpen, wp_bind, wp_beginOp]
  refine (openInode_spec h0 (holders_cwd_pos hp) hw path omode).chain (fun _ he => he.halted) ?_
  rintro (_ | ip) s1 hr1
  · rw [wp_bind, wp_endOp]
    exact ⟨h.done hr1.1.commit,
      fun _ => ⟨hr1.1.commit.serves, Or.inl ⟨fun hc => hr1.2.2 hc.1, hr1.2.1⟩⟩⟩
  · obtain ⟨hdone, ⟨i, nd, hi, hmode⟩, hnew⟩ := hr1
    refine (h.openEnd hp hidle hdone hi hmode).mono ?_ fun _ => Halted.of_benign
    rintro r s' ⟨hafter, hfail⟩
    refine ⟨hafter, fun hr => ?_⟩
    obtain ⟨hfull, hserves, hshed⟩ := hfail hr
    refine ⟨hserves, ?_⟩
    rcases hnew with ⟨hc, j, hnone, hlive⟩ | ⟨hc, hsame⟩
    · exact Or.inr ⟨⟨hc, hfull⟩, j, hnone, hshed.live hlive⟩
    · exact Or.inl ⟨fun hq => hc hq.1, hsame.trans hshed⟩

/-! ## The other calls -/

theorem Rest.sysChdir (hidle : pr.pending = none) (path : Name) :
    wp (Fs.sysChdir p pr path) s (fun _ s' => After w s s') (Halted s pr.cwd) := by
  have h0 := h.begun
  rw [Fs.sysChdir, wp_bind, wp_beginOp]
  refine (namei_spec h0 (holders_cwd_pos hp) path).chain (fun _ he => he.halted) ?_
  rintro (_ | ip) s1 ⟨hk1, hr1⟩
  · rw [wp_bind, wp_endOp]
    exact h.done (Done.of_keeps hr1 le_rfl hk1).commit
  obtain ⟨h1, hlive1⟩ := hr1
  have hpos := pos_add_single (holders s) ip
  refine (ilock_walked h1 hpos hlive1).chain (fun _ he => he.halted) ?_
  rintro _ s2 ⟨h2, hk2, nd, hi2⟩
  have hk02 : Keeps (holders s) s.begin.abs s2.abs := hk1.trans hk2.of_add
  rw [wp_bind, wp_get, wp_ite]
  refine ⟨fun _ => ?_, fun _ => ?_⟩
  · refine (iunlockput_spec h2 (h0.keep h2 hk02).trans).chain (fun _ => Halted.of_benign) ?_
    rintro _ s3 ⟨h3, hk3⟩
    rw [wp_bind, wp_endOp]
    exact h.done (Done.of_keeps h3 le_rfl (hk02.trans hk3)).commit
  refine (iunlock_spec h2 hpos).chain (fun e he => Halted.of_benign (by rw [he]; decide)) ?_
  rintro _ s3 ⟨h3, hk3⟩
  have hk03 : Keeps (holders s) s.begin.abs s3.abs := hk02.trans hk3.of_add
  -- the reference to the old directory goes, the one to the new one stays
  have hall : cwdRefs s.proc + Pi.single ip 1 =
      cwdRefs (upd s.proc p (some { pr with cwd := ip })) + Pi.single pr.cwd 1 := by
    have hsum := cwdRefs_upd s.proc p (some { pr with cwd := ip })
    rw [hp, cwdRef, cwdRef] at hsum
    exact hsum.symm
  have ht3 : Tables s3 (cwdRefs (upd s.proc p (some { pr with cwd := ip })) + Pi.single pr.cwd 1)
      (descs s.proc) := by
    rw [← hall]
    rw [holders, add_assoc] at h3
    refine h.tables.begin.serve (.of_keeps hk03) h3 (hk03.bounded h.tables.bounded) le_rfl
      (pos_or_of_add_single ⟨nd, ?_⟩)
    rw [hk3.inum ip hpos, hk3.node ip hpos, hi2.inum, hi2.node]
  rw [holders, add_assoc, hall, ← add_assoc] at h3
  have ho3 : 1 ≤ s3.outstanding := h0.trans.trans_eq hk03.outstanding.symm
  refine (iput_tidy h3 ho3).chain (fun e he => Halted.of_benign (by rw [he.1]; decide)) ?_
  rintro _ s4 ⟨h4, hk4, htidy4⟩
  have hfile : s3.file = s.file := hk03.file
  have ht4 : Tables s4 (cwdRefs (upd s.proc p (some { pr with cwd := ip }))) (descs s.proc) := by
    rw [← hfile] at h4 hk4
    exact ht3.serve (.of_keeps hk4) h4 (hk4.bounded (hk03.bounded h.tables.bounded))
      (le_add_single _ _) fun _ => Or.inl
  have hproc4 : s4.commit.proc = s.proc := hk4.proc.trans hk03.proc
  have hfile4 : s4.commit.file = s.file := hk4.file.trans hfile
  rw [wp_bind, wp_endOp, wp_bind, wp_setProc (by rw [hproc4, hp])]
  refine h.replaced (o := some { pr with cwd := ip }) ?_ rfl (descs_upd_of_eq hp rfl)
    (ht4.commit.putProc p _) ?_ ⟨hk4.ninodes.trans hk03.ninodes, hk03.history.trans hk4.history,
      Or.inl (hk03.shed_node.trans hk4.shed_node), fun ht => ?_⟩ (fun f _ _ => ?_)
        (ready_idle hidle)
  · show upd s4.commit.proc p _ = _
    rw [hproc4]
  · show s4.outstanding - 1 = 0
    rw [show s4.outstanding = s.outstanding + 1 from hk4.outstanding.trans hk03.outstanding,
      h.outstanding]
  · show Tidy (inodeRefs s4.commit.file + _) _
    rw [hfile4]
    have ht0 : Tidy (holders s) s.begin.abs := ht
    refine htidy4 ?_
    rw [add_assoc, ← hall, ← add_assoc]
    exact (ht0.keeps hk03).mono (le_add_single _ _)
  · show (s4.commit.file f).mode = _
    rw [hfile4]

theorem Rest.exec (path : Name) (reads : List (UInt32 × UInt32)) :
    wp (Fs.exec pr path reads) s (fun _ s' => After w s s') (Halted s pr.cwd) := by
  have h0 := h.begun
  rw [Fs.exec, wp_bind, wp_beginOp]
  refine (namei_spec h0 (holders_cwd_pos hp) path).chain (fun _ he => he.halted) ?_
  rintro (_ | ip) s1 ⟨hk1, hr1⟩
  · rw [wp_bind, wp_endOp]
    exact h.done (Done.of_keeps hr1 le_rfl hk1).commit
  obtain ⟨h1, hlive1⟩ := hr1
  have hpos := pos_add_single (holders s) ip
  refine (ilock_walked h1 hpos hlive1).chain (fun _ he => he.halted) ?_
  rintro _ s2 ⟨h2, hk2, nd, hi2⟩
  have hk02 : Keeps (holders s) s.begin.abs s2.abs := hk1.trans hk2.of_add
  rw [wp_bind]
  refine wp_of_ok (hi2.readAll h2.sound reads) ?_
  refine (iunlockput_spec h2 (h0.keep h2 hk02).trans).chain (fun _ => Halted.of_benign) ?_
  rintro _ s3 ⟨h3, hk3⟩
  rw [wp_bind, wp_endOp]
  exact h.done (Done.of_keeps h3 le_rfl (hk02.trans hk3)).commit

theorem Rest.fork (hidle : pr.pending = none) {c : Slot}
    (hfree : s.proc c = none) : wp (Fs.fork pr c) s (fun _ s' => After w s s') Stop.Benign := by
  rw [Fs.fork]
  refine ((h.tables.dupAll (List.finRange NOFILE) fun fd f hf => descs_pos hp hf).mono
    (fun _ _ hq => hq) fun _ => False.elim).bind ?_
  rintro _ s1 ⟨h1, hin, hs1, hfile⟩
  obtain ⟨file, rfl⟩ : ∃ file, s1 = { s with file := file } := ⟨_, hs1⟩
  have hpos : 0 < (inodeRefs file + cwdRefs s.proc : Icache → ℕ) pr.cwd :=
    (cwdRefs_pos hp).trans_le (Nat.le_add_left _ _)
  refine (idup_spec h1.cached hpos).chain (fun _ => False.elim) ?_
  rintro _ s2 ⟨rfl, h2, hk2⟩
  rw [wp_bind, wp_modify]
  have hproc2 : s2.proc = s.proc := hk2.proc
  have hfile2 : s2.file = file := hk2.file
  have hc : cwdRefs (upd s.proc c (some pr)) = cwdRefs s.proc + Pi.single pr.cwd 1 := by
    have hsum := cwdRefs_upd s.proc c (some pr)
    rwa [hfree, cwdRef, cwdRef, add_zero] at hsum
  have hd : descs (upd s.proc c (some pr)) =
      descs s.proc + ((List.finRange NOFILE).map fun fd => fdRef (pr.ofile fd)).sum := by
    have hsum := descs_upd s.proc c (some pr)
    rwa [hfree, fileRefs, fileRefs, add_zero, Fin.sum_univ_def] at hsum
  show After w s (s2.putProc c (some pr))
  rw [add_assoc] at h2
  have ht2 : Tables s2 (cwdRefs s.proc + Pi.single pr.cwd 1)
      (descs s.proc + ((List.finRange NOFILE).map fun fd => fdRef (pr.ofile fd)).sum) := by
    refine h1.serve (.of_keeps hk2) h2 (hk2.bounded h1.bounded) le_rfl fun iq hq => Or.inl ?_
    exact (pos_or_of_add_single (P := fun iq => 0 < cwdRefs s.proc iq) (cwdRefs_pos hp)
      iq hq).elim id id
  refine h.replaced (o := some pr) ?_ hc hd (ht2.putProc c _)
    (hk2.outstanding.trans h.outstanding)
    ⟨hk2.ninodes, hk2.history, Or.inl hk2.shed_node, fun ht => ?_⟩ (fun f _ _ => ?_)
      (ready_idle hidle)
  · show upd s2.proc c _ = _
    rw [hproc2]
  · show Tidy (inodeRefs s2.file + _) s2.abs
    rw [hfile2, ← add_assoc]
    have ht1 : Tidy (inodeRefs file + cwdRefs s.proc) ({ s with file := file } : State).abs := by
      rw [hin]
      exact ht
    exact (ht1.keeps hk2).mono (le_add_single _ _)
  · show (s2.file f).mode = _
    rw [hfile2, hfile f]

/-- **The next turn of a call in the middle** -/
theorem Rest.resume : wp (Fs.resume p pr) s (fun _ s' => After w s s') Stop.Benign := by
  rw [Fs.resume]
  cases hpend : pr.pending with
  | none => exact After.refl h
  | some x =>
    cases x with
    | exit => exact h.exitTurn hp hpend
    | write fd l n =>
      obtain ⟨f, hf, htype, hwritable⟩ := h.ready p pr hp fd l n hpend
      dsimp only
      rw [hf]
      exact h.writeTurn hp hf htype hwritable l n

/-- **A system call from a state at rest** comes to a state at rest. -/
theorem Rest.syscall {a : Call} (ha : enabled s pr a = true) :
    wp (Fs.syscall p pr a) s (fun _ s' => After (Orderly s.abs.node ∧ Sane s pr.cwd) s s')
      (Halted s pr.cwd) := by
  have hpos := holders_cwd_pos hp
  have hidle : a ≠ .resume → pr.pending = none := by
    intro hne
    cases a with
    | resume => exact absurd rfl hne
    | fork c =>
      rw [enabled, Bool.and_eq_true] at ha
      exact Option.isNone_iff_eq_none.mp ha.1
    | _ => exact Option.isNone_iff_eq_none.mp ha
  have hbenign : ∀ {m : Op Reply},
      wp m s (fun _ s' => After (Orderly s.abs.node ∧ Sane s pr.cwd) s s') Stop.Benign →
      wp m s (fun _ s' => After (Orderly s.abs.node ∧ Sane s pr.cwd) s s') (Halted s pr.cwd) :=
    fun hm => hm.mono (fun _ _ hq => hq) fun _ => Halted.of_benign
  have hdone : ∀ {m : Op Reply},
      wp m s (Answers (holders s) pr.cwd s) (Halted s pr.cwd) →
      wp m s (fun _ s' => After (Orderly s.abs.node ∧ Sane s pr.cwd) s s') (Halted s pr.cwd) :=
    fun hm => hm.mono (fun _ _ hq => h.done hq.1) fun _ he => he
  cases a with
  | dup fd => exact hbenign (h.sysDup hp (hidle nofun) fd)
  | read fd n =>
    refine hbenign ?_
    rw [Fs.syscall, sysRead]
    cases argfd pr fd with
    | none => exact After.refl h
    | some x =>
      dsimp only
      rw [wp_ite]
      refine ⟨fun _ => After.refl h, fun _ => ?_⟩
      exact (h.fileread x.2 n).bind fun _ _ hq => hq
  | write fd l => exact hbenign (h.sysWrite hp fd l)
  | resume => exact hbenign (h.resume hp)
  | close fd => exact hbenign (h.sysClose hp (hidle nofun) fd)
  | fstat fd =>
    refine hbenign ?_
    rw [Fs.syscall, sysFstat]
    cases argfd pr fd with
    | none => exact After.refl h
    | some x => exact (h.filestat x.2).bind fun _ _ hq => hq
  | link old new => exact hdone (sysLink_spec h.tables.cached h.tables.bounded hpos old new)
  | unlink path => exact hdone (sysUnlink_spec h.tables.cached h.tables.bounded hpos path)
  | «open» path omode =>
    exact (h.sysOpen hp (hidle nofun) path omode).mono (fun _ _ hq => hq.1) fun _ he => he
  | mkdir path =>
    exact hdone (sysCreate_spec h.tables.cached h.tables.bounded hpos (by decide) path)
  | mknod path major minor =>
    exact hdone (sysCreate_spec h.tables.cached h.tables.bounded hpos (by decide) path)
  | chdir path => exact h.sysChdir hp (hidle nofun) path
  | exec path reads => exact h.exec hp path reads
  | fork c =>
    have hfree := (Bool.and_eq_true _ _).mp ha
    exact hbenign (h.fork hp (hidle nofun) (Option.isNone_iff_eq_none.mp hfree.2))
  | exit =>
    refine hbenign ?_
    rw [Fs.syscall, Fs.exit, wp_bind, wp_setProc hp]
    exact (After.refl h).putProc hp rfl rfl (.of_pending nofun)

end Calls

end Xv6.Fs
