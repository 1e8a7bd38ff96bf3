import Xv6.Ftable.Books

/-!
# The lifetime of open files and pipes

A call starts and ends with the books of the descriptors alone: the references to a file are the
descriptors that refer to it (`Rest`).  So after any sequence of calls by any processes the counts
are right, a pipe has its page exactly as long as there is a descriptor for one of its ends, and
nothing has gone wrong on the way (`exec_lifetime`).
-/

namespace Xv6.Ftable

open Lib

/-! ## The calls -/

/-- **Between two calls**: the references to a file are its descriptors, a slot without a process
has no descriptors, and a process in the middle of a `read` or `write` has a descriptor for its
pipe. -/
structure Rest (s : State) : Prop where
  books : Books s (descs s.ofile)
  dead : ∀ p, s.alive p = false → (∀ fd, s.ofile p fd = none) ∧ s.busy p = none
  busy : ∀ p pg, s.busy p = some pg → ∃ fd f, s.ofile p fd = some f ∧ (s.file f).type = .pipe pg
  typed : ∀ f, 0 < descs s.ofile f → (s.file f).type ≠ .none

section Calls

variable {s s' : State} {p : Slot} {ofile : Slot → Fin NOFILE → Option (Fin NFILE)}
  {v : Option (Fin NFILE)} {fd : Fin NOFILE}

theorem argfd_some {fd : ℤ} {d : Fin NOFILE} {f : Fin NFILE} (h : argfd s p fd = some (d, f)) :
    s.ofile p d = some f := by
  rw [argfd] at h
  split_ifs at h with hfd
  obtain ⟨g, hg, heq⟩ := Option.map_eq_some_iff.mp h
  cases heq
  exact hg

/-- A file with descriptors had descriptors before, and the same type, or it is new. -/
def Typed (s s' : State) : Prop :=
  ∀ f, 0 < descs s'.ofile f → 0 < descs s.ofile f ∧ (s'.file f).type = (s.file f).type ∨
    descs s.ofile f = 0 ∧ (s'.file f).type ≠ .none

/-- The books are in order again after a call.  A process is as it was, or it is not in the middle
of a `read` or `write`. -/
theorem Rest.next (h : Rest s) (hb : Books s' (descs s'.ofile)) (hbusy : s'.busy = s.busy)
    (hproc : ∀ q, s'.ofile q = s.ofile q ∧ s'.alive q = s.alive q ∨
      s.busy q = none ∧ (s'.alive q = false → ∀ fd, s'.ofile q fd = none))
    (htype : Typed s s') : Rest s' where
  books := hb
  dead := fun q hq => by
    rw [hbusy]
    rcases hproc q with ⟨hof, hal⟩ | ⟨hbq, hof⟩
    · rw [hof]
      exact h.dead q (hal ▸ hq)
    · exact ⟨hof hq, hbq⟩
  busy := fun q pg hq => by
    rw [hbusy] at hq
    rcases hproc q with ⟨hof, -⟩ | ⟨hbq, -⟩
    · obtain ⟨fd, f, hf, ht⟩ := h.busy q pg hq
      have hf' : s'.ofile q fd = some f := by rw [hof, hf]
      rcases htype f (descs_pos hf') with ⟨-, hsame⟩ | ⟨hnone, -⟩
      · exact ⟨fd, f, hf', hsame.trans ht⟩
      · exact absurd (descs_pos hf) (by omega)
    · rw [hbq] at hq
      cases hq
  typed := fun f hf => by
    rcases htype f hf with ⟨hold, hsame⟩ | ⟨-, hnew⟩
    · rw [hsame]
      exact h.typed f hold
    · exact hnew

/-- A call that only changes the descriptors of its own process. -/
theorem Rest.next_self (h : Rest s) (halive : s.alive p = true) (hidle : s.busy p = none)
    (hb : Books s' (descs s'.ofile)) (hbusy : s'.busy = s.busy) (hal : s'.alive = s.alive)
    (hof : ∀ q, q ≠ p → s'.ofile q = s.ofile q) (htype : Typed s s') : Rest s' := by
  refine h.next hb hbusy (fun q => ?_) htype
  by_cases hq : q = p
  · refine Or.inr ⟨hq ▸ hidle, fun hdead => ?_⟩
    rw [hal, hq, halive] at hdead
    cases hdead
  · exact Or.inl ⟨hof q hq, by rw [hal]⟩

theorem Rest.keep (h : Rest s) (hb : Books s' (descs s.ofile)) (hk : Keeps (descs s.ofile) s s') :
    Rest s' := by
  refine h.next ?_ hk.busy (fun q => Or.inl ⟨by rw [hk.ofile], by rw [hk.alive]⟩) fun g hg => ?_
  · rw [hk.ofile]
    exact hb
  · rw [hk.ofile] at hg
    exact Or.inl ⟨hg, hk.type g hg⟩

theorem putOfile_other {q : Slot} (hq : q ≠ p) : putOfile ofile p fd v q = ofile q := upd_of_ne hq

/-- Only descriptors of `p` change, and no file is opened. -/
structure Kept (p : Slot) (s s' : State) : Prop where
  books : Books s' (descs s'.ofile)
  alive : s'.alive = s.alive
  busy : s'.busy = s.busy
  ofile : ∀ q, q ≠ p → s'.ofile q = s.ofile q
  type : ∀ f, 0 < descs s'.ofile f → 0 < descs s.ofile f ∧ (s'.file f).type = (s.file f).type

namespace Kept

variable {s'' : State} {f : Fin NFILE}

theorem trans (h : Kept p s s') (h' : Kept p s' s'') : Kept p s s'' := by
  refine ⟨h'.books, h'.alive.trans h.alive, h'.busy.trans h.busy,
    fun q hq => (h'.ofile q hq).trans (h.ofile q hq), fun f hf => ?_⟩
  obtain ⟨hpos, htype⟩ := h'.type f hf
  exact ⟨(h.type f hpos).1, htype.trans (h.type f hpos).2⟩

/-- A free descriptor is used for a file that has one. -/
theorem dup (hfree : s.ofile p fd = none) (hf : 0 < descs s.ofile f)
    (hof : s'.ofile = putOfile s.ofile p fd (some f))
    (hb : Books s' (descs s.ofile + Pi.single f 1)) (halive : s'.alive = s.alive)
    (hbusy : s'.busy = s.busy)
    (htype : ∀ g, 0 < descs s.ofile g → (s'.file g).type = (s.file g).type) : Kept p s s' := by
  have hput : descs s'.ofile = descs s.ofile + Pi.single f 1 := by rw [hof, descs_put hfree]
  refine ⟨by rwa [hput], halive, hbusy, fun q hq => by rw [hof, putOfile_other hq], fun g hg => ?_⟩
  have hold : 0 < descs s.ofile g := by
    by_cases hgf : g = f
    · rw [hgf]
      exact hf
    · rwa [hput, add_single_of_ne _ hgf] at hg
  exact ⟨hold, htype g hold⟩

theorem close (hf : s.ofile p fd = some f) (hof : s'.ofile = putOfile s.ofile p fd none)
    (hb : Books s' (descs (putOfile s.ofile p fd none))) (halive : s'.alive = s.alive)
    (hbusy : s'.busy = s.busy) (htype : ∀ g, 0 < descs (putOfile s.ofile p fd none) g →
      (s'.file g).type = (s.file g).type) : Kept p s s' := by
  refine ⟨by rwa [hof], halive, hbusy, fun q hq => by rw [hof, putOfile_other hq], fun g hg => ?_⟩
  rw [hof] at hg
  refine ⟨?_, htype g hg⟩
  rw [descs_clear hf]
  exact lt_of_lt_of_le hg (Nat.le_add_right _ _)

end Kept

theorem Rest.kept (h : Rest s) (halive : s.alive p = true) (hidle : s.busy p = none)
    (hk : Kept p s s') :
    Rest s' :=
  h.next_self halive hidle hk.books hk.busy hk.alive hk.ofile fun g hg => Or.inl (hk.type g hg)

/-- A process enters a `read` or `write` on a pipe, or leaves it. -/
theorem Rest.setBusy (h : Rest s) {o : Option Page} (hdead : s.alive p = false → o = none)
    (hbusy : ∀ pg, o = some pg → ∃ fd f, s.ofile p fd = some f ∧ (s.file f).type = .pipe pg) :
    Rest { s with busy := upd s.busy p o } where
  books := h.books.congr rfl rfl rfl rfl
  dead q hq := ⟨(h.dead q hq).1, forall_upd (P := fun q x => s.alive q = false → x = none) hdead
    (fun q _ hq => (h.dead q hq).2) q hq⟩
  busy := forall_upd (P := fun q x => ∀ pg, x = some pg → ∃ fd f, s.ofile q fd = some f ∧
    (s.file f).type = .pipe pg) hbusy fun q _ => h.busy q
  typed := h.typed

theorem sysDup_spec (h : Rest s) (halive : s.alive p = true) (hidle : s.busy p = none) (fd : ℤ) :
    wp (sysDup p fd) s (fun _ s' => Rest s') (fun _ => False) := by
  rw [sysDup, wp_bind, wp_get]
  cases harg : argfd s p fd with
  | none => exact h
  | some r =>
    obtain ⟨d, f⟩ := r
    have hf := argfd_some harg
    refine fdalloc_spec.bind ?_
    rintro (_ | fd') s1 hs1
    · obtain rfl : s1 = s := hs1
      exact h
    obtain ⟨hfree, rfl⟩ := hs1
    have hb : Books { s with ofile := putOfile s.ofile p fd' (some f) } (descs s.ofile) :=
      h.books.congr rfl rfl rfl rfl
    refine (filedup_spec hb (descs_pos hf)).bind fun _ s2 hs2 => ?_
    obtain ⟨hb2, hk⟩ := hs2
    exact h.kept halive hidle (.dup hfree (descs_pos hf) hk.ofile hb2 hk.alive hk.busy hk.type)

theorem sysClose_spec (h : Rest s) (halive : s.alive p = true) (hidle : s.busy p = none) (fd : ℤ) :
    wp (sysClose p fd) s (fun _ s' => Rest s') (fun _ => False) := by
  rw [sysClose, wp_bind, wp_get]
  cases harg : argfd s p fd with
  | none => exact h
  | some r =>
    obtain ⟨d, f⟩ := r
    have hf := argfd_some harg
    show wp (setOfile p d none >>= fun _ => fileclose f >>= fun _ => pure 0) s _ _
    rw [wp_bind, wp_setOfile]
    have hb : Books { s with ofile := putOfile s.ofile p d none }
        (descs (putOfile s.ofile p d none) + Pi.single f 1) := by
      rw [← descs_clear hf]
      exact h.books.congr rfl rfl rfl rfl
    refine (fileclose_spec hb).bind fun _ s2 hs2 => ?_
    obtain ⟨hb2, hk⟩ := hs2
    exact h.kept halive hidle (.close hf hk.ofile hb2 hk.alive hk.busy hk.type)

theorem sysOpen_spec (h : Rest s) (halive : s.alive p = true) (hidle : s.busy p = none)
    (found : Bool) (omode : ℕ) :
    wp (sysOpen p found omode) s (fun _ s' => Rest s') (fun _ => False) := by
  rw [sysOpen, wp_ite]
  refine ⟨fun _ => h, fun _ => ?_⟩
  refine (filealloc_spec h.books).bind ?_
  rintro (_ | f) s1 hs1
  · obtain rfl : s1 = s := hs1
    exact h
  obtain ⟨hzero, hnone, hb1, -, hk1⟩ := hs1
  refine fdalloc_spec.bind ?_
  rintro (_ | fd) s2 hs2
  · obtain rfl : s2 = s1 := hs2
    refine (fileclose_spec hb1).bind fun _ s3 hs3 => ?_
    exact h.keep hs3.1 (hk1.trans hs3.2)
  · obtain ⟨hfree, rfl⟩ := hs2
    rw [hk1.ofile] at hfree
    have hb2 : Books { s1 with ofile := putOfile s1.ofile p fd (some f) }
        (descs s.ofile + Pi.single f 1) := hb1.congr rfl rfl rfl rfl
    rw [wp_bind, wp_setFile, wp_pure]
    refine h.next_self halive hidle ?_ hk1.busy hk1.alive (fun q hq => ?_) fun g hg => ?_
    · show Books _ (descs (putOfile s1.ofile p fd (some f)))
      rw [hk1.ofile, descs_put hfree]
      rw [hk1.ofile] at hb2
      refine hb2.putOther (fun pg hp => ?_) (fun pg hp => ?_) ?_ (fun _ _ => rfl) fun hz => ?_
      · rw [show (s1.file f).type = .none from hnone] at hp
        cases hp
      · cases hp
      · exact hb1.ref f
      · rw [add_single_self] at hz
        cases hz
    · show putOfile s1.ofile p fd (some f) q = s.ofile q
      rw [putOfile_other hq, hk1.ofile]
    · replace hg : 0 < descs (putOfile s1.ofile p fd (some f)) g := hg
      show _ ∧ ((State.putFile _ f _).file g).type = _ ∨ _ ∧ ((State.putFile _ f _).file g).type ≠ _
      by_cases hgf : g = f
      · subst hgf
        rw [putFile_self]
        exact Or.inr ⟨hzero, nofun⟩
      · rw [hk1.ofile, descs_put hfree, add_single_of_ne _ hgf] at hg
        rw [putFile_of_ne hgf]
        exact Or.inl ⟨hg, hk1.type g hg⟩

theorem putOfile_putOfile
    {w : Option (Fin NFILE)} : putOfile (putOfile ofile p fd v) p fd w = putOfile ofile p fd w := by
  rw [putOfile, putOfile, putOfile, upd_self, upd_upd, upd_upd]

theorem putOfile_eq_self (h : ofile p fd = v) : putOfile ofile p fd v = ofile := by
  rw [putOfile, ← h, upd_eq_self, upd_eq_self]

theorem closeBoth_spec {c : Fin NFILE → ℕ} {rf wf : Fin NFILE}
    (hb : Books s (c + Pi.single rf 1 + Pi.single wf 1)) :
    wp (do
        fileclose rf
        fileclose wf
        return -1) s (fun _ s' => Books s' c ∧ Keeps c s s') (fun _ => False) := by
  rw [add_right_comm] at hb
  refine (fileclose_spec hb).bind fun _ s1 hs1 => ?_
  refine (fileclose_spec hs1.1).bind fun _ s2 hs2 => ?_
  refine ⟨hs2.1, (hs1.2.mono fun g hg => ?_).trans hs2.2⟩
  exact lt_of_lt_of_le hg (Nat.le_add_right (c g) _)

theorem sysPipe_spec (h : Rest s) (halive : s.alive p = true) (hidle : s.busy p = none)
    {page : Option Page} (hpage : ∀ pg, page = some pg → s.pipe pg = none) :
    wp (sysPipe p page) s (fun _ s' => Rest s') (fun _ => False) := by
  rw [sysPipe]
  refine (pipealloc_spec h.books hpage).bind ?_
  rintro (_ | ⟨rf, wf⟩) s1 ⟨hk1, hs1⟩
  · exact h.keep hs1 hk1
  obtain ⟨hb1, hnew⟩ := hs1
  -- closing both files is a way back from here
  have hback : ∀ {s2 : State}, Books s2 (descs s.ofile + Pi.single rf 1 + Pi.single wf 1) →
      Keeps (descs s.ofile) s s2 → wp (do
        fileclose rf
        fileclose wf
        return -1) s2 (fun _ s' => Rest s') (fun _ => False) := by
    intro s2 hb2 hk2
    exact (closeBoth_spec hb2).mono (fun _ s3 hs3 => h.keep hs3.1 (hk2.trans hs3.2))
      fun _ => False.elim
  refine fdalloc_spec.bind ?_
  rintro (_ | fd0) s2 hs2
  · obtain rfl : s2 = s1 := hs2
    exact hback hb1 hk1
  obtain ⟨hfree0, rfl⟩ := hs2
  refine fdalloc_spec.bind ?_
  rintro (_ | fd1) s3 hs3
  · obtain rfl := hs3
    show wp (setOfile p fd0 none >>= fun _ => _) _ _ _
    rw [wp_bind, wp_setOfile]
    refine hback (hb1.congr rfl rfl rfl rfl) ⟨?_, hk1.alive, hk1.busy, hk1.type⟩
    show putOfile (putOfile s1.ofile p fd0 (some rf)) p fd0 none = s.ofile
    rw [putOfile_putOfile, putOfile_eq_self hfree0, hk1.ofile]
  · obtain ⟨hfree1, rfl⟩ := hs3
    rw [wp_pure]
    refine h.next_self halive hidle ?_ hk1.busy hk1.alive (fun q hq => ?_) fun g hg => ?_
    · show Books _ (descs (putOfile (putOfile s1.ofile p fd0 (some rf)) p fd1 (some wf)))
      rw [descs_put hfree1, descs_put hfree0]
      rw [← hk1.ofile] at hb1
      exact hb1.congr rfl rfl rfl rfl
    · show putOfile (putOfile s1.ofile p fd0 (some rf)) p fd1 (some wf) q = s.ofile q
      rw [putOfile_other hq, putOfile_other hq, hk1.ofile]
    · by_cases hg' : g = rf ∨ g = wf
      · exact Or.inr (hnew g hg')
      · replace hg :
          0 < descs (putOfile (putOfile s1.ofile p fd0 (some rf)) p fd1 (some wf)) g := hg
        rw [descs_put hfree1, descs_put hfree0, add_single_of_ne _ fun heq => hg' (Or.inr heq),
          add_single_of_ne _ fun heq => hg' (Or.inl heq), hk1.ofile] at hg
        exact Or.inl ⟨hg, hk1.type g hg⟩

theorem enter_spec (h : Rest s) (halive : s.alive p = true) (fd : ℤ) (write : Bool) :
    wp (enter p fd write) s (fun _ s' => Rest s') (fun _ => False) := by
  rw [enter, wp_bind, wp_get]
  cases harg : argfd s p fd with
  | none => exact h
  | some r =>
    obtain ⟨d, f⟩ := r
    have hf := argfd_some harg
    show wp (get >>= fun t => _) s _ _
    rw [wp_bind, wp_get, wp_ite]
    refine ⟨fun _ => h, fun hmode => ?_⟩
    cases htype : (s.file f).type with
    | inode => exact h
    | none => exact absurd htype (h.typed f (descs_pos hf))
    | pipe pg =>
      refine h.setBusy (fun hdead => ?_) ?_
      · rw [halive] at hdead
        cases hdead
      · rintro _ ⟨⟩
        exact ⟨d, f, hf, htype⟩

theorem touch_spec (h : Rest s) : wp (touch p) s (fun _ s' => s' = s) (fun _ => False) := by
  rw [touch, wp_bind, wp_get]
  cases hbusy : s.busy p with
  | none => exact rfl
  | some pg =>
    obtain ⟨fd, f, -, htype⟩ := h.busy p pg hbusy
    obtain ⟨q, hq, -⟩ := h.books.live f pg htype
    show wp (get >>= fun t => _) s _ _
    rw [wp_bind, wp_get]
    simp only [hq]
    exact rfl

theorem leave_spec (h : Rest s) :
    wp (leave p) s (fun _ s' => Rest s') (fun _ => False) := by
  rw [leave, wp_bind, wp_modify, wp_pure]
  exact h.setBusy (fun _ => rfl) nofun

/-- The loop of `fork` gives every descriptor of the parent to the child too. -/
theorem forkLoop_spec {c : Slot} (fds : List (Fin NOFILE)) :
    ∀ {s : State}, Books s (descs s.ofile) → fds.Nodup → (∀ fd ∈ fds, s.ofile c fd = none) →
      wp (forkLoop p c fds) s (fun _ s' => Kept c s s') (fun _ => False) := by
  induction fds with
  | nil =>
    intro s hb _ _
    exact ⟨hb, rfl, rfl, fun _ _ => rfl, fun f hf => ⟨hf, rfl⟩⟩
  | cons fd fds ih =>
    intro s hb hnd hfree
    obtain ⟨hfd, hnd⟩ := List.nodup_cons.mp hnd
    rw [forkLoop, wp_bind, wp_get]
    cases hp : s.ofile p fd with
    | none => exact ih hb hnd fun d hd => hfree d (List.mem_cons_of_mem fd hd)
    | some f =>
      have hempty := hfree fd List.mem_cons_self
      refine (filedup_spec hb (descs_pos hp)).bind fun _ s1 hs1 => ?_
      obtain ⟨hb1, hk1⟩ := hs1
      show wp (setOfile c fd (some f) >>= fun _ => forkLoop p c fds) s1 _ _
      rw [wp_bind, wp_setOfile]
      have hk : Kept c s { s1 with ofile := putOfile s1.ofile c fd (some f) } :=
        .dup hempty (descs_pos hp) (by rw [hk1.ofile]) (hb1.congr rfl rfl rfl rfl)
          hk1.alive hk1.busy
          hk1.type
      refine (ih hk.books hnd fun d hd => ?_).mono (fun _ s' hs' => hk.trans hs')
        fun _ => False.elim
      have hne : d ≠ fd := by
        rintro rfl
        exact hfd hd
      show putOfile s1.ofile c fd (some f) c d = none
      rw [putOfile_of_ne fun h => hne h.2, hk1.ofile]
      exact hfree d (List.mem_cons_of_mem fd hd)

theorem fork_spec (h : Rest s) {child : Option Slot}
    (hchild : ∀ c, child = some c → s.alive c = false) :
    wp (fork p child) s (fun _ s' => Rest s') (fun _ => False) := by
  cases child with
  | none => exact h
  | some c =>
    obtain ⟨hempty, hidle⟩ := h.dead c (hchild c rfl)
    rw [fork]
    refine (forkLoop_spec _ h.books (List.nodup_finRange NOFILE) fun fd _ => hempty fd).bind ?_
    rintro _ s1 hk
    rw [wp_bind, wp_modify, wp_pure]
    refine h.next (hk.books.congr rfl rfl rfl rfl) hk.busy (fun q => ?_) fun f hf =>
      Or.inl (hk.type f hf)
    show _ ∧ upd s1.alive c true q = _ ∨ _ ∧ (upd s1.alive c true q = false → _)
    by_cases hq : q = c
    · rw [hq, upd_self]
      exact Or.inr ⟨hidle, nofun⟩
    · rw [upd_of_ne hq, hk.alive]
      exact Or.inl ⟨hk.ofile q hq, rfl⟩

/-- The loop of `exit` closes the descriptors of the process. -/
theorem exitLoop_spec (fds : List (Fin NOFILE)) :
    ∀ {s : State}, Books s (descs s.ofile) →
      wp (exitLoop p fds) s
        (fun _ s' => Kept p s s' ∧ ∀ fd, fd ∈ fds ∨ s.ofile p fd = none → s'.ofile p fd = none)
        (fun _ => False) := by
  induction fds with
  | nil =>
    intro s hb
    refine ⟨⟨hb, rfl, rfl, fun _ _ => rfl, fun f hf => ⟨hf, rfl⟩⟩, fun fd hfd => ?_⟩
    exact hfd.resolve_left List.not_mem_nil
  | cons fd fds ih =>
    intro s hb
    rw [exitLoop, wp_bind, wp_get]
    cases hp : s.ofile p fd with
    | none =>
      refine (ih hb).mono (fun _ s' hs' => ?_) fun _ => False.elim
      obtain ⟨hk, hclr⟩ := hs'
      refine ⟨hk, fun d hd => ?_⟩
      rcases hd with hd | hd
      · rcases List.mem_cons.mp hd with rfl | hd
        · exact hclr d (Or.inr hp)
        · exact hclr d (Or.inl hd)
      · exact hclr d (Or.inr hd)
    | some f =>
      rw [descs_clear hp] at hb
      refine (fileclose_spec hb).bind fun _ s1 hs1 => ?_
      obtain ⟨hb1, hk1⟩ := hs1
      show wp (setOfile p fd none >>= fun _ => exitLoop p fds) s1 _ _
      rw [wp_bind, wp_setOfile]
      have hk : Kept p s { s1 with ofile := putOfile s1.ofile p fd none } :=
        .close hp (by rw [hk1.ofile]) (hb1.congr rfl rfl rfl rfl) hk1.alive hk1.busy hk1.type
      refine (ih hk.books).mono (fun _ s' hs' => ?_) fun _ => False.elim
      obtain ⟨hk', hclr⟩ := hs'
      refine ⟨hk.trans hk', fun d hd => ?_⟩
      by_cases hdf : d = fd
      · exact hclr d (Or.inr (by rw [hdf]; exact putOfile_self))
      · rcases hd with hd | hd
        · exact hclr d (Or.inl ((List.mem_cons.mp hd).resolve_left hdf))
        · refine hclr d (Or.inr ?_)
          show putOfile s1.ofile p fd none p d = none
          rw [putOfile_of_ne fun h => hdf h.2, hk1.ofile, hd]

theorem exit_spec (h : Rest s) (hidle : s.busy p = none) :
    wp (exit p) s (fun _ s' => Rest s') (fun _ => False) := by
  rw [exit]
  refine (exitLoop_spec (List.finRange NOFILE) h.books).bind ?_
  rintro _ s1 ⟨hk, hclr⟩
  rw [wp_bind, wp_modify, wp_pure]
  refine h.next (hk.books.congr rfl rfl rfl rfl) hk.busy (fun q => ?_) fun f hf =>
    Or.inl (hk.type f hf)
  show _ ∧ upd s1.alive p false q = _ ∨ _ ∧ (upd s1.alive p false q = false → _)
  by_cases hq : q = p
  · refine Or.inr ⟨hq ▸ hidle, fun _ fd => ?_⟩
    rw [hq]
    exact hclr fd (Or.inl (List.mem_finRange fd))
  · rw [upd_of_ne hq, hk.alive]
    exact Or.inl ⟨hk.ofile q hq, rfl⟩

/-- **Every call** returns, and leaves the books in order. -/
theorem syscall_spec (h : Rest s) {a : Call} (ha : enabled s p a = true) :
    wp (syscall p a) s (fun _ s' => Rest s') (fun _ => False) := by
  have hboth : ∀ {b : Bool}, (s.alive p && b) = true → s.alive p = true ∧ b = true :=
    fun hb => (Bool.and_eq_true _ _).mp hb
  have hidle : (s.alive p && (s.busy p).isNone) = true → s.alive p = true ∧ s.busy p = none :=
    fun hb => ⟨(hboth hb).1, Option.isNone_iff_eq_none.mp (hboth hb).2⟩
  cases a with
  | «open» found omode => exact sysOpen_spec h (hidle ha).1 (hidle ha).2 found omode
  | pipe page =>
    cases page with
    | none => exact sysPipe_spec h (hidle ha).1 (hidle ha).2 nofun
    | some pg =>
      obtain ⟨hready, hpg⟩ := (Bool.and_eq_true _ _).mp ha
      refine sysPipe_spec h (hidle hready).1 (hidle hready).2 fun pg' heq => ?_
      rw [← Option.some.inj heq]
      exact Option.isNone_iff_eq_none.mp hpg
  | dup fd => exact sysDup_spec h (hidle ha).1 (hidle ha).2 fd
  | close fd => exact sysClose_spec h (hidle ha).1 (hidle ha).2 fd
  | enter fd write => exact enter_spec h (hidle ha).1 fd write
  | touch => exact (touch_spec h).mono (fun _ s' hs' => hs' ▸ h) fun _ => False.elim
  | leave => exact leave_spec h
  | fork child =>
    refine fork_spec h fun c hc => ?_
    rw [hc] at ha
    exact Bool.not_eq_true' _ ▸ ((Bool.and_eq_true _ _).mp ha).2
  | exit => exact exit_spec h (hidle ha).2

theorem syscall_ok (h : Rest s) {a : Call} (ha : enabled s p a = true) :
    ∃ r s', syscall p a s = .ok (r, s') ∧ Rest s' := by
  have hspec := syscall_spec h ha
  cases hrun : syscall p a s with
  | ok r => exact ⟨r.1, r.2, rfl, hspec.ok hrun⟩
  | error e => exact (hspec.error hrun).elim

theorem Rest.step {a : Slot × Call} {r : ℤ} (h : Rest s) (hstep : step s a = some (s', r)) :
    Rest s' := by
  rw [Ftable.step] at hstep
  split_ifs at hstep with ha
  obtain ⟨r', t, hrun, ht⟩ := syscall_ok h ha
  rw [hrun] at hstep
  cases hstep
  exact ht

theorem init_rest (p : Slot) : Rest (init p) := by
  have hzero : descs (init p).ofile = 0 := funext fun f => Finset.sum_eq_zero
    fun x _ => if_neg nofun
  refine ⟨⟨fun f => ?_, fun f _ => rfl, nofun, nofun, nofun, fun pg => rfl⟩,
    fun q _ => ⟨fun _ => rfl, rfl⟩,
    nofun, fun f hf => ?_⟩
  · rw [hzero]
    rfl
  · rw [hzero] at hf
    exact absurd hf (lt_irrefl 0)

/-- The end of a pipe is open exactly as long as there is a descriptor for it. -/
theorem Rest.isOpen_iff (h : Rest s) (pg : Page) (w : Bool) :
    (∃ q, s.pipe pg = some q ∧ q.isOpen w = true) ↔
      ∃ p fd f, s.ofile p fd = some f ∧ (s.file f).type = .pipe pg ∧ (s.file f).writable = w := by
  constructor
  · rintro ⟨q, hq, hopen⟩
    obtain ⟨f, htype, hw⟩ := (h.books.ends pg q hq).2 w hopen
    have hpos : 0 < descs s.ofile f := by
      by_contra hno
      rw [h.books.closed f (by omega)] at htype
      cases htype
    obtain ⟨p, fd, hfd⟩ := exists_of_descs_pos hpos
    exact ⟨p, fd, f, hfd, htype, hw⟩
  · rintro ⟨p, fd, f, -, htype, rfl⟩
    exact h.books.live f pg htype

/-- **The lifetime of open files and pipes.**  After any sequence of calls by any processes, the
count of a file structure is the number of descriptors that refer to it, which is positive if there
are any; an end of a pipe is open exactly as long as there is a descriptor for it; the pipe has its
page exactly as long as there is a descriptor for one of the ends, and otherwise the page was freed
as often as it was allocated; and every call returns. -/
theorem exec_lifetime {as : List (Slot × Call)} {rs : List ℤ}
    (hrun : exec step (init p) as = some (s, rs)) :
    (∀ f, (s.file f).ref = descs s.ofile f) ∧
      (∀ q fd f, s.ofile q fd = some f → 0 < (s.file f).ref) ∧
      (∀ pg w, (∃ q, s.pipe pg = some q ∧ q.isOpen w = true) ↔
        ∃ q fd f, s.ofile q fd = some f ∧ (s.file f).type = .pipe pg ∧ (s.file f).writable = w) ∧
      (∀ pg, (s.pipe pg).isSome = true ↔
        ∃ q fd f, s.ofile q fd = some f ∧ (s.file f).type = .pipe pg) ∧
      (∀ pg, s.allocs pg = s.frees pg + if (s.pipe pg).isSome then 1 else 0) ∧
      ∀ q a, enabled s q a = true → ∃ r s', syscall q a s = .ok (r, s') := by
  have h : Rest s := exec_invariant (fun h hstep => h.step hstep) (init_rest p) hrun
  refine ⟨h.books.ref, fun q fd f hf => ?_, h.isOpen_iff, fun pg => ?_, h.books.pages,
    fun q a ha => ?_⟩
  · rw [h.books.ref]
    exact descs_pos hf
  · constructor
    · intro hsome
      obtain ⟨e, he⟩ := Option.isSome_iff_exists.mp hsome
      obtain ⟨w, hw⟩ := (h.books.ends pg e he).1
      obtain ⟨q, fd, f, hf, htype, -⟩ := (h.isOpen_iff pg w).mp ⟨e, he, hw⟩
      exact ⟨q, fd, f, hf, htype⟩
    · rintro ⟨q, fd, f, -, htype⟩
      obtain ⟨e, he, -⟩ := h.books.live f pg htype
      rw [he]
      rfl
  · obtain ⟨r, s', hok, -⟩ := syscall_ok h ha
    exact ⟨r, s', hok⟩

end Calls

/-- A pipe is shared with a child.  The parent closes both ends, then the child writes and exits. -/
def sharedPipe : List (Slot × Call) :=
  let p : Slot := 0
  let c : Slot := 1
  [(p, .pipe (some 7)), (p, .fork (some c)), (p, .close 0), (p, .close 1), (c, .enter 1 true),
    (c, .touch), (c, .leave), (c, .exit)]

/-- The page of the pipe was allocated once and freed once. -/
theorem exec_lifetime_sharedPipe : ∃ s rs,
    exec step (init 0) sharedPipe = some (s, rs) ∧ s.frees 7 = 1 ∧
      s.allocs 7 = s.frees 7 + if (s.pipe 7).isSome then 1 else 0 := by
  have hrun : (exec step (init 0) sharedPipe).map (fun r => r.1.frees 7) = some 1 := by
    decide +kernel
  obtain ⟨⟨s, rs⟩, hexec, hfrees⟩ := Option.map_eq_some_iff.mp hrun
  exact ⟨s, rs, hexec, hfrees, (exec_lifetime hexec).2.2.2.2.1 7⟩

end Xv6.Ftable
