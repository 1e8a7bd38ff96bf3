import Xv6.Process.Turn
import Xv6.Sem.Invariant

/-!
# What a new process finds in its slot

`allocproc` takes a slot that an earlier process may have used, and neither it nor `fork` clears all
of it.  Here are the fields of a child that matter to scheduling and to its life, as `fork` leaves
them (`profile_fork`): the level and the semaphores are set, the files are copied over the old ones,
and `killed`, `ticks_count` and `age` stay what they were.

That does no harm to the files and to `chan`, because a slot without a process has none; `exit` has
closed the files, and `sleep` has cleared `chan` (`Neat`).  It does to the rest.  `wait` resets
`killed` only, and `kill` looks for a pid without looking at the state: it finds a free slot by the
pid of a `fork` that has failed, or by the pid 0 that `wait` leaves and that slots start with.

The machine is that of `Sem.Machine` with the descriptor tables `ofile`.
-/

namespace Xv6.Reuse

open Process Lib

/-- A `struct file *`: an entry of `ftable`. -/
abbrev File := Fin NFILE

abbrev Files := Fin NOFILE → Option File

/-- The kernel data of `Sem.Machine`, and the open files of every slot. -/
structure State where
  sys : Sem.State
  ofile : Slot → Files

/-- Zeroed memory. -/
def State.boot : State := ⟨Sem.State.boot, fun _ _ => none⟩

inductive Label
  /-- Any step that leaves the files alone. -/
  | sys (a : Sem.Label)
  /-- `fork` from the success of `cowuvm` to the call of `semcopy`. -/
  | forkParent (c : ℕ)
  /-- `exit`, which closes the files. -/
  | exit (c : ℕ)
  /-- A new descriptor for the file `f`. -/
  | fdalloc (c : ℕ) (f : File)
  | close (c : ℕ) (fd : Fin NOFILE)

/-- Is it one of the two steps of `Sem.Machine` that come with changes to the files? -/
def withFiles : Sem.Label → Bool
  | .forkParent _ => true
  | .proc (.exit _) => true
  | _ => false

/-- The loop of `fork` over the files of the parent: `np->ofile[i] = filedup(curproc->ofile[i])` for
those that are open. -/
def copyFiles (parent child : Files) : Files := fun fd =>
  match parent fd with
  | some f => some f
  | none => child fd

/-- The first free descriptor gets the file. -/
def fdalloc (files : Files) (f : File) : Files :=
  match (List.finRange NOFILE).find? fun fd => (files fd).isNone with
  | none => files
  | some fd => Function.update files fd (some f)

def step (s : State) : Label → Option (State × Sem.Event)
  | .sys a =>
    if withFiles a then none
    else (Sem.step s.sys a).map fun r => ({ s with sys := r.1 }, r.2)
  | .forkParent c =>
    match forkingOn s.sys.pt c with
    | none => none
    | some (p, np) =>
      (Sem.step s.sys (.forkParent c)).map fun r =>
        (⟨r.1, Function.update s.ofile np (copyFiles (s.ofile p) (s.ofile np))⟩, r.2)
  | .exit c =>
    match s.sys.pt.cpu c with
    | none => none
    | some p =>
      (Sem.step s.sys (.proc (.exit c))).map fun r =>
        (⟨r.1, Function.update s.ofile p fun _ => none⟩, r.2)
  | .fdalloc c f =>
    (s.sys.caller c).map fun p =>
      ({ s with ofile := Function.update s.ofile p (fdalloc (s.ofile p) f) }, .none)
  | .close c fd =>
    (s.sys.caller c).map fun p =>
      ({ s with ofile := Function.update s.ofile p (Function.update (s.ofile p) fd none) }, .none)

/-- A `fork` on CPU `c` from its start to its end. -/
def fork (c : ℕ) : List Label :=
  [.sys (.proc (.forkAlloc c)), .sys (.forkInit c), .forkParent c] ++
    List.replicate (PROCMAXSEM + 1) (.sys (.semcopy c)) ++ [.sys (.forkEnqueue c)]

def nextSlot (s : State) : Option Slot :=
  slots.find? fun p => (s.sys.pt.proc p).state = .unused

/-- The fields of a process that matter to scheduling and to its life. -/
structure Profile where
  killed : Bool
  ticksCount : ℕ
  age : ℕ
  nice : ℤ
  desc : Sem.Desc
  chan : Option Chan
  ofile : Files

/-- The profile of the process in slot `p`. -/
def profile (s : State) (p : Slot) : Profile where
  killed := (s.sys.pt.proc p).killed
  ticksCount := (s.sys.pt.proc p).ticksCount
  age := (s.sys.pt.proc p).age
  nice := (s.sys.pt.proc p).nice
  desc := s.sys.desc p
  chan := (s.sys.pt.proc p).chan
  ofile := s.ofile p

/-- A process that nobody has killed and that has not been scheduled. -/
def Profile.Fresh (x : Profile) : Prop := x.killed = false ∧ x.ticksCount = 0 ∧ x.age = 0

/-- The two states differ in what unused slots hold, at most. -/
structure Agree (s t : State) : Prop where
  sems : s.sys.sems = t.sys.sems
  levels : s.sys.pt.levels = t.sys.pt.levels
  nextpid : s.sys.pt.nextpid = t.sys.pt.nextpid
  initproc : s.sys.pt.initproc = t.sys.pt.initproc
  cpu : s.sys.pt.cpu = t.sys.pt.cpu
  unused : ∀ p, (s.sys.pt.proc p).state = .unused ↔ (t.sys.pt.proc p).state = .unused
  used : ∀ p, (s.sys.pt.proc p).state ≠ .unused → s.sys.pt.proc p = t.sys.pt.proc p ∧
    s.sys.desc p = t.sys.desc p ∧ s.sys.pc p = t.sys.pc p ∧ s.ofile p = t.ofile p

variable {s t u : State} {a : Label} {e : Sem.Event} {c : ℕ} {p np r : Slot} {es : List Sem.Event}
  {b : Sem.Label}

theorem sys_eq_some (hs : step s (.sys b) = some (t, e)) :
    withFiles b = false ∧ ∃ u, Sem.step s.sys b = some (u, e) ∧ t = { s with sys := u } := by
  rw [step] at hs
  split_ifs at hs with hb
  obtain ⟨⟨u, e'⟩, hu, heq⟩ := Option.map_eq_some_iff.mp hs
  cases heq
  exact ⟨Bool.eq_false_of_not_eq_true hb, u, hu, rfl⟩

/-! ## Slots without a process -/

/-- The process that exits in a step of `Sem.Machine`. -/
def exiting (s : Sem.State) : Sem.Label → Option Slot
  | .proc a => Process.exiting s.pt a
  | _ => none

theorem exiting_eq_none {s : Sem.State} {a : Sem.Label} (ha : withFiles a = false) :
    exiting s a = none := by
  unfold exiting
  split
  · rename_i b
    unfold Process.exiting
    split
    · cases ha
    · rfl
  · rfl

theorem semStep_turn {s t : Sem.State} {a : Sem.Label} (h : Sem.SemInv s)
    (hs : Sem.step s a = some (t, e)) (r : Slot) :
    Turn s.pt (exiting s a) r (t.pt.proc r) := by
  cases Sem.step_part hs with
  | proc _ hstep => exact step_turn h.pt hstep r
  | userinit hstep => exact step_turn h.pt hstep r
  | forkInit => exact turn_refl
  | forkFail _ _ hstep => exact step_turn h.pt hstep r
  | forkParent _ _ hstep => exact step_turn h.pt hstep r
  | copy => exact turn_refl
  | copied => exact turn_refl
  | forkEnqueue _ _ hstep => exact step_turn h.pt hstep r
  | refused => exact turn_refl
  | get => exact turn_refl
  | attach => exact turn_refl
  | free => exact turn_refl
  | down => exact turn_refl
  | slept => exact turn_sleep (Or.inl rfl) r
  | up => exact turn_refl
  | @wakeup c p key =>
    have hw := wakes_wakeup1 (s := s.pt) (some (.sem key))
    generalize wakeup1 (some (.sem key)) s.pt = u at hw ⊢
    exact turn_wakes hw r

/-- No process is in the slot, or it has exited, or a `fork` has claimed the slot and can still
fail. -/
def Vacant (s : PTable) (r : Slot) : Prop :=
  (s.proc r).state = .unused ∨ (s.proc r).state = .zombie ∨
    ∃ p, (s.proc p).context = .forking r

theorem vacant_of_turn {s t : PTable} {x : Option Slot} (h : ∀ q, Turn s x q (t.proc q))
    (hx : x ≠ some r) (hv : Vacant t r) : Vacant s r := by
  have hgone : (t.proc r).state = .unused ∨ (t.proc r).state = .zombie → Vacant s r := by
    intro hst
    have hlive : ∀ {st}, (t.proc r).state = st → st ≠ .unused → st ≠ .zombie → Vacant s r := by
      rintro _ rfl h1 h2
      exact absurd hst (not_or.mpr ⟨h1, h2⟩)
    cases h r with
    | keep hst' hchan hctx =>
      rw [hst'] at hst
      exact hst.imp_right Or.inl
    | queue hst' hne hchan hctx => exact hlive hst' nofun nofun
    | resume hst' hchan hctx => exact hlive hst' nofun nofun
    | sleep hst' hctx => exact hlive hst' nofun nofun
    | move hrun hst' hchan hctx => exact hlive hst' nofun nofun
    | claim hold hst' hchan hctx => exact Or.inl hold
    | drop p hp hold hst' hchan hctx => exact Or.inr (Or.inr ⟨p, hp⟩)
    | exit hx' hrun hst' hchan hctx => exact absurd hx' hx
    | reap hold hst' hchan hctx => exact Or.inr (Or.inl hold)
  rcases hv with hst | hst | ⟨p, hp⟩
  · exact hgone (Or.inl hst)
  · exact hgone (Or.inr hst)
  · have hsame : (t.proc p).context = (s.proc p).context → Vacant s r := fun hctx =>
      Or.inr (Or.inr ⟨p, hctx.symm.trans hp⟩)
    cases h p with
    | keep hst hchan hctx => exact hsame hctx
    | queue hst hne hchan hctx => exact hsame hctx
    | resume hst hchan hctx =>
      refine hsame (hctx.trans ?_)
      rw [hp] at hctx
      unfold Proc.resume at hctx ⊢
      dsimp only at hctx ⊢
      split_ifs at hctx ⊢
      rfl
    | sleep hst hctx =>
      rw [hp] at hctx
      rcases hctx with hctx | hctx <;> cases hctx
    | move hrun hst hchan hctx => exact Or.inl (hctx r hp)
    | claim hold hst hchan hctx => exact hsame hctx
    | drop q hq hold hst hchan hctx => exact hsame hctx
    | exit hx' hrun hst hchan hctx => exact hsame hctx
    | reap hold hst hchan hctx => exact hsame hctx

/-- A vacant slot has no open files, and no process outside of `sleep` has a channel. -/
structure Neat (s : State) : Prop where
  sem : Sem.SemInv s.sys
  tidy : ∀ r, Tidy (s.sys.pt.proc r)
  files : ∀ r, Vacant s.sys.pt r → s.ofile r = fun _ => none

theorem neat_boot : Neat State.boot :=
  ⟨Sem.semInv_boot, fun _ => Or.inl rfl, fun _ _ => rfl⟩

theorem not_vacant_of_cpu {s : PTable} (hi : Inv s) (hc : s.cpu c = some p) : ¬ Vacant s p := by
  have hrun : (s.proc p).state = .running := hi.cpu.running hc
  rintro (hst | hst | ⟨q, hq⟩)
  · rw [hrun] at hst
    cases hst
  · rw [hrun] at hst
    cases hst
  · have hst : (s.proc p).state = .embryo :=
      hi.fork.embryo (p := q) (by rw [PTable.contexts, hq]; rfl)
    rw [hrun] at hst
    cases hst

/-- A slot whose `fork` can no longer fail is not vacant. -/
theorem not_vacant_of_forked {s : PTable} (hi : Inv s) (hp : (s.proc p).context = .forked np) :
    ¬ Vacant s np := by
  have hchild : (s.contexts p).child = some np := by
    rw [PTable.contexts, hp]
    rfl
  have hembryo : (s.proc np).state = .embryo := hi.fork.embryo hchild
  rintro (hst | hst | ⟨q, hq⟩)
  · rw [hembryo] at hst
    cases hst
  · rw [hembryo] at hst
    cases hst
  · obtain rfl : p = q := hi.fork.unique hchild (by rw [PTable.contexts, hq]; rfl)
    rw [hp] at hq
    cases hq

theorem forkParent_pt {s t : Sem.State} (hp : forkingOn s.pt c = some (p, np))
    (hs : Sem.step s (.forkParent c) = some (t, e)) :
    t.pt = (s.pt.modProc np fun x => { x with parent := some p }).modProc p fun x =>
      { x with context := .forked np } := by
  cases Sem.step_part hs with
  | forkParent _ _ hstep =>
    simp only [Process.step, Process.forkParent, hp] at hstep
    exact (Prod.mk.inj (Option.some.inj hstep)).1.symm
  | refused ha => cases ha
  | down ha => cases ha
  | slept ha => cases ha

theorem Neat.sysStep (h : Neat s) {u : Sem.State} (hs : Sem.step s.sys b = some (u, e)) :
    Sem.SemInv u ∧ (∀ r, Tidy (u.pt.proc r)) ∧
      ∀ r, exiting s.sys b ≠ some r → Vacant u.pt r → s.ofile r = fun _ => none := by
  have hturn := semStep_turn h.sem hs
  exact ⟨h.sem.step hs, fun r => (hturn r).tidy (h.tidy r),
    fun r hx hv => h.files r (vacant_of_turn hturn hx hv)⟩

theorem Neat.setFiles (h : Neat s) (hp : s.sys.caller c = some p) (f : Files) :
    Neat { s with ofile := Function.update s.ofile p f } := by
  refine ⟨h.sem, h.tidy, fun r hv => ?_⟩
  change Function.update s.ofile p f r = _
  rw [Function.update_of_ne]
  · exact h.files r hv
  · rintro rfl
    exact not_vacant_of_cpu h.sem.pt (runningAt_eq_some (Sem.caller_eq_some hp).1).1 hv

theorem Neat.step (h : Neat s) (hs : step s a = some (t, e)) : Neat t := by
  cases a with
  | sys b =>
    obtain ⟨hb, u, hu, rfl⟩ := sys_eq_some hs
    obtain ⟨hsem, htidy, hfiles⟩ := h.sysStep hu
    refine ⟨hsem, htidy, fun r hv => hfiles r ?_ hv⟩
    rw [exiting_eq_none hb]
    nofun
  | forkParent c =>
    simp only [Reuse.step] at hs
    split at hs
    · cases hs
    · rename_i p np hp
      obtain ⟨⟨u, e'⟩, hu, heq⟩ := Option.map_eq_some_iff.mp hs
      cases heq
      obtain ⟨hsem, htidy, hfiles⟩ := h.sysStep hu
      refine ⟨hsem, htidy, fun r hv => ?_⟩
      have hne : r ≠ np := by
        rintro rfl
        refine not_vacant_of_forked (p := p) hsem.pt ?_ hv
        rw [forkParent_pt hp hu, PTable.modProc_proc_self]
      change Function.update s.ofile np _ r = _
      rw [Function.update_of_ne hne]
      exact hfiles r nofun hv
  | exit c =>
    simp only [Reuse.step] at hs
    split at hs
    · cases hs
    · rename_i p hp
      obtain ⟨⟨u, e'⟩, hu, heq⟩ := Option.map_eq_some_iff.mp hs
      cases heq
      obtain ⟨hsem, htidy, hfiles⟩ := h.sysStep hu
      refine ⟨hsem, htidy, fun r hv => ?_⟩
      change Function.update s.ofile p _ r = _
      by_cases hr : r = p
      · rw [hr, Function.update_self]
      · rw [Function.update_of_ne hr]
        refine hfiles r ?_ hv
        change s.sys.pt.cpu c ≠ some r
        rw [hp]
        exact fun hh => hr (Option.some.inj hh).symm
  | fdalloc c f =>
    obtain ⟨p, hp, heq⟩ := Option.map_eq_some_iff.mp hs
    cases heq
    exact h.setFiles hp _
  | close c fd =>
    obtain ⟨p, hp, heq⟩ := Option.map_eq_some_iff.mp hs
    cases heq
    exact h.setFiles hp _

theorem Neat.exec (h : Neat s) {as : List Label}
    (hs : Lib.exec Reuse.step s as = some (t, es)) : Neat t :=
  exec_invariant (fun hI hs => hI.step hs) h hs

/-! ## A fork -/

/-- The process `p` on CPU `c` has claimed the slot `np`, starting from `s`. -/
structure Begun (s t : State) (c : ℕ) (p np : Slot) : Prop where
  ne : p ≠ np
  cpu : t.sys.pt.cpu c = some p
  child : (t.sys.pt.proc p).context.child = some np
  kept : (t.sys.pt.proc np).killed = (s.sys.pt.proc np).killed ∧
    (t.sys.pt.proc np).ticksCount = (s.sys.pt.proc np).ticksCount ∧
    (t.sys.pt.proc np).age = (s.sys.pt.proc np).age ∧
    (t.sys.pt.proc np).chan = (s.sys.pt.proc np).chan
  nice : (t.sys.pt.proc np).nice = DEFAULTPLEVEL
  desc : t.sys.desc p = s.sys.desc p
  files : t.ofile np = if (t.sys.pt.proc p).context = .forked np
    then copyFiles (s.ofile p) (s.ofile np) else s.ofile np
  parent : t.ofile p = s.ofile p
  count : t.sys.pc p = .copied → (t.sys.desc np).semcount = (s.sys.desc p).semcount

/-- The locked part of `allocproc` in `fork`, if it finds a slot. -/
theorem forkAlloc_spec {s t : PTable} {e : Process.Event} (hi : Inv s)
    (hs : forkAlloc c s = some (t, e)) (hf : forkingOn t c = some (p, np)) :
    (slots.find? fun q => (s.proc q).state = .unused) = some np ∧ p ≠ np ∧ s.cpu c = some p ∧
      t.cpu c = some p ∧ (t.proc p).context = .forking np ∧ t.proc np =
        { s.proc np with state := .embryo, pid := s.nextpid, nice := DEFAULTPLEVEL } := by
  obtain ⟨hc', hctx'⟩ := forkingOn_eq_some hf
  cases hi.section_of_step (a := .forkAlloc c) hs with
  | forkNone hc hctx =>
    -- there is no slot, and the process is where it was
    rw [hc] at hc'
    rw [← Option.some.inj hc', hctx] at hctx'
    cases hctx'
  | forkAlloc hc _ _ _ hne hfind =>
    cases hc.symm.trans hc'
    rw [PTable.modProc_proc_self] at hctx'
    cases hctx'
    refine ⟨hfind, hne, hc, hc', ?_, ?_⟩
    · rw [PTable.modProc_proc_self]
    · rw [PTable.modProc_proc, if_neg hne.symm, PTable.claim, PTable.modProc_proc_self]

theorem begun_forkAlloc (h : Neat s) (hs : step s (.sys (.proc (.forkAlloc c))) = some (t, e))
    (hf : forkingOn t.sys.pt c = some (p, np)) :
    s.sys.pt.cpu c = some p ∧ nextSlot s = some np ∧ Begun s t c p np := by
  obtain ⟨-, u, hu, rfl⟩ := sys_eq_some hs
  simp only [Sem.step] at hu
  split_ifs at hu with hallow
  obtain ⟨pt', e'', hstep, rfl, -⟩ := Sem.lift_eq_some hu
  obtain ⟨hfind, hne, hc, hc', hctx, hnp⟩ := forkAlloc_spec h.sem.pt hstep hf
  have hidle : s.sys.pc p = .idle := Sem.idle_of_allows (a := .forkAlloc c) hallow hc
  refine ⟨hc, hfind, hne, hc', ?_, ?_, ?_, rfl, ?_, rfl, fun hpc => ?_⟩
  · change (pt'.proc p).context.child = some np
    rw [hctx]
    rfl
  · change (pt'.proc np).killed = _ ∧ (pt'.proc np).ticksCount = _ ∧ (pt'.proc np).age = _ ∧
      (pt'.proc np).chan = _
    rw [hnp]
    exact ⟨rfl, rfl, rfl, rfl⟩
  · change (pt'.proc np).nice = _
    rw [hnp]
  · change s.ofile np = if (pt'.proc p).context = _ then _ else _
    rw [hctx, if_neg (by rintro ⟨⟩)]
  · change s.sys.pc p = .copied at hpc
    rw [hidle] at hpc
    cases hpc

theorem Begun.eq_of_child (h : Begun s t c p np) {q n : Slot}
    (hf : t.sys.pt.cpu c = some q ∧ (t.sys.pt.proc q).context.child = some n) : q = p ∧ n = np := by
  obtain ⟨hc, hchild⟩ := hf
  obtain rfl : p = q := Option.some.inj (h.cpu.symm.trans hc)
  exact ⟨rfl, Option.some.inj (hchild.symm.trans h.child)⟩

theorem Begun.setDesc (h : Begun s t c p np) (m : Sem.Sems) {d : Sem.Desc} {x : Sem.Pc}
    (hx : x = .copied → d.semcount = (s.sys.desc p).semcount) :
    Begun s { t with sys := (({ t.sys with sems := m } : Sem.State).setDesc np d).setPc p x } c p
      np := by
  refine ⟨h.ne, h.cpu, h.child, h.kept, h.nice, (Function.update_of_ne h.ne _ _).trans h.desc,
    h.files, h.parent, fun hpc => ?_⟩
  change Function.update t.sys.pc p x p = .copied at hpc
  rw [Function.update_self] at hpc
  change (Function.update t.sys.desc np d np).semcount = _
  rw [Function.update_self]
  exact hx hpc

theorem Begun.forkInit (h : Begun s t c p np)
    (hs : step t (.sys (.forkInit c)) = some (u, e)) : Begun s u c p np := by
  obtain ⟨-, v, hv, rfl⟩ := sys_eq_some hs
  obtain ⟨q, n, hf, -, rfl, -⟩ := Sem.forkInit_eq_some hv
  obtain ⟨rfl, rfl⟩ := h.eq_of_child (Sem.child_of_forkingOn hf)
  exact h.setDesc t.sys.sems nofun

theorem Begun.forkParent (h : Begun s t c p np)
    (hs : step t (.forkParent c) = some (u, e)) : Begun s u c p np := by
  simp only [step] at hs
  split at hs
  · cases hs
  · rename_i q n hf
    obtain ⟨⟨v, e'⟩, hv, heq⟩ := Option.map_eq_some_iff.mp hs
    cases heq
    obtain ⟨rfl, rfl⟩ := h.eq_of_child (Sem.child_of_forkingOn hf)
    have hpt := forkParent_pt hf hv
    obtain ⟨q', n', pt', e'', hf', hpc, -, rfl, -⟩ := Sem.fork_part (P := fun x => x = .inited) hv
    obtain ⟨rfl, rfl⟩ : q' = q ∧ n' = n := h.eq_of_child (Sem.child_of_forkingOn hf')
    have hq : (pt'.proc q').context = .forked n' := by
      rw [show pt' = _ from hpt, PTable.modProc_proc_self]
    have hn : pt'.proc n' = { t.sys.pt.proc n' with parent := some q' } := by
      rw [show pt' = _ from hpt, PTable.modProc_proc, if_neg h.ne.symm, PTable.modProc_proc_self]
    have hfiles := h.files
    rw [if_neg (by rw [(forkingOn_eq_some hf).2]; nofun)] at hfiles
    refine ⟨h.ne, ?_, ?_, ?_, ?_, h.desc, ?_, ?_, fun hpc' => ?_⟩
    · change pt'.cpu c = some q'
      rw [show pt' = _ from hpt]
      exact h.cpu
    · change (pt'.proc q').context.child = some n'
      rw [hq]
      rfl
    · change (pt'.proc n').killed = _ ∧ (pt'.proc n').ticksCount = _ ∧ (pt'.proc n').age = _ ∧
        (pt'.proc n').chan = _
      rw [hn]
      exact h.kept
    · change (pt'.proc n').nice = _
      rw [hn]
      exact h.nice
    · change Function.update t.ofile n' _ n' = if (pt'.proc q').context = _ then _ else _
      rw [hq, if_pos rfl, Function.update_self, hfiles, h.parent]
    · change Function.update t.ofile n' _ q' = _
      rw [Function.update_of_ne h.ne]
      exact h.parent
    · rw [show (({ t.sys with pt := pt' } : Sem.State).setPc q' (.copying 0)).pc q' = .copying 0
        from Function.update_self ..] at hpc'
      cases hpc'

theorem Begun.semcopy (h : Begun s t c p np)
    (hs : step t (.sys (.semcopy c)) = some (u, e)) : Begun s u c p np := by
  obtain ⟨-, v, hv, rfl⟩ := sys_eq_some hs
  cases Sem.step_part hv with
  | @copy _ q n i m d hf =>
    obtain ⟨rfl, rfl⟩ := h.eq_of_child (Sem.child_of_forkedOn hf)
    exact h.setDesc m nofun
  | refused ha => cases ha
  | down ha => cases ha
  | slept ha => cases ha
  | @copied _ q n i hf =>
    obtain ⟨rfl, rfl⟩ := h.eq_of_child (Sem.child_of_forkedOn hf)
    exact h.setDesc t.sys.sems fun _ => by rw [← h.desc]

theorem begun_of_exec (h : Neat s)
    (hs : exec step s ([.sys (.proc (.forkAlloc c)), .sys (.forkInit c), .forkParent c] ++
      List.replicate (PROCMAXSEM + 1) (.sys (.semcopy c))) = some (t, es)) :
    ∃ p np, s.sys.pt.cpu c = some p ∧ nextSlot s = some np ∧ Begun s t c p np := by
  simp only [List.cons_append, List.nil_append] at hs
  obtain ⟨s1, e1, es1, h1, hs, -⟩ := exec_cons_iff.mp hs
  obtain ⟨s2, e2, es2, h2, hs, -⟩ := exec_cons_iff.mp hs
  obtain ⟨s3, e3, es3, h3, hs, -⟩ := exec_cons_iff.mp hs
  obtain ⟨-, v, hv, -⟩ := sys_eq_some h2
  obtain ⟨p, np, hf, -⟩ := Sem.forkInit_eq_some hv
  obtain ⟨hc, hnext, hbegun⟩ := begun_forkAlloc h h1 hf
  refine ⟨p, np, hc, hnext, ?_⟩
  refine exec_invariant_of (I := fun t => Begun s t c p np)
    (C := fun _ a => a = .sys (.semcopy c)) ?_ ((hbegun.forkInit h2).forkParent h3) ?_ hs
  · rintro t a u e ht rfl hu
    exact ht.semcopy hu
  · intro as1 a as2 t es has _
    refine List.eq_of_mem_replicate (n := PROCMAXSEM + 1) ?_
    rw [has]
    exact List.mem_append_right _ List.mem_cons_self

theorem forkEnqueue_spec (hn : Neat t) (h : Begun s t c p np)
    (hs : step t (.sys (.forkEnqueue c)) = some (u, e)) :
    (t.sys.pt.proc p).context = .forked np ∧ t.sys.desc np = s.sys.desc p ∧
      profile u np = profile t np := by
  obtain ⟨-, v, hv, rfl⟩ := sys_eq_some hs
  obtain ⟨q, n, pt', e'', hf, hpc, hstep, rfl, -⟩ := Sem.fork_part (P := fun x => x = .copied) hv
  obtain ⟨rfl, rfl⟩ := h.eq_of_child (Sem.child_of_forkedOn hf)
  have hctx := (forkedOn_eq_some hf).2
  simp only [Process.step, Process.forkEnqueue, hf] at hstep
  cases hstep
  refine ⟨hctx, ?_, ?_⟩
  · obtain ⟨-, n', hn', hids⟩ := hn.sem.copy q PROCMAXSEM (by rw [hpc]; rfl)
    obtain rfl : n' = n := Option.some.inj (hn'.symm.trans h.child)
    have hsemids : (t.sys.desc n').semids = (s.sys.desc q).semids := by
      rw [hids, h.desc, Nat.sub_self, List.replicate_zero, List.append_nil, ← h.desc]
      exact List.take_of_length_le (hn.sem.length q).le
    have hcount := h.count hpc
    cases hd : t.sys.desc n'
    cases hd' : s.sys.desc q
    rw [hd, hd'] at hsemids hcount
    exact congrArg₂ Sem.Desc.mk hsemids hcount
  · have hfield : ∀ {β : Type} (g : Proc → β),
        (∀ y st n b, g { y with state := st, next := n, back := b } = g y) →
        g (((enqueue n t.sys.pt).modProc q fun x => { x with context := .user }).proc n) =
          g (t.sys.pt.proc n) := by
      intro β g hg
      rw [PTable.modProc_proc, if_neg h.ne.symm]
      exact enqueue_field g hg n t.sys.pt n
    have h1 := hfield (·.killed) fun _ _ _ _ => rfl
    have h2 := hfield (·.ticksCount) fun _ _ _ _ => rfl
    have h3 := hfield (·.age) fun _ _ _ _ => rfl
    have h4 := hfield (·.nice) fun _ _ _ _ => rfl
    have h5 := hfield (·.chan) fun _ _ _ _ => rfl
    change Profile.mk _ _ _ _ _ _ _ = Profile.mk _ _ _ _ _ _ _
    rw [Profile.mk.injEq]
    exact ⟨h1, h2, h3, h4, rfl, h5, rfl⟩

theorem state_of_nextSlot (h : nextSlot s = some p) : (s.sys.pt.proc p).state = .unused := by
  unfold nextSlot at h
  simpa using List.find?_some h

/-- **The child of a `fork`** that was not interrupted: what it inherits, what is set, and what was
in the slot before. -/
theorem profile_fork (h : Neat s) (hs : exec step s (fork c) = some (t, es)) :
    ∃ p np, s.sys.pt.cpu c = some p ∧ nextSlot s = some np ∧ profile t np =
      { killed := (s.sys.pt.proc np).killed
        ticksCount := (s.sys.pt.proc np).ticksCount
        age := (s.sys.pt.proc np).age
        nice := DEFAULTPLEVEL
        desc := s.sys.desc p
        chan := none
        ofile := s.ofile p } := by
  obtain ⟨u, es', e, hu, hlast, -⟩ := exec_concat_iff.mp hs
  obtain ⟨p, np, hc, hnext, hbegun⟩ := begun_of_exec h hu
  obtain ⟨hctx, hdesc, hprofile⟩ := forkEnqueue_spec (h.exec hu) hbegun hlast
  have hunused := state_of_nextSlot hnext
  have hchan : (s.sys.pt.proc np).chan = none :=
    (h.tidy np).chan_eq_none (by rw [hunused]; nofun) (by rw [hunused]; nofun)
  have hfiles : u.ofile np = s.ofile p := by
    rw [hbegun.files, if_pos hctx, h.files np (Or.inl hunused)]
    funext fd
    unfold copyFiles
    cases s.ofile p fd <;> rfl
  refine ⟨p, np, hc, hnext, hprofile.trans ?_⟩
  obtain ⟨h1, h2, h3, h4⟩ := hbegun.kept
  unfold profile
  rw [h1, h2, h3, h4, hbegun.nice, hdesc, hchan, hfiles]

/-! ## Two histories -/

theorem Agree.nextSlot_eq (h : Agree s t) : nextSlot s = nextSlot t := by
  unfold nextSlot
  congr 1
  funext p
  exact decide_eq_decide.mpr (h.unused p)

/-- What is left in the slot of the child does not show. -/
def Blank (s : State) (p : Slot) : Prop := (profile s p).Fresh

instance (s : State) (p : Slot) : Decidable (Blank s p) := inferInstanceAs (Decidable (_ ∧ _ ∧ _))

/-- **Two forks by the same process**, in reachable states that differ only in what unused slots
hold: the children agree and are fresh if and only if nothing has been left of `killed`,
`ticks_count` and `age` in the slot that `allocproc` takes. -/
theorem children_agree_iff {s1 s2 t1 t2 : State} {as1 as2 : List Label}
    {es1 es2 fs1 fs2 : List Sem.Event} (h1 : exec step State.boot as1 = some (s1, es1))
    (h2 : exec step State.boot as2 = some (s2, es2)) (hag : Agree s1 s2)
    (hf1 : exec step s1 (fork c) = some (t1, fs1)) (hf2 : exec step s2 (fork c) = some (t2, fs2)) :
    ∃ np, nextSlot s1 = some np ∧ nextSlot s2 = some np ∧
      ((profile t1 np = profile t2 np ∧ (profile t1 np).Fresh ∧ (profile t2 np).Fresh) ↔
        Blank s1 np ∧ Blank s2 np) := by
  obtain ⟨p1, np, hc1, hnext1, hprofile1⟩ := profile_fork (neat_boot.exec h1) hf1
  obtain ⟨p2, np2, hc2, hnext2, hprofile2⟩ := profile_fork (neat_boot.exec h2) hf2
  obtain rfl : np = np2 := by
    rw [hag.nextSlot_eq, hnext2] at hnext1
    exact (Option.some.inj hnext1).symm
  obtain rfl : p1 = p2 := by
    rw [hag.cpu, hc2] at hc1
    exact (Option.some.inj hc1).symm
  have hused : (s1.sys.pt.proc p1).state ≠ .unused := by
    rw [show (s1.sys.pt.proc p1).state = .running from
      (neat_boot.exec h1).sem.pt.cpu.running hc1]
    nofun
  obtain ⟨-, hdesc, -, hofile⟩ := hag.used p1 hused
  refine ⟨np, hnext1, hnext2, ?_⟩
  rw [hprofile1, hprofile2, Profile.mk.injEq]
  unfold Blank Profile.Fresh profile
  dsimp only
  rw [hdesc, hofile]
  constructor
  · rintro ⟨-, hfresh1, hfresh2⟩
    exact ⟨hfresh1, hfresh2⟩
  · rintro ⟨hb1, hb2⟩
    refine ⟨⟨?_, ?_, ?_, rfl, rfl, rfl, rfl⟩, hb1, hb2⟩
    · rw [hb1.1, hb2.1]
    · rw [hb1.2.1, hb2.2.1]
    · rw [hb1.2.2, hb2.2.2]

def bootRun : List Label := [.sys .userinit, .sys (.proc (.dispatch 0))]

/-- `kill` marks a slot that holds no process. -/
theorem agree_kill {pid : ℤ} (hfind : (slots.find? fun q => (s.sys.pt.proc q).pid = pid) = some p)
    (hp : (s.sys.pt.proc p).state = .unused)
    (hs : step s (.sys (.proc (.kill pid))) = some (t, e)) : Agree s t := by
  obtain ⟨-, u, hu, rfl⟩ := sys_eq_some hs
  simp only [Sem.step] at hu
  split_ifs at hu
  obtain ⟨pt', e'', hstep, rfl, -⟩ := Sem.lift_eq_some hu
  have hpt : pt' = s.sys.pt.modProc p fun x => { x with killed := true } := by
    simp only [Process.step, kill, hfind] at hstep
    rw [if_neg] at hstep
    · exact (Prod.mk.inj (Option.some.inj hstep)).1.symm
    · rw [PTable.modProc_proc_self, hp]
      rintro ⟨⟩
  subst hpt
  refine ⟨rfl, rfl, rfl, rfl, rfl, fun q => ?_, fun q hq => ⟨?_, rfl, rfl, rfl⟩⟩
  · have hst := PTable.modProc_field (f := fun x => { x with killed := true }) s.sys.pt p q
      (·.state)
    exact ⟨fun h => hst.trans h, fun h => hst.symm.trans h⟩
  · have hqp : q ≠ p := by
      rintro rfl
      exact hq hp
    exact (if_neg hqp).symm

/-- A `fork` that finds no memory leaves the slot unused, with its `pid`. -/
def failRun : List Label := bootRun ++ [.sys (.proc (.forkAlloc 0)), .sys (.forkFail 0)]

/-- The first process calls `kill(0)` in one of the two histories: this marks a slot, but not the
one that its next child gets. -/
theorem children_agree_after_failed_fork :
    ∃ s1 s2 t1 t2 es1 es2 fs1 fs2 np q, exec step State.boot failRun = some (s1, es1) ∧
      exec step State.boot (failRun ++ [.sys (.proc (.kill 0))]) = some (s2, es2) ∧
      (s1.sys.pt.proc q).killed = false ∧ (s2.sys.pt.proc q).killed = true ∧
      exec step s1 (fork 0) = some (t1, fs1) ∧ exec step s2 (fork 0) = some (t2, fs2) ∧
      nextSlot s1 = some np ∧ profile t1 np = profile t2 np ∧ (profile t1 np).Fresh := by
  have hrun : ((exec step State.boot failRun).bind fun r1 =>
      (step r1.1 (.sys (.proc (.kill 0)))).bind fun r2 =>
      (exec step r1.1 (fork 0)).bind fun r3 => (exec step r2.1 (fork 0)).map fun r4 =>
        ((slots.find? fun q => (r1.1.sys.pt.proc q).pid = 0),
          decide ((r1.1.sys.pt.proc 2).state = .unused),
          (r1.1.sys.pt.proc 2).killed, (r2.1.sys.pt.proc 2).killed,
          nextSlot r1.1, decide (Blank r1.1 1 ∧ Blank r2.1 1))) =
      some (some 2, true, false, true, some 1, true) := by
    decide +kernel
  obtain ⟨⟨s1, es1⟩, h1, hrun⟩ := Option.bind_eq_some_iff.mp hrun
  obtain ⟨⟨s2, e2⟩, h2, hrun⟩ := Option.bind_eq_some_iff.mp hrun
  obtain ⟨⟨t1, fs1⟩, hf1, hrun⟩ := Option.bind_eq_some_iff.mp hrun
  obtain ⟨⟨t2, fs2⟩, hf2, heq⟩ := Option.map_eq_some_iff.mp hrun
  simp only [Prod.mk.injEq, decide_eq_true_eq] at heq
  obtain ⟨hfind, hunused, hk1, hk2, hnext, hblank⟩ := heq
  have hrun2 := exec_concat_iff.mpr ⟨s1, es1, e2, h1, h2, rfl⟩
  obtain ⟨np, hnp, -, hiff⟩ := children_agree_iff h1 hrun2 (agree_kill hfind hunused h2) hf1 hf2
  obtain rfl := Option.some.inj (hnp.symm.trans hnext)
  obtain ⟨hsame, hfresh, -⟩ := hiff.mpr hblank
  exact ⟨s1, s2, t1, t2, es1, _, fs1, fs2, _, _, h1, hrun2, hk1, hk2, hf1, hf2, hnp, hsame, hfresh⟩

/-- **Counterexample.**  The first process calls `kill(0)` in one of the two histories: this marks
the slot that its next child gets, and the child is born killed. -/
theorem children_disagree_after_kill :
    ∃ s1 s2 t1 t2 es1 es2 fs1 fs2 np, exec step State.boot bootRun = some (s1, es1) ∧
      exec step State.boot (bootRun ++ [.sys (.proc (.kill 0))]) = some (s2, es2) ∧
      Agree s1 s2 ∧ exec step s1 (fork 0) = some (t1, fs1) ∧
      exec step s2 (fork 0) = some (t2, fs2) ∧ nextSlot s1 = some np ∧
      (profile t1 np).killed = false ∧ (profile t2 np).killed = true := by
  have hrun : ((exec step State.boot bootRun).bind fun r1 =>
      (step r1.1 (.sys (.proc (.kill 0)))).bind fun r2 =>
      (exec step r1.1 (fork 0)).bind fun r3 => (exec step r2.1 (fork 0)).map fun r4 =>
        ((slots.find? fun q => (r1.1.sys.pt.proc q).pid = 0), nextSlot r1.1,
          (profile r3.1 1).killed, (profile r4.1 1).killed)) =
      some (some 1, some 1, false, true) := by
    decide +kernel
  obtain ⟨⟨s1, es1⟩, h1, hrun⟩ := Option.bind_eq_some_iff.mp hrun
  obtain ⟨⟨s2, e2⟩, h2, hrun⟩ := Option.bind_eq_some_iff.mp hrun
  obtain ⟨⟨t1, fs1⟩, hf1, hrun⟩ := Option.bind_eq_some_iff.mp hrun
  obtain ⟨⟨t2, fs2⟩, hf2, heq⟩ := Option.map_eq_some_iff.mp hrun
  obtain ⟨hfind, heq⟩ := Prod.mk.inj heq
  obtain ⟨hnext, heq⟩ := Prod.mk.inj heq
  obtain ⟨hk1, hk2⟩ := Prod.mk.inj heq
  exact ⟨s1, s2, t1, t2, es1, es1 ++ [e2], fs1, fs2, 1, h1,
    exec_concat_iff.mpr ⟨s1, es1, e2, h1, h2, rfl⟩,
    agree_kill hfind (state_of_nextSlot hnext) h2, hf1, hf2, hnext, hk1, hk2⟩

end Xv6.Reuse
