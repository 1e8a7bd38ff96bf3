import Xv6.Ftable.Machine
import Xv6.Lib.Ledger
import Xv6.Lib.Tally

/-!
# The books of open files and pipes

The count of a file structure is the number of references to it, and a pipe has a page as long as
there is a file for one of its ends.  In the middle of a call there are references that no
descriptor stands for yet, or any more; so the invariant (`Books`) is stated for the number `c f` of
all references to each file `f`.  Each function of `file.c` and `pipe.c` has one lemma, which says
what it does to the books, and that it does not stop: `filedup` and `fileclose` find a positive
count, and a page that is closed holds a pipe.
-/

namespace Xv6.Ftable

open Lib

/-! ## Descriptors -/

/-- The number of descriptors that refer to `f`. -/
def descs (ofile : Slot → Fin NOFILE → Option (Fin NFILE)) (f : Fin NFILE) : ℕ :=
  ∑ x : Slot × Fin NOFILE, if ofile x.1 x.2 = some f then 1 else 0

section Descs

variable {ofile : Slot → Fin NOFILE → Option (Fin NFILE)} {p : Slot} {fd : Fin NOFILE}
  {f : Fin NFILE}

/-- The table with another entry for the descriptor `fd` of `p`. -/
def putOfile (ofile : Slot → Fin NOFILE → Option (Fin NFILE)) (p : Slot) (fd : Fin NOFILE)
    (v : Option (Fin NFILE)) : Slot → Fin NOFILE → Option (Fin NFILE) :=
  upd ofile p (upd (ofile p) fd v)

variable {v : Option (Fin NFILE)}

@[simp] theorem putOfile_self : putOfile ofile p fd v p fd = v := by
  rw [putOfile, upd_self, upd_self]

theorem putOfile_of_ne {q : Slot} {d : Fin NOFILE} (h : ¬ (q = p ∧ d = fd)) :
    putOfile ofile p fd v q d = ofile q d := by
  rw [putOfile]
  by_cases hq : q = p
  · rw [hq, upd_self, upd_of_ne fun hd => h ⟨hq, hd⟩]
  · rw [upd_of_ne hq]

theorem descs_putOfile (ofile : Slot → Fin NOFILE → Option (Fin NFILE)) (p : Slot)
    (fd : Fin NOFILE) (v : Option (Fin NFILE)) (f : Fin NFILE) :
    descs (putOfile ofile p fd v) f + (if ofile p fd = some f then 1 else 0) =
      descs ofile f + (if v = some f then 1 else 0) := by
  have hsum := sum_add_eq_of_eq_off (s := Finset.univ) (a := (p, fd))
    (f := fun x => if putOfile ofile p fd v x.1 x.2 = some f then 1 else 0)
    (g := fun x => if ofile x.1 x.2 = some f then 1 else 0) (Finset.mem_univ _) fun x _ hx => by
      rw [putOfile_of_ne fun h => hx (Prod.ext h.1 h.2)]
  rwa [putOfile_self] at hsum

theorem single_eq_ite (f g : Fin NFILE) :
    (Pi.single f 1 : Fin NFILE → ℕ) g = if some f = some g then 1 else 0 := by
  by_cases hg : g = f
  · rw [hg, Pi.single_eq_same, if_pos rfl]
  · rw [Pi.single_eq_of_ne hg, if_neg fun h => hg (Option.some.inj h).symm]

/-- A descriptor that was free takes a reference over. -/
theorem descs_put (h : ofile p fd = none) (f : Fin NFILE) :
    descs (putOfile ofile p fd (some f)) = descs ofile + Pi.single f 1 := by
  funext g
  have hg := descs_putOfile ofile p fd (some f) g
  rw [h, if_neg nofun, Nat.add_zero] at hg
  rw [Pi.add_apply, single_eq_ite]
  exact hg

theorem descs_clear (h : ofile p fd = some f) :
    descs ofile = descs (putOfile ofile p fd none) + Pi.single f 1 := by
  funext g
  have hg := descs_putOfile ofile p fd none g
  rw [h, if_neg (show ¬ none = some g from nofun), Nat.add_zero] at hg
  rw [Pi.add_apply, single_eq_ite]
  exact hg.symm

theorem descs_pos (h : ofile p fd = some f) : 0 < descs ofile f := by
  rw [descs_clear h, add_single_self]
  exact Nat.succ_pos _

theorem exists_of_descs_pos (h : 0 < descs ofile f) : ∃ p fd, ofile p fd = some f := by
  by_contra hno
  have hzero : descs ofile f = 0 := Finset.sum_eq_zero fun x _ => if_neg fun hx =>
    hno ⟨x.1, x.2, hx⟩
  omega

end Descs

/-! ## The books -/

theorem Ends.isOpen_shut (q : Ends) (w w' : Bool) :
    (q.shut w).isOpen w' = (q.isOpen w' && w' != w) := by
  cases w <;> cases w' <;> cases q <;> simp [Ends.shut, Ends.isOpen]

theorem Ends.both_closed_iff (q : Ends) :
    (q.readopen = false ∧ q.writeopen = false) ↔ ∀ w, q.isOpen w = false := by
  constructor
  · rintro ⟨h1, h2⟩ (_ | _)
    · exact h1
    · exact h2
  · exact fun h => ⟨h false, h true⟩

/-- **The books of open files and pipes.**  `c f` is the number of references to the file `f`. -/
structure Books (s : State) (c : Fin NFILE → ℕ) : Prop where
  ref : ∀ f, (s.file f).ref = c f
  closed : ∀ f, c f = 0 → (s.file f).type = .none
  /-- a file for an end of a pipe: the pipe is there, and the end is open -/
  live : ∀ f pg, (s.file f).type = .pipe pg →
    ∃ q, s.pipe pg = some q ∧ q.isOpen (s.file f).writable = true
  /-- an end of a pipe has one file -/
  once : ∀ f g pg, (s.file f).type = .pipe pg → (s.file g).type = .pipe pg →
    (s.file f).writable = (s.file g).writable → f = g
  ends : ∀ pg q, s.pipe pg = some q → (∃ w, q.isOpen w = true) ∧
    ∀ w, q.isOpen w = true → ∃ f, (s.file f).type = .pipe pg ∧ (s.file f).writable = w
  /-- a page was freed as often as it was allocated, or once less while it holds a pipe -/
  pages : ∀ pg, s.allocs pg = s.frees pg + (if (s.pipe pg).isSome then 1 else 0)

/-- The state with another file structure at `f`. -/
def State.putFile (s : State) (f : Fin NFILE) (g : File) : State :=
  { s with file := upd s.file f g }

@[simp] theorem putFile_self {s : State} {f : Fin NFILE} {g : File} : (s.putFile f g).file f = g :=
  upd_self

@[simp] theorem putFile_of_ne {s : State} {f f' : Fin NFILE} {g : File} (h : f' ≠ f) :
    (s.putFile f g).file f' = s.file f' := upd_of_ne h

variable {Q : Unit → State → Prop}

@[simp] theorem wp_setFile {s : State} {f : Fin NFILE} {g : File → File}
    {E : Stop → Prop} : wp (setFile f g) s Q E ↔ Q () (s.putFile f (g (s.file f))) := Iff.rfl

@[simp] theorem wp_setOfile {s : State} {p : Slot} {fd : Fin NOFILE} {E : Stop → Prop} :
    wp (setOfile p fd v) s Q E ↔ Q () { s with ofile := putOfile s.ofile p fd v } := Iff.rfl

/-- The file `f` is the end `w` of the pipe in the page `pg`. -/
def IsEnd (s : State) (f : Fin NFILE) (pg : Page) (w : Bool) : Prop :=
  (s.file f).type = .pipe pg ∧ (s.file f).writable = w

namespace Books

variable {s s' : State} {c c' : Fin NFILE → ℕ} {f g g' : Fin NFILE} {pg : Page} {w : Bool}

theorem live_end (h : Books s c) (hg : IsEnd s g pg w) : ∃ q, s.pipe pg = some q ∧
    q.isOpen w = true := by
  obtain ⟨htype, rfl⟩ := hg
  exact h.live g pg htype

theorem once_end (h : Books s c) (hg : IsEnd s g pg w) (hg' : IsEnd s g' pg w) : g = g' :=
  h.once g g' pg hg.1 hg'.1 (hg.2.trans hg'.2.symm)

/-- What the books say of the pipes, in terms of the files that are their ends. -/
theorem of_ends (href : ∀ g, (s.file g).ref = c g)
    (hclosed : ∀ g, c g = 0 → (s.file g).type = .none)
    (hlive : ∀ g pg w, IsEnd s g pg w → ∃ q, s.pipe pg = some q ∧ q.isOpen w = true)
    (honce : ∀ g g' pg w, IsEnd s g pg w → IsEnd s g' pg w → g = g')
    (hends : ∀ pg q, s.pipe pg = some q → (∃ w, q.isOpen w = true) ∧
      ∀ w, q.isOpen w = true → ∃ g, IsEnd s g pg w)
    (hpages : ∀ pg, s.allocs pg = s.frees pg + (if (s.pipe pg).isSome then 1 else 0)) :
    Books s c where
  ref := href
  closed := hclosed
  live g pg hg := hlive g pg _ ⟨hg, rfl⟩
  once g g' pg hg hg' hw := honce g g' pg _ ⟨hg, hw⟩ ⟨hg', rfl⟩
  ends := hends
  pages := hpages

theorem of_same_ends (h : Books s c) (href : ∀ g, (s'.file g).ref = c' g)
    (hclosed : ∀ g, c' g = 0 → (s'.file g).type = .none)
    (hend : ∀ g pg w, IsEnd s' g pg w ↔ IsEnd s g pg w) (hpipe : s'.pipe = s.pipe)
    (hallocs : s'.allocs = s.allocs) (hfrees : s'.frees = s.frees) : Books s' c' := by
  refine of_ends href hclosed (fun g pg w hg => ?_) (fun g g' pg w hg hg' => ?_)
    (fun pg q hq => ?_) ?_
  · rw [hpipe]
    exact h.live_end ((hend g pg w).mp hg)
  · exact h.once_end ((hend g pg w).mp hg) ((hend g' pg w).mp hg')
  · rw [hpipe] at hq
    refine ⟨(h.ends pg q hq).1, fun w hw => ?_⟩
    obtain ⟨g, hg⟩ := (h.ends pg q hq).2 w hw
    exact ⟨g, (hend g pg w).mpr hg⟩
  · rw [hallocs, hfrees, hpipe]
    exact h.pages

theorem congr (h : Books s c) (hfile : s'.file = s.file) (hpipe : s'.pipe = s.pipe)
    (hallocs : s'.allocs = s.allocs) (hfrees : s'.frees = s.frees) : Books s' c := by
  refine h.of_same_ends ?_ ?_ (fun g pg w => ?_) hpipe hallocs hfrees
  · rw [hfile]
    exact h.ref
  · rw [hfile]
    exact h.closed
  · rw [IsEnd, IsEnd, hfile]

/-- A file becomes another one, and is the end of a pipe if it was that before. -/
theorem putFile (h : Books s c) {x : File}
    (hend : ∀ pg w, x.type = .pipe pg ∧ x.writable = w ↔ IsEnd s f pg w) (hself : x.ref = c' f)
    (hother : ∀ g, g ≠ f → c' g = c g) (hz : c' f = 0 → x.type = .none) :
    Books (s.putFile f x) c' := by
  refine h.of_same_ends (forall_upd (P := fun g (x : File) => x.ref = c' g) hself fun g hg => ?_)
    (forall_upd (P := fun g (x : File) => c' g = 0 → x.type = .none) hz fun g hg => ?_)
    (forall_upd (P := fun g (x : File) => ∀ pg w, x.type = .pipe pg ∧ x.writable = w ↔
      IsEnd s g pg w) hend
      fun _ _ _ _ => Iff.rfl) rfl rfl rfl
  · rw [hother g hg]
    exact h.ref g
  · rw [hother g hg]
    exact h.closed g

theorem putRef (h : Books s c) {r : ℕ} (hself : r = c' f) (hother : ∀ g, g ≠ f → c' g = c g)
    (hz : c' f = 0 → (s.file f).type = .none) :
    Books (s.putFile f { s.file f with ref := r }) c' :=
  h.putFile (fun _ _ => Iff.rfl) hself hother hz

theorem putOther (h : Books s c) (hold : ∀ pg, (s.file f).type ≠ .pipe pg) {x : File}
    (hnew : ∀ pg, x.type ≠ .pipe pg) (hself : x.ref = c' f) (hother : ∀ g, g ≠ f → c' g = c g)
    (hz : c' f = 0 → x.type = .none) : Books (s.putFile f x) c' :=
  h.putFile (fun pg _ => iff_of_false (fun hx => hnew pg hx.1) fun hf => hold pg hf.1)
    hself hother hz

/-- The last reference to an end of a pipe is given up. -/
theorem closeEnd (h : Books s (c + Pi.single f 1)) (hc : c f = 0) {pg : Page}
    (htype : (s.file f).type = .pipe pg) {q : Ends} (hq : s.pipe pg = some q)
    (pipe' : Option Ends) (frees' : ℕ)
    (hshut : pipe' = if ∀ w, (q.shut (s.file f).writable).isOpen w = false then none
      else some (q.shut (s.file f).writable))
    (hfrees : frees' = s.frees pg + if pipe'.isSome then 0 else 1) :
    Books { s.putFile f { s.file f with ref := 0, type := .none } with
      pipe := upd s.pipe pg pipe', frees := upd s.frees pg frees' } c := by
  generalize hw : (s.file f).writable = w at hshut
  have hopen : ∀ w', (q.shut w).isOpen w' = true ↔ q.isOpen w' = true ∧ w' ≠ w := by
    intro w'
    rw [Ends.isOpen_shut, Bool.and_eq_true, bne_iff_ne]
  have hend : ∀ g pg' w', IsEnd (s.putFile f { s.file f with ref := 0, type := .none }) g pg' w' ↔
      IsEnd s g pg' w' ∧ g ≠ f := by
    intro g pg' w'
    by_cases hgf : g = f
    · rw [hgf, IsEnd, putFile_self]
      exact iff_of_false (fun hg => FdType.noConfusion hg.1) fun hg => hg.2 rfl
    · rw [IsEnd, putFile_of_ne hgf]
      exact (and_iff_left hgf).symm
  refine of_ends (forall_upd (P := fun g (x : File) => x.ref = c g) hc.symm fun g hg => ?_)
    (forall_upd (P := fun g (x : File) => c g = 0 → x.type = .none) (fun _ => rfl) fun g hg => ?_)
    (fun g pg' w' hg => ?_) (fun g g' pg' w' hg hg' => ?_) (fun pg' q' hq' => ?_) fun pg' => ?_
  · rw [h.ref, add_single_of_ne c hg]
  · exact fun hz => h.closed g (by rw [add_single_of_ne c hg, hz])
  · obtain ⟨hold, hgf⟩ := (hend g pg' w').mp hg
    obtain ⟨q1, hq1, hw'⟩ := h.live_end hold
    show ∃ q', upd s.pipe pg pipe' pg' = some q' ∧ q'.isOpen w' = true
    by_cases hpg : pg' = pg
    · -- the other end of the same pipe
      subst hpg
      obtain rfl : q = q1 := Option.some.inj (hq.symm.trans hq1)
      have hstill : (q.shut w).isOpen w' = true := by
        refine (hopen w').mpr ⟨hw', ?_⟩
        rintro rfl
        exact hgf (h.once_end hold ⟨htype, hw⟩)
      rw [upd_self, hshut, if_neg fun hall => by rw [hall] at hstill; cases hstill]
      exact ⟨_, rfl, hstill⟩
    · rw [upd_of_ne hpg]
      exact ⟨q1, hq1, hw'⟩
  · exact h.once_end ((hend g pg' w').mp hg).1 ((hend g' pg' w').mp hg').1
  · replace hq' : upd s.pipe pg pipe' pg' = some q' := hq'
    -- the file of an end that is still open is not `f`
    have hkeep : ∀ {w'}, (∃ g, IsEnd s g pg' w') → (pg' = pg → w' ≠ w) →
        ∃ g, IsEnd (s.putFile f { s.file f with ref := 0, type := .none }) g pg' w' := by
      rintro w' ⟨g, hg⟩ hdiff
      refine ⟨g, (hend g pg' w').mpr ⟨hg, ?_⟩⟩
      rintro rfl
      exact hdiff (FdType.pipe.inj (hg.1.symm.trans htype)) (hg.2.symm.trans hw)
    by_cases hpg : pg' = pg
    · subst hpg
      rw [upd_self, hshut] at hq'
      split_ifs at hq' with hall
      obtain rfl : q.shut w = q' := Option.some.inj hq'
      refine ⟨?_, fun w' hw' => ?_⟩
      · by_contra hno
        exact hall fun w' => Bool.eq_false_iff.mpr fun hw' => hno ⟨w', hw'⟩
      · obtain ⟨h1, h2⟩ := (hopen w').mp hw'
        exact hkeep ((h.ends pg' q hq).2 w' h1) fun _ => h2
    · rw [upd_of_ne hpg] at hq'
      refine ⟨(h.ends pg' q' hq').1, fun w' hw' => ?_⟩
      exact hkeep ((h.ends pg' q' hq').2 w' hw') fun heq => absurd heq hpg
  · show s.allocs pg' = upd s.frees pg frees' pg' +
      if (upd s.pipe pg pipe' pg').isSome then 1 else 0
    by_cases hpg : pg' = pg
    · rw [hpg, upd_self, upd_self, h.pages, hq, hfrees]
      cases pipe' with
      | none => rfl
      | some _ => rfl
    · rw [upd_of_ne hpg, upd_of_ne hpg]
      exact h.pages pg'

/-- A page becomes a pipe, and two files its ends. -/
theorem openEnds (h : Books s c) {f0 f1 : Fin NFILE} (hne : f0 ≠ f1) (h0 : (s.file f0).type = .none)
    (h1 : (s.file f1).type = .none) (hc0 : c f0 ≠ 0) (hc1 : c f1 ≠ 0) (pg : Page)
    (hpg : s.pipe pg = none) :
    Books { (s.putFile f0 { s.file f0 with
        type := .pipe pg, readable := true, writable := false }).putFile f1 { s.file f1 with
        type := .pipe pg, readable := false, writable := true } with
      pipe := upd s.pipe pg (some ⟨true, true⟩)
      allocs := upd s.allocs pg (s.allocs pg + 1) } c := by
  generalize hs' : (s.putFile f0 { s.file f0 with
    type := .pipe pg, readable := true, writable := false }).putFile f1 { s.file f1 with
    type := .pipe pg, readable := false, writable := true } = s'
  have hfile : ∀ g, s'.file g = if g = f1 then { s.file f1 with
      type := .pipe pg, readable := false, writable := true } else if g = f0 then { s.file f0 with
      type := .pipe pg, readable := true, writable := false } else s.file g := by
    intro g
    rw [← hs']
    show upd (upd s.file f0 _) f1 _ g = _
    rw [upd_apply, upd_apply]
  -- the page was no pipe
  have hold : ∀ {g w}, ¬ IsEnd s g pg w := by
    intro g w hg
    obtain ⟨q, hq, -⟩ := h.live_end hg
    rw [hpg] at hq
    cases hq
  have hend : ∀ g pg' w, IsEnd s' g pg' w ↔ IsEnd s g pg' w ∨ pg' = pg ∧
    g = if w then f1 else f0 := by
    intro g pg' w
    rw [IsEnd, IsEnd, hfile]
    split_ifs with hg1 hw hg0
    all_goals grind
  refine of_ends (fun g => ?_) (fun g hg => ?_) (fun g pg' w hg => ?_) (fun g g' pg' w hg hg' => ?_)
    (fun pg' q hq => ?_) fun pg' => ?_
  · show (s'.file g).ref = c g
    rw [hfile]
    split_ifs with hg1 hg0
    · rw [hg1]
      exact h.ref f1
    · rw [hg0]
      exact h.ref f0
    · exact h.ref g
  · show (s'.file g).type = .none
    have hg1 : g ≠ f1 := by
      rintro rfl
      exact hc1 hg
    have hg0 : g ≠ f0 := by
      rintro rfl
      exact hc0 hg
    rw [hfile, if_neg hg1, if_neg hg0]
    exact h.closed g hg
  · show ∃ q, upd s.pipe pg (some ⟨true, true⟩) pg' = some q ∧ q.isOpen w = true
    rcases (hend g pg' w).mp hg with hx | ⟨rfl, -⟩
    · have hne : pg' ≠ pg := by
        rintro rfl
        exact hold hx
      rw [upd_of_ne hne]
      exact h.live_end hx
    · exact ⟨_, upd_self, by cases w <;> rfl⟩
  · rcases (hend g pg' w).mp hg with hx | ⟨rfl, rfl⟩
    · rcases (hend g' pg' w).mp hg' with hx' | ⟨rfl, -⟩
      · exact h.once_end hx hx'
      · exact absurd hx hold
    · rcases (hend g' pg' w).mp hg' with hx' | ⟨-, rfl⟩
      · exact absurd hx' hold
      · rfl
  · replace hq : upd s.pipe pg (some ⟨true, true⟩) pg' = some q := hq
    by_cases hpg' : pg' = pg
    · rw [hpg', upd_self] at hq
      cases hq
      exact ⟨⟨true, rfl⟩, fun w _ => ⟨_, (hend _ pg' w).mpr (Or.inr ⟨hpg', rfl⟩)⟩⟩
    · rw [upd_of_ne hpg'] at hq
      refine ⟨(h.ends pg' q hq).1, fun w hw => ?_⟩
      obtain ⟨g, hg⟩ := (h.ends pg' q hq).2 w hw
      exact ⟨g, (hend g pg' w).mpr (Or.inl hg)⟩
  · have hpages := h.pages pg'
    show upd s.allocs pg (s.allocs pg + 1) pg' = s'.frees pg' +
      if (upd s.pipe pg (some ⟨true, true⟩) pg').isSome then 1 else 0
    rw [show s'.frees = s.frees by rw [← hs']; rfl]
    by_cases hpg' : pg' = pg
    · subst hpg'
      rw [upd_self, upd_self, hpages, hpg]
      rfl
    · rw [upd_of_ne hpg', upd_of_ne hpg']
      exact hpages

end Books

/-! ## The functions of `file.c` and `pipe.c` -/

/-- What such a function leaves to those who hold the references `c`: the descriptors, and the types
of their files. -/
structure Keeps (c : Fin NFILE → ℕ) (s s' : State) : Prop where
  ofile : s'.ofile = s.ofile
  alive : s'.alive = s.alive
  busy : s'.busy = s.busy
  type : ∀ f, 0 < c f → (s'.file f).type = (s.file f).type

theorem Keeps.refl (c : Fin NFILE → ℕ) (s : State) : Keeps c s s := ⟨rfl, rfl, rfl, fun _ _ => rfl⟩

theorem Keeps.trans {c : Fin NFILE → ℕ} {s s' s'' : State} (h : Keeps c s s')
    (h' : Keeps c s' s'') :
    Keeps c s s'' :=
  ⟨h'.ofile.trans h.ofile, h'.alive.trans h.alive, h'.busy.trans h.busy,
    fun f hf => (h'.type f hf).trans (h.type f hf)⟩

theorem Keeps.mono {c c' : Fin NFILE → ℕ} {s s' : State} (h : Keeps c s s')
    (hle : ∀ f, 0 < c' f → 0 < c f) : Keeps c' s s' :=
  ⟨h.ofile, h.alive, h.busy, fun f hf => h.type f (hle f hf)⟩

theorem Keeps.putFile {c : Fin NFILE → ℕ} {s : State} {f : Fin NFILE} {g : File}
    (h : 0 < c f → g.type = (s.file f).type) : Keeps c s (s.putFile f g) := by
  refine ⟨rfl, rfl, rfl, fun f' hf' => ?_⟩
  by_cases hff : f' = f
  · rw [hff, putFile_self]
    exact h (hff ▸ hf')
  · rw [putFile_of_ne hff]

section Functions

variable {s : State} {c : Fin NFILE → ℕ} {f : Fin NFILE}

theorem filealloc_spec (h : Books s c) :
    wp filealloc s
      (fun r s' => match r with
        | some f => c f = 0 ∧ (s'.file f).type = .none ∧ Books s' (c + Pi.single f 1) ∧
            s'.pipe = s.pipe ∧ Keeps c s s'
        | none => s' = s)
      (fun _ => False) := by
  rw [filealloc, wp_bind, wp_get]
  cases hfind : (List.finRange NFILE).find? fun f => (s.file f).ref = 0 with
  | none => exact rfl
  | some f =>
    have hfound := List.find?_some hfind
    have hzero : c f = 0 := (h.ref f).symm.trans (of_decide_eq_true hfound)
    rw [wp_bind, wp_setFile, wp_pure]
    refine ⟨hzero, ?_, h.putRef ?_ (fun g hg => add_single_of_ne c hg) fun hz => ?_, rfl,
      Keeps.putFile fun _ => rfl⟩
    · rw [putFile_self]
      exact h.closed f hzero
    · rw [add_single_self, hzero]
    · rw [add_single_self] at hz
      cases hz

theorem filedup_spec (h : Books s c) (hc : 0 < c f) :
    wp (filedup f) s (fun _ s' => Books s' (c + Pi.single f 1) ∧
      Keeps c s s') (fun _ => False) := by
  have href := h.ref f
  rw [filedup, wp_bind, wp_get, wp_ite]
  refine ⟨fun hlt => absurd hlt (by omega), fun _ => ?_⟩
  rw [wp_setFile]
  refine ⟨h.putRef ?_ (fun g hg => add_single_of_ne c hg) fun hz => ?_, Keeps.putFile fun _ => rfl⟩
  · rw [add_single_self, href]
  · rw [add_single_self] at hz
    cases hz

theorem fileclose_spec (h : Books s (c + Pi.single f 1)) :
    wp (fileclose f) s (fun _ s' => Books s' c ∧ Keeps c s s') (fun _ => False) := by
  have href := h.ref f
  rw [add_single_self] at href
  have hother : ∀ g, g ≠ f → c g = (c + Pi.single f 1 : Fin NFILE → ℕ) g :=
    fun g hg => (add_single_of_ne c hg).symm
  rw [fileclose, wp_bind, wp_get, wp_ite]
  refine ⟨fun hlt => absurd hlt (by omega), fun _ => wp_ite.mpr ⟨fun hmore => ?_, fun hlast => ?_⟩⟩
  · rw [wp_setFile]
    exact ⟨h.putRef (by omega) hother fun hz => absurd hz (by omega), Keeps.putFile fun _ => rfl⟩
  · have hc : c f = 0 := by omega
    have hkeep : ∀ {g : File}, Keeps c s (s.putFile f g) :=
      Keeps.putFile fun hpos => absurd hpos (by omega)
    rw [wp_bind, wp_setFile]
    cases htype : (s.file f).type with
    | none =>
      exact ⟨h.putOther (fun pg hp => by rw [htype] at hp; cases hp)
        (fun pg hp => by cases hp) hc.symm
        hother fun _ => rfl, hkeep⟩
    | inode =>
      exact ⟨h.putOther (fun pg hp => by rw [htype] at hp; cases hp)
        (fun pg hp => by cases hp) hc.symm
        hother fun _ => rfl, hkeep⟩
    | pipe pg =>
      obtain ⟨q, hq, -⟩ := h.live f pg htype
      have hpipe : (s.putFile f { s.file f with ref := 0, type := .none }).pipe pg = some q := hq
      show wp (pipeclose pg (s.file f).writable) _ _ _
      rw [pipeclose, wp_bind, wp_get]
      simp only [hpipe]
      rw [wp_ite, Ends.both_closed_iff]
      refine ⟨fun hall => ?_, fun hall => ?_⟩
      · refine ⟨h.closeEnd hc htype hq none _ ?_ rfl, rfl, rfl, rfl, hkeep.type⟩
        rw [if_pos hall]
      · have hb := h.closeEnd hc htype hq (some (q.shut (s.file f).writable))
          (s.frees pg) (by rw [if_neg hall]) rfl
        rw [upd_eq_self] at hb
        exact ⟨hb, rfl, rfl, rfl, hkeep.type⟩

theorem fdalloc_spec {p : Slot} :
    wp (fdalloc p f) s
      (fun r s' => match r with
        | some fd => s.ofile p fd = none ∧ s' = { s with ofile := putOfile s.ofile p fd (some f) }
        | none => s' = s)
      (fun _ => False) := by
  rw [fdalloc, wp_bind, wp_get]
  cases hfind : (List.finRange NOFILE).find? fun fd => (s.ofile p fd).isNone with
  | none => exact rfl
  | some fd =>
    have hfound := List.find?_some hfind
    rw [wp_bind, wp_setOfile, wp_pure]
    exact ⟨Option.isNone_iff_eq_none.mp hfound, rfl⟩

theorem pipealloc_spec (h : Books s c) {page : Option Page}
    (hpage : ∀ pg, page = some pg → s.pipe pg = none) :
    wp (pipealloc page) s
      (fun r s' => Keeps c s s' ∧ match r with
        | some (f0, f1) => Books s' (c + Pi.single f0 1 + Pi.single f1 1) ∧
            ∀ f, f = f0 ∨ f = f1 → c f = 0 ∧ (s'.file f).type ≠ .none
        | none => Books s' c)
      (fun _ => False) := by
  rw [pipealloc]
  refine (filealloc_spec h).bind ?_
  rintro (_ | f0) s1 hs1
  · obtain rfl : s1 = s := hs1
    exact ⟨Keeps.refl c s1, h⟩
  obtain ⟨hc0, ht0, h1, hp1, hk1⟩ := hs1
  have hle : ∀ g, 0 < c g → 0 < (c + Pi.single f0 1 : Fin NFILE → ℕ) g :=
    fun g hg => lt_of_lt_of_le hg (Nat.le_add_right (c g) _)
  refine (filealloc_spec h1).bind ?_
  rintro (_ | f1) s2 hs2
  · obtain rfl : s2 = s1 := hs2
    refine (fileclose_spec h1).bind fun _ s3 hs3 => ?_
    exact ⟨hk1.trans hs3.2, hs3.1⟩
  obtain ⟨hc1, ht1, h2, hp2, hk2⟩ := hs2
  have hne : f0 ≠ f1 := by
    rintro rfl
    rw [add_single_self] at hc1
    cases hc1
  have hk := hk1.trans (hk2.mono hle)
  cases page with
  | none =>
    have hcomm : c + Pi.single f0 1 + Pi.single f1 1 = c + Pi.single f1 1 + Pi.single f0 1 :=
      add_right_comm _ _ _
    rw [hcomm] at h2
    refine (fileclose_spec h2).bind fun _ s3 hs3 => ?_
    refine (fileclose_spec hs3.1).bind fun _ s4 hs4 => ?_
    refine ⟨hk.trans ((hs3.2.mono fun g hg => ?_).trans hs4.2), hs4.1⟩
    exact lt_of_lt_of_le hg (Nat.le_add_right (c g) _)
  | some pg =>
    have ht0' : (s2.file f0).type = .none :=
      (hk2.type f0 (by rw [add_single_self]; exact Nat.succ_pos _)).trans ht0
    have hzero : c f1 = 0 := by
      rw [add_single_of_ne c hne.symm] at hc1
      exact hc1
    have hb := h2.openEnds hne ht0' ht1
      (by rw [add_single_of_ne _ hne, add_single_self]; exact Nat.succ_ne_zero _)
      (by rw [add_single_self]; exact Nat.succ_ne_zero _)
      pg (by rw [hp2, hp1]; exact hpage pg rfl)
    simp only [wp_bind, wp_modify, wp_setFile, wp_pure, putFile_of_ne hne.symm]
    refine ⟨hk.trans ⟨rfl, rfl, rfl, fun g hg => ?_⟩, hb, ?_⟩
    · have hg0 : g ≠ f0 := by
        rintro rfl
        omega
      have hg1 : g ≠ f1 := by
        rintro rfl
        omega
      rw [putFile_of_ne hg1, putFile_of_ne hg0]
    · rintro g (rfl | rfl)
      · rw [putFile_of_ne hne, putFile_self]
        exact ⟨hc0, by rintro ⟨⟩⟩
      · rw [putFile_self]
        exact ⟨hzero, by rintro ⟨⟩⟩

end Functions

end Xv6.Ftable
