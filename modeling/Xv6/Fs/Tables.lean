import Xv6.Fs.Create
import Xv6.Lib.Tally

/-!
# The file table and the processes

Between two system calls every reference to an inode belongs to an open file or is the current
directory of a process, and every reference to a file structure is a descriptor.  `Tables` says this
of the file table, for the numbers of references that stand elsewhere; `Rest` adds the processes.

Each system call is one lemma: from a state at rest it comes to a state at rest, it changes the
nodes as `Effect` says, and it leaves no inode without links and without references behind
(`After`).  Then `Rest.syscall` puts them together.
-/

namespace Xv6.Fs

open Lib

/-! ## Who holds references -/

/-- The reference of a file structure to an inode. -/
def File.refs (g : File) : Icache → ℕ :=
  match g.type with
  | .inode => Pi.single g.ip 1
  | .none => 0

/-- The reference of a process to its current directory. -/
def cwdRef : Option Proc → Icache → ℕ
  | some pr => Pi.single pr.cwd 1
  | none => 0

/-- The reference of a descriptor to a file structure. -/
def fdRef : Option (Fin NFILE) → Fin NFILE → ℕ
  | some f => Pi.single f 1
  | none => 0

/-- The references of a process to file structures. -/
def fileRefs : Option Proc → Fin NFILE → ℕ
  | some pr => ∑ fd, fdRef (pr.ofile fd)
  | none => 0

/-- The references to inodes in the file table. -/
def inodeRefs (file : Fin NFILE → File) : Icache → ℕ := ∑ f, (file f).refs

/-- The references to inodes in the process table. -/
def cwdRefs (proc : Slot → Option Proc) : Icache → ℕ := ∑ p, cwdRef (proc p)

/-- The references to file structures in the process table. -/
def descs (proc : Slot → Option Proc) : Fin NFILE → ℕ := ∑ p, fileRefs (proc p)

/-- All references to inodes between two calls. -/
def holders (s : State) : Icache → ℕ := inodeRefs s.file + cwdRefs s.proc

section Counting

variable {file : Fin NFILE → File} {proc : Slot → Option Proc} {f : Fin NFILE} {p : Slot}
  {pr pr' : Proc}
  {fd : Fin NOFILE}

variable {g : File}

theorem File.refs_inode (h : g.type = .inode) : g.refs = Pi.single g.ip 1 := by
  rw [File.refs, h]

theorem File.refs_none (h : g.type = .none) : g.refs = 0 := by
  rw [File.refs, h]

theorem inodeRefs_upd (file : Fin NFILE → File) (f : Fin NFILE) (g : File) :
    inodeRefs (upd file f g) + (file f).refs = inodeRefs file + g.refs := sum_upd File.refs file f g

theorem cwdRefs_upd (proc : Slot → Option Proc) (p : Slot) (o : Option Proc) :
    cwdRefs (upd proc p o) + cwdRef (proc p) = cwdRefs proc + cwdRef o := sum_upd cwdRef proc p o

theorem descs_upd (proc : Slot → Option Proc) (p : Slot) (o : Option Proc) :
    descs (upd proc p o) + fileRefs (proc p) = descs proc + fileRefs o := sum_upd fileRefs proc p o

theorem fileRefs_upd (pr : Proc) (fd : Fin NOFILE) (v : Option (Fin NFILE)) :
    fileRefs (some { pr with ofile := upd pr.ofile fd v }) + fdRef (pr.ofile fd) =
      fileRefs (some pr) + fdRef v := sum_upd fdRef pr.ofile fd v

theorem inodeRefs_upd_of_eq (h : g.refs = (file f).refs) :
    inodeRefs (upd file f g) = inodeRefs file := by
  have hsum := inodeRefs_upd file f g
  rw [h] at hsum
  exact add_right_cancel hsum

theorem inodeRefs_open (hnone : (file f).type = .none) (hg : g.type = .inode) :
    inodeRefs (upd file f g) = inodeRefs file + Pi.single g.ip 1 := by
  have hsum := inodeRefs_upd file f g
  rwa [File.refs_none hnone, File.refs_inode hg, add_zero] at hsum

theorem cwdRefs_upd_of_eq (hp : proc p = some pr) (h : pr'.cwd = pr.cwd) :
    cwdRefs (upd proc p (some pr')) = cwdRefs proc := by
  have hsum := cwdRefs_upd proc p (some pr')
  rw [hp, cwdRef, cwdRef, h] at hsum
  exact add_right_cancel hsum

theorem descs_upd_of_eq (hp : proc p = some pr) (h : pr'.ofile = pr.ofile) :
    descs (upd proc p (some pr')) = descs proc := by
  have hsum := descs_upd proc p (some pr')
  rw [hp, fileRefs, fileRefs, h] at hsum
  exact add_right_cancel hsum

/-- A descriptor that was free is given to the file `f`. -/
theorem descs_open (hp : proc p = some pr) (hfd : pr.ofile fd = none) (f : Fin NFILE) :
    descs (upd proc p (some { pr with ofile := upd pr.ofile fd (some f) })) =
      descs proc + Pi.single f 1 := by
  have hsum := descs_upd proc p (some { pr with ofile := upd pr.ofile fd (some f) })
  have hrow := fileRefs_upd pr fd (some f)
  rw [hfd, fdRef, fdRef, add_zero] at hrow
  rw [hp, hrow, add_left_comm, add_comm] at hsum
  exact add_left_cancel hsum

theorem descs_close (hp : proc p = some pr) (hfd : pr.ofile fd = some f) :
    descs proc =
      descs (upd proc p (some { pr with ofile := upd pr.ofile fd none })) + Pi.single f 1 := by
  have hsum := descs_upd proc p (some { pr with ofile := upd pr.ofile fd none })
  have hrow := fileRefs_upd pr fd none
  rw [hfd, fdRef, fdRef, add_zero] at hrow
  rw [hp, ← hrow, add_left_comm, add_comm (descs proc)] at hsum
  exact (add_left_cancel hsum).symm

theorem inodeRefs_pos (h : (file f).type = .inode) : 0 < inodeRefs file (file f).ip := by
  have hsum := congrFun (inodeRefs_upd file f ⟨.none, 0, false, false, (file f).ip, 0⟩) (file f).ip
  rw [File.refs_inode h, File.refs_none rfl, add_zero, add_single_self] at hsum
  omega

theorem cwdRefs_clear (hp : proc p = some pr) :
    cwdRefs proc = cwdRefs (upd proc p none) + Pi.single pr.cwd 1 := by
  have hsum := cwdRefs_upd proc p none
  rw [hp, cwdRef, cwdRef, add_zero] at hsum
  exact hsum.symm

theorem cwdRefs_pos (hp : proc p = some pr) : 0 < cwdRefs proc pr.cwd := by
  rw [cwdRefs_clear hp, add_single_self]
  exact Nat.succ_pos _

theorem descs_pos (hp : proc p = some pr) (hfd : pr.ofile fd = some f) : 0 < descs proc f := by
  rw [descs_close hp hfd, add_single_self]
  exact Nat.succ_pos _

end Counting

/-! ## The file table -/

/-- The state with another file structure at `f`. -/
def State.putFile (s : State) (f : Fin NFILE) (g : File) : State :=
  { s with file := upd s.file f g }

/-- The state with another process at `p`. -/
def State.putProc (s : State) (p : Slot) (o : Option Proc) : State :=
  { s with proc := upd s.proc p o }

@[simp] theorem putFile_self {s : State} {f : Fin NFILE} : (s.putFile f g).file f = g :=
  upd_self

@[simp] theorem putFile_of_ne {s : State} {f f' : Fin NFILE} (h : f' ≠ f) :
    (s.putFile f g).file f' = s.file f' := upd_of_ne h

/-- What a file is, and how it was opened. -/
def File.mode (g : File) : FileType × Bool := (g.type, g.writable)

/-- The file structure `f` changes, but not what it is and how it was opened. -/
theorem putFile_mode {s : State} {f : Fin NFILE} (h : g.mode = (s.file f).mode) (f' : Fin NFILE) :
    ((s.putFile f g).file f').mode = (s.file f').mode := by
  by_cases hf : f' = f
  · rw [hf, putFile_self, h]
  · rw [putFile_of_ne hf]

variable {Q : Unit → State → Prop}

@[simp] theorem wp_setFile {s : State} {f : Fin NFILE} {g : File → File}
    {E : Stop → Prop} : wp (setFile f g) s Q E ↔ Q () (s.putFile f (g (s.file f))) := Iff.rfl

theorem wp_setProc {s : State} {p : Slot} {pr : Proc} (hp : s.proc p = some pr) {g : Proc → Proc}
    {E : Stop → Prop} : wp (setProc p g) s Q E ↔ Q () (s.putProc p (some (g pr))) := by
  show Q () { s with proc := upd s.proc p ((s.proc p).map g) } ↔ _
  rw [hp]
  rfl

/-- **The file table is in order.**  Apart from the references in it there are the references `c` to
inodes, and there are the references `r` to file structures. -/
structure Tables (s : State) (c : Icache → ℕ) (r : Fin NFILE → ℕ) : Prop where
  cached : Cached s (inodeRefs s.file + c)
  bounded : Bounded s.abs
  alloc : ∀ ip, 0 < (inodeRefs s.file + c) ip → ∃ nd, s.abs.node (s.abs.tag ip).inum = some nd
  ref : ∀ f, (s.file f).ref = r f
  closed : ∀ f, r f = 0 → (s.file f).type = .none
  /-- a directory is not open for writing -/
  plain : ∀ f nd, (s.file f).type = .inode → (s.file f).writable = true →
    s.abs.node (s.abs.tag (s.file f).ip).inum = some nd → nd.type ≠ T_DIR

/-- References are dropped, and inodes without links go with the last of them. -/
structure Drops (c c' : Icache → ℕ) (s s' : State) : Prop where
  ninodes : s'.abs.ninodes = s.abs.ninodes
  history : s.history.Grows s'.history
  proc : s'.proc = s.proc
  outstanding : s'.outstanding = s.outstanding
  shed : Shed s.abs.node s'.abs.node
  tidy : Tidy c s.abs → Tidy c' s'.abs

namespace Drops

variable {c c' c'' : Icache → ℕ} {s s' s'' : State}

theorem of_keeps (h : Keeps c s.abs s'.abs) : Drops c c s s' :=
  ⟨h.ninodes, h.history, h.proc, h.outstanding, h.shed, fun ht => ht.keeps h⟩

theorem trans (h : Drops c c' s s') (h' : Drops c' c'' s' s'') : Drops c c'' s s'' :=
  ⟨h'.ninodes.trans h.ninodes, h.history.trans h'.history, h'.proc.trans h.proc,
    h'.outstanding.trans h.outstanding, h.shed.trans h'.shed, fun ht => h'.tidy (h.tidy ht)⟩

theorem putFile (c : Icache → ℕ) (s : State) (f : Fin NFILE) (g : File) :
    Drops c c s (s.putFile f g) :=
  ⟨rfl, .refl _, rfl, rfl, Shed.refl _, fun ht => ht⟩

end Drops

namespace Tables

variable {s s' : State} {c c1 c' : Icache → ℕ} {r r' : Fin NFILE → ℕ} {f : Fin NFILE} {ip : Icache}

section Kept

variable (h : Tables s c r)

include h

theorem begin : Tables s.begin c r :=
  ⟨h.cached.begin, h.bounded, h.alloc, h.ref, h.closed, h.plain⟩

theorem commit : Tables s.commit c r :=
  ⟨h.cached.commit, h.bounded, h.alloc, h.ref, h.closed, h.plain⟩

theorem putProc (p : Slot) (o : Option Proc) : Tables (s.putProc p o) c r where
  cached := ⟨⟨h.cached.sound.disk, h.cached.sound.inum, h.cached.sound.inj, h.cached.sound.copy,
    h.cached.sound.unlocked⟩, h.cached.ref⟩
  bounded := h.bounded
  alloc := h.alloc
  ref := h.ref
  closed := h.closed
  plain := h.plain

/-- What an operation does that serves the references `c1`, and leaves the references `c'`. -/
theorem serve (hs : Serves (inodeRefs s.file + c1) s.abs s'.abs)
    (h' : Cached s' (inodeRefs s.file + c')) (hb : Bounded s'.abs) (hle : c1 ≤ c)
    (hnew : ∀ ip, 0 < c' ip → 0 < c1 ip ∨ ∃ nd, s'.abs.node (s'.abs.tag ip).inum = some nd) :
    Tables s' c' r := by
  have hfile : s'.file = s.file := hs.file
  -- what is behind a reference that is kept
  have hkept : ∀ ip, 0 < (inodeRefs s.file + c1) ip → ∃ nd nd',
      s.abs.node (s.abs.tag ip).inum = some nd ∧ s'.abs.node (s'.abs.tag ip).inum = some nd' ∧
        nd'.type = nd.type := by
    intro ip hc
    obtain ⟨nd, hnd⟩ := h.alloc ip (hc.trans_le (Nat.add_le_add_left (hle ip) _))
    obtain ⟨nd', hnd', ht⟩ := hs.node ip nd hc hnd
    rw [← hs.inum ip hc] at hnd'
    exact ⟨nd, nd', hnd, hnd', ht⟩
  refine ⟨by rwa [hfile], hb, fun ip hc => ?_, fun f => ?_, fun f => ?_, fun f nd' hf hw hnd' => ?_⟩
  · rw [hfile, Pi.add_apply] at hc
    rcases Nat.eq_zero_or_pos (c' ip) with hz | hpos
    · obtain ⟨-, nd', -, hnd', -⟩ := hkept ip (by rw [Pi.add_apply]; omega)
      exact ⟨nd', hnd'⟩
    · rcases hnew ip hpos with hc1 | halloc
      · obtain ⟨-, nd', -, hnd', -⟩ := hkept ip (by rw [Pi.add_apply]; omega)
        exact ⟨nd', hnd'⟩
      · exact halloc
  · rw [hfile]
    exact h.ref f
  · rw [hfile]
    exact h.closed f
  · rw [hfile] at hf hw hnd'
    obtain ⟨nd, nd1, hnd, hnd1, ht⟩ :=
      hkept (s.file f).ip ((inodeRefs_pos hf).trans_le (Nat.le_add_right _ _))
    rw [hnd'] at hnd1
    rw [Option.some.inj hnd1, ht]
    exact h.plain f nd hf hw hnd

theorem keep (hk : Keeps (inodeRefs s.file + c) s.abs s'.abs)
    (h' : Cached s' (inodeRefs s.file + c)) : Tables s' c r :=
  h.serve (.of_keeps hk) h' (hk.bounded h.bounded) le_rfl fun _ => Or.inl

/-- Another file structure at `f`, and the same references to inodes in all. -/
theorem putFile (hrefs : inodeRefs (upd s.file f g) + c' = inodeRefs s.file + c)
    (href : g.ref = r' f)
    (hoff : ∀ f', f' ≠ f → r' f' = r f') (hclosed : r' f = 0 → g.type = .none)
    (hplain : ∀ nd, g.type = .inode → g.writable = true →
      s.abs.node (s.abs.tag g.ip).inum = some nd → nd.type ≠ T_DIR) :
    Tables (s.putFile f g) c' r' := by
  refine ⟨⟨⟨h.cached.sound.disk, h.cached.sound.inum, h.cached.sound.inj, h.cached.sound.copy,
    h.cached.sound.unlocked⟩, fun ip => ?_⟩, h.bounded, fun ip hc => h.alloc ip ?_,
    forall_upd (P := fun f (x : File) => x.ref = r' f) href fun f' hf => ?_,
    forall_upd (P := fun f (x : File) => r' f = 0 → x.type = .none) hclosed fun f' hf => ?_,
    forall_upd (P := fun _ (x : File) => ∀ nd, x.type = .inode → x.writable = true →
      s.abs.node (s.abs.tag x.ip).inum = some nd → nd.type ≠ T_DIR) hplain fun f' _ => h.plain f'⟩
  · show (s.inode ip).ref = (inodeRefs (upd s.file f g) + c') ip
    rw [hrefs]
    exact h.cached.ref ip
  · rwa [← hrefs]
  · rw [hoff f' hf, h.ref]
  · rw [hoff f' hf]
    exact h.closed f'

theorem retouch (ht : g.type = (s.file f).type)
    (hip : g.ip = (s.file f).ip) (hw : g.writable = (s.file f).writable) (href : g.ref = r' f)
    (hoff : ∀ f', f' ≠ f → r' f' = r f') (hclosed : r' f = 0 → r f = 0) :
    Tables (s.putFile f g) c r' := by
  have hsame : g.refs = (s.file f).refs := by rw [File.refs, File.refs, ht, hip]
  refine h.putFile ?_ href hoff (fun hz => ht.trans (h.closed f (hclosed hz))) ?_
  · rw [inodeRefs_upd_of_eq hsame]
  · rw [ht, hip, hw]
    exact h.plain f

end Kept

/-- A file structure in use takes over a reference to an inode. -/
theorem adopt (h : Tables s (c + Pi.single g.ip 1) r) (hnone : (s.file f).type = .none)
    (hg : g.type = .inode) (href : g.ref = r f) (hpos : r f ≠ 0)
    (hplain : g.writable = true → ∀ nd, s.abs.node (s.abs.tag g.ip).inum = some nd →
      nd.type ≠ T_DIR) : Tables (s.putFile f g) c r := by
  refine h.putFile ?_ href (fun _ _ => rfl) (fun hz => absurd hz hpos)
    fun nd _ hw hnd => hplain hw nd hnd
  rw [inodeRefs_open hnone hg]
  abel

theorem iput (h : Tables s (c + Pi.single ip 1) r) : wp (Fs.iput ip) s.begin
      (fun _ s' => Tables s'.commit c r ∧ s'.commit.file = s.file ∧
        Drops (inodeRefs s.file + (c + Pi.single ip 1)) (inodeRefs s.file + c) s s'.commit)
      Stop.Benign := by
  have hcached := h.cached.begin
  rw [← add_assoc] at hcached
  refine (iput_tidy hcached (Nat.le_add_left _ _)).mono ?_ fun e he => by rw [he.1]; decide
  rintro _ s' ⟨h', hk, ht⟩
  have htab : Tables s' c r := h.begin.serve (.of_keeps hk) h' (hk.bounded h.bounded)
    (le_add_single c ip) fun _ => Or.inl
  refine ⟨htab.commit, hk.file, hk.ninodes, hk.history, hk.proc, ?_, hk.shed, fun ht0 => ht ?_⟩
  · show s'.outstanding - 1 = s.outstanding
    rw [show s'.outstanding = s.outstanding + 1 from hk.outstanding]
    exact Nat.add_sub_cancel _ _
  · rw [add_assoc]
    exact ht0

/-! ## The functions of `file.c` -/

/-- **`filealloc`** finds a file structure that nobody refers to. -/
theorem filealloc (h : Tables s c r) :
    wp Fs.filealloc s
      (fun o s' => match o with
        | none => s' = s ∧ ∀ f, (s.file f).ref ≠ 0
        | some f => r f = 0 ∧ s' = s.putFile f { s.file f with ref := 1 })
      (fun _ => False) := by
  rw [Fs.filealloc, wp_bind, wp_get]
  split
  · rename_i f hf
    rw [wp_bind, wp_setFile]
    refine ⟨?_, rfl⟩
    have hfree := List.find?_some hf
    rw [decide_eq_true_eq] at hfree
    rw [← h.ref, hfree]
  · rename_i hnone
    refine ⟨rfl, fun f hf => ?_⟩
    exact List.find?_eq_none.mp hnone f (List.mem_finRange f) (decide_eq_true hf)

/-- **`filedup`** of a file that there is a reference to. -/
theorem filedup (h : Tables s c r) (hf : 0 < r f) :
    wp (Fs.filedup f) s
      (fun _ s' => s' = s.putFile f { s.file f with ref := (s.file f).ref + 1 } ∧
        Tables s' c (r + Pi.single f 1)) (fun _ => False) := by
  have href := h.ref f
  rw [Fs.filedup, wp_bind, wp_get, wp_ite]
  refine ⟨fun hlt => by omega, fun _ => ?_⟩
  rw [wp_setFile]
  refine ⟨rfl, h.retouch rfl rfl rfl ?_ (fun f' hf' => add_single_of_ne r hf') ?_⟩
  · rw [add_single_self, href]
  · exact fun hz => absurd hz (pos_add_single r f).ne'

/-- **`fileclose`** drops a reference.  The files that there are other references to stay open. -/
theorem fileclose (h : Tables s c (r + Pi.single f 1)) :
    wp (Fs.fileclose f) s
      (fun _ s' => Tables s' c r ∧ Drops (inodeRefs s.file + c) (inodeRefs s'.file + c) s s' ∧
        ∀ f', 0 < r f' → (s'.file f').mode = (s.file f').mode)
      Stop.Benign := by
  have href := h.ref f
  rw [add_single_self] at href
  have hoff : ∀ f', f' ≠ f → r f' = (r + Pi.single f 1 : Fin NFILE → ℕ) f' := fun f' hf =>
    (add_single_of_ne r hf).symm
  rw [Fs.fileclose, wp_bind, wp_get]
  dsimp only
  rw [wp_ite]
  refine ⟨fun hlt => by omega, fun _ => ?_⟩
  rw [wp_ite]
  refine ⟨fun hlt => ?_, fun hlast => ?_⟩
  · rw [wp_setFile]
    have hsame : inodeRefs (upd s.file f { s.file f with ref := (s.file f).ref - 1 }) =
        inodeRefs s.file := inodeRefs_upd_of_eq rfl
    refine ⟨h.retouch rfl rfl rfl ?_ hoff fun hz => by omega, ?_, fun f' _ => ?_⟩
    · show (s.file f).ref - 1 = r f
      omega
    · show Drops _ (inodeRefs (upd s.file f _) + c) s _
      rw [hsame]
      exact .putFile ..
    · exact putFile_mode (by exact rfl) f'
  · have hzero : r f = 0 := by omega
    rw [wp_bind, wp_setFile]
    have hsum := inodeRefs_upd s.file f { s.file f with ref := 0, type := .none }
    rw [File.refs_none (g := { s.file f with ref := 0, type := .none }) rfl, add_zero] at hsum
    -- the reference of the file structure is the caller's now
    have h1 :
      Tables (s.putFile f { s.file f with ref := 0, type := .none }) (c + (s.file f).refs) r :=
      h.putFile (by rw [← hsum]; abel) hzero.symm hoff (fun _ => rfl) nofun
    have hothers : ∀ f', 0 < r f' →
        ((s.putFile f { s.file f with ref := 0, type := .none }).file f').mode =
          (s.file f').mode := by
      intro f' hf'
      have hne : f' ≠ f := by
        rintro rfl
        omega
      rw [putFile_of_ne hne]
    cases htype : (s.file f).type with
    | inode =>
      rw [File.refs_inode htype] at h1 hsum
      rw [wp_bind, wp_beginOp]
      refine h1.iput.bind ?_
      rintro _ s2 ⟨h2, hfile, hdrops⟩
      rw [wp_endOp]
      have hfile' : ∀ f', s2.commit.file f' = _ := congrFun hfile
      refine ⟨h2, ?_, fun f' hf' => ?_⟩
      · have hall : inodeRefs (s.putFile f { s.file f with ref := 0, type := .none }).file +
            (c + Pi.single (s.file f).ip 1) = inodeRefs s.file + c := by
          rw [← hsum]
          show inodeRefs (upd s.file f _) + _ = _
          abel
        rw [hall] at hdrops
        rw [hfile]
        exact (Drops.putFile _ s f _).trans hdrops
      · rw [hfile']
        exact hothers f' hf'
    | none =>
      rw [File.refs_none htype, add_zero] at h1 hsum
      refine ⟨h1, ?_, hothers⟩
      show Drops _ (inodeRefs (upd s.file f _) + c) s _
      rw [hsum]
      exact .putFile ..

end Tables

end Xv6.Fs
