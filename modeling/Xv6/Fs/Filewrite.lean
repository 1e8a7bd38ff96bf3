import Xv6.Fs.Runs

/-!
# What a write has written

`filewrite` cuts a long write into pieces of at most `maxWrite` bytes, one transaction for each, and
adds to the offset of the file after each of them.  A piece is written as a whole or refused.  If it
is refused the loop ends and `filewrite` returns `-1`, and the pieces before it stay written.

So `-1` does not say that nothing was written: at the maximum file size, the first pieces can fit
and a later one not (`accounts_lost`).  `accounts_iff_of_exec` says when the result can be trusted.
-/

namespace Xv6.Fs

open Lib

/-! ## One turn -/

/-- The file structure `f` is open on the inode `i`, which has the node `nd`. -/
structure OpenOn (s : State) (f : Fin NFILE) (i : ℕ) (nd : Node) : Prop where
  type : (s.file f).type = .inode
  inum : (s.abs.tag (s.file f).ip).inum = i
  node : s.abs.node i = some nd

section Turn

variable {s s' : State} {c : Icache → ℕ} {f : Fin NFILE} {i : ℕ} {nd : Node}

theorem OpenOn.keep (h : OpenOn s f i nd) (hc : 0 < c (s.file f).ip) (hk : Keeps c s.abs s'.abs) :
    OpenOn s' f i nd := by
  have hfile : s'.file = s.file := hk.file
  refine ⟨by rw [hfile]; exact h.type, ?_, ?_⟩
  · rw [hfile, hk.inum _ hc]
    exact h.inum
  · rw [← h.inum, hk.node _ hc, h.inum]
    exact h.node

theorem OpenOn.contents_eq (h : OpenOn s f i nd) : contents s i = nd.data := by
  rw [contents, h.node]

theorem OpenOn.of_valid (h : Sound s) (htype : (s.file f).type = .inode)
    (hinum : (s.inode (s.file f).ip).inum = i) (href : 0 < (s.inode (s.file f).ip).ref)
    (hv : (s.inode (s.file f).ip).valid = true) :
    OpenOn s f i ((s.inode (s.file f).ip).din.node s.disk) := by
  refine ⟨htype, hinum, ?_⟩
  rw [← hinum]
  exact h.node_eq href hv

theorem toNat_ofNat_min (l : List UInt8) :
    (UInt32.ofNat (min l.length maxWrite)).toNat = min l.length maxWrite := by
  refine UInt32.toNat_ofNat_of_lt' ?_
  exact lt_of_le_of_lt (Nat.min_le_right _ _) (by decide)

/-- The end of the turn: the offset is moved, the inode unlocked, and the transaction ends. -/
theorem filewriteTurn_end (h : Cached s c) (hc : 0 < c (s.file f).ip) (ho : OpenOn s f i nd)
    (r : ℤ) :
    wp (do
        setFile f fun g => { g with off := g.off + UInt32.ofNat r.toNat }
        iunlock (s.file f).ip
        endOp
        return r) s
      (fun r' s' => r' = r ∧ s'.proc = s.proc ∧ OpenOn s' f i nd ∧
        (s'.file f).off = (s.file f).off + UInt32.ofNat r.toNat)
      (fun _ => True) := by
  rw [wp_bind, wp_setFile]
  generalize hs1 : s.putFile f { s.file f with off := (s.file f).off + UInt32.ofNat r.toNat } = s1
  have hf1 : s1.file f = { s.file f with off := (s.file f).off + UInt32.ofNat r.toNat } := by
    rw [← hs1, putFile_self]
  have h1 : Cached s1 c := by
    rw [← hs1]
    exact ⟨⟨h.sound.disk, h.sound.inum, h.sound.inj, h.sound.copy, h.sound.unlocked⟩, h.ref⟩
  have ho1 : OpenOn s1 f i nd := by
    refine ⟨by rw [hf1]; exact ho.type, ?_, ?_⟩
    · rw [hf1, ← hs1]
      exact ho.inum
    · rw [← hs1]
      exact ho.node
  refine (iunlock_spec h1 hc).chain (fun _ _ => trivial) ?_
  rintro _ s2 ⟨-, hk2⟩
  have ho2 : OpenOn s2 f i nd := ho1.keep (by rwa [hf1]) hk2
  rw [wp_bind, wp_endOp, wp_pure]
  refine ⟨rfl, ?_, ⟨ho2.type, ho2.inum, ho2.node⟩, ?_⟩
  · show s2.proc = s.proc
    rw [show s2.proc = s1.proc from hk2.proc, ← hs1]
    rfl
  · show (s2.file f).off = _
    rw [show s2.file = s1.file from hk2.file, hf1]

/-- **One turn of `filewrite`** writes the bytes at the front of `l` at the offset, and moves the
offset behind them; or the bytes do not fit, and nothing happens. -/
theorem filewriteTurn_data (h : Cached s c) (hc : 0 < c (s.file f).ip) (ho : OpenOn s f i nd)
    (ht : nd.type ≠ T_DEV) (l : List UInt8) :
    wp (filewriteTurn f l) s
      (fun r s' => s'.proc = s.proc ∧
        match writeData nd.data (s.file f).off.toNat (l.take maxWrite) with
        | none => r = -1 ∧ OpenOn s' f i nd ∧ (s'.file f).off = (s.file f).off
        | some d => r = min l.length maxWrite ∧ OpenOn s' f i { nd with data := d } ∧
            (s'.file f).off = (s.file f).off + UInt32.ofNat (min l.length maxWrite))
      (fun _ => True) := by
  have hnode : s.begin.abs.node (s.begin.abs.tag (s.file f).ip).inum = some nd := by
    show s.abs.node (s.abs.tag (s.file f).ip).inum = some nd
    rw [ho.inum]
    exact ho.node
  rw [filewriteTurn, wp_bind, wp_get]
  dsimp only
  rw [wp_bind, wp_beginOp]
  refine (ilock_node h.begin hc hnode).chain (fun _ _ => trivial) ?_
  rintro _ s1 ⟨h1, hk1, hh1, -, -⟩
  have ho1 : OpenOn s1 f i nd := OpenOn.keep (s := s.begin) ⟨ho.type, ho.inum, ho.node⟩ hc hk1
  have hfile1 : s1.file = s.file := hk1.file
  have hout1 : 1 ≤ s1.outstanding := (Nat.le_add_left 1 s.outstanding).trans_eq hk1.outstanding.symm
  have hbytes : slice (fun k => l.getD k 0) 0 (UInt32.ofNat (min l.length maxWrite)).toNat =
      l.take maxWrite := by
    rw [toNat_ofNat_min, slice_getD (Nat.min_le_left _ _), Nat.min_comm, ← List.take_eq_take_min]
  have hwrite := hh1.writei h1.sound hout1 ht (fun k => l.getD k 0) (s.file f).off
    (UInt32.ofNat (min l.length maxWrite))
  rw [hbytes, toNat_ofNat_min] at hwrite
  refine hwrite.chain (fun _ _ => trivial) ?_
  intro r s2 hr
  cases hdata : writeData nd.data (s.file f).off.toNat (l.take maxWrite) with
  | none =>
    rw [hdata] at hr
    obtain ⟨rfl, rfl⟩ := hr
    have hend := filewriteTurn_end h1 (by rwa [hfile1]) ho1 (-1)
    rw [hfile1] at hend
    refine hend.mono ?_ fun _ he => he
    rintro r s' ⟨rfl, hproc, ho', hoff⟩
    exact ⟨hproc.trans hk1.proc, rfl, ho', by rw [hoff]; exact UInt32.add_zero _⟩
  | some d =>
    rw [hdata] at hr
    obtain ⟨rfl, h2, habs⟩ := hr
    have hfile2 : s2.file = s.file := (congrArg Abs.file habs).trans hfile1
    have htag2 : s2.abs.tag = s1.abs.tag := by
      rw [habs]
      rfl
    have ho2 : OpenOn s2 f i { nd with data := d } := by
      refine ⟨by rw [hfile2]; exact ho.type, ?_, ?_⟩
      · rw [htag2, hfile2, ← hfile1]
        exact ho1.inum
      · rw [habs, show (s.begin.abs.tag (s.file f).ip).inum = i from ho.inum, Abs.putNode_self]
    have hend := filewriteTurn_end (h1.of_abs h2 htag2) (by rwa [hfile2]) ho2
      ((min l.length maxWrite : ℕ) : ℤ)
    rw [hfile2] at hend
    refine hend.mono ?_ fun _ he => he
    rintro r s' ⟨rfl, hproc, ho', hoff⟩
    refine ⟨hproc.trans ((congrArg Abs.proc habs).trans hk1.proc), rfl, ho', ?_⟩
    rw [hoff, Int.toNat_natCast]

theorem drop_min_length {α : Type*} (l : List α) (k : ℕ) : l.drop (min l.length k) = l.drop k := by
  rcases Nat.le_total l.length k with hle | hle
  · rw [Nat.min_eq_left hle, List.drop_length, List.drop_eq_nil_of_le hle]
  · rw [Nat.min_eq_right hle]

/-- **The next turn of a `write`**: more bytes are to come, or the call returns. -/
theorem writeTurn_data {p : Slot} {pr : Proc} (h : Cached s c) (hc : 0 < c (s.file f).ip)
    (ho : OpenOn s f i nd) (ht : nd.type ≠ T_DEV) (hp : s.proc p = some pr) (fd : Fin NOFILE)
    (l : List UInt8) (n : ℕ) :
    wp (writeTurn p f fd l n) s
      (fun r s' =>
        match writeData nd.data (s.file f).off.toNat (l.take maxWrite) with
        | none => r = .int (-1) ∧ s'.proc p = some { pr with pending := none } ∧ OpenOn s' f i nd ∧
            (s'.file f).off = (s.file f).off
        | some d => OpenOn s' f i { nd with data := d } ∧
            (s'.file f).off = (s.file f).off + UInt32.ofNat (min l.length maxWrite) ∧
            if l.drop maxWrite = [] then
              r = .int n ∧ s'.proc p = some { pr with pending := none }
            else
              r = .busy ∧
                s'.proc p = some { pr with pending := some (.write fd (l.drop maxWrite) n) })
      (fun _ => True) := by
  rw [writeTurn, drop_min_length]
  refine (filewriteTurn_data h hc ho ht l).bind ?_
  rintro r s1 ⟨hproc, hr⟩
  have hp1 : s1.proc p = some pr := by rw [hproc, hp]
  have hput : ∀ pr' : Proc, (s1.putProc p (some pr')).proc p = some pr' := fun _ => upd_self
  cases hdata : writeData nd.data (s.file f).off.toNat (l.take maxWrite) with
  | none =>
    rw [hdata] at hr
    obtain ⟨rfl, ho1, hoff⟩ := hr
    rw [if_pos (by decide), wp_bind, wp_setProc hp1]
    exact ⟨rfl, hput _, ⟨ho1.type, ho1.inum, ho1.node⟩, hoff⟩
  | some d =>
    rw [hdata] at hr
    obtain ⟨rfl, ho1, hoff⟩ := hr
    rw [if_neg (by omega), if_neg (by simp)]
    by_cases hnil : l.drop maxWrite = []
    · rw [if_pos hnil, wp_bind, wp_setProc hp1]
      refine ⟨⟨ho1.type, ho1.inum, ho1.node⟩, hoff, ?_⟩
      rw [if_pos hnil]
      exact ⟨rfl, hput _⟩
    · rw [if_neg hnil, wp_bind, wp_setProc hp1]
      refine ⟨⟨ho1.type, ho1.inum, ho1.node⟩, hoff, ?_⟩
      rw [if_neg hnil]
      exact ⟨rfl, hput _⟩

end Turn

/-! ## The whole call -/

/-- The call of the process, made without interruption, returns the reply `r` in the state `s'`. -/
def Returns (p : Slot) (a : Call) (s s' : State) (r : Reply) : Prop :=
  ∃ k rs, Lib.exec step s ((p, a) :: List.replicate k (p, .resume)) = some (s', rs) ∧
    rs.getLast? = some r ∧ r ≠ .busy

/-- How a write of the bytes `l`, of `n` in all, has gone from `s` to `s'`. -/
inductive Outcome (f : Fin NFILE) (i : ℕ) (l : List UInt8) (n : ℕ) (s s' : State) : Reply → Prop
  | whole (start : (s.file f).off.toNat ≤ (contents s i).length)
      (fits : (s.file f).off.toNat + l.length ≤ MAXFILE * BSIZE)
      (data : contents s' i = splice (contents s i) (s.file f).off.toNat l)
      (off : (s'.file f).off.toNat = (s.file f).off.toNat + l.length) :
        Outcome f i l n s s' (.int n)
  | refused (full : (contents s i).length < (s.file f).off.toNat ∨
        MAXFILE * BSIZE < (s.file f).off.toNat + min l.length maxWrite)
      (data : contents s' i = contents s i) (off : (s'.file f).off = (s.file f).off) :
      Outcome f i l n s s' (.int (-1))
  | cut (start : (s.file f).off.toNat ≤ (contents s i).length)
      (first : (s.file f).off.toNat + min l.length maxWrite ≤ MAXFILE * BSIZE)
      (full : MAXFILE * BSIZE < (s.file f).off.toNat + l.length)
      (off : (s.file f).off.toNat < (s'.file f).off.toNat) : Outcome f i l n s s' (.int (-1))

section Run

variable {s s' : State} {p : Slot} {pr : Proc} {d : Fin NOFILE} {f : Fin NFILE} {i n k : ℕ}
  {nd : Node} {l : List UInt8} {r : Reply} {rs : List Reply}

/-- A process that is not in the middle of a call has nothing to resume. -/
theorem exec_resumes_of_idle (hp : s.proc p = some pr) (hidle : pr.pending = none)
    (hrun : Lib.exec step s (List.replicate k (p, .resume)) = some (s', rs)) :
    s' = s ∧ rs = [] := by
  cases k with
  | zero =>
    cases hrun
    exact ⟨rfl, rfl⟩
  | succ k =>
    rw [List.replicate_succ] at hrun
    obtain ⟨t, e, es, hs, -, -⟩ := exec_cons_iff.mp hrun
    obtain ⟨pr', hp', hen, -⟩ := step_eq_some_iff.mp hs
    obtain rfl : pr = pr' := Option.some.inj (hp.symm.trans hp')
    rw [enabled, hidle] at hen
    cases hen

/-- The condition under which `writei` takes a piece. -/
theorem writeData_eq_ite (m : List UInt8) (off : ℕ) (b : List UInt8) :
    writeData m off b =
      if m.length < off ∨
        MAXFILE * BSIZE < off + b.length then none else some (splice m off b) := by
  have hmax : MAXFILE * BSIZE < 2 ^ 32 := by decide
  rw [writeData]
  by_cases hc : m.length < off ∨ MAXFILE * BSIZE < off + b.length
  · rw [if_pos hc, if_pos (hc.imp_right Or.inr)]
  · rw [if_neg hc, if_neg (by omega)]

theorem toNat_off_add {off : UInt32} (h : off.toNat + min l.length maxWrite ≤ MAXFILE * BSIZE) :
    (off + UInt32.ofNat (min l.length maxWrite)).toNat = off.toNat + min l.length maxWrite := by
  have hmax : MAXFILE * BSIZE < 2 ^ 32 := by decide
  rw [toNat_add_of_lt (by rw [toNat_ofNat_min]; omega), toNat_ofNat_min]

theorem resume_data (h : Rest s) (hp : s.proc p = some pr)
    (hpend : pr.pending = some (.write d l n)) (hofile : pr.ofile d = some f) (ho : OpenOn s f i nd)
    (ht : nd.type ≠ T_DEV) (hs : step s (p, .resume) = some (s', r)) :
    (((contents s i).length < (s.file f).off.toNat ∨
        MAXFILE * BSIZE < (s.file f).off.toNat + min l.length maxWrite) ∧
      r = .int (-1) ∧ s'.proc p = some { pr with pending := none } ∧
      contents s' i = contents s i ∧ (s'.file f).off = (s.file f).off) ∨
    ((s.file f).off.toNat ≤ (contents s i).length ∧
      (s.file f).off.toNat + min l.length maxWrite ≤ MAXFILE * BSIZE ∧
      OpenOn s' f i { nd with data := splice nd.data (s.file f).off.toNat (l.take maxWrite) } ∧
      (s'.file f).off.toNat = (s.file f).off.toNat + min l.length maxWrite ∧
      if l.drop maxWrite = [] then r = .int n ∧ s'.proc p = some { pr with pending := none }
      else r = .busy ∧
        s'.proc p = some { pr with pending := some (.write d (l.drop maxWrite) n) }) := by
  obtain ⟨pr', hp', -, hcall⟩ := step_eq_some_iff.mp hs
  obtain rfl : pr = pr' := Option.some.inj (hp.symm.trans hp')
  have hturn : writeTurn p f d l n s = .ok (r, s') := by
    rw [syscall, resume, hpend] at hcall
    simp only [hofile] at hcall
    exact hcall
  have hdata := (writeTurn_data h.tables.cached (holders_ip_pos ho.type) ho ht hp d l n).ok hturn
  rw [writeData_eq_ite, List.length_take, Nat.min_comm maxWrite, ← ho.contents_eq] at hdata
  by_cases hfull : (contents s i).length < (s.file f).off.toNat ∨
      MAXFILE * BSIZE < (s.file f).off.toNat + min l.length maxWrite
  · rw [if_pos hfull] at hdata
    obtain ⟨hr, hproc, ho', hoff⟩ := hdata
    exact Or.inl ⟨hfull, hr, hproc, by rw [ho'.contents_eq, ho.contents_eq], hoff⟩
  · rw [if_neg hfull] at hdata
    obtain ⟨ho', hoff, hend⟩ := hdata
    rw [not_or, Nat.not_lt, Nat.not_lt] at hfull
    rw [ho.contents_eq] at ho'
    exact Or.inr ⟨hfull.1, hfull.2, ho', by rw [hoff, toNat_off_add hfull.2], hend⟩

/-- **The loop of `filewrite`**, by induction on its turns. -/
theorem outcome_of_resumes (h : Rest s) (hp : s.proc p = some pr)
    (hpend : pr.pending = some (.write d l n)) (hofile : pr.ofile d = some f) (ho : OpenOn s f i nd)
    (ht : nd.type ≠ T_DEV) (hl : l ≠ [])
    (hrun : Lib.exec step s (List.replicate k (p, .resume)) = some (s', rs))
    (hlast : rs.getLast? = some r) (hr : r ≠ .busy) : Outcome f i l n s s' r := by
  induction k generalizing s pr l nd rs with
  | zero =>
    cases hrun
    cases hlast
  | succ k ih =>
    rw [List.replicate_succ] at hrun
    obtain ⟨t, e, es, hs, hrest, rfl⟩ := exec_cons_iff.mp hrun
    obtain ⟨_, _, hafter⟩ := h.step hs
    rcases resume_data h hp hpend hofile ho ht hs with
      ⟨hfull, rfl, hproc, hdata, hoff⟩ | ⟨hstart, hfirst, ho', hoff, hend⟩
    · obtain ⟨rfl, rfl⟩ := exec_resumes_of_idle hproc rfl hrest
      obtain rfl : Reply.int (-1) = r := Option.some.inj hlast
      exact .refused hfull hdata hoff
    · have hle : (s.file f).off.toNat ≤ nd.data.length := by
        rw [← ho.contents_eq]
        exact hstart
      have hlen : (splice nd.data (s.file f).off.toNat (l.take maxWrite)).length =
          max nd.data.length ((s.file f).off.toNat + min maxWrite l.length) := by
        rw [length_splice hle, List.length_take]
      split_ifs at hend with hnil
      · -- the last piece
        obtain ⟨rfl, hproc⟩ := hend
        obtain ⟨rfl, rfl⟩ := exec_resumes_of_idle hproc rfl hrest
        obtain rfl : Reply.int n = r := Option.some.inj hlast
        have hshort : l.length ≤ maxWrite := List.drop_eq_nil_iff.mp hnil
        rw [Nat.min_eq_left hshort] at hfirst hoff
        refine .whole hstart hfirst ?_ hoff
        rw [ho'.contents_eq, ho.contents_eq, List.take_of_length_le hshort]
      · -- the rest of the bytes, behind this piece
        obtain ⟨rfl, hproc⟩ := hend
        have hlt : maxWrite < l.length := by
          by_contra hnot
          exact hnil (List.drop_eq_nil_iff.mpr (by omega))
        have hpos : 0 < maxWrite := by decide
        rw [Nat.min_eq_right hlt.le] at hfirst hoff
        rw [Nat.min_eq_left hlt.le] at hlen
        have hlast' : es.getLast? = some r := by
          cases es with
          | nil => exact absurd (Option.some.inj hlast).symm hr
          | cons e' es => rwa [List.getLast?_cons_cons] at hlast
        have hout := ih hafter.rest hproc rfl hofile ho' ht hnil hrest hlast'
        have hdrop : (l.drop maxWrite).length = l.length - maxWrite := List.length_drop
        cases hout with
        | whole hstart' hfits' hdata' hoff' =>
          rw [hoff, hdrop] at hfits' hoff'
          refine .whole hstart (by omega) ?_ (by omega)
          have happ : splice (splice nd.data (s.file f).off.toNat (l.take maxWrite))
              ((s.file f).off.toNat + (l.take maxWrite).length) (l.drop maxWrite) =
              splice nd.data (s.file f).off.toNat (l.take maxWrite ++ l.drop maxWrite) :=
            splice_append hle
          rw [List.length_take_of_le hlt.le, List.take_append_drop] at happ
          rw [hdata', ho'.contents_eq, hoff, ho.contents_eq, happ]
        | refused hfull' hdata' hoff' =>
          rw [ho'.contents_eq, hlen, hoff, hdrop] at hfull'
          have hfirst' : (s.file f).off.toNat + min l.length maxWrite ≤ MAXFILE * BSIZE := by omega
          refine .cut hstart hfirst' ?_ ?_
          · have := ho.contents_eq
            omega
          · rw [hoff', hoff]
            omega
        | cut hstart' hfirst' hfull' hoff' =>
          rw [hoff] at hfull' hoff'
          rw [hdrop] at hfull'
          refine .cut hstart ?_ ?_ ?_
          · omega
          · omega
          · omega

/-- **`write` made without interruption**, on a file that is open for writing. -/
theorem outcome_of_returns {fd : ℤ} (h : Rest s) (hp : s.proc p = some pr)
    (hfd : argfd pr fd = some (d, f)) (ho : OpenOn s f i nd) (ht : nd.type ≠ T_DEV)
    (hl : l.length < 2 ^ 31) (hne : l ≠ []) (hw : (s.file f).writable = true)
    (hret : Returns p (.write fd l) s s' r) : Outcome f i l l.length s s' r := by
  obtain ⟨k, rs, hrun, hlast, hr⟩ := hret
  obtain ⟨t, e, es, hs, hrest, rfl⟩ := exec_cons_iff.mp hrun
  obtain ⟨_, _, hafter⟩ := h.step hs
  obtain ⟨pr', hp', -, hcall⟩ := step_eq_some_iff.mp hs
  obtain rfl : pr = pr' := Option.some.inj (hp.symm.trans hp')
  have hwrite : wp (sysWrite p pr fd l) s
      (fun e t => e = .busy ∧
        t = s.putProc p (some { pr with pending := some (.write d l l.length) }))
          (fun _ => True) := by
    rw [sysWrite, hfd]
    dsimp only
    rw [if_neg (by omega), wp_bind, wp_get, if_neg (by rw [hw]; decide), ho.type]
    dsimp only
    rw [if_neg hne, wp_bind, wp_setProc hp]
    exact ⟨rfl, rfl⟩
  obtain ⟨rfl, rfl⟩ := hwrite.ok hcall
  have hlast' : es.getLast? = some r := by
    cases es with
    | nil => exact absurd (Option.some.inj hlast).symm hr
    | cons e' es => rwa [List.getLast?_cons_cons] at hlast
  have hout := outcome_of_resumes hafter.rest upd_self rfl (argfd_some hfd)
    (OpenOn.mk ho.type ho.inum ho.node) ht hne hrest hlast' hr
  cases hout with
  | whole hstart hfits hdata hoff => exact .whole hstart hfits hdata hoff
  | refused hfull hdata hoff => exact .refused hfull hdata hoff
  | cut hstart hfirst hfull hoff => exact .cut hstart hfirst hfull hoff

theorem Returns.of_idle {a : Call} {e : Reply} (hret : Returns p a s s' r) (hp : s.proc p = some pr)
    (hidle : pr.pending = none)
    (hcall : wp (syscall p pr a) s (fun e' t => e' = e ∧ t = s) fun _ => True) :
    s' = s ∧ r = e := by
  obtain ⟨k, rs, hrun, hlast, -⟩ := hret
  obtain ⟨t, e', es, hs, hrest, rfl⟩ := exec_cons_iff.mp hrun
  obtain ⟨pr', hp', -, hcall'⟩ := step_eq_some_iff.mp hs
  obtain rfl : pr = pr' := Option.some.inj (hp.symm.trans hp')
  obtain ⟨rfl, rfl⟩ := hcall.ok hcall'
  obtain ⟨rfl, rfl⟩ := exec_resumes_of_idle hp hidle hrest
  exact ⟨rfl, (Option.some.inj hlast).symm⟩

theorem Returns.pending {a : Call} (hret : Returns p a s s' r) (hp : s.proc p = some pr)
    (ha : a ≠ .resume) : pr.pending = none := by
  obtain ⟨k, rs, hrun, -, -⟩ := hret
  obtain ⟨t, e', es, hs, -, -⟩ := exec_cons_iff.mp hrun
  obtain ⟨pr', hp', hen, -⟩ := step_eq_some_iff.mp hs
  obtain rfl : pr = pr' := Option.some.inj (hp.symm.trans hp')
  cases a with
  | resume => exact absurd rfl ha
  | fork c =>
    rw [enabled, Bool.and_eq_true] at hen
    exact Option.isNone_iff_eq_none.mp hen.1
  | _ => exact Option.isNone_iff_eq_none.mp hen

/-- The result `r` of writing `l` accounts for what was written. -/
structure Accounts (f : Fin NFILE) (i : ℕ) (l : List UInt8) (s s' : State) (r : ℤ) : Prop where
  written : 0 ≤ r → r.toNat ≤ l.length ∧
    contents s' i = splice (contents s i) (s.file f).off.toNat (l.take r.toNat) ∧
    (s'.file f).off.toNat = (s.file f).off.toNat + r.toNat
  failed : r = -1 → contents s' i = contents s i ∧ (s'.file f).off = (s.file f).off

/-- The write is refused at its first byte or piece, or it fits as a whole. -/
def Clear (s : State) (f : Fin NFILE) (i n : ℕ) : Prop :=
  (s.file f).writable = false ∨ (contents s i).length < (s.file f).off.toNat ∨
    MAXFILE * BSIZE < (s.file f).off.toNat + min n maxWrite ∨
    (s.file f).off.toNat + n ≤ MAXFILE * BSIZE

theorem Outcome.accounts_iff {r : ℤ} (h : Outcome f i l l.length s s' (.int r))
    (hw : (s.file f).writable = true) : Accounts f i l s s' r ↔ Clear s f i l.length := by
  have hclear : Clear s f i l.length ↔ (contents s i).length < (s.file f).off.toNat ∨
      MAXFILE * BSIZE < (s.file f).off.toNat + min l.length maxWrite ∨
      (s.file f).off.toNat + l.length ≤ MAXFILE * BSIZE := by
    rw [Clear, hw]
    exact or_iff_right (by decide)
  rw [hclear]
  generalize hr : Reply.int r = r' at h
  cases h with
  | whole hstart hfits hdata hoff =>
    obtain rfl := Reply.int.inj hr
    refine iff_of_true ⟨fun _ => ⟨le_rfl, ?_, hoff⟩, fun hneg => absurd hneg (by omega)⟩
      (Or.inr (Or.inr hfits))
    rw [Int.toNat_natCast, List.take_length]
    exact hdata
  | refused hfull hdata hoff =>
    obtain rfl := Reply.int.inj hr
    exact iff_of_true ⟨fun hneg => absurd hneg (by decide), fun _ => ⟨hdata, hoff⟩⟩
      (hfull.imp_right Or.inl)
  | cut hstart hfirst hfull hoff =>
    obtain rfl := Reply.int.inj hr
    refine iff_of_false (fun hacc => ?_) (by omega)
    rw [(hacc.failed rfl).2] at hoff
    exact lt_irrefl _ hoff

/-- **The result of `filewrite`.**  After any run, a `write` to a regular file that is made without
interruption returns what accounts for its effect if and only if the bytes fit as a whole, or not
even the first piece of them does. -/
theorem accounts_iff_of_exec {disk : Disk} {devsw : ℕ → Devsw} {q : Slot} (h : Image disk)
    {s0 : State} (hboot : userinit q (init disk devsw) = .ok ((), s0)) {as : List (Slot × Call)}
    (hrun : Lib.exec step s0 as = some (s, rs)) (hp : s.proc p = some pr) {fd : ℤ}
    (hfd : argfd pr fd = some (d, f)) (ho : OpenOn s f i nd) (ht : nd.type = T_FILE)
    (hl : l.length < 2 ^ 31) {r : ℤ} (hret : Returns p (.write fd l) s s' (.int r)) :
    Accounts f i l s s' r ↔ Clear s f i l.length := by
  have hrest := rest_of_exec h hboot hrun
  have hidle := hret.pending hp nofun
  by_cases hw : (s.file f).writable = true
  · by_cases hne : l = []
    · have hcall : wp (syscall p pr (.write fd l)) s (fun e t => e = .int 0 ∧ t = s)
          fun _ => True := by
        rw [syscall, sysWrite, hfd]
        dsimp only
        rw [if_neg (by omega), wp_bind, wp_get, if_neg (by rw [hw]; decide), ho.type]
        dsimp only
        rw [if_pos hne]
        exact ⟨rfl, rfl⟩
      obtain ⟨rfl, hr⟩ := hret.of_idle hp hidle hcall
      obtain rfl := Reply.int.inj hr
      refine iff_of_true ⟨fun _ => ⟨Nat.zero_le _, ?_, rfl⟩, fun _ => ⟨rfl, rfl⟩⟩ ?_
      · rw [Int.toNat_zero, List.take_zero, splice_nil]
      · rw [Clear, hne, List.length_nil, Nat.zero_min]
        omega
    · have hdev : nd.type ≠ T_DEV := by
        rw [ht]
        decide
      exact (outcome_of_returns hrest hp hfd ho hdev hl hne hw hret).accounts_iff hw
  · rw [Bool.not_eq_true] at hw
    have hcall : wp (syscall p pr (.write fd l)) s (fun e t => e = .int (-1) ∧ t = s)
        fun _ => True := by
      rw [syscall, sysWrite, hfd]
      dsimp only
      rw [if_neg (by omega), wp_bind, wp_get, if_pos (by rw [hw]; decide)]
      exact ⟨rfl, rfl⟩
    obtain ⟨rfl, hr⟩ := hret.of_idle hp hidle hcall
    obtain rfl := Reply.int.inj hr
    exact iff_of_true ⟨fun hneg => absurd hneg (by decide), fun _ => ⟨rfl, rfl⟩⟩ (Or.inl hw)

end Run

/-- The file structure that the first `open` gets. -/
def firstFile : Fin NFILE := 0

/-- A byte is written to a new file. -/
theorem accounts_of_first_write : ∃ s0 s s' rs nd,
    boot (rootDisk 0x1F) = .ok ((), s0) ∧
      Lib.exec step s0 [(initproc, .open [slash, 102] (O_CREATE ||| O_RDWR))] = some (s, rs) ∧
      OpenOn s firstFile 2 nd ∧ Returns initproc (.write 0 [7]) s s' (.int 1) ∧
      (Accounts firstFile 2 [7] s s' 1 ↔ Clear s firstFile 2 1) := by
  have hcompute : (ran (rootDisk 0x1F) [(initproc, .open [slash, 102] (O_CREATE ||| O_RDWR))]).bind
      (fun x => (Lib.exec step x.1 [(initproc, .write 0 [7]), (initproc, .resume)]).map fun y =>
        (decide ((x.1.file firstFile).type = .inode ∧
          (x.1.inode (x.1.file firstFile).ip).inum = 2 ∧
            (x.1.inode (x.1.file firstFile).ip).ref = 1 ∧
          (x.1.inode (x.1.file firstFile).ip).valid = true ∧
          (x.1.inode (x.1.file firstFile).ip).din.type = T_FILE),
        (x.1.proc initproc).map fun pr =>
          decide (argfd pr 0 = some (0, firstFile)), y.2)) =
      some (true, some true, [.busy, .int 1]) := by
    decide +kernel
  obtain ⟨s0, s, rs, hboot, hopen, hy⟩ := exists_run_bind hcompute
  obtain ⟨⟨s', rs'⟩, hwrite, hy⟩ := Option.map_eq_some_iff.mp hy
  simp only [Prod.mk.injEq, Option.map_eq_some_iff, decide_eq_true_eq] at hy
  obtain ⟨⟨htype, hinum, href, hv, ht⟩, ⟨pr, hp, hfd⟩, rfl⟩ := hy
  have hsound := (rest_of_exec rootDisk_image hboot hopen).tables.cached.sound
  have ho := OpenOn.of_valid hsound htype hinum (by rw [href]; decide) hv
  have hret : Returns initproc (.write 0 [7]) s s' (.int 1) := ⟨1, _, hwrite, rfl, nofun⟩
  exact ⟨s0, s, s', rs, _, hboot, hopen, ho, hret,
    accounts_iff_of_exec rootDisk_image hboot hopen hp hfd ho ht (by decide) hret⟩

/-! ## A file that is almost full -/

section Reading

variable {s : State} {ip : Icache} {f : Fin NFILE}

/-- Reading from a file that nobody has locked moves the offset by the bytes that there are. -/
theorem fileread_ok (htype : (s.file f).type = .inode) (hr : (s.file f).readable = true)
    (hip : (s.file f).ip = ip) (href : 0 < (s.inode ip).ref) (hl : (s.inode ip).locked = false)
    (hv : (s.inode ip).valid = true) (hfull : (s.inode ip).din.NoHoles s.disk)
    (ht : (s.inode ip).din.type ≠ T_DEV) {n : UInt32} {b : Option (List UInt8)}
    (hb : readData ((s.inode ip).din.data s.disk) (s.file f).off n = b) :
    fileread f n s = .ok (b, (s.putFile f
      { s.file f with off := (s.file f).off + UInt32.ofNat (b.getD []).length }).note
        s.snapshot) := by
  generalize hg :
    ({ s.file f with off := (s.file f).off + UInt32.ofNat (b.getD []).length } : File) = g
  have hlock := ilock_of_valid href hl hv
  have hread : readi ip (s.file f).off n (s.putInode ip { s.inode ip with locked := true }) =
      .ok (b, s.putInode ip { s.inode ip with locked := true }) := by
    rw [readi_eq (by rw [putInode_self]; exact hfull) (by rw [putInode_self]; exact ht),
      putInode_self]
    rw [← hb]
    rfl
  have hunlock : iunlock ip ((s.putInode ip { s.inode ip with locked := true }).putFile f g) =
      .ok ((), (s.putFile f g).note s.snapshot) := by
    have hself : ((s.putInode ip { s.inode ip with locked := true }).putFile f g).inode ip =
        { s.inode ip with locked := true } := putInode_self
    rw [iunlock_ok (by rw [hself]; exact href) (by rw [hself]), hself]
    have hback : ({ s.inode ip with locked := false } : Inode) = s.inode ip := by rw [← hl]
    show Except.ok ((), State.note { s with
      inode := upd (upd s.inode ip _) ip { s.inode ip with locked := false }
      file := upd s.file f g } ⟨s.sb, s.disk, upd (upd s.inode ip _) ip _⟩) = _
    rw [upd_upd, hback, upd_eq_self]
    rfl
  unfold fileread
  refine (bind_ok (a := s) (by rfl)).trans ?_
  rw [if_neg (by rw [hr]; decide), htype, hip]
  refine (bind_ok hlock).trans ((bind_ok hread).trans ((bind_ok (by rfl)).trans ?_))
  show (iunlock ip >>= fun _ => pure b) ((s.putInode ip _).putFile f
    { s.file f with off := (s.file f).off + UInt32.ofNat (b.getD []).length }) = _
  rw [hg]
  exact (bind_ok hunlock).trans rfl

end Reading

/-- The inode of a file of 137 blocks: twelve of them, the table of addresses in block 17, and the
rest behind it. -/
def longDinode : Dinode := ⟨T_FILE, 0, 0, 1, 137 * 512, fun k => UInt32.ofNat (5 + k)⟩

/-- A disk with the root directory and the long file `/g`.  The blocks from 143 on are free. -/
def longDisk : Disk
  | 1 => superBlock [150, 146, 8, 0, 2, 2, 3]
  | 2 => putDinode 2 longDinode (putDinode ROOTINO { rootDinode with size := 48 } zeroBlock)
  | 3 => fun x => if x < 17 then 0xFF else if x = 17 then 0x7F else 0
  | 4 => blit rootBlock 32 (newEntry 2 [103])
  | 17 => fun x => if x < 500 ∧ x % 4 = 0 then UInt8.ofNat (18 + x / 4) else 0
  | _ => zeroBlock

def longSb : Superblock := ⟨150, 146, 8, 0, 2, 2, 3⟩

/-- The pointer that holds a block of the disk. -/
def longOwner (b : ℕ) : ℕ × Ptr :=
  if b = 4 then (ROOTINO, .addr ⟨0, Nat.succ_pos _⟩)
  else if b < 18 then (2, .addr ⟨(b - 5) % (NDIRECT + 1), Nat.mod_lt _ (by decide)⟩)
  else (2, .entry ⟨(b - 18) % NINDIRECT, Nat.mod_lt _ (by decide)⟩)

theorem longDisk_image : Image longDisk := by
  have hsb : readsb longDisk = longSb := by decide +kernel
  have htype : ∀ i < 8, (dinode longDisk longSb i).type ≠ 0 → i = 1 ∨ i = 2 := by decide +kernel
  have howned : Owned longSb longDisk (dinode longDisk longSb) := by
    refine owned_of_owner (m := 143) longOwner (by decide) (by decide) (by decide) ?_ ?_ ?_
    · decide +kernel
    · decide +kernel
    · decide +kernel
  have hsize : ∀ i < 8, (dinode longDisk longSb i).size.toNat ≤ 137 * 512 := by decide +kernel
  have haddr : ∀ i < 8, ∀ bn < 137, bn * BSIZE < (dinode longDisk longSb i).size.toNat →
      (dinode longDisk longSb i).addr longDisk bn ≠ 0 := by decide +kernel
  refine ⟨?_, ?_, ?_⟩
  · rw [hsb]
    refine ⟨⟨by decide, by decide, by decide, by decide, by decide, by decide⟩, hsb, howned, ?_⟩
    intro i hi _ bn hbn
    have hle := hsize i hi
    exact haddr i hi bn (by change bn * 512 < _ at hbn; omega) hbn
  · rw [hsb]
    intro i nd hi hdir k hk
    rw [nodeOf] at hi
    split_ifs at hi with hc
    cases hi
    rcases htype i hc.1 hc.2 with rfl | rfl
    · have hlen : ((dinode longDisk longSb 1).node longDisk).data.length = 48 := by decide +kernel
      have hbound : ∀ k < 3,
        (direntAt ((dinode longDisk longSb 1).node longDisk).data k).inum < 8 := by
        decide +kernel
      rw [hlen] at hk
      exact hbound k (by change 16 * (k + 1) ≤ 48 at hk; omega)
    · exact absurd hdir (by decide +kernel)
  · rw [hsb]
    exact ⟨_, if_pos ⟨by decide, by decide +kernel⟩⟩

/-- Open the long file and read it to its end. -/
def longRun : List (Slot × Call) :=
  [(initproc, .open [slash, 103] O_RDWR), (initproc, .read 0 70144)]

def longBytes : List UInt8 := List.replicate (maxWrite + 1) 7

/-- At the end of the long file there is room for one piece. -/
theorem accounts_lost : Image longDisk ∧ ∃ s0 s s' rs nd,
    boot longDisk = .ok ((), s0) ∧
      Lib.exec step s0 longRun = some (s, rs) ∧ OpenOn s firstFile 2 nd ∧ nd.type = T_FILE ∧
      Returns initproc (.write 0 longBytes) s s' (.int (-1)) ∧
      ¬ Accounts firstFile 2 longBytes s s' (-1) := by
  refine ⟨longDisk_image, ?_⟩
  -- what there is after the `open`, and after the `write` from the end of the file
  have hcompute : (ran longDisk [(initproc, .open [slash, 103] O_RDWR)]).bind (fun x =>
      (Lib.exec step
        ((x.1.putFile firstFile { x.1.file firstFile with off := 70144 }).note x.1.snapshot)
        ((initproc, .write 0 longBytes) :: List.replicate 2 (initproc, .resume))).map fun y =>
      (decide ((x.1.file firstFile).type = .inode ∧ (x.1.file firstFile).readable = true ∧
          (x.1.file firstFile).off = 0),
        (x.1.proc initproc).map fun pr =>
          decide (argfd pr 0 = some (0, firstFile) ∧ pr.pending.isNone = true),
        decide ((x.1.inode (x.1.file firstFile).ip).inum = 2 ∧
          (x.1.inode (x.1.file firstFile).ip).ref = 1 ∧
          (x.1.inode (x.1.file firstFile).ip).locked = false ∧
          (x.1.inode (x.1.file firstFile).ip).valid = true ∧
          (x.1.inode (x.1.file firstFile).ip).din.type = T_FILE ∧
          (x.1.inode (x.1.file firstFile).ip).din.size = 70144),
        y.2, (y.1.file firstFile).off)) =
      some (true, some true, true, [.busy, .busy, .int (-1)], 71680) := by
    decide +kernel
  obtain ⟨s0, t, rs, hboot, hopen, hy⟩ := exists_run_bind hcompute
  obtain ⟨⟨s', rs'⟩, hwrite, hy⟩ := Option.map_eq_some_iff.mp hy
  simp only [Prod.mk.injEq, Option.map_eq_some_iff, decide_eq_true_eq] at hy
  obtain ⟨⟨htype, hr, hoff⟩, ⟨pr, hp, hfd, hidle⟩, ⟨hinum, href, hl, hv, ht, hsize⟩,
    rfl, hoff'⟩ := hy
  dsimp only at hwrite
  have hrest := rest_of_exec longDisk_image hboot hopen
  have hsound := hrest.tables.cached.sound
  -- the `read` moves the offset to the end
  have hlen : ((t.inode (t.file firstFile).ip).din.data t.disk).length = 70144 := by
    rw [Dinode.length_data, hsize]
    rfl
  have hread :
    readData ((t.inode (t.file firstFile).ip).din.data t.disk) (t.file firstFile).off 70144 =
      some ((t.inode (t.file firstFile).ip).din.data t.disk) := by
    rw [readData, hoff, hlen, if_neg (by decide)]
    exact congrArg some (List.take_of_length_le hlen.le)
  have hbytes := fileread_ok htype hr rfl (by rw [href]; decide) hl hv
    (hsound.noHoles (by rw [href]; decide) hv) (by rw [ht]; decide) hread
  rw [hoff, Option.getD_some, hlen] at hbytes
  have hstep : step t (initproc, .read 0 70144) = some
      ((t.putFile firstFile { t.file firstFile with off := 70144 }).note t.snapshot,
        .bytes (some ((t.inode (t.file firstFile).ip).din.data t.disk))) := by
    refine step_eq_some_iff.mpr ⟨pr, hp, ?_, ?_⟩
    · exact hidle
    · rw [syscall, sysRead, hfd]
      dsimp only
      rw [if_neg (by decide)]
      exact (bind_ok hbytes).trans rfl
  refine ⟨s0, _, s', _, (t.inode (t.file firstFile).ip).din.node t.disk, hboot,
    exec_concat_iff.mpr ⟨t, rs, _, hopen, hstep, rfl⟩, ?_, ht, ⟨2, _, hwrite, rfl, by rintro ⟨⟩⟩,
    ?_⟩
  · have ho := OpenOn.of_valid hsound htype hinum (by rw [href]; decide) hv
    exact ⟨by rw [note_file, putFile_self]; exact htype,
      by rw [note_file, putFile_self]; exact hinum, ho.node⟩
  · intro hacc
    have hsame := (hacc.failed rfl).2
    rw [hoff', note_file, putFile_self] at hsame
    exact absurd hsame (show (71680 : UInt32) ≠ 70144 by decide)

end Xv6.Fs
