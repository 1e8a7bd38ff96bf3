import Mathlib.Data.Fintype.Card
import Xv6.Bcache.Machine
import Xv6.Lib.Forward
import Xv6.Mkfs.Main

/-!
# The disk driver

`ide.c` with its drive, step by step, and `memide.c`, which does the same at once on a disk in
memory.  The steps are the section of `iderw` up to its first `sleep`, the interrupt handler, the
end of a command in the drive, and the rounds of the loop in which `iderw` waits.  An interrupt can
come at any time, also when the drive has not finished; then `idewait` waits for it.  Any process
that sleeps can be woken, by `kill` too.

The requests are for disk 1, which is there, and `idewait` reports no error.  A panic, and a step
that waits for the drive, are steps that are not enabled.
-/

namespace Xv6.Ide

open Lib
open Bcache (Block BufId Buf)
open Mkfs (FSSIZE)

/-- A command to the drive.  A block is one sector. -/
inductive Cmd
  | read (sector : ℕ)
  | write (sector : ℕ) (data : Block)

structure Drive where
  disk : ℕ → Block
  /-- the command that it works on -/
  busy : Option Cmd
  /-- what `insl` takes from the data port -/
  port : Block

/-- The drive has done what it was told to do. -/
def Drive.finish (d : Drive) : Drive :=
  match d.busy with
  | none => d
  | some (.read b) => { d with busy := none, port := d.disk b }
  | some (.write b x) => { d with busy := none, disk := upd d.disk b x }

/-- Where a process is: in no call of `iderw`, asleep in it, or awake in it. -/
inductive Pc
  | out
  | asleep (i : BufId)
  | awake (i : BufId)
  deriving DecidableEq

/-- The drive, the buffers with their links `qnext`, `idequeue`, and the processes. -/
structure State (P : Type) where
  drive : Drive
  buf : BufId → Buf P
  qnext : BufId → Option BufId
  idequeue : Option BufId
  pc : P → Pc

inductive Label (P : Type)
  | iderw (p : P) (i : BufId)
  | finish
  | ideintr
  | wakeup (p : P)
  | resume (p : P)

/-- What a step reports: the buffer that `idestart` was called for, if it was. -/
abbrev Event := Option BufId

section Steps

variable {P : Type} [DecidableEq P] (s : State P)

/-- The loop of `iderw` waits until the buffer is valid and not dirty. -/
def State.done (i : BufId) : Bool := (s.buf i).valid && !(s.buf i).dirty

def command (x : Buf P) : Cmd := if x.dirty then .write x.blockno x.data else .read x.blockno

def idestart (i : BufId) : Option (State P) :=
  if (s.buf i).blockno ≥ FSSIZE then none
  -- `idewait(0)`
  else if s.drive.busy.isSome then none
  else some { s with drive := { s.drive with busy := some (command (s.buf i)) } }

/-- `*pp = b`. -/
def State.store (i : BufId) : Option BufId → State P
  | none => { s with idequeue := some i }
  | some j => { s with qnext := upd s.qnext j (some i) }

/-- `iderw` of the process `p`, up to the first `sleep`. -/
def iderw (p : P) (i : BufId) : Option (State P × Event) :=
  if (s.buf i).owner ≠ some p then none
  else if s.done i then none
  else
    let s := { s with qnext := upd s.qnext i none }
    match endOf s.qnext s.idequeue (NBUF + 1) none with
    | none => none
    | some pp =>
      let s := { s.store i pp with pc := upd s.pc p (.asleep i) }
      if s.idequeue = some i then (idestart s i).map fun t => (t, some i) else some (s, none)

def ended (x : Buf P) (port : Block) : Buf P :=
  { x with data := if x.dirty then x.data else port, valid := true, dirty := false }

def ideintr : Option (State P × Event) :=
  match s.idequeue with
  | none => some (s, none)
  | some i =>
    -- `idewait(1)`
    if (s.buf i).dirty = false ∧ s.drive.busy.isSome then none
    else
      let s := { s with
        idequeue := s.qnext i
        buf := upd s.buf i (ended (s.buf i) s.drive.port)
        pc := fun p => if s.pc p = Pc.asleep i then .awake i else s.pc p }
      match s.idequeue with
      | none => some (s, none)
      | some j => (idestart s j).map fun t => (t, some j)

def step : Label P → Option (State P × Event)
  | .iderw p i => if s.pc p = .out then iderw s p i else none
  | .finish => some ({ s with drive := s.drive.finish }, none)
  | .ideintr => ideintr s
  | .wakeup p =>
    match s.pc p with
    | .asleep i => some ({ s with pc := upd s.pc p (.awake i) }, none)
    | _ => none
  | .resume p =>
    match s.pc p with
    | .awake i => some ({ s with pc := upd s.pc p (if s.done i then .out else .asleep i) }, none)
    | _ => none

end Steps

/-! ## The driver of the disk in memory -/

/-- The disk in memory, and the buffers. -/
structure Mem (P : Type) where
  disk : ℕ → Block
  buf : BufId → Buf P

/-- `iderw` of `memide.c`, called by the process `r.1` for the buffer `r.2`. -/
def memIderw {P : Type} [DecidableEq P] (m : Mem P) (r : P × BufId) : Option (Mem P × Unit) :=
  let x := m.buf r.2
  if x.owner ≠ some r.1 then none
  else if (x.valid && !x.dirty) = true then none
  else if x.dev ≠ 1 then none
  else if x.blockno ≥ FSSIZE then none
  else if x.dirty then
    some (⟨upd m.disk x.blockno x.data, upd m.buf r.2 { x with dirty := false, valid := true }⟩, ())
  else some (⟨m.disk, upd m.buf r.2 { x with data := m.disk x.blockno, valid := true }⟩, ())

/-! ## The queue and the drive -/

variable {P : Type} {s t u : State P} {m : Mem P} {p : P} {i : BufId}
  {q past queue : List (P × BufId)}
  {e : Event} {r : P × BufId}

/-- The drive has, or will have when it has finished, what the disk in memory has, once it has
worked for the buffer `o`. -/
def Works (d : Drive) (m : Mem P) : Option BufId → Prop
  | none => d.finish.disk = m.disk
  | some i =>
    if (m.buf i).dirty then d.finish.disk = upd m.disk (m.buf i).blockno (m.buf i).data
    else d.finish.disk = m.disk ∧ d.finish.port = m.disk (m.buf i).blockno

/-- A request that can be made. -/
structure Proper (buf : BufId → Buf P) (r : P × BufId) : Prop where
  owner : (buf r.2).owner = some r.1
  todo : ((buf r.2).valid && !(buf r.2).dirty) = false
  dev : (buf r.2).dev = 1
  block : (buf r.2).blockno < FSSIZE

/-- **The driver against the disk in memory**, with the requests `q` in its queue. -/
structure Sim (s : State P) (m : Mem P) (q : List (P × BufId)) : Prop where
  buf : s.buf = m.buf
  linked : Linked s.qnext s.idequeue (q.map Prod.snd)
  nodup : (q.map Prod.snd).Nodup
  proper : ∀ r ∈ q, Proper s.buf r
  waiting : ∀ r ∈ q, s.pc r.1 = .asleep r.2 ∨ s.pc r.1 = .awake r.2
  asleep : ∀ {p i}, s.pc p = .asleep i → (p, i) ∈ q
  awake : ∀ {p i}, s.pc p = .awake i → (p, i) ∈ q ∨ s.done i = true
  works : Works s.drive m (q.map Prod.snd).head?

theorem finish_of_busy {d : Drive} (h : d.busy = none) : d.finish = d := by
  rw [Drive.finish, h]

theorem finish_finish (d : Drive) : d.finish.finish = d.finish := by
  refine finish_of_busy ?_
  unfold Drive.finish
  split
  · assumption
  · rfl
  · rfl

/-- A drive that has finished what came before starts to work for the next buffer. -/
theorem works_idestart (h : idestart s i = some t) (hbuf : s.buf = m.buf)
    (hdisk : s.drive.finish.disk = m.disk) :
    t = { s with drive := t.drive } ∧ Works t.drive m (some i) := by
  unfold idestart at h
  split_ifs at h with hblock hbusy
  cases h
  refine ⟨rfl, ?_⟩
  rw [finish_of_busy (by simpa using hbusy)] at hdisk
  rw [Works, ← hbuf, command]
  split_ifs with hd
  · rw [Drive.finish, ← hdisk]
  · rw [Drive.finish, ← hdisk]
    exact ⟨rfl, rfl⟩

theorem exists_idestart (hbusy : s.drive.busy = none) (hblock : (s.buf i).blockno < FSSIZE) :
    (idestart s i).isSome := by
  rw [idestart, if_neg (by omega), hbusy]
  rfl

theorem Sim.length_lt (h : Sim s m q) : (q.map Prod.snd).length < NBUF + 1 := by
  have := List.Nodup.length_le_card h.nodup
  rw [Fintype.card_fin] at this
  omega

theorem Sim.ne_of_mem (h : Sim s m q) (hp : s.pc p = .out) (hr : r ∈ q) : r.1 ≠ p := by
  rintro rfl
  rcases h.waiting r hr with hw | hw <;> rw [hp] at hw <;> cases hw

theorem Sim.not_mem (h : Sim s m q) (hp : s.pc p = .out) (howner : (s.buf i).owner = some p) :
    i ∉ q.map Prod.snd := by
  intro hi
  obtain ⟨r, hr, rfl⟩ := List.mem_map.mp hi
  exact h.ne_of_mem hp hr (Option.some.inj ((h.proper r hr).owner.symm.trans howner))

/-- The pointer walk of `iderw`, and what it leaves. -/
theorem Sim.append (h : Sim s m q) (hi : i ∉ q.map Prod.snd) :
    ∃ pp, endOf (upd s.qnext i none) s.idequeue (NBUF + 1) none = some pp ∧
      Linked (State.store { s with qnext := upd s.qnext i none } i pp).qnext
        (State.store { s with qnext := upd s.qnext i none } i pp).idequeue
          (q.map Prod.snd ++ [i]) := by
  have hl : Linked (upd s.qnext i none) s.idequeue (q.map Prod.snd) :=
    h.linked.congr fun j hj => upd_of_ne fun hh => hi (hh ▸ hj)
  refine ⟨_, endOf_eq none hl h.length_lt, ?_⟩
  rw [Option.or_none]
  cases hlast : (q.map Prod.snd).getLast? with
  | none =>
    rw [List.getLast?_eq_none_iff.mp hlast]
    exact ⟨rfl, upd_self⟩
  | some j => exact hl.concat h.nodup hi upd_self hlast

variable [DecidableEq P] {es : List Event}

/-- **A request goes to the end of the queue**, and the drive starts if the queue was empty. -/
theorem Sim.iderw (h : Sim s m q) (hp : s.pc p = .out) (hs : iderw s p i = some (t, e))
    (hdev : (s.buf i).dev = 1) (hblock : (s.buf i).blockno < FSSIZE) :
    Sim t m (q ++ [(p, i)]) ∧ t.buf = s.buf ∧ e = if q = [] then some i else none := by
  unfold Ide.iderw at hs
  split_ifs at hs with howner hdone
  rw [not_not] at howner
  have hi := h.not_mem hp howner
  obtain ⟨pp, hpp, hlinked⟩ := h.append hi
  dsimp only at hs
  rw [hpp] at hs
  dsimp only at hs
  have hkeep : ∀ pp, (State.store { s with qnext := upd s.qnext i none } i pp).buf = s.buf ∧
      (State.store { s with qnext := upd s.qnext i none } i pp).drive = s.drive := by
    rintro (_ | j) <;> exact ⟨rfl, rfl⟩
  obtain ⟨hbuf, hdrive⟩ := hkeep pp
  generalize State.store { s with qnext := upd s.qnext i none } i pp = u at hs hlinked hbuf hdrive
  have hhead : u.idequeue = ((q.map Prod.snd) ++ [i]).head? := hlinked.head_eq
  have hproper : Proper s.buf (p, i) := ⟨howner, by simpa [State.done] using hdone, hdev, hblock⟩
  -- everything but the drive
  have hsim : ∀ d, Works d m ((q ++ [(p, i)]).map Prod.snd).head? →
      Sim { u with pc := upd s.pc p (.asleep i), drive := d } m (q ++ [(p, i)]) := by
    intro d hd
    refine ⟨hbuf.trans h.buf, ?_, ?_, ?_, ?_, ?_, ?_, hd⟩
    · rw [List.map_append]
      exact hlinked
    · rw [List.map_append, List.nodup_append]
      refine ⟨h.nodup, List.nodup_singleton i, ?_⟩
      rintro a ha b hb rfl
      obtain rfl : a = i := List.mem_singleton.mp hb
      exact hi ha
    · intro r hr
      change Proper u.buf r
      rw [hbuf]
      rcases List.mem_append.mp hr with hr | hr
      · exact h.proper r hr
      · rw [List.mem_singleton.mp hr]
        exact hproper
    · intro r hr
      change upd s.pc p _ r.1 = _ ∨ upd s.pc p _ r.1 = _
      rcases List.mem_append.mp hr with hr | hr
      · rw [upd_of_ne (h.ne_of_mem hp hr)]
        exact h.waiting r hr
      · rw [List.mem_singleton.mp hr, upd_self]
        exact Or.inl rfl
    · intro r j hr
      change upd s.pc p _ r = _ at hr
      by_cases hrp : r = p
      · rw [hrp, upd_self] at hr
        cases hr
        rw [hrp]
        exact List.mem_append_right q (List.mem_singleton_self _)
      · rw [upd_of_ne hrp] at hr
        exact List.mem_append_left _ (h.asleep hr)
    · intro r j hr
      change upd s.pc p _ r = _ at hr
      by_cases hrp : r = p
      · rw [hrp, upd_self] at hr
        cases hr
      · rw [upd_of_ne hrp] at hr
        refine (h.awake hr).imp (fun hm => List.mem_append_left _ hm) fun hd => ?_
        rw [State.done] at hd ⊢
        rwa [hbuf]
  cases q with
  | nil =>
    rw [if_pos (show u.idequeue = some i from hhead)] at hs
    obtain ⟨v, hv, heq⟩ := Option.map_eq_some_iff.mp hs
    cases heq
    have hdisk : u.drive.finish.disk = m.disk := by
      rw [hdrive]
      exact h.works
    obtain ⟨ht, hworks⟩ := works_idestart hv (hbuf.trans h.buf) hdisk
    rw [ht]
    exact ⟨hsim _ hworks, hbuf, rfl⟩
  | cons r q =>
    have hne : u.idequeue ≠ some i := by
      rw [hhead]
      intro hh
      cases hh
      exact hi List.mem_cons_self
    rw [if_neg hne] at hs
    cases hs
    refine ⟨?_, hbuf, rfl⟩
    have hsim' := hsim u.drive (by rw [hdrive]; exact h.works)
    exact hsim'

/-- **The interrupt ends the request at the head of the queue** as the disk in memory does it, and
the drive starts with the next. -/
theorem Sim.ideintr (h : Sim s m (r :: q)) (hs : ideintr s = some (t, e)) :
    ∃ m', memIderw m r = some (m', ()) ∧ Sim t m' q ∧ (∀ j, j ≠ r.2 → t.buf j = s.buf j) ∧
      t.done r.2 = true ∧ e = (q.map Prod.snd).head? := by
  obtain ⟨hhead, hrest⟩ := h.linked
  have hr := h.proper r List.mem_cons_self
  have hnodup := h.nodup
  rw [List.map_cons, List.nodup_cons] at hnodup
  have hworks : Works s.drive m (some r.2) := h.works
  unfold Ide.ideintr at hs
  rw [hhead] at hs
  dsimp only at hs
  by_cases hbusy : (s.buf r.2).dirty = false ∧ s.drive.busy.isSome
  · rw [if_pos hbusy] at hs
    cases hs
  rw [if_neg hbusy] at hs
  rw [Works, ← h.buf] at hworks
  -- what the disk in memory does
  obtain ⟨m', hm', hdisk, hbuf⟩ : ∃ m', memIderw m r = some (m', ()) ∧
    s.drive.finish.disk = m'.disk ∧
      m'.buf = upd s.buf r.2 (ended (s.buf r.2) s.drive.port) := by
    obtain ⟨howner, htodo, hdev, hblock⟩ := hr
    rw [memIderw, ← h.buf, if_neg (not_not.mpr howner), if_neg (by rw [htodo]; nofun),
      if_neg (not_not.mpr hdev), if_neg (by omega)]
    by_cases hd : (s.buf r.2).dirty = true
    · rw [if_pos hd] at hworks
      rw [if_pos hd, ended, if_pos hd]
      exact ⟨_, rfl, hworks, rfl⟩
    · rw [if_neg hd] at hworks
      rw [if_neg hd, ended, if_neg hd]
      have hidle : s.drive.busy = none := by
        by_contra hne
        exact hbusy ⟨Bool.eq_false_of_not_eq_true hd, Option.isSome_iff_ne_none.mpr hne⟩
      have hport := hworks.2
      rw [finish_of_busy hidle] at hport
      refine ⟨_, rfl, hworks.1, ?_⟩
      rw [hport, Bool.eq_false_of_not_eq_true hd]
  refine ⟨m', hm', ?_⟩
  rw [← hbuf] at hs
  have hother : ∀ j, j ≠ r.2 → m'.buf j = s.buf j := fun j hj => by rw [hbuf, upd_of_ne hj]
  have hmem : ∀ r' ∈ q, r'.2 ≠ r.2 := fun r' hr' hh => hnodup.1 (hh ▸ List.mem_map_of_mem hr')
  have hdone : (m'.buf r.2).valid && !(m'.buf r.2).dirty := by
    rw [hbuf, upd_self]
    rfl
  -- everything but the drive
  have hsim : ∀ d, Works d m' (q.map Prod.snd).head? → Sim { s with
      drive := d, idequeue := s.qnext r.2, buf := m'.buf
      pc := fun p => if s.pc p = .asleep r.2 then .awake r.2 else s.pc p } m' q := by
    intro d hd
    refine ⟨rfl, hrest, hnodup.2, ?_, ?_, ?_, ?_, hd⟩
    · intro r' hr'
      obtain ⟨h1, h2, h3, h4⟩ := h.proper r' (List.mem_cons_of_mem r hr')
      rw [← hother _ (hmem r' hr')] at h1 h2 h3 h4
      exact ⟨h1, h2, h3, h4⟩
    · intro r' hr'
      dsimp only
      have hw := h.waiting r' (List.mem_cons_of_mem r hr')
      rwa [if_neg]
      rcases hw with hw | hw <;> rw [hw]
      · exact fun hh => hmem r' hr' (Pc.asleep.inj hh)
      · nofun
    · intro p j hp
      dsimp only at hp
      split_ifs at hp with hsleep
      refine (List.mem_cons.mp (h.asleep hp)).resolve_left ?_
      rintro rfl
      exact hsleep hp
    · intro p j hp
      by_cases hj : j = r.2
      · rw [hj]
        exact Or.inr hdone
      · dsimp only at hp
        split_ifs at hp with hsleep
        · exact absurd (Pc.awake.inj hp).symm hj
        · rcases h.awake hp with hmem | hd
          · refine Or.inl ((List.mem_cons.mp hmem).resolve_left ?_)
            rintro rfl
            exact hj rfl
          · rw [State.done, ← hother j hj] at hd
            exact Or.inr hd
  cases hq : q with
  | nil =>
    rw [hq] at hrest
    rw [show s.qnext r.2 = none from hrest] at hs
    cases hs
    have hsim' := hsim s.drive (by rw [hq]; exact hdisk)
    rw [hq, show s.qnext r.2 = none from hrest] at hsim'
    exact ⟨hsim', hother, hdone, rfl⟩
  | cons r' q' =>
    rw [hq] at hrest
    rw [hrest.1] at hs
    dsimp only at hs
    obtain ⟨v, hv, heq⟩ := Option.map_eq_some_iff.mp hs
    cases heq
    obtain ⟨ht, hworks'⟩ := works_idestart hv rfl hdisk
    rw [ht]
    have hsim' := hsim t.drive (by rw [hq]; exact hworks')
    rw [hq, hrest.1] at hsim'
    exact ⟨hsim', hother, hdone, rfl⟩

/-- A process that waits for a buffer wakes up, or goes through another round of the loop. -/
theorem Sim.setPc (h : Sim s m q) {x : Pc} (hp : s.pc p = .asleep i ∨ s.pc p = .awake i)
    (hx : (p, i) ∈ q → x = .asleep i ∨ x = .awake i) (hasleep : ∀ j, x = .asleep j → (p, j) ∈ q)
    (hawake : ∀ j, x = .awake j → (p, j) ∈ q ∨ s.done j = true) :
    Sim { s with pc := upd s.pc p x } m q := by
  refine ⟨h.buf, h.linked, h.nodup, h.proper, ?_, ?_, ?_, h.works⟩
  · intro r hr
    dsimp only
    by_cases hrp : r.1 = p
    · obtain rfl : i = r.2 := by
        have hw := h.waiting r hr
        rw [hrp] at hw
        rcases hp with hp | hp <;> rw [hp] at hw <;> rcases hw with hw | hw <;> cases hw <;> rfl
      rw [hrp, upd_self]
      exact hx (hrp ▸ hr)
    · rw [upd_of_ne hrp]
      exact h.waiting r hr
  · intro r j hr
    dsimp only at hr
    by_cases hrp : r = p
    · rw [hrp, upd_self] at hr
      exact hrp ▸ hasleep j hr
    · rw [upd_of_ne hrp] at hr
      exact h.asleep hr
  · intro r j hr
    dsimp only at hr
    by_cases hrp : r = p
    · rw [hrp, upd_self] at hr
      exact hrp ▸ hawake j hr
    · rw [upd_of_ne hrp] at hr
      exact h.awake hr

/-- **Nothing panics**: with the drive ready, an interrupt is handled and a proper request is
taken. -/
theorem Sim.enabled (h : Sim s m q) (hbusy : s.drive.busy = none) : (Ide.ideintr s).isSome ∧
    ∀ p i, s.pc p = .out → Proper s.buf (p, i) → (Ide.iderw s p i).isSome := by
  constructor
  · unfold Ide.ideintr
    rw [h.linked.head_eq]
    cases q with
    | nil => rfl
    | cons r q =>
      obtain ⟨-, hrest⟩ := h.linked
      have hnodup := h.nodup
      rw [List.map_cons, List.nodup_cons] at hnodup
      simp only [List.map_cons, List.head?_cons, hbusy, Option.isSome_none,
        Bool.false_eq_true, and_false,
        if_false]
      cases q with
      | nil =>
        rw [show s.qnext r.2 = none from hrest]
        rfl
      | cons r' q =>
        rw [hrest.1]
        simp only [Option.isSome_map]
        refine exists_idestart hbusy ?_
        have hne : r'.2 ≠ r.2 := fun hh => hnodup.1 (hh ▸ List.mem_cons_self)
        dsimp only
        rw [upd_of_ne hne]
        exact (h.proper r' (by simp)).block
  · intro p i hp hproper
    obtain ⟨pp, hpp, -⟩ := h.append (h.not_mem hp hproper.owner)
    have htodo : s.done i = false := hproper.todo
    rw [Ide.iderw, if_neg (not_not.mpr hproper.owner), htodo, if_neg Bool.false_ne_true]
    dsimp only
    rw [hpp]
    dsimp only
    split_ifs
    · rw [Option.isSome_map]
      refine exists_idestart ?_ ?_ <;> cases pp
      all_goals first | exact hbusy | exact hproper.block
    · rfl

/-! ## Runs -/

/-- The requests, in the order of their arrival. -/
def arrivals (as : List (Label P)) : List (P × BufId) :=
  as.filterMap fun
    | .iderw p i => some (p, i)
    | _ => none

/-- From `s` to `t` the requests `past ++ queue` have arrived, of which `past` are done. -/
structure Agrees (s t : State P) (es : List Event) (past queue : List (P × BufId))
    (m : Mem P) : Prop where
  /-- No buffer is queued twice. -/
  once : ((past ++ queue).map Prod.snd).Nodup
  /-- The drive was started once for each request that is done, and for the head of the queue. -/
  started : es.filterMap id = (past ++ queue.take 1).map Prod.snd
  /-- It is always started for the head of `idequeue`. -/
  head : ∀ i, es.getLast? = some (some i) → t.idequeue = some i
  /-- The disk in memory has done them too, one after another. -/
  mem : ∃ us, exec memIderw ⟨s.drive.disk, s.buf⟩ past = some (m, us)
  /-- The buffers are the same, and so will be the disk; the queue holds the rest, with their
  processes. -/
  sim : Sim t m queue
  /-- Their buffers are valid and not dirty. -/
  done : ∀ r ∈ past, t.done r.2 = true
  /-- Other buffers are as they were. -/
  other : ∀ i, i ∉ past.map Prod.snd → t.buf i = s.buf i

theorem Agrees.quiet (h : Agrees s t es past queue m) (hsim : Sim u m queue)
    (hbuf : u.buf = t.buf) :
    Agrees s u (es ++ [none]) past queue m := by
  refine ⟨h.once, ?_, ?_, h.mem, hsim, fun r hr => ?_, fun i hi => ?_⟩
  · simpa using h.started
  · intro i hi
    simp at hi
  · rw [State.done, hbuf]
    exact h.done r hr
  · rw [hbuf]
    exact h.other i hi

theorem Agrees.step {a : Label P} (h : Agrees s t es past queue m) (hu : step t a = some (u, e))
    (hproper : ∀ p i, a = .iderw p i → (s.buf i).dev = 1 ∧ (s.buf i).blockno < FSSIZE) :
    ∃ past' queue' m', past' ++ queue' = past ++ queue ++ arrivals [a] ∧
      Agrees s u (es ++ [e]) past' queue' m' := by
  cases a with
  | iderw p i =>
    rw [Ide.step] at hu
    split_ifs at hu with hp
    have howner : (t.buf i).owner = some p ∧ t.done i = false := by
      unfold Ide.iderw at hu
      split_ifs at hu with h1 h2
      exact ⟨not_not.mp h1, Bool.eq_false_of_not_eq_true h2⟩
    have hdone : i ∉ past.map Prod.snd := by
      intro hi
      obtain ⟨r, hr, rfl⟩ := List.mem_map.mp hi
      rw [h.done r hr] at howner
      cases howner.2
    have hi := h.sim.not_mem hp howner.1
    obtain ⟨hdev, hblock⟩ := hproper p i rfl
    rw [← h.other i hdone] at hdev hblock
    obtain ⟨hsim, hbuf, rfl⟩ := h.sim.iderw hp hu hdev hblock
    refine ⟨past, queue ++ [(p, i)], m, (List.append_assoc ..).symm, ?_, ?_, ?_,
      h.mem, hsim, ?_, ?_⟩
    · rw [← List.append_assoc, List.map_append, List.nodup_append]
      refine ⟨h.once, List.nodup_singleton i, ?_⟩
      rintro j hj k hk rfl
      obtain rfl : j = i := List.mem_singleton.mp hk
      rw [List.map_append, List.mem_append] at hj
      exact hj.elim hdone hi
    · rw [List.filterMap_append, h.started]
      cases queue <;> simp
    · intro j hj
      have hhead := hsim.linked.head_eq
      cases queue with
      | nil =>
        simp only [if_pos, List.getLast?_concat, Option.some.injEq] at hj
        rw [hhead, ← hj]
        rfl
      | cons r queue => simp at hj
    · intro r hr
      rw [State.done, hbuf]
      exact h.done r hr
    · intro j hj
      rw [hbuf]
      exact h.other j hj
  | finish =>
    cases hu
    refine ⟨past, queue, m, (List.append_nil _).symm, h.quiet ?_ rfl⟩
    have hworks := h.sim.works
    refine { h.sim with works := ?_ }
    unfold Works at hworks ⊢
    rwa [finish_finish]
  | ideintr =>
    cases queue with
    | nil =>
      rw [Ide.step, Ide.ideintr, show t.idequeue = none from h.sim.linked] at hu
      cases hu
      exact ⟨past, [], m, (List.append_nil _).symm, h.quiet h.sim rfl⟩
    | cons r queue =>
      obtain ⟨m', hm', hsim, hother, hdone, rfl⟩ := h.sim.ideintr hu
      refine ⟨past ++ [r], queue, m', ?_, ?_, ?_, ?_, ?_, hsim, ?_, ?_⟩
      · rw [List.append_assoc, List.append_assoc]
        exact congrArg _ (List.append_nil _).symm
      · rw [List.append_assoc]
        exact h.once
      · rw [List.filterMap_append, h.started]
        cases queue <;> simp
      · intro j hj
        rw [hsim.linked.head_eq]
        simpa using hj
      · obtain ⟨us, hus⟩ := h.mem
        exact ⟨us ++ [()], exec_concat_iff.mpr ⟨m, us, (), hus, hm', rfl⟩⟩
      · intro r' hr'
        by_cases hr : r'.2 = r.2
        · rw [hr]
          exact hdone
        · rcases List.mem_append.mp hr' with hr' | hr'
          · rw [State.done, hother _ hr]
            exact h.done r' hr'
          · exact absurd (congrArg Prod.snd (List.mem_singleton.mp hr')) hr
      · intro j hj
        rw [List.map_append, List.mem_append, not_or] at hj
        rw [hother j fun hh => hj.2 (by simp [hh])]
        exact h.other j hj.1
  | wakeup p =>
    rw [Ide.step] at hu
    split at hu
    · rename_i i hp
      cases hu
      refine ⟨past, queue, m, (List.append_nil _).symm,
        h.quiet (h.sim.setPc (Or.inl hp) ?_ ?_ ?_) rfl⟩
      · exact fun _ => Or.inr rfl
      · rintro j ⟨⟩
      · rintro j ⟨⟩
        exact Or.inl (h.sim.asleep hp)
    · cases hu
  | resume p =>
    rw [Ide.step] at hu
    split at hu
    · rename_i i hp
      cases hu
      refine ⟨past, queue, m, (List.append_nil _).symm,
        h.quiet (h.sim.setPc (Or.inr hp) ?_ ?_ ?_) rfl⟩
      · intro hq
        rw [show t.done i = false from (h.sim.proper _ hq).todo]
        exact Or.inl rfl
      · intro j hj
        split_ifs at hj with hd
        cases hj
        exact (h.sim.awake hp).resolve_right hd
      · intro j hj
        split_ifs at hj
    · cases hu

/-- No request is in progress. -/
structure Idle (s : State P) : Prop where
  queue : s.idequeue = none
  drive : s.drive.busy = none
  pc : ∀ p, s.pc p = .out

/-- **The driver agrees with the disk in memory.**  After any interleaving of requests, commands and
interrupts, the requests are done in the order of their arrival, each with one start of the drive.
Those that are done have left the buffers as `memide.c` leaves them.  Once the queue is empty, the
disk is the same, too, as soon as the drive has finished.  Nothing panics. -/
theorem driver_agrees {as : List (Label P)} {es : List Event} (hs : Idle s)
    (hvalid : ∀ p i, .iderw p i ∈ as → (s.buf i).dev = 1 ∧ (s.buf i).blockno < FSSIZE)
    (h : exec step s as = some (t, es)) :
    ∃ past queue m, past ++ queue = arrivals as ∧ Agrees s t es past queue m ∧
      (t.idequeue = none → past = arrivals as ∧ m = ⟨t.drive.finish.disk, t.buf⟩) ∧
      (t.drive.busy = none → (step t .ideintr).isSome ∧
        ∀ p i, t.pc p = .out → Proper t.buf (p, i) → (step t (.iderw p i)).isSome) := by
  obtain ⟨past, queue, m, heq, hagrees⟩ : ∃ past queue m, past ++ queue = arrivals as ∧
      Agrees s t es past queue m := by
    refine exec_induction (P := fun as t es => (∀ p i, .iderw p i ∈ as → (s.buf i).dev = 1 ∧
      (s.buf i).blockno < FSSIZE) → ∃ past queue m, past ++ queue = arrivals as ∧
        Agrees s t es past queue m) ?_ ?_ h hvalid
    · intro _
      refine ⟨[], [], ⟨s.drive.disk, s.buf⟩, rfl, List.nodup_nil, rfl, nofun, ⟨[], rfl⟩, ?_, nofun,
        fun _ _ => rfl⟩
      refine ⟨rfl, hs.queue, List.nodup_nil, nofun, nofun, ?_, ?_, ?_⟩
      · intro p i hp
        rw [hs.pc] at hp
        cases hp
      · intro p i hp
        rw [hs.pc] at hp
        cases hp
      · rw [List.map_nil, List.head?_nil, Works, finish_of_busy hs.drive]
    · intro as t es a u e _ ih hu hvalid
      obtain ⟨past, queue, m, heq, hagrees⟩ :=
        ih fun p i hp => hvalid p i (List.mem_append_left _ hp)
      obtain ⟨past', queue', m', heq', hagrees'⟩ := hagrees.step hu fun p i ha =>
        hvalid p i (List.mem_append_right _ (by rw [ha]; exact List.mem_singleton_self _))
      refine ⟨past', queue', m', heq'.trans ?_, hagrees'⟩
      rw [heq, arrivals, arrivals, arrivals, List.filterMap_append]
  refine ⟨past, queue, m, heq, hagrees, fun hnone => ?_, fun hbusy => ?_⟩
  · cases queue with
    | nil =>
      refine ⟨(List.append_nil past).symm.trans heq, ?_⟩
      obtain ⟨disk, buf⟩ := m
      rw [Mem.mk.injEq]
      exact ⟨hagrees.sim.works.symm, hagrees.sim.buf.symm⟩
    | cons r queue =>
      have hhead := hagrees.sim.linked.1
      rw [hnone] at hhead
      cases hhead
  · obtain ⟨hintr, hiderw⟩ := hagrees.sim.enabled hbusy
    refine ⟨hintr, fun p i hp hproper => ?_⟩
    rw [Ide.step, if_pos hp]
    exact hiderw p i hp hproper

local instance twoCallers : NeZero 2 := ⟨two_ne_zero⟩

/-- Two buffers for block 7, one of them to be written. -/
def twoBuffers : State (Fin 2) where
  drive := ⟨fun _ _ => 0, none, fun _ => 0⟩
  buf i := ⟨1, 7, false, i.val = 0, 1, if i.val = 0 then some 0 else some 1, fun _ => 5⟩
  qnext _ := none
  idequeue := none
  pc _ := .out

/-- A write of the first buffer and a read of the second. -/
def twoRequests : List (Label (Fin 2)) :=
  [.iderw 0 0, .iderw 1 1, .finish, .ideintr, .resume 0, .finish, .ideintr]

/-- A write and a read of the same block. -/
theorem driver_agrees_on_twoBuffers : ∃ t es, exec step twoBuffers twoRequests = some (t, es) ∧
    ∃ m, Agrees twoBuffers t es (arrivals twoRequests) [] m ∧ m = ⟨t.drive.finish.disk, t.buf⟩ := by
  have hrun : (exec step twoBuffers twoRequests).map (fun x => x.1.idequeue) = some none := by
    decide +kernel
  obtain ⟨⟨t, es⟩, h, hnone⟩ := Option.map_eq_some_iff.mp hrun
  obtain ⟨past, queue, m, heq, hagrees, hdone, -⟩ := driver_agrees ⟨rfl, rfl, fun _ => rfl⟩
    (fun p i _ => ⟨rfl, show 7 < FSSIZE by decide⟩) h
  obtain ⟨rfl, hm⟩ := hdone hnone
  obtain rfl := List.append_right_eq_self.mp heq
  exact ⟨t, es, h, m, hagrees, hm⟩

end Xv6.Ide
