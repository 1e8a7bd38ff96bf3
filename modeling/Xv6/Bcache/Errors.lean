import Xv6.Bcache.Refine

/-!
# A read that fails

`ideintr` takes the data of a read from the drive only if `idewait(1)` reports no error.  It sets
`B_VALID` and wakes the reader in any case.  So after an error the buffer is valid with the data
that was in it before, that of the block which the buffer held until `bget` recycled it.

A step now comes with the answer of `idewait(1)`, which counts when the step is the interrupt that
ends a read.  As long as every failed read has left what is on the disk, the run is a run without
errors.
-/

namespace Xv6.Bcache

open Lib

variable {P : Type}

/-- `ideintr`, when `idewait(1)` reports no error (`ok`) or an error. -/
def ideintrWait (s : State P) (ok : Bool) : Option (State P) :=
  match s.queue with
  | [] => none
  | i :: queue =>
    let x := s.buf i
    let s := { s with queue := queue }
    if x.dirty then
      some ({ s with disk := upd s.disk x.blockno x.data }.modBuf i fun x => { x with
        valid := true, dirty := false })
    else if ok then some (s.modBuf i fun x => { x with data := s.disk x.blockno, valid := true })
    else some (s.modBuf i fun x => { x with valid := true })

/-- One step, with the answer of `idewait(1)`. -/
def stepWait [DecidableEq P] (s : State P) : Label P × Bool → Option (State P × Event)
  | (.ideintr, ok) => (ideintrWait s ok).map fun t => (t, .none)
  | (l, _) => step s l

/-- Every valid buffer that is not modified holds the contents of its block. -/
def Held (s : State P) : Prop :=
  ∀ i, (s.buf i).valid = true → (s.buf i).dirty = false → (s.buf i).data = s.disk (s.buf i).blockno

/-- If the last event is the return of `bread` of a block that is not modified, it has returned what
is on the disk. -/
def Answered (s : State P) (es : List Event) : Prop :=
  ∀ es' b d, es = es' ++ [.read b d] → (∀ i, (s.buf i).blockno = b → (s.buf i).dirty = false) →
    d = s.disk b

/-- If the step is the end of a read that fails, the buffer has the contents of its new block
already. -/
def Spared (s : State P) (a : Label P × Bool) : Prop :=
  a = (.ideintr, false) → ∀ i queue, s.queue = i :: queue → (s.buf i).dirty = false →
    (s.buf i).data = s.disk (s.buf i).blockno

section Steps

variable [DecidableEq P] {s t : State P} {a : Label P × Bool} {e : Event} {i : BufId}
  {queue : List BufId}
  {store : ℕ → Block}

omit [DecidableEq P] in
theorem ideintrWait_true (s : State P) : ideintrWait s true = ideintr s := rfl

omit [DecidableEq P] in
/-- A failed read of what is there already is a read. -/
theorem ideintrWait_false (h : Spared s (.ideintr, false)) : ideintrWait s false = ideintr s := by
  rw [ideintrWait, ideintr]
  cases hq : s.queue with
  | nil => rfl
  | cons i queue =>
    dsimp only
    by_cases hd : (s.buf i).dirty = true
    · rw [if_pos hd, if_pos hd]
    · have hdata := h rfl i queue hq (Bool.eq_false_of_not_eq_true hd)
      rw [if_neg hd, if_neg hd, if_neg Bool.false_ne_true]
      simp only [State.modBuf, ← hdata]

theorem stepWait_eq (h : Spared s a) : stepWait s a = step s a.1 := by
  obtain ⟨l, ok⟩ := a
  cases l with
  | ideintr =>
    cases ok with
    | true => rw [stepWait, ideintrWait_true, step]
    | false => rw [stepWait, ideintrWait_false h, step]
  | _ => rfl

/-- A failed read makes the buffer valid and leaves its data. -/
theorem spared_of_held (hs : stepWait s a = some (t, e)) (ht : Held t) : Spared s a := by
  rintro rfl i queue hq hd
  rw [stepWait, ideintrWait, hq] at hs
  simp only [hd, Bool.false_eq_true, if_false, Option.map_some, Option.some.injEq,
    Prod.mk.injEq] at hs
  obtain ⟨rfl, -⟩ := hs
  have hi := ht i
  simp only [State.modBuf, upd_self] at hi
  exact hi trivial hd

variable [Fintype P]

omit [DecidableEq P] in
theorem Inv.held (hI : Inv s store) : Held s := by
  intro i hv hd
  rw [hI.coherent.valid i hv]
  refine (hI.coherent.disk _ fun j hj => ?_).symm
  by_contra hdirty
  rw [Bool.not_eq_false] at hdirty
  have hdev := hI.coherent.used j (hI.coherent.dirty j hdirty)
  have hsame := (hI.coherent.dev j hdev).trans (hI.coherent.dev i (hI.coherent.used i hv)).symm
  rw [hI.coherent.unique j i hdev hsame hj, hd] at hdirty
  cases hdirty

/-- As long as failed reads do no harm, the cache holds the blocks of a store. -/
theorem inv_of_spared {disk : ℕ → Block} {as : List (Label P × Bool)} {es : List Event}
    (hspared : StepsMeet stepWait Spared (init P disk) as)
    (h : exec stepWait (init P disk) as = some (t, es)) :
    ∃ store, Inv t store ∧ ∀ es' b d, es = es' ++ [.read b d] → d = store b := by
  refine exec_induction (P := fun as t es => StepsMeet stepWait Spared (init P disk) as →
    ∃ store, Inv t store ∧ ∀ es' b d, es = es' ++ [.read b d] → d = store b) ?_ ?_ h hspared
  · intro _
    refine ⟨disk, init_inv disk, fun es' b d hes => ?_⟩
    cases es' <;> cases hes
  · intro as t es a u e ht ih hu hmeets
    obtain ⟨store, hI, -⟩ := ih hmeets.of_concat
    rw [stepWait_eq (hmeets.last ht)] at hu
    obtain ⟨store', hstore, hI'⟩ := hI.step hu
    refine ⟨store', hI', fun es' b d hes => ?_⟩
    obtain ⟨-, hlast⟩ := List.append_inj' hes rfl
    cases hlast
    rw [storeStep] at hstore
    split_ifs at hstore with hd
    cases hstore
    exact hd

/-- **Valid buffers hold their blocks** at every point of a run, and `bread` returns what is on the
disk, if and only if every read that failed was of contents that the buffer had before. -/
theorem held_iff_spared {disk : ℕ → Block} {as : List (Label P × Bool)} {es : List Event}
    (h : exec stepWait (init P disk) as = some (t, es)) :
    (∀ as1 as2 s1 es1, as = as1 ++ as2 → exec stepWait (init P disk) as1 = some (s1, es1) →
        Held s1 ∧ Answered s1 es1) ↔
      StepsMeet stepWait Spared (init P disk) as := by
  constructor
  · refine exec_induction (P := fun as _ _ => (∀ as1 as2 s1 es1, as = as1 ++ as2 →
      exec stepWait (init P disk) as1 = some (s1, es1) → Held s1 ∧ Answered s1 es1) →
        StepsMeet stepWait Spared (init P disk) as) (fun _ => stepsMeet_nil) ?_ h
    intro as t es a u e ht ih hu hheld
    refine (stepsMeet_concat_iff ht).mpr ⟨ih fun as1 as2 s1 es1 has => ?_, ?_⟩
    · exact hheld as1 (as2 ++ [a]) s1 es1 (by rw [has, List.append_assoc])
    · have hrun := exec_concat_iff.mpr ⟨t, es, e, ht, hu, rfl⟩
      exact spared_of_held hu (hheld (as ++ [a]) [] u _ (List.append_nil _).symm hrun).1
  · rintro hspared as1 as2 s1 es1 rfl h1
    obtain ⟨store, hI, hlast⟩ := inv_of_spared (fun b1 a b2 u us hb hu =>
      hspared b1 a (b2 ++ as2) u us (by rw [hb, List.append_assoc, List.cons_append]) hu) h1
    refine ⟨hI.held, fun es' b d hes hclean => ?_⟩
    rw [hlast es' b d hes, hI.coherent.disk b hclean]

end Steps

def byte0 : Fin Fs.BSIZE := ⟨0, by decide⟩

def buf0 : BufId := 0

/-- The block that `bread` has returned, and its first byte. -/
def Event.firstByte : Event → Option (ℕ × UInt8)
  | .read b d => some (b, d byte0)
  | _ => Option.none

def oneRead (ok : Bool) : List (Label (Fin 1) × Bool) :=
  [(.bget 0 7, true), (.lock 0, true), (.ideintr, ok), (.wake 0, true)]

/-- A read without an error. -/
theorem held_of_oneRead : ∃ s es,
    exec stepWait (init (Fin 1) fun _ _ => 1) (oneRead true) = some (s, es) ∧ Held s ∧
      Answered s es := by
  have hrun : (exec stepWait (init (Fin 1) fun _ _ => 1) (oneRead true)).isSome = true := by
    decide +kernel
  obtain ⟨⟨s, es⟩, h⟩ := Option.isSome_iff_exists.mp hrun
  refine ⟨s, es, h, (held_iff_spared h).mpr ?_ (oneRead true) [] s es (List.append_nil _).symm h⟩
  rintro as1 a as2 u us has hu rfl
  have hmem : (Label.ideintr, false) ∈ oneRead true :=
    has ▸ List.mem_append_right _ List.mem_cons_self
  simp [oneRead] at hmem

/-- **A read that fails returns what was in the buffer.**  Every byte of the disk is one, and
`bread` returns a valid buffer of zeros. -/
theorem not_held_of_failed_read : ∃ s es,
    exec stepWait (init (Fin 1) fun _ _ => 1) (oneRead false) = some (s, es) ∧
      (∃ d, .read 7 d ∈ es ∧ d ≠ s.disk 7) ∧ ¬ Held s := by
  have hcompute : (exec stepWait (init (Fin 1) fun _ _ => 1) (oneRead false)).map (fun x =>
      (x.2.map Event.firstByte, x.1.disk 7 byte0, (x.1.buf buf0).valid, (x.1.buf buf0).dirty,
        (x.1.buf buf0).data byte0, x.1.disk (x.1.buf buf0).blockno byte0)) =
      some ([none, none, none, some (7, 0)], 1, true, false, 0, 1) := by decide +kernel
  obtain ⟨⟨s, es⟩, hrun, hx⟩ := Option.map_eq_some_iff.mp hcompute
  simp only [Prod.mk.injEq] at hx
  obtain ⟨hes, hdisk, hv, hd, hdata, hblock⟩ := hx
  refine ⟨s, es, hrun, ?_, fun hheld => ?_⟩
  · have hmem : some (7, 0) ∈ es.map Event.firstByte := by
      rw [hes]
      decide
    obtain ⟨e, he, hfirst⟩ := List.mem_map.mp hmem
    cases e with
    | read b d =>
      simp only [Event.firstByte, Option.some.injEq, Prod.mk.injEq] at hfirst
      obtain ⟨rfl, hzero⟩ := hfirst
      refine ⟨d, he, fun heq => ?_⟩
      rw [heq, hdisk] at hzero
      cases hzero
    | none => cases hfirst
    | write b d => cases hfirst
  · have hsame := congrFun (hheld buf0 hv hd) byte0
    rw [hdata, hblock] at hsame
    cases hsame

end Xv6.Bcache
