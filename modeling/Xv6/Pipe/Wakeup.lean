import Mathlib.Data.Fintype.Basic
import Xv6.Pipe.Lock

/-!
# Who wakes up the sleepers of a pipe

A reader sleeps on `&p->nread` because the pipe is empty and the write end open; a writer sleeps on
`&p->nwrite` because the buffer is full and the read end open (`Waits`).  Whoever changes that while
it holds the lock owes the sleepers a `wakeup` (`Pc.owes`), and `Served` says that every sleeper
either still has its reason or is owed one.

Each way out of the critical section pays, with one exception.  `pipewrite` that finds the buffer
full returns `-1` at once if the read end is closed or the caller was killed, and the bytes that it
has stored before are then in the pipe without a `wakeup(&p->nread)`.  So the invariant holds as
long as no reader is asleep when this happens (`Prompt`), and fails each time one is
(`stranded_of_not_prompt`).
-/

namespace Xv6.Pipe

open Lib

variable {P : Type*}

/-- Why a process may sleep on a channel. -/
def Waits (x : PipeData) : Chan → Prop
  | .nread => x.IsEmpty ∧ x.writeopen = true
  | .nwrite => x.IsFull ∧ x.readopen = true

/-- Nobody sleeps without a reason. -/
def NoStranded (s : State P) : Prop := ∀ p c, s.asleep p = some c → Waits s.pipe c

/-- The points at which a call may have changed the pipe and will still call `wakeup`. -/
def Pc.owes : Pc → Chan → Bool
  | .writeLoop _ _, .nread | .writeFull _ _, .nread | .writeNotify _ _, .nread
  | .writeWakeup _, .nread | .closeWakeup true, .nread => true
  | .readCopy _ _, .nwrite | .readWakeup _ _, .nwrite | .closeWakeup false, .nwrite => true
  | _, _ => false

/-- Every sleeper has its reason or is owed a `wakeup`. -/
structure Served (s : State P) : Prop where
  inv : Inv s
  served : ∀ p c, s.asleep p = some c → Waits s.pipe c ∨ ∃ q, (s.pc q).owes c = true

/-- `pipewrite` does not give up on a full buffer while a reader is asleep. -/
def Prompt (s : State P) : Label P → Prop
  | .go p =>
    match s.pc p with
    | .writeFull _ _ =>
      s.pipe.readopen = false ∨ s.killed p = true → ∀ q, s.asleep q ≠ some .nread
    | _ => True
  | _ => True

instance [Fintype P] (s : State P) (a : Label P) : Decidable (Prompt s a) := by
  unfold Prompt
  split
  · split <;> infer_instance
  · infer_instance

variable {s t : State P} {p q : P} {a : Label P} {e : Event P} {x y : PipeData} {pc pc' : Pc}
  {c : Chan} {w : Option Chan}

/-! ## What is owed -/

/-- Only the holder of the lock owes anything. -/
theorem inside_of_owes (h : pc.owes c = true) : pc.inside = true := by
  cases pc <;> first | rfl | (cases c <;> cases h)

theorem Enters.waits (h : Enters x pc y pc') (hw : Waits x c) : Waits y c ∨ pc'.owes c = true := by
  cases h with
  | close w =>
    cases w <;> cases c
    · exact Or.inl hw
    · exact Or.inr rfl
    · exact Or.inr rfl
    · exact Or.inl hw
  | _ => exact Or.inl hw

theorem Sleeps.waits {chan : Chan} (h : Sleeps pc chan pc') (hk : Knows x pc) :
    Waits x chan ∧ ∀ c, pc.owes c = false := by
  cases h <;> exact ⟨hk, fun c => by cases c <;> rfl⟩

theorem Leaves.owes (h : Leaves p pc e) : pc.owes c = false := by
  cases h <;> cases c <;> rfl

/-- **A step with the lock held** either wakes up the sleepers of a channel, or keeps their reason
or the debt; `pipewrite` that gives up cancels it. -/
theorem Within.waits {k : Bool} (h : Within k x pc y w pc' e)
    (hgive : ∀ buf i, pc = .writeFull buf i → x.readopen = false ∨ k = true → c ≠ .nread)
    (hw : Waits x c ∨ pc.owes c = true) : w = some c ∨ Waits y c ∨ pc'.owes c = true := by
  cases h with
  | put hf =>
    cases c with
    | nread => exact Or.inr (Or.inr rfl)
    | nwrite => exact absurd (hw.resolve_right nofun).1 hf
  | drop hem =>
    cases c with
    | nread => exact absurd (hw.resolve_right nofun).1 hem
    | nwrite => exact Or.inr (Or.inr rfl)
  | writeFail hk =>
    cases c with
    | nread => exact absurd rfl (hgive _ _ rfl hk)
    | nwrite => exact Or.inr (Or.inl (hw.resolve_right nofun))
  | closeWakeup =>
    rename_i w
    cases w <;> cases c
    · exact Or.inr (Or.inl (hw.resolve_right nofun))
    · exact Or.inl rfl
    · exact Or.inl rfl
    · exact Or.inr (Or.inl (hw.resolve_right nofun))
  | _ =>
    cases c <;> first
      | exact Or.inl rfl
      | exact Or.inr (Or.inr rfl)
      | exact Or.inr (Or.inl (hw.resolve_right nofun))

theorem served_init (data : ℕ → UInt8) : Served (State.init P data) :=
  ⟨inv_init data, nofun⟩

/-- While `p` is the only one inside, what is owed is owed by `p`. -/
theorem Served.owes (h : Served s) (hlock : s.lock = some p) (hq : s.asleep q = some c) :
    Waits s.pipe c ∨ (s.pc p).owes c = true := by
  refine (h.served q c hq).imp_right ?_
  rintro ⟨r, hr⟩
  have := (h.inv.lock r).mp (inside_of_owes hr)
  rw [hlock] at this
  rwa [Option.some.inj this]

theorem Served.waits (h : Served s) (hlock : s.lock = none) : NoStranded s := by
  intro q c hq
  refine (h.served q c hq).resolve_right ?_
  rintro ⟨r, hr⟩
  have := (h.inv.lock r).mp (inside_of_owes hr)
  rw [hlock] at this
  cases this

theorem asleep_notify (h : (s.notify w).asleep q = some c) : s.asleep q = some c ∧ w ≠ some c := by
  cases w with
  | none => exact ⟨h, nofun⟩
  | some chan =>
    change (if s.asleep q = some chan then none else s.asleep q) = some c at h
    split_ifs at h with hc
    refine ⟨h, fun hcc => hc ?_⟩
    rw [h, Option.some.inj hcc]

variable [DecidableEq P] {buf : List UInt8} {i : ℕ}

/-! ## One step -/

theorem Acts.served (h : Served s) (ha : Acts s p t e)
    (hgive : ∀ buf i, s.pc p = .writeFull buf i → s.pipe.readopen = false ∨ s.killed p = true →
      ∀ q, s.asleep q ≠ some .nread) : Served t := by
  refine ⟨ha.inv h.inv, fun q c hq => ?_⟩
  cases ha with
  | @enter pc pc' y hpc hx hlock =>
    refine (hx.waits (h.waits hlock q c hq)).imp_right fun ho => ⟨p, ?_⟩
    change (Function.update s.pc p pc' p).owes c = true
    rwa [Function.update_self]
  | @within pc pc' y w e hpc hx =>
    obtain ⟨hq, hw⟩ := asleep_notify hq
    have hs := h.owes (h.inv.lock_eq hpc hx.inside.1) hq
    rw [hpc] at hs
    have hor := (hx.waits (fun buf i hf hk hc => hgive buf i (hpc.trans hf) hk q (hc ▸ hq)) hs)
    refine (hor.resolve_left hw).imp (fun hwaits => ?_) fun ho => ⟨p, ?_⟩
    · exact (notify_pipe _ _).symm ▸ hwaits
    · change (Function.update (State.notify _ w).pc p pc' p).owes c = true
      rwa [Function.update_self]
  | @sleep pc pc' chan hpc hx =>
    have hk := h.inv.knows p
    rw [hpc] at hk
    obtain ⟨hwaits, howes⟩ := hx.waits hk
    change Function.update s.asleep p (some chan) q = some c at hq
    by_cases hqp : q = p
    · subst hqp
      rw [Function.update_self] at hq
      exact Or.inl (Option.some.inj hq ▸ hwaits)
    · rw [Function.update_of_ne hqp] at hq
      have hs := h.owes (h.inv.lock_eq hpc hx.inside.1) hq
      rw [hpc, howes] at hs
      exact Or.inl (hs.resolve_right nofun)
  | leave hpc hx =>
    have hs := h.owes (h.inv.lock_eq hpc hx.inside) hq
    rw [hpc, hx.owes] at hs
    exact Or.inl (hs.resolve_right nofun)

theorem Served.call (h : Served s) (hout : pc.inside = false) (hs : call p pc s = some (t, e)) :
    Served t := by
  have hinv := h.inv.call hout hs
  obtain ⟨hpc, rfl, rfl⟩ := call_eq_some hs
  refine ⟨hinv, fun q c hq => (h.served q c hq).imp_right ?_⟩
  rintro ⟨r, hr⟩
  refine ⟨r, ?_⟩
  change (Function.update s.pc p pc r).owes c = true
  rwa [Function.update_of_ne]
  rintro rfl
  rw [hpc] at hr
  cases c <;> cases hr

theorem Served.step (h : Served s) (hp : Prompt s a) (hs : Pipe.step s a = some (t, e)) :
    Served t := by
  cases a with
  | pipewrite p buf => exact h.call rfl hs
  | piperead p n => exact h.call rfl hs
  | pipeclose p w => exact h.call rfl hs
  | go p =>
    refine (go_acts hs).served h fun buf i hpc hk => ?_
    simp only [Prompt, hpc] at hp
    exact hp hk
  | kill p =>
    have hinv := h.inv.step hs
    cases hs
    refine ⟨hinv, fun q c hq => h.served q c ?_⟩
    change Function.update s.asleep p none q = some c at hq
    by_cases hqp : q = p
    · subst hqp
      rw [Function.update_self] at hq
      cases hq
    · rwa [Function.update_of_ne hqp] at hq

/-! ## The run -/

/-- **No sleeper is stranded** as long as `pipewrite` does not give up on a full buffer while a
reader is asleep. -/
theorem noStranded_of_exec {data : ℕ → UInt8} {as : List (Label P)} {es : List (Event P)}
    (h : exec step (State.init P data) as = some (s, es))
    (hp : StepsMeet step Prompt (State.init P data) as) (hlock : s.lock = none) :
    NoStranded s := by
  have hserved : Served s :=
    exec_invariant_of (C := Prompt) (fun hI hC hs => hI.step hC hs) (served_init data) hp h
  exact hserved.waits hlock

local instance wakeCallers : NeZero 2 := ⟨two_ne_zero⟩

/-- A reader that goes to sleep, and a writer of one byte that wakes it up. -/
def wakeRun : List (Label (Fin 2)) :=
  [.piperead 1 1] ++ List.replicate 4 (.go 1) ++ [.pipewrite 0 [7]] ++ List.replicate 5 (.go 0)

theorem noStranded_of_wakeRun :
    ∃ s es, exec step (State.init (Fin 2) fun _ => 0) wakeRun = some (s, es) ∧
      s.asleep 1 = none ∧ ¬ s.pipe.IsEmpty ∧ NoStranded s := by
  have hrun : (exec step (State.init (Fin 2) fun _ => 0) wakeRun).map (fun r =>
      (r.1.lock, r.1.asleep 1, decide r.1.pipe.IsEmpty)) = some (none, none, false) := by decide
  obtain ⟨⟨s, es⟩, hexec, hs⟩ := Option.map_eq_some_iff.mp hrun
  obtain ⟨hlock, hs⟩ := Prod.mk.inj hs
  obtain ⟨hasleep, hempty⟩ := Prod.mk.inj hs
  exact ⟨s, es, hexec, hasleep, of_decide_eq_false hempty,
    noStranded_of_exec hexec (by decide) hlock⟩

/-- `pipewrite` with more to write finds the buffer full. -/
theorem go_of_full (hpc : s.pc p = .writeLoop buf i) (hi : i < buf.length) (hfull : s.pipe.IsFull) :
    exec step s [.go p] = some (s.setPc p (.writeFull buf i), [.none]) := by
  have hstep : step s (.go p) = some (s.setPc p (.writeFull buf i), .none) := by
    simp only [step, go, writeStep, hpc, List.getElem?_eq_getElem hi, if_pos hfull, Option.some_or]
  exact exec_cons_iff.mpr ⟨_, _, _, hstep, rfl, rfl⟩

/-- `pipewrite` gives up in one step and releases the lock in the next. -/
theorem go_of_writeFull (hpc : s.pc p = .writeFull buf i)
    (hk : s.pipe.readopen = false ∨ s.killed p = true) :
    exec step s [.go p, .go p] =
      some ((s.setPc p (.writeReturn (-1))).leave p, [.none, .wrote p (-1)]) := by
  have hgive : step s (.go p) = some (s.setPc p (.writeReturn (-1)), .none) := by
    simp only [step, go, writeStep, hpc, if_pos hk, Option.some_or]
  have hleave : step (s.setPc p (.writeReturn (-1))) (.go p) =
      some ((s.setPc p (.writeReturn (-1))).leave p, .wrote p (-1)) := by
    have hpc' : (s.setPc p (.writeReturn (-1))).pc p = .writeReturn (-1) :=
      Function.update_self ..
    simp only [step, go, writeStep, hpc', Option.some_or]
  exact exec_cons_iff.mpr ⟨_, _, _, hgive, exec_cons_iff.mpr ⟨_, _, _, hleave, rfl, rfl⟩, rfl⟩

/-- **The condition is needed.**  Each time it is not met, the process that gives up leaves a reader
asleep in front of a full buffer. -/
theorem stranded_of_not_prompt (h : Inv s) (hp : ¬ Prompt s a) :
    ∃ t es, exec step s [a, a] = some (t, es) ∧ t.lock = none ∧ ¬ NoStranded t := by
  unfold Prompt at hp
  split at hp
  · rename_i p
    split at hp
    · rename_i buf i hpc
      rw [Classical.not_imp, not_forall_not] at hp
      obtain ⟨hk, q, hq⟩ := hp
      refine ⟨_, _, go_of_writeFull hpc hk, rfl, fun hno => ?_⟩
      have hempty : s.pipe.IsEmpty := (hno q .nread hq).1
      have hfull : s.pipe.IsFull := by
        have := h.knows p
        rwa [hpc] at this
      unfold PipeData.IsEmpty at hempty
      unfold PipeData.IsFull PIPESIZE at hfull
      omega
    · exact absurd trivial hp
  · exact absurd trivial hp

/-- While there is room, each step of `pipewrite` stores a byte and changes nothing else. -/
theorem exec_put (k : ℕ) (hpc : s.pc p = .writeLoop buf i)
    (hbuf : i + k ≤ buf.length) (hr : s.pipe.ring.r = 0) (hroom : s.pipe.ring.w + k ≤ PIPESIZE) :
    ∃ t es, exec step s (List.replicate k (.go p)) = some (t, es) ∧
      t.pc p = .writeLoop buf (i + k) ∧ t.pipe.ring.r = 0 ∧ t.pipe.ring.w = s.pipe.ring.w + k ∧
      t.asleep = s.asleep ∧ t.killed = s.killed := by
  induction k generalizing s i with
  | zero => exact ⟨s, [], rfl, hpc, hr, rfl, rfl, rfl⟩
  | succ k ih =>
    have hfull : ¬ s.pipe.IsFull := by
      unfold PipeData.IsFull
      unfold PIPESIZE at hroom ⊢
      omega
    have hstep : step s (.go p) = some (({ s with pipe := s.pipe.put buf[i] } : State P).setPc p
        (.writeLoop buf (i + 1)), .stored buf[i]) := by
      simp only [step, go, writeStep, hpc, List.getElem?_eq_getElem (show i < buf.length by omega),
        if_neg hfull, Option.some_or]
    have hw : (s.pipe.put buf[i]).ring.w = s.pipe.ring.w + 1 := by
      unfold PIPESIZE at hroom
      exact Nat.mod_eq_of_lt (by omega)
    obtain ⟨t, es, ht, hpc', hr', hw', hasleep, hkilled⟩ :=
      ih (s := ({ s with pipe := s.pipe.put buf[i] } : State P).setPc p (.writeLoop buf (i + 1)))
        (i := i + 1) (Function.update_self ..) (by omega) hr
        (by change (s.pipe.put buf[i]).ring.w + k ≤ PIPESIZE; omega)
    refine ⟨t, .stored buf[i] :: es, exec_cons_iff.mpr ⟨_, _, es, hstep, ht, rfl⟩, ?_, hr', ?_,
      hasleep, hkilled⟩
    · rw [hpc', Nat.add_assoc, Nat.add_comm 1 k]
    · rw [hw']
      change (s.pipe.put buf[i]).ring.w + k = _
      omega

/-- A reader goes to sleep; a writer that has been killed gets the lock. -/
def strandStart (buf : List UInt8) : List (Label (Fin 2)) :=
  [.piperead 1 1] ++ List.replicate 4 (.go 1) ++ [.pipewrite 0 buf, .kill 0, .go 0]

/-- The writer fills the buffer, has more to write, and gives up. -/
def strandRun (buf : List UInt8) : List (Label (Fin 2)) :=
  strandStart buf ++ (List.replicate 512 (.go 0) ++ ([.go 0] ++ [.go 0, .go 0]))

theorem exec_strandStart (buf : List UInt8) :
    ∃ s es, exec step (State.init (Fin 2) fun _ => 0) (strandStart buf) = some (s, es) ∧
      s.pc 0 = .writeLoop buf 0 ∧ s.pipe.ring.r = 0 ∧ s.pipe.ring.w = 0 ∧
      s.asleep 1 = some .nread ∧ s.killed 0 = true :=
  ⟨_, _, rfl, rfl, rfl, rfl, rfl, rfl⟩

theorem exec_strandRun (hbuf : 512 < buf.length) :
    ∃ s es, exec step (State.init (Fin 2) fun _ => 0) (strandRun buf) = some (s, es) ∧
      s.lock = none ∧ s.asleep 1 = some .nread ∧ ¬ s.pipe.IsEmpty := by
  obtain ⟨s, es, hs, hpc, hr, hw, hasleep, hkilled⟩ := exec_strandStart buf
  obtain ⟨t, es', ht, hpc', hr', hw', hasleep', hkilled'⟩ :=
    exec_put 512 hpc (by omega) hr (by rw [hw]; decide)
  rw [hw] at hw'
  have hfull : t.pipe.IsFull := by
    unfold PipeData.IsFull
    rw [hw', hr']
    rfl
  have hempty : ¬ t.pipe.IsEmpty := by
    unfold PipeData.IsEmpty
    rw [hw', hr']
    decide
  have hgive := go_of_writeFull (s := t.setPc 0 (.writeFull buf (0 + 512)))
    (Function.update_self ..) (Or.inr ((congrFun hkilled' 0).trans hkilled))
  exact ⟨_, _, exec_append hs (exec_append ht (exec_append
    (go_of_full hpc' (by omega) hfull) hgive)), rfl, (congrFun hasleep' 1).trans hasleep, hempty⟩

/-- **Counterexample.**  The reader sleeps on, though the buffer is full and the write end open. -/
theorem stranded_after_strandRun :
    ∃ s es, exec step (State.init (Fin 2) fun _ => 0) (strandRun (List.replicate 513 7)) =
        some (s, es) ∧
      s.lock = none ∧ s.asleep 1 = some .nread ∧ ¬ s.pipe.IsEmpty ∧ ¬ NoStranded s := by
  have hlen : 512 < (List.replicate 513 (7 : UInt8)).length := by
    rw [List.length_replicate]
    decide
  obtain ⟨s, es, hs, hlock, hasleep, hempty⟩ := exec_strandRun hlen
  exact ⟨s, es, hs, hlock, hasleep, hempty, fun hno => hempty (hno 1 .nread hasleep).1⟩

end Xv6.Pipe
