import Xv6.Pipe.Machine

/-!
# What a step on a pipe can do

Every step of a call does one of four things: it gets the lock (`Enters`), it does something while
it holds it (`Within`), it gives it up in `sleep` (`Sleeps`) or at the end of the call (`Leaves`).
`go_acts` is the inversion of the step function; what follows is by cases on these relations.

`Inv` says that the lock is held by the one process whose program point is inside, and that what
this process has tested is still so (`Knows`).
-/

namespace Xv6.Pipe

open Lib

variable {P : Type*}

def Pc.inside : Pc → Bool
  | .writeLoop _ _ | .writeFull _ _ | .writeNotify _ _ | .writeSleep _ _ | .writeWakeup _
  | .writeReturn _ | .readLoop _ | .readEmpty _ | .readSleep _ | .readCopy _ _ | .readWakeup _ _
  | .readReturn _ _ | .readFail | .closeWakeup _ | .closeReturn => true
  | _ => false

inductive Enters (x : PipeData) : Pc → PipeData → Pc → Prop
  | write (buf : List UInt8) : Enters x (.writeEnter buf) x (.writeLoop buf 0)
  | writeAgain (buf : List UInt8) (i : ℕ) : Enters x (.writeAsleep buf i) x (.writeLoop buf i)
  | read (n : ℕ) : Enters x (.readEnter n) x (.readLoop n)
  | readAgain (n : ℕ) : Enters x (.readAsleep n) x (.readLoop n)
  | close (w : Bool) : Enters x (.closeEnter w) (x.close w) (.closeWakeup w)

/-- A step of a process with the lock held, which may be killed, with the `wakeup` that it makes. -/
inductive Within (killed : Bool) (x : PipeData) :
    Pc → PipeData → Option Chan → Pc → Event P → Prop
  | stored {buf : List UInt8} {i : ℕ} (h : buf[i]? = none) :
      Within killed x (.writeLoop buf i) x none (.writeWakeup buf.length) .none
  | full {buf : List UInt8} {i : ℕ} (h : x.IsFull) :
      Within killed x (.writeLoop buf i) x none (.writeFull buf i) .none
  | put {buf : List UInt8} {i : ℕ} {b : UInt8} (h : ¬ x.IsFull) :
      Within killed x (.writeLoop buf i) (x.put b) none (.writeLoop buf (i + 1)) (.stored b)
  | writeFail {buf : List UInt8} {i : ℕ} (h : x.readopen = false ∨ killed = true) :
      Within killed x (.writeFull buf i) x none (.writeReturn (-1)) .none
  | writeGoOn {buf : List UInt8} {i : ℕ} (h : x.readopen = true) :
      Within killed x (.writeFull buf i) x none (.writeNotify buf i) .none
  | notify {buf : List UInt8} {i : ℕ} :
      Within killed x (.writeNotify buf i) x (some .nread) (.writeSleep buf i) .none
  | writeWakeup {n : ℕ} :
      Within killed x (.writeWakeup n) x (some .nread) (.writeReturn n) .none
  | empty {n : ℕ} (h : x.IsEmpty ∧ x.writeopen = true) :
      Within killed x (.readLoop n) x none (.readEmpty n) .none
  | copy {n : ℕ} (h : ¬ (x.IsEmpty ∧ x.writeopen = true)) :
      Within killed x (.readLoop n) x none (.readCopy n []) .none
  | readFail {n : ℕ} : Within killed x (.readEmpty n) x none .readFail .none
  | readGoOn {n : ℕ} : Within killed x (.readEmpty n) x none (.readSleep n) .none
  | drop {n : ℕ} {got : List UInt8} (h : ¬ x.IsEmpty) :
      Within killed x (.readCopy n got) x.drop none (.readCopy n (got ++ [x.front]))
        (.taken x.front)
  | copied {n : ℕ} {got : List UInt8} (h : ¬ (got.length < n ∧ ¬ x.IsEmpty)) :
      Within killed x (.readCopy n got) x none (.readWakeup n got) .none
  | readWakeup {n : ℕ} {got : List UInt8} :
      Within killed x (.readWakeup n got) x (some .nwrite) (.readReturn n got) .none
  | closeWakeup {w : Bool} :
      Within killed x (.closeWakeup w) x (some (closeChan w)) .closeReturn .none

inductive Sleeps : Pc → Chan → Pc → Prop
  | write (buf : List UInt8) (i : ℕ) : Sleeps (.writeSleep buf i) .nwrite (.writeAsleep buf i)
  | read (n : ℕ) : Sleeps (.readSleep n) .nread (.readAsleep n)

inductive Leaves (p : P) : Pc → Event P → Prop
  | write (r : ℤ) : Leaves p (.writeReturn r) (.wrote p r)
  | read (n : ℕ) (got : List UInt8) : Leaves p (.readReturn n got) (.read p n got)
  | readFail : Leaves p .readFail (.readFailed p)
  | close : Leaves p .closeReturn .none

/-- The `wakeup` of a step, if it makes one. -/
def State.notify (s : State P) : Option Chan → State P
  | none => s
  | some chan => s.wakeup chan

variable {s t : State P} {p q : P} {a : Label P} {e : Event P} {x y : PipeData} {pc pc' : Pc}

theorem notify_pc (s : State P) (w : Option Chan) : (s.notify w).pc = s.pc := by
  cases w <;> rfl

theorem notify_lock (s : State P) (w : Option Chan) : (s.notify w).lock = s.lock := by
  cases w <;> rfl

theorem notify_pipe (s : State P) (w : Option Chan) : (s.notify w).pipe = s.pipe := by
  cases w <;> rfl

/-! ## The lock and what its holder knows -/

/-- What the holder of the lock has found out about the pipe. -/
def Knows (x : PipeData) : Pc → Prop
  | .writeFull _ _ => x.IsFull
  | .writeNotify _ _ | .writeSleep _ _ => x.IsFull ∧ x.readopen = true
  | .readEmpty _ | .readSleep _ => x.IsEmpty ∧ x.writeopen = true
  | .readCopy _ got => got = [] → ¬ x.IsEmpty ∨ x.writeopen = false
  | .readWakeup n got | .readReturn n got => got = [] → 0 < n → x.IsEmpty ∧ x.writeopen = false
  | _ => True

/-- The lock is held by the one process that is inside, and what it knows is so. -/
structure Inv (s : State P) : Prop where
  lock : ∀ p, (s.pc p).inside = true ↔ s.lock = some p
  knows : ∀ p, Knows s.pipe (s.pc p)

theorem knows_of_outside (h : pc.inside = false) : Knows x pc := by
  cases pc <;> trivial

theorem Enters.inside (h : Enters x pc y pc') :
    pc.inside = false ∧ pc'.inside = true ∧ Knows y pc' := by
  cases h <;> exact ⟨rfl, rfl, trivial⟩

theorem Sleeps.inside {chan : Chan} (h : Sleeps pc chan pc') :
    pc.inside = true ∧ pc'.inside = false := by
  cases h <;> exact ⟨rfl, rfl⟩

theorem Leaves.inside (h : Leaves p pc e) : pc.inside = true := by
  cases h <;> rfl

theorem Within.inside {k : Bool} {w : Option Chan} (h : Within k x pc y w pc' e) :
    pc.inside = true ∧ pc'.inside = true := by
  cases h <;> exact ⟨rfl, rfl⟩

/-- What is known after a step follows from what was known before it. -/
theorem Within.knows {k : Bool} {w : Option Chan} (h : Within k x pc y w pc' e)
    (hk : Knows x pc) : Knows y pc' := by
  cases h with
  | stored h => trivial
  | full h => exact h
  | put h => trivial
  | writeFail h => trivial
  | writeGoOn h => exact ⟨hk, h⟩
  | notify => exact hk
  | writeWakeup => trivial
  | empty h => exact h
  | copy h =>
    intro _
    by_cases hem : x.IsEmpty
    · exact Or.inr (Bool.eq_false_of_not_eq_true fun ho => h ⟨hem, ho⟩)
    · exact Or.inl hem
  | readFail => trivial
  | readGoOn => exact hk
  | drop h => exact fun hnil => absurd hnil (List.append_ne_nil_of_right_ne_nil _ (by simp))
  | copied h =>
    intro hnil hn
    subst hnil
    have hem : x.IsEmpty := by
      by_contra hem
      exact h ⟨hn, hem⟩
    exact ⟨hem, (hk rfl).resolve_left fun hne => hne hem⟩
  | readWakeup => exact hk
  | closeWakeup => trivial

/-- While `p` holds the lock, or nobody does, all others are outside. -/
theorem Inv.outside (h : Inv s) (hlock : s.lock = none ∨ s.lock = some p) (hq : q ≠ p) :
    (s.pc q).inside = false := by
  rw [Bool.eq_false_iff, ne_eq, h.lock q]
  rcases hlock with hl | hl
  · rw [hl]
    exact nofun
  · rw [hl]
    exact fun hqp => hq (Option.some.inj hqp).symm

theorem Inv.lock_eq (h : Inv s) (hpc : s.pc p = pc) (hin : pc.inside = true) :
    s.lock = some p := by
  rw [← h.lock p, hpc]
  exact hin

theorem inv_init (data : ℕ → UInt8) : Inv (State.init P data) :=
  ⟨fun _ => ⟨nofun, nofun⟩, fun _ => trivial⟩

/-! ## Inversion -/

variable [DecidableEq P]

/-- What a step of a call can do, by the program point that it starts from. -/
inductive Acts (s : State P) (p : P) : State P → Event P → Prop
  | enter {pc y : Pc} {x : PipeData} (hpc : s.pc p = pc) (h : Enters s.pipe pc x y)
      (hlock : s.lock = none) :
      Acts s p ({ s with pipe := x, lock := some p }.setPc p y) .none
  | within {pc y : Pc} {x : PipeData} {w : Option Chan} {e : Event P} (hpc : s.pc p = pc)
      (h : Within (s.killed p) s.pipe pc x w y e) :
      Acts s p (({ s with pipe := x }.notify w).setPc p y) e
  | sleep {pc y : Pc} {chan : Chan} (hpc : s.pc p = pc) (h : Sleeps pc chan y) :
      Acts s p (s.sleep p chan y) .none
  | leave {pc : Pc} {e : Event P} {alive : Bool} (hpc : s.pc p = pc) (h : Leaves p pc e) :
      Acts s p ({ s with alive := alive }.leave p) e

theorem acquire_eq_some {r : State P × Event P} (h : s.acquire p pc = some r) :
    s.lock = none ∧ r = ({ s with lock := some p }.setPc p pc, .none) := by
  unfold State.acquire at h
  split_ifs at h with hl
  exact ⟨hl.1, (Option.some.inj h).symm⟩

theorem acts_of_acquire (hpc : s.pc p = pc) (hx : Enters s.pipe pc x pc')
    (h : ({ s with pipe := x } : State P).acquire p pc' = some (t, e)) : Acts s p t e := by
  obtain ⟨hl, hr⟩ := acquire_eq_some h
  cases hr
  exact .enter hpc hx hl

theorem writeStep_acts (h : writeStep p s = some (t, e)) : Acts s p t e := by
  unfold writeStep at h
  split at h
  · rename_i buf hpc
    exact acts_of_acquire hpc (.write buf) h
  · rename_i buf i hpc
    split at h
    · rename_i hb
      cases h
      exact .within hpc (.stored hb)
    · split_ifs at h with hf
      · cases h
        exact .within hpc (.full hf)
      · cases h
        exact .within hpc (.put hf)
  · rename_i buf i hpc
    split_ifs at h with hk
    · cases h
      exact .within hpc (.writeFail hk)
    · rw [not_or, Bool.not_eq_false] at hk
      cases h
      exact .within hpc (.writeGoOn hk.1)
  · rename_i buf i hpc
    cases h
    exact .within hpc .notify
  · rename_i buf i hpc
    cases h
    exact .sleep hpc (.write buf i)
  · rename_i buf i hpc
    split_ifs at h
    exact acts_of_acquire hpc (.writeAgain buf i) h
  · rename_i n hpc
    cases h
    exact .within hpc .writeWakeup
  · rename_i r hpc
    cases h
    exact .leave hpc (.write r)
  · cases h

theorem readStep_acts (h : readStep p s = some (t, e)) : Acts s p t e := by
  unfold readStep at h
  split at h
  · rename_i n hpc
    exact acts_of_acquire hpc (.read n) h
  · rename_i n hpc
    split_ifs at h with hem
    · cases h
      exact .within hpc (.empty hem)
    · cases h
      exact .within hpc (.copy hem)
  · rename_i n hpc
    split_ifs at h
    · cases h
      exact .within hpc .readFail
    · cases h
      exact .within hpc .readGoOn
  · rename_i n hpc
    cases h
    exact .sleep hpc (.read n)
  · rename_i n hpc
    split_ifs at h
    exact acts_of_acquire hpc (.readAgain n) h
  · rename_i n got hpc
    split_ifs at h with hc
    · cases h
      exact .within hpc (.drop hc.2)
    · cases h
      exact .within hpc (.copied hc)
  · rename_i n got hpc
    cases h
    exact .within hpc .readWakeup
  · rename_i n got hpc
    cases h
    exact .leave hpc (.read n got)
  · rename_i hpc
    cases h
    exact .leave hpc .readFail
  · cases h

theorem closeStep_acts (h : closeStep p s = some (t, e)) : Acts s p t e := by
  unfold closeStep at h
  split at h
  · rename_i w hpc
    exact acts_of_acquire hpc (.close w) h
  · rename_i w hpc
    cases h
    exact .within hpc .closeWakeup
  · rename_i hpc
    cases h
    exact .leave hpc .close
  · cases h

/-- **What a step of a call can do.** -/
theorem go_acts (h : go p s = some (t, e)) : Acts s p t e := by
  unfold go at h
  rcases Option.or_eq_some_iff.mp h with h | ⟨-, h⟩
  · exact writeStep_acts h
  · rcases Option.or_eq_some_iff.mp h with h | ⟨-, h⟩
    · exact readStep_acts h
    · exact closeStep_acts h

/-! ## The invariant -/

theorem Inv.move {t' : State P} (hout : ∀ q, q ≠ p → (t.pc q).inside = false)
    (hpc : t'.pc = Function.update t.pc p pc)
    (hlock : t'.lock = if pc.inside = true then some p else none) (hk : Knows t'.pipe pc) :
    Inv t' := by
  constructor
  · intro q
    rw [hpc, hlock]
    by_cases hq : q = p
    · subst hq
      rw [Function.update_self]
      split_ifs with hin
      · simp [hin]
      · simp [hin]
    · rw [Function.update_of_ne hq, hout q hq]
      split_ifs
      · simp [Ne.symm hq]
      · simp
  · intro q
    rw [hpc]
    by_cases hq : q = p
    · subst hq
      rwa [Function.update_self]
    · rw [Function.update_of_ne hq]
      exact knows_of_outside (hout q hq)

theorem Acts.inv (h : Inv s) (ha : Acts s p t e) : Inv t := by
  cases ha with
  | enter hpc hx hlock =>
    obtain ⟨-, hin, hk⟩ := hx.inside
    exact Inv.move (fun q hq => h.outside (Or.inl hlock) hq) rfl (if_pos hin).symm hk
  | within hpc hx =>
    obtain ⟨hin, hin'⟩ := hx.inside
    have hlock := h.lock_eq hpc hin
    have hk := h.knows p
    rw [hpc] at hk
    refine Inv.move (fun q hq => h.outside (Or.inr hlock) hq)
      (congrArg (fun f => Function.update f p _) (notify_pc _ _)) ?_ ?_
    · rw [if_pos hin']
      exact (notify_lock _ _).trans hlock
    · exact (notify_pipe _ _).symm ▸ hx.knows hk
  | sleep hpc hx =>
    obtain ⟨hin, hout⟩ := hx.inside
    refine Inv.move (fun q hq => h.outside (Or.inr (h.lock_eq hpc hin)) hq) rfl ?_
      (knows_of_outside hout)
    rw [hout]
    rfl
  | leave hpc hx =>
    exact Inv.move (fun q hq => h.outside (Or.inr (h.lock_eq hpc hx.inside)) hq) rfl rfl trivial

theorem call_eq_some (hs : call p pc s = some (t, e)) :
    s.pc p = .out ∧ t = s.setPc p pc ∧ e = .none := by
  unfold call at hs
  split_ifs at hs with hpc
  cases hs
  exact ⟨hpc, rfl, rfl⟩

theorem Inv.call (h : Inv s) (hout : pc.inside = false) (hs : call p pc s = some (t, e)) :
    Inv t := by
  obtain ⟨hpc, rfl, rfl⟩ := call_eq_some hs
  constructor
  · intro q
    change (Function.update s.pc p pc q).inside = true ↔ s.lock = some q
    by_cases hq : q = p
    · subst hq
      rw [Function.update_self, hout, ← h.lock q, hpc]
      exact Iff.rfl
    · rw [Function.update_of_ne hq]
      exact h.lock q
  · intro q
    change Knows s.pipe (Function.update s.pc p pc q)
    by_cases hq : q = p
    · subst hq
      rw [Function.update_self]
      exact knows_of_outside hout
    · rw [Function.update_of_ne hq]
      exact h.knows q

theorem Inv.step (h : Inv s) (hs : Pipe.step s a = some (t, e)) : Inv t := by
  cases a with
  | pipewrite p buf => exact h.call rfl hs
  | piperead p n => exact h.call rfl hs
  | pipeclose p w => exact h.call rfl hs
  | go p => exact (go_acts hs).inv h
  | kill p =>
    cases hs
    exact ⟨h.lock, h.knows⟩

end Xv6.Pipe
