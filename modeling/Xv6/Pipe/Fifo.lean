import Xv6.Pipe.Lock

/-!
# A pipe is a first-in first-out stream

The bytes that `pipewrite` has stored, the bytes that `piperead` has taken out, and the bytes that
calls of `piperead` have returned, each in order, are read off the events of a run.  `Fifo` relates
them: the buffer holds what has been stored and not taken, and only the holder of the lock may have
taken bytes that it has not returned yet.

The counters are 32 bits wide and the buffer has 512 bytes.  Since 512 divides `2 ^ 32`, nothing
happens to the stream when they wrap around.
-/

namespace Xv6.Pipe

open Lib

variable {P : Type*}

def Event.storedByte : Event P → List UInt8
  | .stored b => [b]
  | _ => []

def Event.takenByte : Event P → List UInt8
  | .taken b => [b]
  | _ => []

/-- The bytes that a step returns to the caller of `piperead`. -/
def Event.readBytes : Event P → List UInt8
  | .read _ _ got => got
  | _ => []

/-- All bytes stored by `pipewrite`, in order. -/
def stored (es : List (Event P)) : List UInt8 := es.flatMap Event.storedByte

/-- All bytes taken out by `piperead`, in order. -/
def taken (es : List (Event P)) : List UInt8 := es.flatMap Event.takenByte

/-- All bytes returned by `piperead`, in order. -/
def returned (es : List (Event P)) : List UInt8 := es.flatMap Event.readBytes

variable {s t : State P} {p : P} {a : Label P} {e : Event P} {es : List (Event P)}
  {x y : PipeData} {pc pc' : Pc}

theorem stored_concat : stored (es ++ [e]) = stored es ++ e.storedByte := by
  simp [stored]

theorem taken_concat : taken (es ++ [e]) = taken es ++ e.takenByte := by
  simp [taken]

theorem returned_concat : returned (es ++ [e]) = returned es ++ e.readBytes := by
  simp [returned]

/-- The bytes that a call of `piperead` has taken so far. -/
def Pc.got : Pc → List UInt8
  | .readCopy _ got | .readWakeup _ got | .readReturn _ got => got
  | _ => []

/-- The bytes that the holder of the lock has taken and not returned. -/
def held (s : State P) : List UInt8 :=
  match s.lock with
  | none => []
  | some p => (s.pc p).got

theorem held_of_none (h : s.lock = none) : held s = [] := by
  rw [held, h]

theorem held_of_some (h : s.lock = some p) : held s = (s.pc p).got := by
  rw [held, h]

/-- The buffer holds what has been stored and not taken. -/
def Holds (x : PipeData) (es : List (Event P)) : Prop :=
  RingBuf.Ok PIPESIZE (2 ^ 32) x.ring (stored es) (taken es).length ∧ taken es <+: stored es

/-- The streams of a run. -/
structure Fifo (s : State P) (es : List (Event P)) : Prop where
  inv : Inv s
  holds : Holds s.pipe es
  taken_eq : taken es = returned es ++ held s

/-! ## One step -/

theorem Holds.plain (h : Holds x es) (hring : y.ring = x.ring) (hs : e.storedByte = [])
    (ht : e.takenByte = []) : Holds y (es ++ [e]) := by
  unfold Holds
  rw [stored_concat, taken_concat, hs, ht, List.append_nil, List.append_nil, hring]
  exact h

theorem Holds.put (h : Holds x es) (hfull : ¬ x.IsFull) (b : UInt8) :
    Holds (x.put b) (es ++ [(.stored b : Event P)]) := by
  unfold Holds
  rw [stored_concat, taken_concat]
  change RingBuf.Ok _ _ (x.ring.push _ _ b) (stored es ++ [b]) (taken es ++ []).length ∧
    taken es ++ [] <+: stored es ++ [b]
  rw [List.append_nil]
  refine ⟨h.1.push (by decide) ?_, h.2.trans (List.prefix_append _ _)⟩
  have hle := h.1.le_add
  have hne := mt (h.1.full_iff (by decide)).mpr hfull
  omega

theorem Holds.drop (h : Holds x es) (hempty : ¬ x.IsEmpty) :
    Holds x.drop (es ++ [(.taken x.front : Event P)]) := by
  unfold Holds
  rw [stored_concat, taken_concat]
  change RingBuf.Ok _ _ (x.ring.pop _) (stored es ++ []) (taken es ++ [x.front]).length ∧
    taken es ++ [x.front] <+: stored es ++ []
  rw [List.append_nil, List.length_append, List.length_singleton]
  have hlt : (taken es).length < (stored es).length := by
    have hle := h.1.le
    have hne := mt (h.1.empty_iff (by decide)).mpr hempty
    omega
  obtain ⟨hok, htake⟩ := h.1.pop (by decide) hlt
  refine ⟨hok, ?_⟩
  rw [← List.prefix_iff_eq_take.mp h.2] at htake
  change taken es ++ [x.ring.front PIPESIZE] <+: stored es
  rw [← htake]
  exact List.take_prefix _ _

theorem Within.holds {k : Bool} {w : Option Chan} (h : Within k x pc y w pc' e)
    (hx : Holds x es) : Holds y (es ++ [e]) := by
  cases h with
  | put hf => exact hx.put hf _
  | drop hem => exact hx.drop hem
  | _ => exact hx.plain rfl rfl rfl

/-- The bytes taken in a step are remembered by the process. -/
theorem Within.got {k : Bool} {w : Option Chan} (h : Within k x pc y w pc' e) :
    pc'.got = pc.got ++ e.takenByte ∧ e.readBytes = [] := by
  cases h <;> exact ⟨by simp [Pc.got, Event.takenByte], rfl⟩

theorem Enters.got (h : Enters x pc y pc') : pc'.got = [] ∧ y.ring = x.ring := by
  cases h with
  | close w => cases w <;> exact ⟨rfl, rfl⟩
  | _ => exact ⟨rfl, rfl⟩

theorem Sleeps.got {chan : Chan} (h : Sleeps pc chan pc') : pc.got = [] := by
  cases h <;> rfl

theorem Leaves.got (h : Leaves p pc e) :
    e.readBytes = pc.got ∧ e.storedByte = [] ∧ e.takenByte = [] := by
  cases h <;> exact ⟨rfl, rfl, rfl⟩

theorem Fifo.plain (h : Fifo s es) (hinv : Inv t) (hpipe : t.pipe = s.pipe)
    (hlock : t.lock = s.lock) (hpc : ∀ q, s.lock = some q → t.pc q = s.pc q) :
    Fifo t (es ++ [(.none : Event P)]) := by
  refine ⟨hinv, hpipe ▸ h.holds.plain rfl rfl rfl, ?_⟩
  have hheld : held t = held s := by
    unfold held
    rw [hlock]
    cases hl : s.lock with
    | none => rfl
    | some q => exact congrArg Pc.got (hpc q hl)
  rw [taken_concat, returned_concat, hheld, h.taken_eq]
  simp [Event.takenByte, Event.readBytes]

theorem fifo_init (data : ℕ → UInt8) : Fifo (State.init P data) [] :=
  ⟨inv_init data, ⟨RingBuf.Ok.nil data, List.prefix_rfl⟩, rfl⟩

variable [DecidableEq P]

theorem held_setPc (h : s.lock = some p) (pc : Pc) : held (s.setPc p pc) = pc.got := by
  rw [held_of_some (s := s.setPc p pc) h]
  exact congrArg Pc.got (Function.update_self ..)

theorem Acts.fifo (h : Fifo s es) (ha : Acts s p t e) : Fifo t (es ++ [e]) := by
  have hinv := ha.inv h.inv
  have htaken := h.taken_eq
  cases ha with
  | enter hpc hx hlock =>
    obtain ⟨hgot, hring⟩ := hx.got
    refine ⟨hinv, h.holds.plain hring rfl rfl, ?_⟩
    rw [held_of_none hlock] at htaken
    rw [taken_concat, returned_concat, held_setPc rfl, hgot, htaken]
    simp [Event.takenByte, Event.readBytes]
  | within hpc hx =>
    have hlock := h.inv.lock_eq hpc hx.inside.1
    obtain ⟨hgot, hread⟩ := hx.got
    refine ⟨hinv, (notify_pipe _ _).symm ▸ hx.holds h.holds, ?_⟩
    rw [held_of_some hlock, hpc] at htaken
    rw [taken_concat, returned_concat, hread, List.append_nil, held_setPc, hgot, htaken,
      List.append_assoc]
    exact (notify_lock _ _).trans hlock
  | sleep hpc hx =>
    have hlock := h.inv.lock_eq hpc hx.inside.1
    refine ⟨hinv, h.holds.plain rfl rfl rfl, ?_⟩
    rw [held_of_some hlock, hpc, hx.got] at htaken
    rw [taken_concat, returned_concat, held_of_none rfl]
    exact congrArg (· ++ []) htaken
  | leave hpc hx =>
    have hlock := h.inv.lock_eq hpc hx.inside
    obtain ⟨hread, hst, hta⟩ := hx.got
    refine ⟨hinv, h.holds.plain rfl hst hta, ?_⟩
    rw [held_of_some hlock, hpc] at htaken
    rw [taken_concat, returned_concat, hread, hta, held_of_none rfl, htaken, List.append_nil]

theorem Fifo.call (h : Fifo s es) (hout : pc.inside = false) (hs : call p pc s = some (t, e)) :
    Fifo t (es ++ [e]) := by
  have hinv := h.inv.call hout hs
  obtain ⟨hpc, rfl, rfl⟩ := call_eq_some hs
  refine h.plain hinv rfl rfl fun q hq => Function.update_of_ne ?_ ..
  rintro rfl
  have := (h.inv.lock q).mpr hq
  rw [hpc] at this
  cases this

theorem Fifo.step (h : Fifo s es) (hs : Pipe.step s a = some (t, e)) : Fifo t (es ++ [e]) := by
  cases a with
  | pipewrite p buf => exact h.call rfl hs
  | piperead p n => exact h.call rfl hs
  | pipeclose p w => exact h.call rfl hs
  | go p => exact (go_acts hs).fifo h
  | kill p =>
    have hinv := h.inv.step hs
    cases hs
    exact h.plain hinv rfl rfl fun _ _ => rfl

/-! ## The run -/

/-- The step in which `piperead` returns without a byte. -/
theorem Fifo.end_of_stream {n : ℕ} (h : Fifo s es) (hs : Pipe.step s a = some (t, .read p n []))
    (hn : 0 < n) : t.pipe.writeopen = false ∧ t.pipe.IsEmpty ∧ t.lock = none := by
  cases a with
  | go q =>
    have ha := go_acts hs
    generalize he : Event.read p n [] = e at ha
    cases ha with
    | leave hpc hx =>
      cases hx with
      | read n' got =>
        cases he
        have hk := h.inv.knows p
        rw [hpc] at hk
        obtain ⟨h1, h2⟩ := hk rfl hn
        exact ⟨h2, h1, rfl⟩
      | _ => cases he
    | within hpc hx => cases hx <;> cases he
    | _ => cases he
  | kill q => cases hs
  | pipewrite q buf => cases (call_eq_some hs).2.2
  | piperead q m => cases (call_eq_some hs).2.2
  | pipeclose q w => cases (call_eq_some hs).2.2

/-- The streams of every run, and the end of the stream. -/
theorem fifo_exec {data : ℕ → UInt8} {as : List (Label P)}
    (h : exec step (State.init P data) as = some (s, es)) :
    Fifo s es ∧ ∀ es' p n, es = es' ++ [.read p n []] → 0 < n →
      s.pipe.writeopen = false ∧ s.pipe.IsEmpty ∧ s.lock = none := by
  refine exec_induction (P := fun _ s es => Fifo s es ∧ ∀ es' p n, es = es' ++ [.read p n []] →
    0 < n → s.pipe.writeopen = false ∧ s.pipe.IsEmpty ∧ s.lock = none) ?_ ?_ h
  · exact ⟨fifo_init data, fun es' p n hes => by simp at hes⟩
  · intro as t es a u e _ ih hu
    refine ⟨ih.1.step hu, fun es' p n hes hn => ?_⟩
    obtain ⟨-, he⟩ := List.append_inj' hes rfl
    rw [List.singleton_inj.mp he] at hu
    exact ih.1.end_of_stream hu hn

/-- **A pipe is a first-in first-out stream.**  In every state of every run the counters are at most
`PIPESIZE` apart, what `piperead` has returned is a prefix of what `pipewrite` has stored, and a
call for at least one byte that returns none has found the write end closed and everything
returned. -/
theorem fifo_of_exec {data : ℕ → UInt8} {as : List (Label P)}
    (h : exec step (State.init P data) as = some (s, es)) :
    (s.pipe.ring.w + 2 ^ 32 - s.pipe.ring.r) % 2 ^ 32 ≤ PIPESIZE ∧ returned es <+: stored es ∧
      ∀ es' p n, es = es' ++ [.read p n []] → 0 < n →
        s.pipe.writeopen = false ∧ returned es = stored es := by
  obtain ⟨hf, hend⟩ := fifo_exec h
  refine ⟨?_, ?_, fun es' p n hes hn => ?_⟩
  · rw [hf.holds.1.sub_mod (by decide)]
    have := hf.holds.1.le_add
    omega
  · refine List.IsPrefix.trans ?_ hf.holds.2
    rw [hf.taken_eq]
    exact List.prefix_append _ _
  · obtain ⟨hopen, hempty, hlock⟩ := hend es' p n hes hn
    have htaken := hf.taken_eq
    rw [held_of_none hlock, List.append_nil] at htaken
    refine ⟨hopen, htaken.symm.trans (hf.holds.2.eq_of_length ?_)⟩
    exact (hf.holds.1.empty_iff (by decide)).mp hempty

local instance streamCallers : NeZero 2 := ⟨two_ne_zero⟩

/-- Process 0 writes two bytes; process 1 sleeps first, gets both, and asks again after the write
end is closed. -/
def streamRun : List (Label (Fin 2)) :=
  [.piperead 1 3] ++ List.replicate 4 (.go 1) ++ [.pipewrite 0 [7, 9]] ++
    List.replicate 6 (.go 0) ++ List.replicate 7 (.go 1) ++ [.pipeclose 0 true] ++
    List.replicate 3 (.go 0) ++ [.piperead 1 3] ++ List.replicate 5 (.go 1)

theorem fifo_of_streamRun :
    ∃ s es, exec step (State.init (Fin 2) fun _ => 0) streamRun = some (s, es) ∧
      returned es = [7, 9] ∧ s.pipe.writeopen = false ∧ returned es = stored es := by
  have hrun : (exec step (State.init (Fin 2) fun _ => 0) streamRun).map (fun r =>
      (r.2.getLast?, returned r.2)) = some (some (.read 1 3 []), [7, 9]) := by decide +kernel
  obtain ⟨⟨s, es⟩, hexec, hes⟩ := Option.map_eq_some_iff.mp hrun
  obtain ⟨hlast, hreturned⟩ := Prod.mk.inj hes
  obtain ⟨es', hes'⟩ := List.getLast?_eq_some_iff.mp hlast
  exact ⟨s, es, hexec, hreturned, (fifo_of_exec hexec).2.2 es' 1 3 hes' (by decide)⟩

end Xv6.Pipe
