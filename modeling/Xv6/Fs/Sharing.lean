import Xv6.Fs.Filewrite

/-!
# Processes that share a descriptor

After `dup` or `fork` several descriptors refer to one file structure, and with it to one offset.
`filewrite` reads the offset and moves it while it holds the lock of the inode.  Here the loop of
`filewrite` is cut at every point at which another process can run: between two of `begin_op`,
`ilock`, `writei`, the addition to the offset, `iunlock` and `end_op`.  Any number of processes are
in the loop, each at its own point (`Writers`), and any of them moves next.

The invariant `Shared` follows the pieces that have been written.  The bytes of the file are the old
ones with all the pieces spliced in at the old offset, one behind the other, and the offset is
behind the last of them, or still before it while the process that wrote it has not moved it.  The
lock of the inode makes sure that there is at most one such process (`Writers.holding`).
-/

namespace Xv6.Fs
namespace Sharing

open Lib

/-! ## The loop of `filewrite` in sections -/

/-- The points of the loop of `filewrite` between two sections; `r` is the result of `writei`. -/
inductive Pc
  | top
  | begun
  | locked
  | written (r : ℤ)
  | moved (r : ℤ)
  | unlocked (r : ℤ)
  deriving DecidableEq

/-- A process in `filewrite`: the point at which it is, the bytes from `addr + i` on, and `n`. -/
structure Writer where
  pc : Pc
  left : List UInt8
  n : ℕ

/-- The processes that write through the file structure. -/
structure Writers where
  fs : State
  writer : Slot → Option Writer

inductive Label
  /-- the process calls `filewrite` with these bytes -/
  | call (p : Slot) (l : List UInt8)
  /-- the process goes on to the next point -/
  | go (p : Slot)
  /-- another process does something to the file system, which is `s` then -/
  | other (s : State)

inductive Event
  | quiet
  /-- the process has entered the loop -/
  | enter (p : Slot) (l : List UInt8)
  /-- the process has the lock of the inode -/
  | lock (p : Slot)
  /-- `writei` of the bytes has returned `r` -/
  | write (p : Slot) (l : List UInt8) (r : ℤ)
  | ret (p : Slot) (r : ℤ)
  deriving DecidableEq

def Writers.perform {α : Type} (w : Writers) (p : Slot) (m : Op α) (next : α → Option Writer)
    (e : α → Event) : Option (Writers × Event) :=
  match m w.fs with
  | .ok (a, s) => some (⟨s, upd w.writer p (next a)⟩, e a)
  | .error _ => none

/-- The next section of a process in the loop. -/
def go (f : Fin NFILE) (w : Writers) (p : Slot) (x : Writer) : Option (Writers × Event) :=
  let ff := w.fs.file f
  let n1 := min x.left.length maxWrite
  match x.pc with
  | .top =>
    if x.left = [] then some ({ w with writer := upd w.writer p none }, .ret p x.n)
    else w.perform p beginOp (fun _ => some { x with pc := .begun }) fun _ => .quiet
  | .begun => w.perform p (ilock ff.ip) (fun _ => some { x with pc := .locked }) fun _ => .lock p
  | .locked =>
    w.perform p (writei ff.ip (fun k => x.left.getD k 0) ff.off (UInt32.ofNat n1))
      (fun r => some { x with pc := .written r }) fun r => .write p (x.left.take n1) r
  | .written r =>
    w.perform p (setFile f fun g => { g with off := g.off + UInt32.ofNat r.toNat })
      (fun _ => some { x with pc := .moved r }) fun _ => .quiet
  | .moved r =>
    w.perform p (iunlock ff.ip) (fun _ => some { x with pc := .unlocked r }) fun _ => .quiet
  | .unlocked r =>
    if r < 0 then w.perform p endOp (fun _ => none) fun _ => .ret p (-1)
    else if r ≠ n1 then none
    else w.perform p endOp (fun _ => some { x with pc := .top, left := x.left.drop n1 })
      fun _ => .quiet

def step (f : Fin NFILE) (w : Writers) : Label → Option (Writers × Event)
  | .call p l =>
    match w.writer p with
    | some _ => none
    | none =>
      if !(w.fs.file f).writable then some (w, .ret p (-1))
      else
        match (w.fs.file f).type with
        | .none => none
        | .inode =>
          some ({ w with writer := upd w.writer p (some ⟨.top, l, l.length⟩) }, .enter p l)
  | .go p =>
    match w.writer p with
    | none => none
    | some x => go f w p x
  | .other s => some ({ w with fs := s }, .quiet)

theorem perform_eq_some_iff {α : Type} {w w' : Writers} {p : Slot} {m : Op α}
    {next : α → Option Writer} {e : α → Event} {e' : Event} :
    w.perform p m next e = some (w', e') ↔
      ∃ a s, m w.fs = .ok (a, s) ∧ w' = ⟨s, upd w.writer p (next a)⟩ ∧ e' = e a := by
  rw [Writers.perform]
  cases m w.fs with
  | error err =>
    constructor
    · intro h
      cases h
    · rintro ⟨a, s, h, -⟩
      cases h
  | ok x =>
    obtain ⟨a, s⟩ := x
    constructor
    · intro h
      cases h
      exact ⟨a, s, rfl, rfl, rfl⟩
    · rintro ⟨a', s', h, rfl, rfl⟩
      cases h
      rfl

/-! ## What a run has written -/

/-- The piece that an event has written. -/
def Event.chunk : Event → Option (Slot × List UInt8)
  | .write p l _ => some (p, l)
  | _ => none

/-- The process that has taken the lock. -/
def Event.taker : Event → Option Slot
  | .lock p => some p
  | _ => none

/-- What the process `p` has asked to be written. -/
def Event.asks (p : Slot) : Event → List UInt8
  | .enter q l => if q = p then l else []
  | _ => []

/-- The pieces that have been written, in order. -/
def chunks (es : List Event) : List (Slot × List UInt8) := es.filterMap Event.chunk

/-- The processes that have taken the lock, in order. -/
def takers (es : List Event) : List Slot := es.filterMap Event.taker

/-- The bytes that the process has passed to `filewrite`, in the order of its calls. -/
def asked (p : Slot) (es : List Event) : List UInt8 := es.flatMap (Event.asks p)

def bytes (cs : List (Slot × List UInt8)) : List UInt8 := cs.flatMap Prod.snd

def piecesOf (p : Slot) (cs : List (Slot × List UInt8)) : List (Slot × List UInt8) :=
  cs.filter fun c => c.1 = p

/-- A process at this point has begun a transaction and not ended it. -/
def Pc.inTrans : Pc → Bool
  | .top => false
  | _ => true

/-- A process at this point has the lock of the inode. -/
def Pc.holds : Pc → Bool
  | .locked => true
  | .written _ => true
  | .moved _ => true
  | _ => false

/-- The result of `writei`, from there on. -/
def Pc.result : Pc → Option ℤ
  | .written r => some r
  | .moved r => some r
  | .unlocked r => some r
  | _ => none

/-- The bytes that have been written, while the offset has not been moved behind them. -/
def Pc.lag : Pc → ℕ
  | .written r => r.toNat
  | _ => 0

def opens : Option Writer → ℕ
  | none => 0
  | some x => if x.pc.inTrans then 1 else 0

def holds : Option Writer → ℕ
  | none => 0
  | some x => if x.pc.holds then 1 else 0

/-- How far the offset lags behind because of this process. -/
def lags : Option Writer → ℕ
  | none => 0
  | some x => x.pc.lag

/-- The bytes that the process has not written yet. -/
def rest : Option Writer → List UInt8
  | none => []
  | some x => if x.pc.result.isSome then x.left.drop maxWrite else x.left

namespace Writers

/-- The number of transactions that are open. -/
def opened (w : Writers) : ℕ := ∑ p, opens (w.writer p)

/-- The number of processes that hold the lock of the inode. -/
def holding (w : Writers) : ℕ := ∑ p, holds (w.writer p)

/-- How far the offset is behind the bytes that have been written. -/
def lag (w : Writers) : ℕ := ∑ p, lags (w.writer p)

/-- Nobody is between `ilock` and `iunlock`. -/
def Outside (w : Writers) : Prop := ∀ p x, w.writer p = some x → x.pc.holds = false

end Writers

/-- What others may do: they do not write to the inode, they leave the offset alone, they do not
release a lock that they do not hold, end a transaction that they have not begun, or drop a
reference that is not theirs, and the file system is in order when they are done. -/
structure Spared (f : Fin NFILE) (w : Writers) (s : State) : Prop where
  sound : Sound s
  ip : (s.file f).ip = (w.fs.file f).ip
  off : (s.file f).off = (w.fs.file f).off
  inum : (s.inode (w.fs.file f).ip).inum = (w.fs.inode (w.fs.file f).ip).inum
  node : s.abs.node (w.fs.inode (w.fs.file f).ip).inum =
    w.fs.abs.node (w.fs.inode (w.fs.file f).ip).inum
  ref : 0 < (s.inode (w.fs.file f).ip).ref
  valid : (w.fs.inode (w.fs.file f).ip).valid = true → (s.inode (w.fs.file f).ip).valid = true
  lock : w.holding ≤ if (s.inode (w.fs.file f).ip).locked then 1 else 0
  trans : w.opened ≤ s.outstanding

/-- The lock has been taken once for each piece, by the process that wrote it, and once more by a
process that has not written yet. -/
def Ordered (w : Writers) (es : List Event) : Prop :=
  (∃ p x, w.writer p = some x ∧ x.pc = .locked ∧
    takers es = (chunks es).map Prod.fst ++ [p]) ∨
  ((∀ p x, w.writer p = some x → x.pc ≠ .locked) ∧ takers es = (chunks es).map Prod.fst)

/-- **The invariant.**  At the start the inode had the node `nd` and the offset was `off`. -/
structure Shared (f : Fin NFILE) (ip : Icache) (i : ℕ) (nd : Node) (off : ℕ) (w : Writers)
    (es : List Event) : Prop where
  sound : Sound w.fs
  place : (w.fs.file f).ip = ip
  inum : (w.fs.inode ip).inum = i
  ref : 0 < (w.fs.inode ip).ref
  trans : w.opened ≤ w.fs.outstanding
  lock : w.holding ≤ if (w.fs.inode ip).locked then 1 else 0
  valid : ∀ p x, w.writer p = some x → x.pc.holds = true → (w.fs.inode ip).valid = true
  node : w.fs.abs.node i = some { nd with data := splice nd.data off (bytes (chunks es)) }
  offset : (w.fs.file f).off.toNat + w.lag = off + (bytes (chunks es)).length
  fits : chunks es = [] ∨
    off ≤ nd.data.length ∧ off + (bytes (chunks es)).length ≤ MAXFILE * BSIZE
  result : ∀ p x r, w.writer p = some x → x.pc.result = some r →
    r = (min x.left.length maxWrite : ℕ) ∧ chunks es ≠ []
  ordered : Ordered w es
  own : ∀ p, asked p es = bytes (piecesOf p (chunks es)) ++ rest (w.writer p)

section Lists

variable {es : List Event} {e : Event} {p q : Slot} {l : List UInt8}

theorem chunks_concat (es : List Event) (e : Event) :
    chunks (es ++ [e]) = chunks es ++ e.chunk.toList := by
  rw [chunks, List.filterMap_append, List.filterMap_cons, List.filterMap_nil]
  cases e.chunk <;> rfl

theorem takers_concat (es : List Event) (e : Event) :
    takers (es ++ [e]) = takers es ++ e.taker.toList := by
  rw [takers, List.filterMap_append, List.filterMap_cons, List.filterMap_nil]
  cases e.taker <;> rfl

theorem asked_concat (p : Slot) (es : List Event) (e : Event) :
    asked p (es ++ [e]) = asked p es ++ e.asks p := by
  rw [asked, List.flatMap_append, List.flatMap_singleton]
  rfl

theorem chunks_of_none (es : List Event) (he : e.chunk = none) :
    chunks (es ++ [e]) = chunks es := by
  rw [chunks_concat, he]
  exact List.append_nil _

theorem takers_of_none (es : List Event) (he : e.taker = none) :
    takers (es ++ [e]) = takers es := by
  rw [takers_concat, he]
  exact List.append_nil _

theorem bytes_append (cs cs' : List (Slot × List UInt8)) :
    bytes (cs ++ cs') = bytes cs ++ bytes cs' :=
  List.flatMap_append

theorem piecesOf_append (p : Slot) (cs cs' : List (Slot × List UInt8)) :
    piecesOf p (cs ++ cs') = piecesOf p cs ++ piecesOf p cs' := List.filter_append _ _

end Lists

/-! ## One step -/

section Sums

variable {w : Writers} {p q : Slot} {x y : Writer} {o : Option Writer} {s : State}

theorem opened_upd : (Writers.mk s (upd w.writer p o)).opened + opens (w.writer p) =
    w.opened + opens o := sum_upd opens w.writer p o

theorem holding_upd : (Writers.mk s (upd w.writer p o)).holding + holds (w.writer p) =
    w.holding + holds o := sum_upd holds w.writer p o

theorem lag_upd : (Writers.mk s (upd w.writer p o)).lag + lags (w.writer p) = w.lag + lags o :=
  sum_upd lags w.writer p o

theorem holds_of_holds (hx : w.writer p = some x) (hpc : x.pc.holds = true) :
    holds (w.writer p) = 1 := by
  rw [hx, holds, if_pos hpc]

theorem le_sum_writer (F : Option Writer → ℕ) (w : Writers) (p : Slot) :
    F (w.writer p) ≤ ∑ q, F (w.writer q) :=
  Finset.single_le_sum (f := fun q => F (w.writer q)) (fun _ _ => Nat.zero_le _) (Finset.mem_univ p)

theorem holding_pos (hx : w.writer p = some x) (hpc : x.pc.holds = true) : 0 < w.holding := by
  have hle : holds (w.writer p) ≤ w.holding := le_sum_writer holds w p
  rw [holds_of_holds hx hpc] at hle
  exact hle

theorem opened_pos (hx : w.writer p = some x) (hpc : x.pc.inTrans = true) : 0 < w.opened := by
  have hle : opens (w.writer p) ≤ w.opened := le_sum_writer opens w p
  rw [hx, opens, if_pos hpc] at hle
  exact hle

/-- **The lock of the inode has one holder.** -/
theorem eq_of_holds (h : w.holding ≤ 1) (hx : w.writer p = some x) (hpc : x.pc.holds = true)
    (hy : w.writer q = some y) (hpc' : y.pc.holds = true) : q = p := by
  by_contra hne
  have hle := Finset.add_le_sum (f := fun p => holds (w.writer p)) (fun _ _ => Nat.zero_le _)
    (Finset.mem_univ q) (Finset.mem_univ p) hne
  rw [holds_of_holds hx hpc, holds_of_holds hy hpc'] at hle
  exact absurd (hle.trans h) (by decide)

/-- Only the holder of the lock makes the offset lag behind. -/
theorem lag_eq_zero (h : w.holding ≤ 1) (hx : w.writer p = some x) (hpc : x.pc = .locked) :
    w.lag = 0 := by
  have hholds : x.pc.holds = true := by
    rw [hpc]
    rfl
  refine Finset.sum_eq_zero fun q _ => ?_
  cases hy : w.writer q with
  | none => rfl
  | some y =>
    obtain ⟨pc, left, n⟩ := y
    cases pc with
    | written r =>
      have hq := eq_of_holds h hx hholds hy rfl
      rw [hq, hx] at hy
      rw [Option.some.inj hy] at hpc
      cases hpc
    | _ => rfl

end Sums

section Step

variable {f : Fin NFILE} {ip : Icache} {i : ℕ} {nd : Node} {off n : ℕ} {w w' : Writers}
  {es : List Event}
  {e : Event} {p : Slot} {x : Writer} {o : Option Writer} {s : State}

theorem upd_writer_cases {q : Slot} {y : Writer} (hy : upd w.writer p o q = some y) :
    (q = p ∧ o = some y) ∨ (q ≠ p ∧ w.writer q = some y) := by
  by_cases hq : q = p
  · rw [hq, upd_self] at hy
    exact Or.inl ⟨hq, hy⟩
  · rw [upd_of_ne hq] at hy
    exact Or.inr ⟨hq, hy⟩

/-- One process moves, and its section leads to `s`. -/
theorem Shared.move (h : Shared f ip i nd off w es) (hsound : Sound s) (hplace : (s.file f).ip = ip)
    (hinum : (s.inode ip).inum = i) (href : 0 < (s.inode ip).ref)
    (htrans : w.fs.outstanding + opens o ≤ s.outstanding + opens (w.writer p))
    (hlock : (if (w.fs.inode ip).locked then 1 else 0) + holds o ≤
      (if (s.inode ip).locked then 1 else 0) + holds (w.writer p))
    (hvalid : (w.fs.inode ip).valid = true → (s.inode ip).valid = true)
    (hvalid' : ∀ y, o = some y → y.pc.holds = true → (s.inode ip).valid = true)
    (hnode : s.abs.node i =
      some { nd with data := splice nd.data off (bytes (chunks (es ++ [e]))) })
    (hoff : (s.file f).off.toNat + lags o + (bytes (chunks es)).length =
      (w.fs.file f).off.toNat + lags (w.writer p) + (bytes (chunks (es ++ [e]))).length)
    (hfits : chunks (es ++ [e]) = [] ∨
      off ≤ nd.data.length ∧ off + (bytes (chunks (es ++ [e]))).length ≤ MAXFILE * BSIZE)
    (hresult : ∀ y r, o = some y → y.pc.result = some r →
      r = (min y.left.length maxWrite : ℕ) ∧ chunks (es ++ [e]) ≠ [])
    (hordered : Ordered ⟨s, upd w.writer p o⟩ (es ++ [e]))
    (hown : asked p (es ++ [e]) = bytes (piecesOf p (chunks (es ++ [e]))) ++ rest o)
    (hothers : ∀ q, q ≠ p → e.asks q = [] ∧ piecesOf q e.chunk.toList = []) :
    Shared f ip i nd off ⟨s, upd w.writer p o⟩ (es ++ [e]) where
  sound := hsound
  place := hplace
  inum := hinum
  ref := href
  trans := by
    have hsum := opened_upd (w := w) (p := p) (o := o) (s := s)
    have hle := h.trans
    show _ ≤ s.outstanding
    omega
  lock := by
    have hsum := holding_upd (w := w) (p := p) (o := o) (s := s)
    have hle := h.lock
    show _ ≤ if (s.inode ip).locked then 1 else 0
    omega
  valid := by
    intro q y hy hpc
    rcases upd_writer_cases hy with ⟨-, hy⟩ | ⟨-, hy⟩
    · exact hvalid' y hy hpc
    · exact hvalid (h.valid q y hy hpc)
  node := hnode
  offset := by
    have hsum := lag_upd (w := w) (p := p) (o := o) (s := s)
    have heq := h.offset
    show (s.file f).off.toNat + _ = _
    omega
  fits := hfits
  result := by
    intro q y r hy hr
    rcases upd_writer_cases hy with ⟨-, hy⟩ | ⟨-, hy⟩
    · exact hresult y r hy hr
    · obtain ⟨hval, hne⟩ := h.result q y r hy hr
      refine ⟨hval, fun hnil => hne ?_⟩
      rw [chunks_concat] at hnil
      exact (List.append_eq_nil_iff.mp hnil).1
  ordered := hordered
  own := by
    intro q
    show _ = _ ++ rest (upd w.writer p o q)
    by_cases hq : q = p
    · rw [hq, upd_self]
      exact hown
    · obtain ⟨hasks, hpieces⟩ := hothers q hq
      rw [upd_of_ne hq, asked_concat, chunks_concat, hasks, List.append_nil,
        piecesOf_append, hpieces,
        List.append_nil]
      exact h.own q

/-- The event is neither a piece, nor the lock, nor a call. -/
def Event.Silent (e : Event) : Prop := e.chunk = none ∧ e.taker = none ∧ ∀ q, e.asks q = []

theorem Ordered.silent (h : Ordered w es) (hchunk : e.chunk = none) (htaker : e.taker = none)
    (hold : ∀ y, w.writer p = some y → y.pc ≠ .locked) (hnew : ∀ y, o = some y → y.pc ≠ .locked) :
    Ordered ⟨s, upd w.writer p o⟩ (es ++ [e]) := by
  rw [Ordered, takers_of_none es htaker, chunks_of_none es hchunk]
  refine h.imp ?_ (And.imp_left ?_)
  · rintro ⟨q, y, hy, hpc, heq⟩
    have hq : q ≠ p := by
      rintro rfl
      exact hold y hy hpc
    exact ⟨q, y, (upd_of_ne hq).trans hy, hpc, heq⟩
  · intro hnone q y hy
    rcases upd_writer_cases hy with ⟨-, hy⟩ | ⟨-, hy⟩
    · exact hnew y hy
    · exact hnone q y hy

variable (h : Shared f ip i nd off w es)

include h

theorem Shared.quiet (he : e.Silent) (hx : w.writer p = some x)
    (hsound : Sound s) (hplace : (s.file f).ip = ip) (hinum : (s.inode ip).inum = i)
    (href : 0 < (s.inode ip).ref)
    (htrans : w.fs.outstanding + opens o ≤ s.outstanding + opens (some x))
    (hlock : (if (w.fs.inode ip).locked then 1 else 0) + holds o ≤
      (if (s.inode ip).locked then 1 else 0) + holds (some x))
    (hvalid : (w.fs.inode ip).valid = true → (s.inode ip).valid = true)
    (hnode : s.abs.node i = w.fs.abs.node i)
    (hoff : (s.file f).off.toNat + lags o = (w.fs.file f).off.toNat + lags (some x))
    (hold : x.pc ≠ .locked) (hrest : rest o = rest (some x))
    (hnew : ∀ y, o = some y → y.pc ≠ .locked ∧ (y.pc.holds = true → x.pc.holds = true) ∧
      ∀ r, y.pc.result = some r → x.pc.result = some r ∧ y.left = x.left) :
    Shared f ip i nd off ⟨s, upd w.writer p o⟩ (es ++ [e]) := by
  have hchunks := chunks_of_none es he.1
  refine h.move hsound hplace hinum href ?_ ?_ hvalid ?_ ?_ ?_ ?_ ?_
    (h.ordered.silent he.1 he.2.1 (fun y hy => ?_) fun y hy => (hnew y hy).1) ?_ fun q _ =>
      ⟨he.2.2 q, by rw [he.1]; rfl⟩
  · rwa [hx]
  · rwa [hx]
  · exact fun y hy hpc => hvalid (h.valid p x hx ((hnew y hy).2.1 hpc))
  · rw [hchunks, hnode]
    exact h.node
  · rw [hchunks, hx, hoff]
  · rw [hchunks]
    exact h.fits
  · intro y r hy hr
    obtain ⟨hr', hleft⟩ := (hnew y hy).2.2 r hr
    rw [hchunks, hleft]
    exact h.result p x r hx hr'
  · rwa [← Option.some.inj (hx.symm.trans hy)]
  · rw [hchunks, asked_concat, he.2.2, List.append_nil, hrest, ← hx]
    exact h.own p

theorem Spared.refl : Spared f w w.fs where
  sound := h.sound
  ip := rfl
  off := rfl
  inum := rfl
  node := rfl
  ref := by
    rw [h.place]
    exact h.ref
  valid := id
  lock := by
    rw [h.place]
    exact h.lock
  trans := h.trans

theorem Shared.spared (he : e.Silent) (hs : Spared f w s) :
    Shared f ip i nd off { w with fs := s } (es ++ [e]) := by
  obtain ⟨hsound, hip, hoff, hinum, hnode, href, hvalid, hlock, htrans⟩ := hs
  rw [h.place] at hip hinum hnode href hvalid hlock
  rw [h.inum] at hinum hnode
  have hchunks := chunks_of_none es he.1
  refine ⟨hsound, hip, hinum, href, htrans, hlock, fun q y hy hpc =>
    hvalid (h.valid q y hy hpc), ?_, ?_,
    ?_, ?_, ?_, fun q => ?_⟩
  · rw [hchunks, hnode]
    exact h.node
  · rw [hchunks, hoff]
    exact h.offset
  · rw [hchunks]
    exact h.fits
  · rw [hchunks]
    exact h.result
  · rw [Ordered, hchunks, takers_of_none es he.2.1]
    exact h.ordered
  · rw [hchunks, asked_concat, he.2.2, List.append_nil]
    exact h.own q

theorem Shared.enter (hp : w.writer p = none) (l : List UInt8) (n : ℕ) :
    Shared f ip i nd off ⟨w.fs, upd w.writer p (some ⟨.top, l, n⟩)⟩ (es ++ [.enter p l]) := by
  have hchunks : chunks (es ++ [.enter p l]) = chunks es := chunks_of_none es rfl
  have hnew : ∀ y, some (⟨.top, l, n⟩ : Writer) = some y → y.pc = .top := by
    rintro y hy
    rw [← Option.some.inj hy]
  refine h.move h.sound h.place h.inum h.ref ?_ ?_ id ?_ ?_ ?_ ?_ ?_
    (h.ordered.silent rfl rfl ?_ ?_) ?_ ?_
  · rw [hp]
    exact le_rfl
  · rw [hp]
    exact le_rfl
  · intro y hy hpc
    rw [hnew y hy] at hpc
    cases hpc
  · rw [hchunks]
    exact h.node
  · rw [hchunks, hp]
    rfl
  · rw [hchunks]
    exact h.fits
  · intro y r hy hr
    rw [hnew y hy] at hr
    cases hr
  · intro y hy
    rw [hp] at hy
    cases hy
  · intro y hy hpc
    rw [hnew y hy] at hpc
    cases hpc
  · have hown := h.own p
    rw [hp, rest, List.append_nil] at hown
    rw [asked_concat, hchunks, hown, Event.asks, if_pos rfl]
    rfl
  · intro q hq
    exact ⟨if_neg (Ne.symm hq), rfl⟩

theorem Shared.holding_le_one : w.holding ≤ 1 := by
  refine h.lock.trans ?_
  split_ifs
  · exact le_rfl
  · exact Nat.zero_le _

theorem Shared.take {l : List UInt8}
    (hx : w.writer p = some ⟨.begun, l, n⟩) (hs : ilock ip w.fs = .ok ((), s)) :
    Shared f ip i nd off ⟨s, upd w.writer p (some ⟨.locked, l, n⟩)⟩ (es ++ [.lock p]) := by
  have hcached : Cached w.fs fun ip => (w.fs.inode ip).ref := ⟨h.sound, fun _ => rfl⟩
  have hnode0 : w.fs.abs.node (w.fs.abs.tag ip).inum =
      some { nd with data := splice nd.data off (bytes (chunks es)) } := by
    rw [show (w.fs.abs.tag ip).inum = i from h.inum]
    exact h.node
  obtain ⟨hcached', hk, hh, hfree, hlocked⟩ := (ilock_node hcached h.ref hnode0).ok hs
  have hfile : s.file = w.fs.file := hk.file
  have hinum : (s.inode ip).inum = i := (hk.inum ip h.ref).trans h.inum
  have hchunks : chunks (es ++ [.lock p]) = chunks es := chunks_of_none es rfl
  -- nobody held the lock
  have hnone : ∀ q y, w.writer q = some y → y.pc.holds = false := by
    intro q y hy
    by_contra hpc
    have hpos := holding_pos hy (Bool.not_eq_false _ ▸ hpc)
    have hle := h.lock
    rw [hfree] at hle
    exact absurd (hpos.trans_le hle) (by decide)
  refine h.move hcached'.sound (by rw [hfile, h.place]) hinum ?_ ?_ ?_ (hk.valid ip h.ref)
    (fun _ _ _ => hh.valid) ?_ ?_ ?_ ?_ ?_ ?_ ?_
  · rw [hcached'.ref ip]
    exact h.ref
  · rw [hx, show s.outstanding = w.fs.outstanding from hk.outstanding]
    exact le_rfl
  · rw [hx, hfree, hlocked]
    exact le_rfl
  · rw [hchunks, ← h.node, ← h.inum]
    exact hk.node ip h.ref
  · rw [hchunks, hx, hfile]
    rfl
  · rw [hchunks]
    exact h.fits
  · intro y r hy hr
    rw [← Option.some.inj hy] at hr
    cases hr
  · refine Or.inl ⟨p, _, upd_self, rfl, ?_⟩
    rcases h.ordered with ⟨q, y, hy, hpc, -⟩ | ⟨-, heq⟩
    · have hq := hnone q y hy
      rw [hpc] at hq
      cases hq
    · rw [hchunks, takers_concat, heq]
      rfl
  · have hown := h.own p
    rw [hx] at hown
    rw [asked_concat, hchunks, hown]
    exact List.append_nil _
  · exact fun q _ => ⟨rfl, rfl⟩

theorem Shared.write (ht : nd.type ≠ T_DEV) {l : List UInt8}
    (hx : w.writer p = some ⟨.locked, l, n⟩) {r : ℤ} (hr : 0 ≤ r)
    (hs : writei ip (fun k => l.getD k 0) (w.fs.file f).off
      (UInt32.ofNat (min l.length maxWrite)) w.fs =
      .ok (r, s)) :
    Shared f ip i nd off ⟨s, upd w.writer p (some ⟨.written r, l, n⟩)⟩
      (es ++ [.write p (l.take (min l.length maxWrite)) r]) := by
  obtain ⟨b, hb⟩ : ∃ b, b = l.take (min l.length maxWrite) := ⟨_, rfl⟩
  have hlen : b.length = min l.length maxWrite := by
    rw [hb]
    exact List.length_take_of_le (Nat.min_le_left _ _)
  have hchunks : chunks (es ++ [.write p b r]) = chunks es ++ [(p, b)] := chunks_concat _ _
  have hbytes : bytes (chunks (es ++ [.write p b r])) = bytes (chunks es) ++ b := by
    rw [hchunks, bytes_append]
    exact congrArg _ (List.append_nil b)
  have hone := h.holding_le_one
  have hoff := h.offset
  rw [lag_eq_zero hone hx rfl, Nat.add_zero] at hoff
  have hout : 1 ≤ w.fs.outstanding := (opened_pos hx rfl).trans_le h.trans
  have hheld : Held w.fs.abs ip i { nd with data := splice nd.data off (bytes (chunks es)) } :=
    ⟨h.inum, h.ref, h.valid p _ hx rfl, h.node⟩
  have hwrite := (hheld.writei h.sound hout ht _ _ _).ok hs
  rw [toNat_ofNat_min, slice_getD (Nat.min_le_left _ _), ← hb, writeData_eq_ite, hoff,
    hlen] at hwrite
  rw [← hb]
  split_ifs at hwrite with hfull
  · obtain ⟨rfl, -⟩ := hwrite
    exact absurd hr (by decide)
  obtain ⟨rfl, hsound, habs⟩ := hwrite
  rw [not_or, Nat.not_lt, Nat.not_lt] at hfull
  have hstart : off ≤ nd.data.length := by
    rcases h.fits with hnil | ⟨hle, -⟩
    · have hfirst := hfull.1
      rw [hnil] at hfirst
      change off + 0 ≤ (splice nd.data off []).length at hfirst
      rwa [splice_nil] at hfirst
    · exact hle
  rw [splice_append hstart] at habs
  have hfile : s.file = w.fs.file := congrArg Abs.file habs
  have htag : ∀ iq, (s.inode iq).tag = (w.fs.inode iq).tag := congrFun (congrArg Abs.tag habs)
  have hlocked : (s.inode ip).locked = (w.fs.inode ip).locked := congrArg Tag.locked (htag ip)
  have hvalid : (s.inode ip).valid = (w.fs.inode ip).valid := congrArg Tag.valid (htag ip)
  have hrest : ∀ q y, w.writer q = some y → y.pc = .locked → q = p := fun q y hy hpc =>
    eq_of_holds hone hx rfl hy (by rw [hpc]; rfl)
  refine h.move hsound (by rw [hfile, h.place])
    ((congrArg Tag.inum (htag ip)).trans h.inum) ?_ ?_ ?_ ?_
    ?_ ?_ ?_ ?_ ?_ ?_ ?_ ?_
  · exact h.ref.trans_eq (congrArg Tag.ref (htag ip)).symm
  · rw [hx, show s.outstanding = w.fs.outstanding from congrArg Abs.outstanding habs]
    exact le_rfl
  · rw [hx, hlocked]
    exact le_rfl
  · rw [hvalid]
    exact id
  · intro y _ _
    rw [hvalid]
    exact hheld.valid
  · rw [habs, Abs.putNode_self, hbytes]
  · rw [hfile, hbytes, hx, List.length_append, hlen]
    show _ + Int.toNat (min l.length maxWrite : ℕ) + _ = _ + 0 + _
    rw [Int.toNat_natCast]
    omega
  · refine Or.inr ⟨hstart, ?_⟩
    rw [hbytes, List.length_append, hlen, ← Nat.add_assoc]
    exact hfull.2
  · intro y r' hy hr'
    rw [← Option.some.inj hy] at hr' ⊢
    refine ⟨(Option.some.inj hr').symm, ?_⟩
    rw [hchunks]
    exact List.append_ne_nil_of_right_ne_nil _ (List.cons_ne_nil _ _)
  · refine Or.inr ⟨fun q y hy hpc => ?_, ?_⟩
    · rcases upd_writer_cases hy with ⟨-, hy⟩ | ⟨hq, hy⟩
      · rw [← Option.some.inj hy] at hpc
        cases hpc
      · exact hq (hrest q y hy hpc)
    · rcases h.ordered with ⟨q, y, hy, hpc, heq⟩ | ⟨hnone, -⟩
      · rw [hrest q y hy hpc] at heq
        rw [takers_concat, hchunks, List.map_append, heq]
        exact List.append_nil _
      · exact absurd rfl (hnone p _ hx)
  · have hown := h.own p
    rw [hx] at hown
    have hleft : l = b ++ l.drop maxWrite := by
      rw [hb, ← drop_min_length, List.take_append_drop]
    have hpiece : bytes (piecesOf p (chunks (es ++ [.write p b (min l.length maxWrite : ℕ)]))) =
        bytes (piecesOf p (chunks es)) ++ b := by
      have hself : piecesOf p [(p, b)] = [(p, b)] := List.filter_cons_of_pos (by simp)
      rw [hchunks, piecesOf_append, bytes_append, hself]
      exact congrArg _ (List.append_nil b)
    rw [asked_concat, hpiece, hown]
    show (_ ++ l) ++ [] = (_ ++ b) ++ l.drop maxWrite
    rw [List.append_nil, List.append_assoc, ← hleft]
  · intro q hq
    refine ⟨rfl, List.filter_cons_of_neg ?_⟩
    simpa using Ne.symm hq

theorem Shared.step (ht : nd.type ≠ T_DEV) {a : Label}
    (ha : ∀ s, a = .other s → Spared f w s) (hs : Sharing.step f w a = some (w', e))
    (hok : ∀ q l r, e = .write q l r → 0 ≤ r) : Shared f ip i nd off w' (es ++ [e]) := by
  have hcached : Cached w.fs fun ip => (w.fs.inode ip).ref := ⟨h.sound, fun _ => rfl⟩
  cases a with
  | other s =>
    cases hs
    exact h.spared ⟨rfl, rfl, fun _ => rfl⟩ (ha s rfl)
  | call p l =>
    rw [Sharing.step] at hs
    cases hp : w.writer p with
    | some x =>
      rw [hp] at hs
      cases hs
    | none =>
      simp only [hp] at hs
      split_ifs at hs
      · cases hs
        exact h.spared ⟨rfl, rfl, fun _ => rfl⟩ (.refl h)
      · split at hs
        · cases hs
        · cases hs
          exact h.enter hp l l.length
  | go p =>
    rw [Sharing.step] at hs
    cases hx : w.writer p with
    | none =>
      rw [hx] at hs
      cases hs
    | some x =>
      simp only [hx] at hs
      obtain ⟨pc, l, n⟩ := x
      rw [go] at hs
      dsimp only at hs
      cases pc with
      | top =>
        dsimp only at hs
        split_ifs at hs with hnil
        · cases hs
          exact h.quiet ⟨rfl, rfl, fun _ => rfl⟩ hx h.sound h.place h.inum h.ref le_rfl
            le_rfl id rfl rfl
            (by rintro ⟨⟩) (by rw [hnil]; rfl) (by rintro _ ⟨⟩)
        · obtain ⟨_, s, hm, rfl, rfl⟩ := perform_eq_some_iff.mp hs
          cases hm
          refine h.quiet ⟨rfl, rfl, fun _ => rfl⟩ hx hcached.begin.sound h.place h.inum
            h.ref le_rfl le_rfl
            id rfl rfl (by rintro ⟨⟩) rfl ?_
          rintro _ ⟨⟩
          exact ⟨by rintro ⟨⟩, by rintro ⟨⟩, by rintro _ ⟨⟩⟩
      | begun =>
        obtain ⟨_, s, hm, rfl, rfl⟩ := perform_eq_some_iff.mp hs
        rw [h.place] at hm
        exact h.take hx hm
      | locked =>
        obtain ⟨r, s, hm, rfl, rfl⟩ := perform_eq_some_iff.mp hs
        rw [h.place] at hm
        exact h.write ht hx (hok _ _ _ rfl) hm
      | written r =>
        obtain ⟨_, s, hm, rfl, rfl⟩ := perform_eq_some_iff.mp hs
        cases hm
        refine h.quiet ⟨rfl, rfl, fun _ => rfl⟩ hx
          ⟨h.sound.disk, h.sound.inum, h.sound.inj, h.sound.copy, h.sound.unlocked⟩
            ?_ h.inum h.ref le_rfl
          le_rfl id rfl ?_ (by rintro ⟨⟩) rfl ?_
        · show (upd w.fs.file f _ f).ip = ip
          rw [upd_self]
          exact h.place
        · obtain ⟨hval, hne⟩ := h.result p _ r hx rfl
          dsimp only at hval
          have hfits := (h.fits.resolve_left hne).2
          have hlag : r.toNat ≤ w.lag := by
            have hle : lags (w.writer p) ≤ w.lag := le_sum_writer lags w p
            rwa [hx] at hle
          rw [hval, Int.toNat_natCast] at hlag
          have hoff := h.offset
          show (upd w.fs.file f _ f).off.toNat + 0 = (w.fs.file f).off.toNat + r.toNat
          rw [upd_self, Nat.add_zero, hval, Int.toNat_natCast]
          exact toNat_off_add (by omega)
        · rintro _ ⟨⟩
          exact ⟨by rintro ⟨⟩, fun _ => rfl, fun _ hr => ⟨hr, rfl⟩⟩
      | moved r =>
        obtain ⟨_, s, hm, rfl, rfl⟩ := perform_eq_some_iff.mp hs
        rw [h.place] at hm
        obtain ⟨hcached', hk⟩ := (iunlock_spec hcached h.ref).ok hm
        have hfile : s.file = w.fs.file := hk.file
        refine h.quiet ⟨rfl, rfl, fun _ => rfl⟩ hx hcached'.sound (by rw [hfile, h.place])
          ((hk.inum ip h.ref).trans h.inum) ?_ ?_ ?_ (hk.valid ip h.ref) ?_ ?_ (by rintro ⟨⟩) rfl ?_
        · rw [hcached'.ref ip]
          exact h.ref
        · rw [show s.outstanding = w.fs.outstanding from hk.outstanding]
          exact le_rfl
        · show _ + 0 ≤ _ + 1
          split_ifs <;> omega
        · rw [← h.inum]
          exact hk.node ip h.ref
        · rw [hfile]
          rfl
        · rintro _ ⟨⟩
          exact ⟨by rintro ⟨⟩, by rintro ⟨⟩, fun _ hr => ⟨hr, rfl⟩⟩
      | unlocked r =>
        obtain ⟨hval, -⟩ := h.result p _ r hx rfl
        dsimp only at hs hval
        rw [if_neg (by omega), if_neg (by rw [hval]; simp)] at hs
        obtain ⟨_, s, hm, rfl, rfl⟩ := perform_eq_some_iff.mp hs
        cases hm
        refine h.quiet ⟨rfl, rfl, fun _ => rfl⟩ hx hcached.commit.sound h.place h.inum h.ref
          ?_ le_rfl id rfl
          rfl (by rintro ⟨⟩) (drop_min_length l maxWrite) ?_
        · show w.fs.outstanding + 0 ≤ w.fs.outstanding - 1 + 1
          omega
        · rintro _ ⟨⟩
          exact ⟨by rintro ⟨⟩, by rintro ⟨⟩, by rintro _ ⟨⟩⟩

end Step

/-! ## Runs -/

section Runs

variable {f : Fin NFILE} {i : ℕ} {nd : Node} {w : Writers} {es : List Event} {s : State}
  {bs : List Label}

/-- The others spare the file, whenever they move. -/
def Undisturbed (f : Fin NFILE) (w : Writers) (a : Label) : Prop := ∀ s, a = .other s → Spared f w s

theorem Shared.start (h : Rest s) (ho : OpenOn s f i nd) :
    Shared f (s.file f).ip i nd (s.file f).off.toNat ⟨s, fun _ => none⟩ [] where
  sound := h.tables.cached.sound
  place := rfl
  inum := ho.inum
  ref := (holders_ip_pos ho.type).trans_eq (h.tables.cached.ref _).symm
  trans := (Finset.sum_eq_zero fun _ _ => rfl).trans_le (Nat.zero_le _)
  lock := (Finset.sum_eq_zero fun _ _ => rfl).trans_le (Nat.zero_le _)
  valid := nofun
  node := ho.node.trans (by rw [show bytes (chunks []) = [] from rfl, splice_nil])
  offset := congrArg (_ + ·) (Finset.sum_eq_zero fun _ _ => rfl)
  fits := Or.inl rfl
  result := nofun
  ordered := Or.inr ⟨nofun, rfl⟩
  own := fun _ => rfl

/-- **The invariant holds along every run** in which no piece is refused. -/
theorem shared_of_exec (h : Rest s) (ho : OpenOn s f i nd) (ht : nd.type ≠ T_DEV)
    (hothers : StepsMeet (step f) (Undisturbed f) ⟨s, fun _ => none⟩ bs)
    (hexec : Lib.exec (step f) ⟨s, fun _ => none⟩ bs = some (w, es))
    (hok : ∀ q l r, Event.write q l r ∈ es → 0 ≤ r) :
    Shared f (s.file f).ip i nd (s.file f).off.toNat w es := by
  refine exec_induction (P := fun bs w es => StepsMeet (step f) (Undisturbed f)
    ⟨s, fun _ => none⟩ bs →
    (∀ q l r, Event.write q l r ∈ es → 0 ≤ r) →
    Shared f (s.file f).ip i nd (s.file f).off.toNat w es) ?_ ?_ hexec hothers hok
  · exact fun _ _ => .start h ho
  · intro bs w es a w' e hrun ih hs hmeet hok
    refine (ih hmeet.of_concat fun q l r hmem => hok q l r (List.mem_append_left _ hmem)).step ht
      (hmeet.last hrun) hs fun q l r he => hok q l r ?_
    rw [he]
    exact List.mem_append_right _ (List.mem_singleton_self _)

theorem Writers.Outside.lag_eq_zero (h : w.Outside) : w.lag = 0 := by
  refine Finset.sum_eq_zero fun p _ => ?_
  cases hx : w.writer p with
  | none => rfl
  | some x =>
    obtain ⟨pc, l, n⟩ := x
    have hpc := h p _ hx
    cases pc with
    | written r => cases hpc
    | _ => rfl

theorem take_drop_splice {l a b c : List UInt8} {off : ℕ} (h : off ≤ l.length) :
    ((splice l off (a ++ (b ++ c))).drop (off + a.length)).take b.length = b := by
  have hlen : (l.take off ++ a).length = off + a.length := by
    rw [List.length_append, List.length_take_of_le h]
  have hsplit : splice l off (a ++ (b ++ c)) =
      (l.take off ++ a) ++ (b ++ (c ++ l.drop (off + (a ++ (b ++ c)).length))) := by
    rw [splice]
    simp only [List.append_assoc]
  rw [hsplit, List.drop_left' hlen, List.take_left]

/-- **Writers that share a descriptor never overwrite each other.**  From any state that a machine
reaches after it has booted, any number of processes call `filewrite` on one file structure, any
number of times, and move in any order.  If no piece is refused and nobody is between `ilock` and
`iunlock`, the offset has moved by the bytes of all the pieces, and the file holds the pieces at the
old offset, one behind the other, in the order in which the lock was taken.  The pieces of a process
are what it has asked for, in its own order, up to what it has not written yet. -/
theorem appended_of_exec {disk : Disk} {devsw : ℕ → Devsw} {q : Slot} (h : Image disk) {s0 : State}
    (hboot : userinit q (init disk devsw) = .ok ((), s0)) {as : List (Slot × Call)}
    {rs : List Reply} (hrun : Lib.exec Fs.step s0 as = some (s, rs)) (ho : OpenOn s f i nd)
    (ht : nd.type = T_FILE) {bs : List Label}
    (hothers : StepsMeet (step f) (Undisturbed f) ⟨s, fun _ => none⟩ bs)
    (hexec : Lib.exec (step f) ⟨s, fun _ => none⟩ bs = some (w, es))
    (hok : ∀ q l r, Event.write q l r ∈ es → 0 ≤ r) (hout : w.Outside) :
    (w.fs.file f).off.toNat = (s.file f).off.toNat + (bytes (chunks es)).length ∧
    contents w.fs i = splice (contents s i) (s.file f).off.toNat (bytes (chunks es)) ∧
    (∀ cs p b cs', chunks es = cs ++ (p, b) :: cs' →
      ((contents w.fs i).drop ((s.file f).off.toNat + (bytes cs).length)).take b.length = b) ∧
    takers es = (chunks es).map Prod.fst ∧
    ∀ p, asked p es = bytes (piecesOf p (chunks es)) ++ rest (w.writer p) := by
  have hdev : nd.type ≠ T_DEV := by
    rw [ht]
    decide
  have hsh := shared_of_exec (rest_of_exec h hboot hrun) ho hdev hothers hexec hok
  have hdata : contents w.fs i = splice nd.data (s.file f).off.toNat (bytes (chunks es)) := by
    rw [contents, hsh.node]
  have hoff := hsh.offset
  rw [hout.lag_eq_zero, Nat.add_zero] at hoff
  refine ⟨hoff, by rw [hdata, ho.contents_eq], fun cs p b cs' hcs => ?_, ?_, hsh.own⟩
  · have hne : chunks es ≠ [] := by
      rw [hcs]
      exact List.append_ne_nil_of_right_ne_nil _ (List.cons_ne_nil _ _)
    have hbytes : bytes (chunks es) = bytes cs ++ (b ++ bytes cs') := by
      rw [hcs, bytes_append]
      rfl
    rw [hdata, hbytes]
    exact take_drop_splice (hsh.fits.resolve_left hne).1
  · rcases hsh.ordered with ⟨p, x, hx, hpc, -⟩ | ⟨-, heq⟩
    · have hholds := hout p x hx
      rw [hpc] at hholds
      cases hholds
    · exact heq

theorem undisturbed_of_forall {w0 : Writers} (h : ∀ a ∈ bs, ∀ s, a ≠ .other s) :
    StepsMeet (step f) (Undisturbed f) w0 bs := by
  intro as1 a as2 t es has _ s hs
  refine absurd hs (h a ?_ s)
  rw [has]
  exact List.mem_append_right _ List.mem_cons_self

def child : Slot := 1

/-- Two processes write through the file at the same time: both have begun a transaction before the
first takes the lock. -/
def twoWriters : List Label :=
  [.call initproc [1, 2], .call child [3], .go initproc, .go child, .go child, .go child, .go child,
    .go child, .go initproc, .go child, .go initproc, .go initproc, .go initproc, .go child]

def twoEvents : List Event :=
  [.enter initproc [1, 2], .enter child [3], .quiet, .quiet, .lock child,
    .write child [3] 1, .quiet,
    .quiet, .lock initproc, .quiet, .write initproc [1, 2] 2, .quiet, .quiet, .ret child 1]

theorem appended_of_twoWriters : ∃ s0 s rs w, boot (rootDisk 0x1F) = .ok ((), s0) ∧
      Lib.exec Fs.step s0 [(initproc, .open [slash, 102] (O_CREATE ||| O_RDWR))] = some (s, rs) ∧
      Lib.exec (step firstFile) ⟨s, fun _ => none⟩ twoWriters = some (w, twoEvents) ∧
      contents w.fs 2 = splice (contents s 2) (s.file firstFile).off.toNat [3, 1, 2] := by
  have hcompute : (ran (rootDisk 0x1F) [(initproc, .open [slash, 102] (O_CREATE ||| O_RDWR))]).bind
      (fun x => (Lib.exec (step firstFile) ⟨x.1, fun _ => none⟩ twoWriters).map fun y =>
        (decide ((x.1.file firstFile).type = .inode ∧
          (x.1.inode (x.1.file firstFile).ip).inum = 2 ∧
            (x.1.inode (x.1.file firstFile).ip).ref = 1 ∧
          (x.1.inode (x.1.file firstFile).ip).valid = true ∧
          (x.1.inode (x.1.file firstFile).ip).din.type = T_FILE),
        decide (∀ p, holds (y.1.writer p) = 0), y.2)) = some (true, true, twoEvents) := by
    decide +kernel
  obtain ⟨s0, s, rs, hboot, hopen, hy⟩ := exists_run_bind hcompute
  obtain ⟨⟨w, es⟩, hexec, hy⟩ := Option.map_eq_some_iff.mp hy
  simp only [Prod.mk.injEq, decide_eq_true_eq] at hy
  obtain ⟨⟨htype, hinum, href, hv, ht⟩, hholds, rfl⟩ := hy
  have hsound := (rest_of_exec rootDisk_image hboot hopen).tables.cached.sound
  have ho := OpenOn.of_valid hsound htype hinum (by rw [href]; decide) hv
  have hout : w.Outside := by
    intro p x hx
    have hzero := hholds p
    rw [hx, holds] at hzero
    by_contra hpc
    rw [if_pos (Bool.not_eq_false _ ▸ hpc)] at hzero
    cases hzero
  have hothers : StepsMeet (step firstFile) (Undisturbed firstFile) ⟨s, fun _ => none⟩ twoWriters :=
    undisturbed_of_forall (by simp [twoWriters])
  have hok : ∀ q l r, Event.write q l r ∈ twoEvents → 0 ≤ r := by
    intro q l r hmem
    simp [twoEvents] at hmem
    omega
  exact ⟨s0, s, rs, w, hboot, hopen, hexec,
    (appended_of_exec rootDisk_image hboot hopen ho ht hothers hexec hok hout).2.1⟩

end Runs

end Sharing
end Xv6.Fs
