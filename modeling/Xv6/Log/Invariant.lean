import Xv6.Lib.Tally
import Xv6.Log.Recovery

/-!
# The invariant of the log

Two ghosts go with a state: `W`, the writes of the operations since the last commit, and `H`, the
home blocks as they would be after a crash and recovery.  `track` says how the events of a run move
them: a `log_write` appends to `W`, the commit point installs `W` in `H`, and a crash loses `W`.

In every state, recovery from the disk produces `H` (`Inv.home`).  The rest of the invariant is what
this takes in each phase.

* `Gathering`, up to the commit point: the header on the disk is empty, `log.lh` names the blocks
  of `W`, exactly these are dirty, and the cache shows `W` over `H`.
* `Logging`: moreover, some log blocks have been written.  That they fit into the log is no thanks
  to the checks of `log_write`, which another operation can outrun; there are not enough buffers.
* `Installing`, after the commit point and during recovery: `log.lh` is the header on the disk, and
  some home blocks have been installed.
-/

namespace Xv6.Log

open Lib

/-- The writes of the current transaction, and the home blocks after a crash. -/
abbrev Ghost := List (ℕ × Block) × (ℕ → Block)

def track (g : Ghost) : Event → Ghost
  | .logged _ b d => (g.1 ++ [(b, d)], g.2)
  | .committed _ => ([], install g.1 g.2)
  | .crashed => ([], g.2)
  | _ => g

/-- The process is between `begin_op` and `end_op`. -/
def Pc.inOp : Pc → Bool
  | .op => true
  | .logging _ => true
  | _ => false

section Phases

variable (sb : Superblock) (m : Dev) (lh : List ℕ) (pc : Slot → Pc) (W : List (ℕ × Block))
  (H : ℕ → Block)

/-- The cache is consistent, and recovery produces `H`. -/
structure DiskOk : Prop where
  cache : CacheOk m fun p b => pc p = .logging b
  head : HeadOk sb m.disk
  home : ∀ b, sb.IsHome b → recovered sb m.disk b = H b

/-- A transaction is being gathered; no part of it is on the disk as yet. -/
structure Gathering : Prop where
  empty : m.disk sb.logstart 0 = 0
  nodup : lh.Nodup
  mem : ∀ b, b ∈ lh ↔ b ∈ W.map Prod.fst
  isHome : ∀ b ∈ lh, sb.IsHome b
  dirty : ∀ b, m.isDirty b = true ↔ b ∈ lh
  logger : ∀ p b, pc p = .logging b → sb.IsHome b
  view : ∀ b, sb.IsHome b → (∀ p, pc p ≠ .logging b) → m.view b = install W H b

/-- The first `tail` blocks of the transaction are in the log. -/
structure Logging (tail : ℕ) : Prop where
  gathering : Gathering sb m lh pc W H
  lh_ne : lh ≠ []
  fits : 0 < tail → lh.length < sb.nlog
  log : ∀ k < tail, ∀ b, lh[k]? = some b → m.disk (sb.logstart + k + 1) = install W H b

/-- The first `tail` blocks of the log are installed. -/
structure Installing (tail : ℕ) : Prop where
  readHead_eq : readHead (m.disk sb.logstart) = lh
  dirty : ∀ b, m.isDirty b = true → b ∈ lh.drop tail
  disk : ∀ k < tail, ∀ b, lh[k]? = some b → m.disk b = H b

/-- The log is installed; the header is still on the disk. -/
structure Installed : Prop where
  lh_eq : lh = []
  dirty : ∀ b, m.isDirty b = false
  disk : ∀ b, sb.IsHome b → m.disk b = H b

def CommitPhase : Pc → Prop
  | .writeLog tail => Logging sb m lh pc W H tail
  | .writeHead => Logging sb m lh pc W H lh.length
  | .install tail => W = [] ∧ Installing sb m lh H tail
  | .clearHead => W = [] ∧ Installed sb m lh H
  | .endCommit => W = [] ∧ Gathering sb m lh pc [] H
  | _ => False

end Phases

section Inv

variable (sb : Superblock) (s : State) (g : Ghost)

/-- The system is up: operations are outstanding, or one process commits and all others are
outside. -/
def Up : Prop :=
  s.committing = false ∧ (∀ p, s.pc p = .out ∨ (s.pc p).inOp = true) ∧
      Gathering sb s.dev s.lh s.pc g.1 g.2 ∧ (s.outstanding = 0 → g.1 = []) ∨
    s.committing = true ∧ ∃ p, (∀ q, q ≠ p → s.pc q = .out) ∧
      CommitPhase sb s.dev s.lh s.pc g.1 g.2 (s.pc p)

def Down : Prop := s.committing = false ∧ (∀ p, s.pc p = .out) ∧ g.1 = []

def ModeOk : Mode → Prop
  | .up => Up sb s g
  | .readHead => Down s g ∧ ∀ b, s.dev.isDirty b = false
  | .install tail => Down s g ∧ Installing sb s.dev s.lh g.2 tail
  | .clearHead => Down s g ∧ Installed sb s.dev s.lh g.2

structure Inv : Prop where
  disk : DiskOk sb s.dev s.pc g.2
  count : (s.outstanding : ℤ) = ∑ p, if (s.pc p).inOp then 1 else 0
  mode : ModeOk sb s g s.mode

end Inv

variable {sb : Superblock} {s t : State} {m m' : Dev} {lh : List ℕ} {pc pc' : Slot → Pc}
  {W : List (ℕ × Block)} {H : ℕ → Block} {p : Slot} {v w i : Fin NBUF} {b tail : ℕ} {d : Block}

/-! ## Writes to the disk -/

theorem DiskOk.setPc (h : DiskOk sb m pc H)
    (hpc : ∀ q b, pc' q = .logging b ↔ pc q = .logging b) : DiskOk sb m pc' H := by
  refine ⟨?_, h.head, h.home⟩
  have heq : (fun q b => pc' q = .logging b) = fun q b => pc q = .logging b := by
    funext q b
    exact propext (hpc q b)
  rw [heq]
  exact h.cache

theorem Gathering.setPc (h : Gathering sb m lh pc W H)
    (hpc : ∀ q b, pc' q = .logging b ↔ pc q = .logging b) : Gathering sb m lh pc' W H where
  empty := h.empty
  nodup := h.nodup
  mem := h.mem
  isHome := h.isHome
  dirty := h.dirty
  logger := fun q b hq => h.logger q b ((hpc q b).mp hq)
  view := fun b hb hq => h.view b hb fun q hq' => hq q ((hpc q b).mpr hq')

/-- A write to a block of the log while the header is empty changes nothing for recovery. -/
theorem DiskOk.store_log (h : DiskOk sb m pc H) (hempty : m.disk sb.logstart 0 = 0)
    (hs : Stored m m' (fun p b => pc p = .logging b) (sb.logstart + tail + 1) d)
    (hlt : tail + 1 < sb.nlog) : DiskOk sb m' pc H := by
  have hempty' : m'.disk sb.logstart 0 = 0 := by
    rw [hs.disk, Function.update_of_ne (by omega), hempty]
  refine ⟨hs.ok, headOk_of_empty hempty', fun b hb => ?_⟩
  rw [recovered_of_empty hempty', hs.disk, Function.update_of_ne, ← h.home b hb,
    recovered_of_empty hempty]
  rintro rfl
  exact sb.not_isHome_log hlt hb

theorem Logging.writeLogOne (h : Logging sb m lh pc W H tail) (hd : DiskOk sb m pc H)
    (hpc : ∀ q b, pc q ≠ .logging b) (hb : lh[tail]? = some b)
    (hs : writeLogOne sb p v w tail b m = some m') :
    DiskOk sb m' pc H ∧ Logging sb m' lh pc W H (tail + 1) := by
  obtain ⟨hga, hne, hfits, hlog⟩ := h
  have hst := writeLogOne_spec hd.cache hs
  have hmem : b ∈ lh := List.mem_of_getElem? hb
  have hlen : tail < lh.length := (List.getElem?_eq_some_iff.mp hb).1
  rw [hga.view b (hga.isHome b hmem) fun q => hpc q b] at hst
  -- every block of the transaction has a buffer, and so has the first log block
  have hfits' : lh.length < sb.nlog := by
    rcases Nat.eq_zero_or_pos tail with rfl | htail
    · obtain ⟨i, hi⟩ := hst.cached
      have hlt : 0 + 1 < sb.nlog := lt_of_lt_of_le (by decide) sb.nbuf_le
      have hnot : sb.logstart + 0 + 1 ∉ lh := fun hm => sb.not_isHome_log hlt (hga.isHome _ hm)
      refine lt_of_lt_of_le (length_lt_of_isDirty hga.nodup (fun x hx => ?_) hi hnot) sb.nbuf_le
      have hne : x ≠ sb.logstart + 0 + 1 := by
        rintro rfl
        exact hnot hx
      rw [hst.isDirty, if_neg hne, hga.dirty]
      exact hx
    · exact hfits htail
  have hlt : tail + 1 < sb.nlog := by omega
  have hhome : ∀ x, sb.IsHome x → x ≠ sb.logstart + tail + 1 := by
    rintro x hx rfl
    exact sb.not_isHome_log hlt hx
  refine ⟨hd.store_log hga.empty hst hlt, ⟨?_, hga.nodup, hga.mem, hga.isHome, ?_, hga.logger, ?_⟩,
    hne, fun _ => hfits', ?_⟩
  · rw [hst.disk, Function.update_of_ne (by omega), hga.empty]
  · intro x
    rw [hst.isDirty, ← hga.dirty]
    split_ifs with hx
    · rw [hga.dirty]
      refine ⟨fun hh => ?_, fun hh => absurd hx (hhome x (hga.isHome x hh))⟩
      cases hh
    · exact Iff.rfl
  · intro x hx hq
    rw [hst.view, if_neg (hhome x hx)]
    exact hga.view x hx hq
  · intro k hk x hx
    rw [hst.disk]
    by_cases hkt : k = tail
    · obtain rfl : b = x := by
        rw [hkt, hb] at hx
        exact Option.some.inj hx
      rw [hkt, Function.update_self]
    · rw [Function.update_of_ne (by omega)]
      exact hlog k (by omega) x hx

/-- **The commit point.** -/
theorem Logging.writeHead (h : Logging sb m lh pc W H lh.length) (hd : DiskOk sb m pc H)
    (hs : writeHead sb p v lh m = some m') :
    DiskOk sb m' pc (install W H) ∧ Installing sb m' lh (install W H) 0 := by
  obtain ⟨hga, hne, hfits, hlog⟩ := h
  have hst := writeHead_spec hd.cache hs
  have hhead : m'.disk sb.logstart = headBlock lh (m.view sb.logstart) := by
    rw [hst.disk, Function.update_self]
  have hread : readHead (m'.disk sb.logstart) = lh := by rw [hhead, readHead_headBlock]
  have hlog' : ∀ k b, lh[k]? = some b → m'.disk (sb.logstart + k + 1) = install W H b := by
    intro k b hb
    rw [hst.disk, Function.update_of_ne (by omega)]
    exact hlog k (List.getElem?_eq_some_iff.mp hb).1 b hb
  refine ⟨⟨hst.ok, ⟨?_, ?_, ?_⟩, fun b hb => ?_⟩, hread, fun b hb => ?_, fun k hk => ?_⟩
  · rw [hread]
    exact hga.nodup
  · rw [hread]
    exact hga.isHome
  · rw [hhead]
    exact hfits (List.length_pos_of_ne_nil hne)
  · rw [recovered_of_head hhead hlog']
    split_ifs with hmem
    · rfl
    · -- a block that is not in the transaction stays as it is
      rw [install_of_notMem fun hm => hmem ((hga.mem b).mpr hm), ← hd.home b hb,
        recovered_of_empty hga.empty, hst.disk, Function.update_of_ne]
      rintro rfl
      exact sb.not_isHome_logstart hb
  · rw [hst.isDirty] at hb
    split_ifs at hb
    exact (hga.dirty b).mp hb
  · omega

theorem Installing.installOne (h : Installing sb m lh H tail) (hd : DiskOk sb m pc H)
    (hpc : ∀ q b, pc q ≠ .logging b) (hb : lh[tail]? = some b)
    (hs : installOne sb p v w tail b m = some m') :
    DiskOk sb m' pc H ∧ Installing sb m' lh H (tail + 1) := by
  obtain ⟨hread, hdirty, hdisk⟩ := h
  have hst := installOne_spec hd.cache hs
  have hmem : b ∈ readHead (m.disk sb.logstart) := by
    rw [hread]
    exact List.mem_of_getElem? hb
  have hhome := hd.head.home b hmem
  obtain ⟨hlen, hget⟩ := List.getElem?_eq_some_iff.mp hb
  -- the cached log block is the one on the disk, and recovery writes it to `b`
  have hdata : m.view (sb.logstart + tail + 1) = H b := by
    have hlt : tail + 1 < sb.nlog := by
      have := hd.head.lt
      rw [← length_readHead (m.disk sb.logstart), hread] at this
      omega
    have hclean : m.isDirty (sb.logstart + tail + 1) = false := by
      by_contra hh
      have hx := List.mem_of_mem_drop (hdirty _ (Bool.not_eq_false _ ▸ hh))
      rw [← hread] at hx
      exact sb.not_isHome_log hlt (hd.head.home _ hx)
    rw [hd.cache.view_eq_disk (fun q => hpc q _) hclean, ← hd.home b hhome]
    exact (hd.head.recovered_of_getElem? (by rw [hread]; exact hb)).symm
  rw [hdata] at hst
  have hup := hd.head.recovered_update (d := H b) hmem
  rw [← hst.disk] at hup
  refine ⟨⟨hst.ok, hup.1, fun x hx => ?_⟩, ?_, fun x hx => ?_, fun k hk x hx => ?_⟩
  · rw [hup.2]
    exact hd.home x hx
  · rw [hst.disk, Function.update_of_ne, hread]
    rintro rfl
    exact sb.not_isHome_logstart hhome
  · rw [hst.isDirty] at hx
    split_ifs at hx with hxb
    have := hdirty x hx
    rw [List.drop_eq_getElem_cons hlen, hget] at this
    exact (List.mem_cons.mp this).resolve_left hxb
  · rw [hst.disk]
    by_cases hxb : x = b
    · rw [hxb, Function.update_self]
    · rw [Function.update_of_ne hxb]
      refine hdisk k (lt_of_le_of_ne (Nat.le_of_lt_succ hk) ?_) x hx
      rintro rfl
      rw [hb] at hx
      exact hxb (Option.some.inj hx).symm

theorem Installing.installed (h : Installing sb m lh H tail) (hd : DiskOk sb m pc H)
    (hend : lh[tail]? = none) : Installed sb m [] H := by
  rw [List.getElem?_eq_none_iff] at hend
  refine ⟨rfl, fun b => ?_, fun b hb => ?_⟩
  · by_contra hh
    have := h.dirty b (Bool.not_eq_false _ ▸ hh)
    rw [List.drop_eq_nil_of_le hend] at this
    cases this
  · have hdone : ∀ x ∈ readHead (m.disk sb.logstart), m.disk x = recovered sb m.disk x := by
      intro x hx
      rw [hd.home x (hd.head.home x hx)]
      rw [h.readHead_eq] at hx
      obtain ⟨k, hk, rfl⟩ := List.getElem_of_mem hx
      exact h.disk k (by omega) _ (List.getElem?_eq_getElem hk)
    rw [← hd.home b hb, recovered_eq_disk hdone]

theorem Installed.writeHead (h : Installed sb m lh H) (hd : DiskOk sb m pc H)
    (hpc : ∀ q b, pc q ≠ .logging b) (hs : writeHead sb p v lh m = some m') :
    DiskOk sb m' pc H ∧ Gathering sb m' lh pc [] H := by
  obtain ⟨rfl, hdirty, hdisk⟩ := h
  have hst := writeHead_spec hd.cache hs
  have hempty : m'.disk sb.logstart 0 = 0 := by
    rw [hst.disk, Function.update_self]
    rfl
  have hhome : ∀ b, sb.IsHome b → m'.disk b = H b := by
    intro b hb
    rw [hst.disk, Function.update_of_ne, hdisk b hb]
    rintro rfl
    exact sb.not_isHome_logstart hb
  have hclean : ∀ b, m'.isDirty b = false := by
    intro b
    rw [hst.isDirty, hdirty, ite_self]
  refine ⟨⟨hst.ok, headOk_of_empty hempty, fun b hb => ?_⟩, hempty, List.nodup_nil,
    fun b => Iff.rfl, by simp, fun b => ?_, fun q b hq => absurd hq (hpc q b), fun b hb hq => ?_⟩
  · rw [recovered_of_empty hempty, hhome b hb]
  · rw [hclean]
    simp
  · rw [hst.ok.view_eq_disk hq (hclean b)]
    exact hhome b hb

/-! ## Operations -/

variable {g : Ghost} {e : Event} {x : Pc}

theorem update_ne_logging (pc : Slot → Pc) (p : Slot) (hx : ∀ b, x ≠ .logging b)
    (hp : ∀ b, pc p ≠ .logging b) (q : Slot) (b : ℕ) : Function.update pc p x q = .logging b ↔
      pc q = .logging b := by
  by_cases hq : q = p
  · rw [hq, Function.update_self]
    exact ⟨fun h => absurd h (hx b), fun h => absurd h (hp b)⟩
  · rw [Function.update_of_ne hq]

theorem count_update {n n' : ℕ} (h : (n : ℤ) = ∑ q, if (pc q).inOp then 1 else 0) (x : Pc)
    (hn : (n' : ℤ) = n + ((if x.inOp then 1 else 0) - if (pc p).inOp then 1 else 0)) :
    (n' : ℤ) = ∑ q, if (Function.update pc p x q).inOp then 1 else 0 := by
  have hsum := sum_eq_add_of_eq_off (p := p)
    (f := fun q => if (Function.update pc p x q).inOp then (1 : ℤ) else 0)
    (g := fun q => if (pc q).inOp then 1 else 0) fun q hq => by rw [Function.update_of_ne hq]
  rw [hsum, Function.update_self, ← h, hn]

/-- While operations gather a transaction, `log.committing` is not set. -/
theorem Inv.gathering (h : Inv sb s g) (hup : s.mode = .up) (hp : (s.pc p).inOp = true) :
    s.committing = false ∧ (∀ q, s.pc q = .out ∨ (s.pc q).inOp = true) ∧
      Gathering sb s.dev s.lh s.pc g.1 g.2 := by
  have hm := h.mode
  rw [hup] at hm
  rcases hm with ⟨hc, hq, hga, -⟩ | ⟨-, q, hq, hph⟩
  · exact ⟨hc, hq, hga⟩
  · by_cases hpq : p = q
    · rw [← hpq] at hph
      revert hp hph
      cases s.pc p <;> simp [Pc.inOp, CommitPhase]
    · rw [hq p hpq] at hp
      cases hp

theorem Inv.outstanding_pos (h : Inv sb s g) (hp : (s.pc p).inOp = true) : 0 < s.outstanding := by
  have hle := Finset.single_le_sum (f := fun q => if (s.pc q).inOp then (1 : ℤ) else 0)
    (fun q _ => by split_ifs <;> decide) (Finset.mem_univ p)
  rw [← h.count, if_pos hp] at hle
  omega

/-- If only one operation is outstanding, all others are outside. -/
theorem Inv.out_of_ne (h : Inv sb s g) (hq : ∀ q, s.pc q = .out ∨ (s.pc q).inOp = true)
    (hp : (s.pc p).inOp = true) (hone : s.outstanding - 1 = 0) (q : Slot) (hqp : q ≠ p) :
    s.pc q = .out := by
  refine (hq q).resolve_right fun hin => hqp ?_
  refine eq_of_sum_le_one (f := fun q => if (s.pc q).inOp then (1 : ℤ) else 0)
    (fun q => by split_ifs <;> decide) ?_ ?_ ?_
  · rw [← h.count]
    omega
  · rw [if_pos hin]
    exact zero_lt_one
  · rw [if_pos hp]
    exact zero_lt_one

theorem update_out_or_inOp (hx : x = .out ∨ x.inOp = true)
    (h : ∀ q, pc q = .out ∨ (pc q).inOp = true) (q : Slot) :
    Function.update pc p x q = .out ∨ (Function.update pc p x q).inOp = true := by
  by_cases hq : q = p
  · rw [hq, Function.update_self]
    exact hx
  · rw [Function.update_of_ne hq]
    exact h q

theorem inv_of_gathering (hup : t.mode = .up) (hc : t.committing = false)
    (hdisk : DiskOk sb t.dev t.pc g.2)
    (hcount : (t.outstanding : ℤ) = ∑ p, if (t.pc p).inOp then 1 else 0)
    (hpc : ∀ p, t.pc p = .out ∨ (t.pc p).inOp = true)
    (hga : Gathering sb t.dev t.lh t.pc g.1 g.2) (h0 : t.outstanding = 0 → g.1 = []) :
    Inv sb t g := by
  refine ⟨hdisk, hcount, ?_⟩
  rw [hup]
  exact Or.inl ⟨hc, hpc, hga, h0⟩

theorem Inv.beginOp (h : Inv sb s g) (hup : s.mode = .up) (hs : beginOp p s = some (t, e)) :
    Inv sb t (track g e) := by
  unfold Log.beginOp at hs
  split_ifs at hs with hp hc hlim
  cases hs
  have hpc := update_ne_logging s.pc p (x := .op) (by simp) (by rw [hp]; simp)
  have hm := h.mode
  rw [hup] at hm
  rcases hm with ⟨hc', hq, hga, -⟩ | ⟨hc', -⟩
  · refine inv_of_gathering hup hc' (h.disk.setPc hpc) (count_update h.count .op ?_)
      (update_out_or_inOp (Or.inr rfl) hq) (hga.setPc hpc) (fun h0 =>
        absurd h0 (Nat.succ_ne_zero _))
    rw [hp]
    exact Nat.cast_succ s.outstanding
  · exact absurd hc' hc

theorem Inv.sameView (h : Inv sb s g) (hok : CacheOk m fun p b => s.pc p = .logging b)
    (hdisk : m.disk = s.dev.disk) (hsame : SameView s.dev m) (hup : s.mode = .up) :
    Inv sb { s with dev := m } g := by
  have hga : ∀ {W H}, Gathering sb s.dev s.lh s.pc W H → Gathering sb m s.lh s.pc W H := by
    intro W H hga
    refine ⟨by rw [hdisk]; exact hga.empty, hga.nodup, hga.mem, hga.isHome, fun b => ?_, hga.logger,
      fun b hb hq => ?_⟩
    · rw [hsame.isDirty]
      exact hga.dirty b
    · rw [hsame.view]
      exact hga.view b hb hq
  have hlog : ∀ {W H tail}, Logging sb s.dev s.lh s.pc W H tail →
      Logging sb m s.lh s.pc W H tail := by
    intro W H tail hl
    exact ⟨hga hl.gathering, hl.lh_ne, hl.fits, by rw [hdisk]; exact hl.log⟩
  refine ⟨⟨hok, by rw [hdisk]; exact h.disk.head, by rw [hdisk]; exact h.disk.home⟩, h.count, ?_⟩
  have hm := h.mode
  rw [hup] at hm
  dsimp only
  rw [hup]
  refine hm.imp (fun hh => ⟨hh.1, hh.2.1, hga hh.2.2.1, hh.2.2.2⟩) fun ⟨hc, p, hq, hph⟩ => ?_
  refine ⟨hc, p, hq, ?_⟩
  dsimp only
  revert hph
  cases s.pc p with
  | writeLog tail => exact hlog
  | writeHead => exact hlog
  | install tail =>
    rintro ⟨hW, hi⟩
    exact ⟨hW, by rw [hdisk]; exact hi.readHead_eq,
      fun b hb => hi.dirty b (by rwa [← hsame.isDirty]), by rw [hdisk]; exact hi.disk⟩
  | clearHead =>
    rintro ⟨hW, hi⟩
    exact ⟨hW, hi.lh_eq, fun b => by rw [hsame.isDirty]; exact hi.dirty b,
      by rw [hdisk]; exact hi.disk⟩
  | endCommit => exact fun hh => ⟨hh.1, hga hh.2⟩
  | _ => exact False.elim

theorem Inv.breadStep (h : Inv sb s g) (hup : s.mode = .up)
    (hs : breadStep p b v s = some (t, e)) : Inv sb t (track g e) := by
  unfold Log.breadStep at hs
  split_ifs at hs with hp
  split at hs
  · cases hs
  · rename_i i m hb
    cases hs
    have hf := bread_spec h.disk.cache hb
    exact h.sameView hf.ok hf.disk hf.same hup

theorem Inv.brelseStep (h : Inv sb s g) (hup : s.mode = .up)
    (hs : brelseStep p b s = some (t, e)) : Inv sb t (track g e) := by
  unfold Log.brelseStep at hs
  split_ifs at hs with hp
  split at hs
  · cases hs
  · rename_i i hl
    split_ifs at hs with ho
    cases hs
    have hi := blockno_of_lookup hl
    -- the owner is not changing the block
    have hfree : ∀ q, ¬ s.pc q = .logging b := by
      intro q hq
      obtain ⟨j, hj, hjo⟩ := h.disk.cache.owned hq
      rw [h.disk.cache.inj hj hi, ho] at hjo
      cases hjo
      rw [hq] at hp
      simp at hp
    obtain ⟨hok, hsame⟩ := brelse_spec h.disk.cache hi hfree
    exact h.sameView hok rfl hsame hup

theorem logWrite_eq_some (hs : logWrite sb p b d s = some (t, e)) :
    ∃ i, s.pc p = .op ∧ sb.IsHome b ∧ (s.dev.buf i).blockno = some b ∧
      (s.dev.buf i).owner = some p ∧ 0 < s.outstanding ∧
      t = { s with dev := s.dev.setData i d }.setPc p (.logging b) ∧ e = .none := by
  unfold Log.logWrite at hs
  by_cases hp : s.pc p = .op ∧ sb.IsHome b
  · rw [if_pos hp] at hs
    cases hl : s.dev.lookup b with
    | none =>
      rw [hl] at hs
      cases hs
    | some i =>
      simp only [hl] at hs
      split_ifs at hs with ho hlim hout
      cases hs
      exact ⟨i, hp.1, hp.2, blockno_of_lookup hl, ho, by omega, rfl, rfl⟩
  · rw [if_neg hp] at hs
    cases hs

theorem Gathering.modify (h : Gathering sb m lh pc W H)
    (hm : CacheOk m fun q x => pc q = .logging x) (hi : (m.buf i).blockno = some b)
    (ho : (m.buf i).owner = some p) (hop : pc p = .op) (hhome : sb.IsHome b) (d : Block) :
    (CacheOk (m.setData i d) fun q x => Function.update pc p (.logging b) q = .logging x) ∧
      Gathering sb (m.setData i d) lh (Function.update pc p (.logging b)) W H := by
  have hat : (m.setData i d).buf i = { m.buf i with data := d } := modBuf_self ..
  have hch : ChangeAt m (m.setData i d) i b := changeAt_modBuf hi rfl
  have hself : Function.update pc p (.logging b) p = .logging b := Function.update_self ..
  have hpc : ∀ {q x}, x ≠ b →
      (Function.update pc p (.logging b) q = .logging x ↔ pc q = .logging x) := by
    intro q x hx
    by_cases hqp : q = p
    · rw [hqp, hself, hop, Pc.logging.injEq]
      exact ⟨fun hh => absurd hh.symm hx, nofun⟩
    · rw [Function.update_of_ne hqp]
  have hok : CacheOk (m.setData i d)
      fun q x => Function.update pc p (.logging b) q = .logging x := by
    refine hm.change hch hpc ?_ (fun _ hn => absurd hself (hn p)) fun q hq' => ?_
    · rw [hat]
      exact hm.valid hi
    · rw [hat]
      by_cases hqp : q = p
      · rw [hqp]
        exact ho
      · rw [Function.update_of_ne hqp] at hq'
        obtain ⟨j, hj, hjo⟩ := hm.owned hq'
        rwa [hm.inj hj hi] at hjo
  refine ⟨hok, h.empty, h.nodup, h.mem, h.isHome, fun x => ?_, fun q x hq' => ?_,
    fun x hx hn => ?_⟩
  · rw [hch.isDirty hok, hat, ← h.dirty]
    split_ifs with hx
    · rw [hx, hm.isDirty_of_buf hi]
    · exact Iff.rfl
  · by_cases hxb : x = b
    · rw [hxb]
      exact hhome
    · exact h.logger q x ((hpc hxb).mp hq')
  · have hxb : x ≠ b := by
      rintro rfl
      exact hn p hself
    rw [hch.view hok, if_neg hxb]
    exact h.view x hx fun q hq' => hn q ((hpc hxb).mpr hq')

/-- The block joins the transaction, with the contents that it has got. -/
theorem Gathering.append (h : Gathering sb m lh pc W H)
    (hm : CacheOk m fun q x => pc q = .logging x) (hi : (m.buf i).blockno = some b)
    (hp : pc p = .logging b) : (CacheOk (m.modBuf i fun x => { x with dirty := true })
        fun q x => Function.update pc p .op q = .logging x) ∧
      Gathering sb (m.modBuf i fun x => { x with dirty := true })
        (if b ∈ lh then lh else lh ++ [b]) (Function.update pc p .op)
        (W ++ [(b, (m.buf i).data)]) H := by
  have hat : (m.modBuf i fun x => { x with dirty := true }).buf i =
      { m.buf i with dirty := true } := modBuf_self ..
  have hch : ChangeAt m (m.modBuf i fun x => { x with dirty := true }) i b :=
    changeAt_modBuf hi rfl
  have hself : Function.update pc p .op p = .op := Function.update_self ..
  -- the change of `b` was the one of `p`, who owns the buffer
  have hone : ∀ {q}, pc q = .logging b → q = p := by
    intro q hq
    obtain ⟨j, hj, hjo⟩ := hm.owned hq
    obtain ⟨k, hk, hko⟩ := hm.owned hp
    rw [hm.inj hj hk, hko] at hjo
    exact (Option.some.inj hjo).symm
  have hpc : ∀ {q x}, Function.update pc p .op q = .logging x ↔ pc q = .logging x ∧ x ≠ b := by
    intro q x
    by_cases hqp : q = p
    · rw [hqp, hself, hp, Pc.logging.injEq]
      exact ⟨nofun, fun hh => absurd hh.1.symm hh.2⟩
    · rw [Function.update_of_ne hqp]
      refine ⟨fun hh => ⟨hh, ?_⟩, And.left⟩
      rintro rfl
      exact hqp (hone hh)
  have hok : CacheOk (m.modBuf i fun x => { x with dirty := true })
      fun q x => Function.update pc p .op q = .logging x := by
    refine hm.change hch (fun hx => hpc.trans (and_iff_left hx)) ?_ (fun hd => ?_) fun q hq' => ?_
    · rw [hat]
      exact hm.valid hi
    · rw [hat] at hd
      cases hd
    · exact absurd rfl (hpc.mp hq').2
  have hmem : ∀ x, x ∈ (if b ∈ lh then lh else lh ++ [b]) ↔ x ∈ lh ∨ x = b := by
    intro x
    split_ifs with hb
    · refine ⟨Or.inl, fun hx => hx.elim id ?_⟩
      rintro rfl
      exact hb
    · rw [List.mem_append, List.mem_singleton]
  refine ⟨hok, h.empty, ?_, fun x => ?_, fun x hx => ?_, fun x => ?_, fun q x hq' => ?_,
    fun x hx hn => ?_⟩
  · split_ifs with hb
    · exact h.nodup
    · rw [List.nodup_append]
      refine ⟨h.nodup, List.nodup_singleton b, ?_⟩
      rintro x hx y hy rfl
      exact hb (List.mem_singleton.mp hy ▸ hx)
  · rw [hmem, h.mem, List.map_append, List.mem_append, List.map_singleton, List.mem_singleton]
  · rcases (hmem x).mp hx with hx | rfl
    · exact h.isHome x hx
    · exact h.logger p x hp
  · rw [hch.isDirty hok, hat, hmem, ← h.dirty]
    split_ifs with hx
    · exact ⟨fun _ => Or.inr hx, fun _ => rfl⟩
    · exact ⟨Or.inl, fun hh => hh.resolve_right hx⟩
  · exact h.logger q x (hpc.mp hq').1
  · rw [hch.view hok, hat, install_concat]
    split_ifs with hxb
    · rw [hxb, Function.update_self]
    · rw [Function.update_of_ne hxb]
      exact h.view x hx fun q hq' => hn q (hpc.mpr ⟨hq', hxb⟩)

theorem Inv.logWrite (h : Inv sb s g) (hup : s.mode = .up)
    (hs : logWrite sb p b d s = some (t, e)) : Inv sb t (track g e) := by
  obtain ⟨i, hop, hhome, hi, ho, hout, rfl, rfl⟩ := logWrite_eq_some hs
  obtain ⟨hc, hq, hga⟩ := h.gathering (p := p) hup (by rw [hop]; rfl)
  obtain ⟨hok, hga'⟩ := hga.modify h.disk.cache hi ho hop hhome d
  refine inv_of_gathering hup hc ⟨hok, h.disk.head, h.disk.home⟩
    (count_update h.count (.logging b) ?_) (update_out_or_inOp (Or.inr rfl) hq) hga'
    fun h0 => absurd h0 hout.ne'
  rw [hop]
  exact (add_zero _).symm

theorem Inv.logAppend (h : Inv sb s g) (hup : s.mode = .up)
    (hs : logAppend p s = some (t, e)) : Inv sb t (track g e) := by
  unfold Log.logAppend at hs
  split at hs
  · rename_i b hp
    split at hs
    · cases hs
    · rename_i i hl
      cases hs
      obtain ⟨hc, hq, hga⟩ := h.gathering (p := p) hup (by rw [hp]; rfl)
      obtain ⟨hok, hga'⟩ := hga.append h.disk.cache (blockno_of_lookup hl) hp
      refine inv_of_gathering hup hc ⟨hok, h.disk.head, h.disk.home⟩
        (count_update h.count .op ?_) (update_out_or_inOp (Or.inr rfl) hq) hga' fun h0 => ?_
      · rw [hp]
        exact (add_zero _).symm
      · exact absurd h0 (h.outstanding_pos (p := p) (by rw [hp]; rfl)).ne'
  · cases hs

/-! ## The end of an operation, and `commit` -/

theorem inv_of_commit (hup : t.mode = .up) (hc : t.committing = true)
    (hdisk : DiskOk sb t.dev t.pc g.2)
    (hcount : (t.outstanding : ℤ) = ∑ p, if (t.pc p).inOp then 1 else 0)
    (hpc : ∀ q, q ≠ p → t.pc q = .out) (hph : CommitPhase sb t.dev t.lh t.pc g.1 g.2 (t.pc p)) :
    Inv sb t g := by
  refine ⟨hdisk, hcount, ?_⟩
  rw [hup]
  exact Or.inr ⟨hc, p, hpc, hph⟩

theorem update_out_of_ne (h : ∀ q, q ≠ p → pc q = .out) (q : Slot) (hq : q ≠ p) :
    Function.update pc p x q = .out := by
  rw [Function.update_of_ne hq]
  exact h q hq

/-- The last outstanding operation starts the commit, at the program point `x`. -/
theorem Inv.startCommit (h : Inv sb s g) (hup : s.mode = .up) (hp : s.pc p = .op)
    (hone : s.outstanding - 1 = 0) (hx : x.inOp = false)
    (hph : Gathering sb s.dev s.lh (Function.update s.pc p x) g.1 g.2 →
      CommitPhase sb s.dev s.lh (Function.update s.pc p x) g.1 g.2 x) :
    Inv sb ({ s with outstanding := s.outstanding - 1, committing := true }.setPc p x) g := by
  have hin : (s.pc p).inOp = true := by
    rw [hp]
    rfl
  obtain ⟨-, hq, hga⟩ := h.gathering hup hin
  have hpos := h.outstanding_pos hin
  have hx' : ∀ b, x ≠ .logging b := by
    rintro b rfl
    cases hx
  have hpc := update_ne_logging s.pc p hx' (by rw [hp]; simp)
  refine inv_of_commit (p := p) hup rfl (h.disk.setPc hpc) (count_update h.count x ?_)
    (update_out_of_ne (h.out_of_ne hq hin hone)) ?_
  · rw [hx, hin]
    change ((s.outstanding - 1 : ℕ) : ℤ) = _
    simp
    omega
  · have hself : ({ s with outstanding := s.outstanding - 1, committing := true }.setPc p x).pc p =
        x := Function.update_self ..
    rw [hself]
    exact hph (hga.setPc hpc)

theorem Inv.endOp (h : Inv sb s g) (hup : s.mode = .up) (hs : endOp p s = some (t, e)) :
    Inv sb t (track g e) := by
  unfold Log.endOp at hs
  split_ifs at hs with hp hc hone hlen
  · -- there is something to commit
    cases hs
    refine h.startCommit hup hp hone rfl fun hga => ⟨hga, List.ne_nil_of_length_pos hlen, ?_, ?_⟩
    · exact fun h0 => absurd h0 (lt_irrefl 0)
    · exact fun k hk => absurd hk (Nat.not_lt_zero k)
  · -- nothing has been written
    cases hs
    refine h.startCommit hup hp hone rfl fun hga => ?_
    have hW : g.1 = [] := by
      rw [← List.map_eq_nil_iff (f := Prod.fst), List.eq_nil_iff_forall_not_mem]
      intro b hb
      exact hlen (List.length_pos_of_mem ((hga.mem b).mpr hb))
    have hga' := hga
    rw [hW] at hga'
    exact ⟨hW, hga'⟩
  · -- other operations are outstanding
    cases hs
    have hin : (s.pc p).inOp = true := by
      rw [hp]
      rfl
    obtain ⟨hc', hq, hga⟩ := h.gathering hup hin
    have hpos := h.outstanding_pos hin
    have hpc := update_ne_logging s.pc p (x := .out) (by simp) (by rw [hp]; simp)
    refine inv_of_gathering hup hc' (h.disk.setPc hpc) (count_update h.count .out ?_)
      (update_out_or_inOp (Or.inl rfl) hq) (hga.setPc hpc) fun h0 => absurd h0 hone
    rw [hin]
    change ((s.outstanding - 1 : ℕ) : ℤ) = _
    simp [Pc.inOp]
    omega

/-- Every step of `commit` finds the system in the phase that its program point says. -/
theorem Inv.commit (h : Inv sb s g) (hup : s.mode = .up) (hp : (s.pc p).inOp = false)
    (hout : s.pc p ≠ .out) : s.committing = true ∧ (∀ q, q ≠ p → s.pc q = .out) ∧
      CommitPhase sb s.dev s.lh s.pc g.1 g.2 (s.pc p) := by
  have hm := h.mode
  rw [hup] at hm
  rcases hm with ⟨-, hq, -⟩ | ⟨hc, r, hr, hph⟩
  · rcases hq p with h' | h'
    · exact absurd h' hout
    · rw [hp] at h'
      cases h'
  · by_cases hpr : p = r
    · rw [← hpr] at hr hph
      exact ⟨hc, hr, hph⟩
    · exact absurd (hr p hpr) hout

theorem CommitPhase.setPc (h : CommitPhase sb m lh pc W H x)
    (hpc : ∀ q b, pc' q = .logging b ↔ pc q = .logging b) : CommitPhase sb m lh pc' W H x := by
  have hlog : ∀ {tail}, Logging sb m lh pc W H tail → Logging sb m lh pc' W H tail :=
    fun hl => ⟨hl.gathering.setPc hpc, hl.lh_ne, hl.fits, hl.log⟩
  revert h
  cases x with
  | writeLog tail => exact hlog
  | writeHead => exact hlog
  | install tail => exact id
  | clearHead => exact id
  | endCommit => exact fun h => ⟨h.1, h.2.setPc hpc⟩
  | _ => exact id

/-- A step of the process that commits, to the program point `x`. -/
theorem Inv.commitTo (h : Inv sb s g) (hup : s.mode = .up) (hp : (s.pc p).inOp = false)
    (hout : s.pc p ≠ .out) (hx : x.inOp = false) {g' : Ghost}
    (hph : CommitPhase sb s.dev s.lh s.pc g.1 g.2 (s.pc p) → (∀ q b, s.pc q ≠ .logging b) →
      DiskOk sb m s.pc g'.2 ∧ CommitPhase sb m lh s.pc g'.1 g'.2 x) :
    Inv sb ({ s with dev := m, lh := lh }.setPc p x) g' := by
  obtain ⟨hc, hq, hph'⟩ := h.commit hup hp hout
  have hnp : ∀ b, s.pc p ≠ .logging b := by
    intro b hb
    rw [hb] at hp
    cases hp
  have hn : ∀ q b, s.pc q ≠ .logging b := by
    intro q b hb
    by_cases hqp : q = p
    · exact hnp b (hqp ▸ hb)
    · rw [hq q hqp] at hb
      cases hb
  obtain ⟨hd, hx'⟩ := hph hph' hn
  have hnx : ∀ b, x ≠ .logging b := by
    rintro b rfl
    cases hx
  have hpc := update_ne_logging s.pc p hnx hnp
  refine inv_of_commit (p := p) hup hc (hd.setPc hpc) (count_update h.count x ?_)
    (update_out_of_ne hq) ?_
  · rw [hx, hp]
    exact (add_zero _).symm
  · have hself : ({ s with dev := m, lh := lh }.setPc p x).pc p = x := Function.update_self ..
    rw [hself]
    exact hx'.setPc hpc

theorem Phase.inOp {dev m : Dev} {lh lh' : List ℕ} {y : Pc}
    (h : Phase sb p v w dev lh x m lh' y e) : x.inOp = false ∧ x ≠ .out ∧ y.inOp = false := by
  cases h <;> exact ⟨rfl, nofun, rfl⟩

/-- What the steps of `commit` do to the disk. -/
theorem CommitPhase.next {y : Pc} (hph : CommitPhase sb m lh pc g.1 g.2 x)
    (hd : DiskOk sb m pc g.2) (hn : ∀ q b, pc q ≠ .logging b) {lh' : List ℕ}
    (h : Phase sb p v w m lh x m' lh' y e) :
    DiskOk sb m' pc (track g e).2 ∧ CommitPhase sb m' lh' pc (track g e).1 (track g e).2 y := by
  cases h with
  | writeLog hb hm => exact Logging.writeLogOne hph hd hn hb hm
  | logWritten hend =>
    rw [List.getElem?_eq_none_iff] at hend
    obtain ⟨hga, hne, hfits, hlog⟩ := hph
    exact ⟨hd, hga, hne, fun h0 => hfits (by omega), fun k hk => hlog k (by omega)⟩
  | writeHead hm =>
    obtain ⟨hd', hi⟩ := Logging.writeHead hph hd hm
    exact ⟨hd', rfl, hi⟩
  | install hb hm =>
    obtain ⟨hd', hi⟩ := Installing.installOne hph.2 hd hn hb hm
    exact ⟨hd', hph.1, hi⟩
  | installed hend => exact ⟨hd, hph.1, hph.2.installed hd hend⟩
  | clearHead hm =>
    obtain ⟨hd', hga⟩ := Installed.writeHead hph.2 hd hn hm
    exact ⟨hd', hph.1, hga⟩

theorem Inv.commits (h : Inv sb s g) (hup : s.mode = .up) (hs : Commits sb p v w s t e) :
    Inv sb t (track g e) := by
  cases hs with
  | phase hp hs =>
    obtain ⟨hin, hout, hx⟩ := hs.inOp
    rw [← hp] at hin hout hs
    exact h.commitTo hup hin hout hx fun hph hn => hph.next h.disk hn hs
  | done hp =>
    obtain ⟨hc, hq, hph⟩ := h.commit hup (p := p) (by rw [hp]; rfl) (by rw [hp]; simp)
    rw [hp] at hph
    have hpc := update_ne_logging s.pc p (x := .out) (by simp) (by rw [hp]; simp)
    have hga := hph.2.setPc hpc
    rw [← hph.1] at hga
    refine inv_of_gathering hup rfl (h.disk.setPc hpc) (count_update h.count .out ?_) (fun q => ?_)
      hga fun _ => hph.1
    · rw [hp]
      exact (add_zero _).symm
    · refine Or.inl ?_
      by_cases hqp : q = p
      · rw [hqp]
        exact Function.update_self ..
      · exact update_out_of_ne hq q hqp

/-! ## Crashes and recovery -/

/-- A disk with a sound header can be booted from. -/
theorem inv_reboot {disk : ℕ → Block} (hhead : HeadOk sb disk)
    (hhome : ∀ b, sb.IsHome b → recovered sb disk b = H b) :
    Inv sb (State.reboot disk) ([], H) := by
  have heq : (fun (p : Slot) (b : ℕ) => (State.reboot disk).pc p = .logging b) =
      fun _ _ => False := by
    funext p b
    exact eq_false nofun
  refine ⟨⟨?_, hhead, hhome⟩, ?_, ⟨rfl, fun _ => rfl, rfl⟩, fun b => ?_⟩
  · rw [heq]
    exact cacheOk_empty disk
  · exact (Finset.sum_eq_zero fun p _ => rfl).symm
  · exact isDirty_of_not_cached nofun

theorem Inv.recoverStep (h : Inv sb s g) (hs : recoverStep sb p v w s = some (t, e)) :
    Inv sb t (track g e) := by
  have hm := h.mode
  have hn : ∀ {s : State}, Down s g → ∀ q b, s.pc q ≠ .logging b := by
    intro s hdown q b hq
    rw [hdown.2.1 q] at hq
    cases hq
  unfold Log.recoverStep at hs
  split at hs
  · -- `read_head`
    rename_i hmode
    rw [hmode] at hm
    obtain ⟨⟨i, m⟩, hb, heq⟩ := Option.map_eq_some_iff.mp hs
    cases heq
    have hf := bread_spec h.disk.cache hb
    obtain ⟨hok, hsame⟩ := brelse_spec hf.ok hf.blockno hf.free
    have hdisk : (brelse i m).disk = s.dev.disk := hf.disk
    have hdata : (m.buf i).data = s.dev.disk sb.logstart := by
      rw [hf.data, h.disk.cache.view_eq_disk hf.free (hm.2 _)]
    refine ⟨⟨hok, by rw [hdisk]; exact h.disk.head, by rw [hdisk]; exact h.disk.home⟩, h.count,
      hm.1, ?_, fun b hb => ?_, fun k hk => absurd hk (Nat.not_lt_zero k)⟩
    · dsimp only
      rw [hdisk, hdata]
    · rw [hsame.isDirty, hf.same.isDirty, hm.2 b] at hb
      cases hb
  · rename_i tail hmode
    rw [hmode] at hm
    split at hs
    · rename_i b hb
      obtain ⟨m, hs', heq⟩ := Option.map_eq_some_iff.mp hs
      cases heq
      obtain ⟨hd, hi⟩ := hm.2.installOne h.disk (hn hm.1) hb hs'
      exact ⟨hd, h.count, hm.1, hi⟩
    · rename_i hend
      cases hs
      exact ⟨h.disk, h.count, hm.1, hm.2.installed h.disk hend⟩
  · -- the system comes up
    rename_i hmode
    rw [hmode] at hm
    obtain ⟨m, hs', heq⟩ := Option.map_eq_some_iff.mp hs
    cases heq
    obtain ⟨hd, hga⟩ := hm.2.writeHead h.disk (hn hm.1) hs'
    rw [← hm.1.2.2] at hga
    exact inv_of_gathering rfl hm.1.1 hd h.count (fun q => Or.inl (hm.1.2.1 q)) hga
      fun _ => hm.1.2.2
  · cases hs

/-- **Every step keeps the invariant.** -/
theorem Inv.step (h : Inv sb s g) {a : Label} (hs : step sb s a = some (t, e)) :
    Inv sb t (track g e) := by
  cases a with
  | crash =>
    cases hs
    -- what is in memory is lost, and recovery still produces the same
    exact inv_reboot h.disk.head h.disk.home
  | recover p v w => exact h.recoverStep hs
  | beginOp p =>
    simp only [Log.step] at hs
    split_ifs at hs with hup
    exact h.beginOp hup hs
  | bread p b v =>
    simp only [Log.step] at hs
    split_ifs at hs with hup
    exact h.breadStep hup hs
  | logWrite p b d =>
    simp only [Log.step] at hs
    split_ifs at hs with hup
    exact h.logWrite hup hs
  | logAppend p =>
    simp only [Log.step] at hs
    split_ifs at hs with hup
    exact h.logAppend hup hs
  | brelse p b =>
    simp only [Log.step] at hs
    split_ifs at hs with hup
    exact h.brelseStep hup hs
  | endOp p =>
    simp only [Log.step] at hs
    split_ifs at hs with hup
    exact h.endOp hup hs
  | commit p v w =>
    simp only [Log.step] at hs
    split_ifs at hs with hup
    exact h.commits hup (commitStep_commits hs)

/-- The invariant holds in every run, with the ghosts that its events say. -/
theorem inv_exec (h : Inv sb s g) {as : List Label} {es : List Event}
    (hs : exec (step sb) s as = some (t, es)) : Inv sb t (es.foldl track g) := by
  refine exec_induction (P := fun _ t es => Inv sb t (es.foldl track g)) h ?_ hs
  intro as s es a t e _ ih hs
  rw [List.foldl_append]
  exact ih.step hs

end Xv6.Log
