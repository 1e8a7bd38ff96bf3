import Xv6.Bcache.Machine
import Xv6.Lib.Tally

/-!
# The buffer cache is a plain block store

The invariant that carries the refinement relates a state of the cache to the contents `store` of
the blocks, as their users see them.

* The links are a circle of all buffers, and no two buffers have the same block.
* The reference count of a buffer is the number of processes that wait for it, hold its sleep lock,
  or are about to put it.  So what `bget` recycles is nobody's.
* A valid buffer has the contents of its block.  The disk has them as well, unless a buffer of the
  block is dirty; so what is not in the cache can be read from the disk.
* A request in the queue is that of the process that holds the sleep lock, and the process waits for
  it.  So nobody changes a buffer while the disk is at it, and a process that is out of `bread` with
  the lock held has a valid buffer.
-/

namespace Xv6.Bcache

open Lib

variable {P : Type}

def Pc.Waits : Pc → Prop
  | .reading _ => True
  | .writing _ => True
  | _ => False

/-- The references that a process has to the buffer `i` besides its sleep lock. -/
def Pc.refs (i : BufId) : Pc → ℕ
  | .locking j => if j = i then 1 else 0
  | .releasing j => if j = i then 1 else 0
  | .out => 0
  | .reading _ => 0
  | .writing _ => 0

/-- The sleep lock of a buffer, as a reference to it. -/
def Buf.locked (x : Buf P) : ℕ := if x.owner = none then 0 else 1

def refs [Fintype P] (s : State P) (i : BufId) : ℕ := ∑ p, (s.pc p).refs i + (s.buf i).locked

/-- A request that is in the queue: its process holds the sleep lock and waits. -/
def Queued (s : State P) (i : BufId) : Prop :=
  ∃ p, (s.buf i).owner = some p ∧
    (s.pc p = .reading i ∧ (s.buf i).valid = false ∧ (s.buf i).dirty = false ∨
      s.pc p = .writing i ∧ (s.buf i).dirty = true)

/-- The buffers and the disk hold the blocks `store`. -/
structure Coherent (s : State P) (store : ℕ → Block) : Prop where
  dev : ∀ i, (s.buf i).dev ≠ 0 → (s.buf i).dev = ROOTDEV
  unique : ∀ i j, (s.buf i).dev ≠ 0 → (s.buf i).dev = (s.buf j).dev →
    (s.buf i).blockno = (s.buf j).blockno → i = j
  used : ∀ i, (s.buf i).valid = true → (s.buf i).dev ≠ 0
  valid : ∀ i, (s.buf i).valid = true → (s.buf i).data = store (s.buf i).blockno
  dirty : ∀ i, (s.buf i).dirty = true → (s.buf i).valid = true
  disk : ∀ b, (∀ i, (s.buf i).blockno = b → (s.buf i).dirty = false) → s.disk b = store b

/-- Every request belongs to a process that waits for it, and a process that does not wait has only
valid buffers locked. -/
structure Requests (s : State P) : Prop where
  nodup : s.queue.Nodup
  queued : ∀ i ∈ s.queue, Queued s i
  owner : ∀ i p, (s.buf i).owner = some p → (s.buf i).valid = true ∨ s.pc p = .reading i

/-- **The cache holds the blocks `store`.** -/
structure Inv [Fintype P] (s : State P) (store : ℕ → Block) : Prop where
  circle : ∃ order : List BufId, order.Perm (List.finRange NBUF) ∧ s.list.IsCircle order
  refcnt : ∀ i, (s.buf i).refcnt = refs s i
  unused : ∀ i, (s.buf i).dev = 0 → (s.buf i).refcnt = 0
  coherent : Coherent s store
  requests : Requests s

/-! ## Moving a process, changing a buffer -/

section Frames

variable {s t : State P} {p q : P} {i j : BufId} {x : Pc} {y : Buf P} {store store' : ℕ → Block}

/-- What a change of the buffer `i` leaves alone is the same in every buffer. -/
theorem buf_eq {β : Type} (hbuf : t.buf = upd s.buf i y) (g : Buf P → β) (hg : g y = g (s.buf i))
    (j : BufId) : g (t.buf j) = g (s.buf j) := by
  rw [hbuf]
  by_cases h : j = i
  · rw [h, upd_self, hg]
  · rw [upd_of_ne h]

/-- The fields of a buffer that matter to its contents. -/
def Buf.content (x : Buf P) : ℕ × ℕ × Bool × Bool × Block :=
  (x.dev, x.blockno, x.valid, x.dirty, x.data)

theorem Coherent.congr (h : Coherent s store) (hbuf : t.buf = upd s.buf i y)
    (hy : y.content = (s.buf i).content) (hdisk : t.disk = s.disk) : Coherent t store := by
  have hcontent := buf_eq hbuf Buf.content hy
  simp only [Buf.content, Prod.mk.injEq] at hcontent
  constructor
  all_goals simp only [hcontent, hdisk]
  exacts [h.dev, h.unique, h.used, h.valid, h.dirty, h.disk]

/-- The process `p` has no request in the queue: all its buffers are there. -/
def Free (s : State P) (p : P) : Prop := ∀ i, (s.buf i).owner = some p → i ∉ s.queue ∧
    (s.buf i).valid = true

theorem Requests.free (h : Requests s) (hp : ¬(s.pc p).Waits) : Free s p := by
  intro i hi
  refine ⟨fun hmem => ?_, (h.owner i p hi).resolve_right fun hr => hp (hr ▸ trivial)⟩
  obtain ⟨q, hq, hwait⟩ := h.queued i hmem
  obtain rfl : p = q := Option.some.inj (hi.symm.trans hq)
  exact hwait.elim (fun hr => hp (hr.1 ▸ trivial)) fun hw => hp (hw.1 ▸ trivial)

theorem Requests.free_of_done (h : Requests s) (hp : s.pc p = .reading i ∨ s.pc p = .writing i)
    (hvalid : (s.buf i).valid = true) (hdirty : (s.buf i).dirty = false) : Free s p := by
  intro j hj
  have hr : ∀ {k}, s.pc p = .reading k → k = i := fun hk => by
    rcases hp with hp | hp <;> cases hk.symm.trans hp
    rfl
  have hw : ∀ {k}, s.pc p = .writing k → k = i := fun hk => by
    rcases hp with hp | hp <;> cases hk.symm.trans hp
    rfl
  refine ⟨fun hmem => ?_, (h.owner j p hj).elim id fun hk => hr hk ▸ hvalid⟩
  obtain ⟨q, hq, hwait⟩ := h.queued j hmem
  obtain rfl : p = q := Option.some.inj (hj.symm.trans hq)
  rcases hwait with ⟨hk, hv, -⟩ | ⟨hk, hd⟩
  · rw [hr hk, hvalid] at hv
    cases hv
  · rw [hw hk, hdirty] at hd
    cases hd

theorem Requests.not_mem_of_owner_eq_none (h : Requests s) (hi : (s.buf i).owner = none) :
    i ∉ s.queue := by
  intro hmem
  obtain ⟨q, hq, -⟩ := h.queued i hmem
  rw [hi] at hq
  cases hq

variable [Fintype P]

theorem refs_pos_of_pc (h : 0 < (s.pc p).refs i) : 0 < refs s i :=
  Nat.add_pos_left (h.trans_le (Finset.single_le_sum (f := fun q => (s.pc q).refs i)
    (fun _ _ => Nat.zero_le _) (Finset.mem_univ p))) _

theorem refs_pos_of_owner (h : (s.buf i).owner = some p) : 0 < refs s i := by
  rw [refs, Buf.locked, h, if_neg nofun]
  omega

theorem Inv.dev_ne_zero (hI : Inv s store) (h : 0 < refs s i) : (s.buf i).dev ≠ 0 := by
  intro h0
  have hr := hI.unused i h0
  rw [hI.refcnt] at hr
  omega

theorem Inv.owner_eq_none (hI : Inv s store) (h : (s.buf i).refcnt = 0) :
    (s.buf i).owner = none := by
  by_contra hne
  obtain ⟨q, hq⟩ := Option.ne_none_iff_exists'.mp hne
  have hpos := refs_pos_of_owner hq
  rw [hI.refcnt] at h
  omega

variable [DecidableEq P]

/-- **A step of the process `p` on the buffer `i`**, as far as the references go. -/
theorem Inv.of_step (hI : Inv s store) (hpc : t.pc = upd s.pc p x) (hbuf : t.buf = upd s.buf i y)
    (hlist : t.list = s.list) (hrefs : y.refcnt + (s.pc p).refs i + (s.buf i).locked =
      (s.buf i).refcnt + x.refs i + y.locked) (hothers : ∀ j, j ≠ i → (s.pc p).refs j = x.refs j)
    (hdev : y.dev = 0 → y.refcnt = 0) (hcoherent : Coherent t store') (hrequests : Requests t) :
    Inv t store' := by
  refine ⟨hlist ▸ hI.circle, fun j => ?_, fun j hj => ?_, hcoherent, hrequests⟩
  · have hsum := sum_add_eq_of_eq_off (f := fun q => (upd s.pc p x q).refs j)
      (g := fun q => (s.pc q).refs j) (Finset.mem_univ p) fun q _ hq => by rw [upd_of_ne hq]
    have hr := hI.refcnt j
    simp only [upd_self] at hsum
    rw [refs] at hr ⊢
    rw [hpc, hbuf]
    by_cases hj : j = i
    · subst hj
      rw [upd_self]
      omega
    · have ho := hothers j hj
      rw [upd_of_ne hj]
      omega
  · rw [hbuf] at hj ⊢
    by_cases hji : j = i
    · rw [hji, upd_self] at hj ⊢
      exact hdev hj
    · rw [upd_of_ne hji] at hj ⊢
      exact hI.unused j hj

end Frames

/-! ## The steps keep the invariant -/

section Searches

variable [Fintype P] {s : State P} {store : ℕ → Block} {i : BufId} {b : ℕ}

/-- The first loop of `bget` finds the buffer of the block. -/
theorem findCached_eq_some (hI : Inv s store) (h : findCached s b = some i) :
    (s.buf i).dev = ROOTDEV ∧ (s.buf i).blockno = b := by
  obtain ⟨order, hperm, hcircle⟩ := hI.circle
  rw [findCached, hcircle.search_next _ (by rw [hperm.length_eq, List.length_finRange])] at h
  simpa using List.find?_some h

theorem findCached_eq_none (hI : Inv s store) (h : findCached s b = none) (j : BufId)
    (hdev : (s.buf j).dev ≠ 0) : (s.buf j).blockno ≠ b := by
  obtain ⟨order, hperm, hcircle⟩ := hI.circle
  rw [findCached, hcircle.search_next _ (by rw [hperm.length_eq, List.length_finRange])] at h
  have hj := List.find?_eq_none.mp h j (hperm.mem_iff.mpr (List.mem_finRange j))
  simpa [hI.coherent.dev j hdev] using hj

/-- The second loop finds a buffer that is not in use. -/
theorem findUnused_eq_some (hI : Inv s store) (h : findUnused s = some i) :
    (s.buf i).refcnt = 0 ∧ (s.buf i).dirty = false := by
  obtain ⟨order, hperm, hcircle⟩ := hI.circle
  rw [findUnused, hcircle.search_prev _ (by rw [hperm.length_eq, List.length_finRange])] at h
  simpa using List.find?_some h

end Searches

section Steps

variable [DecidableEq P] {s t : State P} {store store' : ℕ → Block} {p : P} {i : BufId}
  {b : ℕ} {d : Block}
  {x : Pc} {y : Buf P}

/-- The fields of a buffer that matter to its request. -/
def Buf.request (y : Buf P) : Option P × Bool × Bool := (y.owner, y.valid, y.dirty)

section Requests

variable (h : Requests s) (hp : Free s p) (hpc : t.pc = upd s.pc p x)
  (hbuf : t.buf = upd s.buf i y)
include h hp hpc hbuf

theorem Requests.queued_step {j : BufId} (hj : j ∈ s.queue)
    (hy : j ≠ i ∨ y.request = (s.buf i).request) : Queued t j := by
  obtain ⟨q, hq, hwait⟩ := h.queued j hj
  have hqp : q ≠ p := by
    rintro rfl
    exact (hp j hq).1 hj
  have hreq : (t.buf j).request = (s.buf j).request := by
    rcases hy with hji | hy
    · rw [hbuf, upd_of_ne hji]
    · exact buf_eq hbuf Buf.request hy j
  simp only [Buf.request, Prod.mk.injEq] at hreq
  rw [Queued, hreq.1, hreq.2.1, hreq.2.2, hpc]
  exact ⟨q, hq, by rwa [upd_of_ne hqp]⟩

theorem Requests.owner_step {j : BufId} {q : P} (hji : j ≠ i) (hj : (t.buf j).owner = some q) :
    (t.buf j).valid = true ∨ t.pc q = .reading j := by
  rw [hbuf, upd_of_ne hji] at hj ⊢
  by_cases hqp : q = p
  · subst hqp
    exact .inl (hp j hj).2
  · rw [hpc, upd_of_ne hqp]
    exact h.owner j q hj

theorem Requests.step (hqueue : t.queue = s.queue)
    (hy : i ∉ s.queue ∧ (y.owner = none ∨ y.valid = true) ∨ y.request = (s.buf i).request) :
    Requests t := by
  refine ⟨hqueue ▸ h.nodup, fun j hj => ?_, fun j q hj => ?_⟩
  · rw [hqueue] at hj
    refine h.queued_step hp hpc hbuf hj (hy.imp_left fun hy => ?_)
    rintro rfl
    exact hy.1 hj
  · by_cases hji : j = i
    · subst hji
      rw [hbuf, upd_self] at hj ⊢
      rcases hy with ⟨-, hy | hy⟩ | hy
      · rw [hy] at hj
        cases hj
      · exact .inl hy
      · simp only [Buf.request, Prod.mk.injEq] at hy
        rw [hy.1] at hj
        rw [hy.2.1, hpc]
        by_cases hqp : q = p
        · subst hqp
          exact .inl (hp j hj).2
        · rw [upd_of_ne hqp]
          exact h.owner j q hj
    · exact h.owner_step hp hpc hbuf hji hj

theorem Requests.push (hi : i ∉ s.queue) (hqueue : t.queue = s.queue ++ [i])
    (hown : y.owner = some p)
    (hy : x = .reading i ∧ y.valid = false ∧ y.dirty = false ∨
      x = .writing i ∧ y.valid = true ∧ y.dirty = true) : Requests t := by
  have hi' : t.buf i = y := by rw [hbuf, upd_self]
  have hp' : t.pc p = x := by rw [hpc, upd_self]
  refine ⟨?_, fun j hj => ?_, fun j q hj => ?_⟩
  · rw [hqueue]
    exact List.nodup_append.mpr ⟨h.nodup, List.nodup_singleton i, fun a ha c hc hac =>
      hi (List.mem_singleton.mp hc ▸ hac ▸ ha)⟩
  · rw [hqueue, List.mem_append, List.mem_singleton] at hj
    rcases hj with hj | rfl
    · refine h.queued_step hp hpc hbuf hj (.inl ?_)
      rintro rfl
      exact hi hj
    · refine ⟨p, by rw [hi', hown], ?_⟩
      rw [hi', hp']
      exact hy.imp_right fun hy => ⟨hy.1, hy.2.2⟩
  · by_cases hji : j = i
    · subst hji
      rw [hi', hown] at hj
      cases hj
      rw [hi', hp']
      exact hy.elim (fun hy => .inr hy.1) fun hy => .inl hy.2.1
    · exact h.owner_step hp hpc hbuf hji hj

end Requests

omit [DecidableEq P] in
theorem Requests.pop {queue : List BufId} (h : Requests s) (hs : s.queue = i :: queue)
    (hpc : t.pc = s.pc) (hbuf : t.buf = upd s.buf i y) (hqueue : t.queue = queue)
    (hy : y.valid = true) : Requests t := by
  have hnodup := h.nodup
  rw [hs] at hnodup
  obtain ⟨hi, hnodup⟩ := List.nodup_cons.mp hnodup
  refine ⟨hqueue ▸ hnodup, fun j hj => ?_, fun j q hj => ?_⟩
  · rw [hqueue] at hj
    have hji : j ≠ i := by
      rintro rfl
      exact hi hj
    rw [Queued, hbuf, upd_of_ne hji, hpc]
    exact h.queued j (hs ▸ List.mem_cons_of_mem i hj)
  · rw [hbuf] at hj ⊢
    by_cases hji : j = i
    · rw [hji, upd_self]
      exact .inl hy
    · rw [upd_of_ne hji] at hj ⊢
      rw [hpc]
      exact h.owner j q hj

variable [Fintype P]

omit [Fintype P] [DecidableEq P] in
/-- **The buffer `i` changes**, and with it at most the contents of its block. -/
theorem Coherent.modBuf (h : Coherent s store) (hbuf : t.buf = upd s.buf i y) (hy : y.dev = ROOTDEV)
    (hunique : ∀ j, j ≠ i → (s.buf j).dev ≠ 0 → (s.buf j).blockno ≠ y.blockno)
    (hvalid : y.valid = true → y.data = store' y.blockno) (hdirty : y.dirty = true → y.valid = true)
    (hsame : (s.buf i).dirty = true → y.blockno = (s.buf i).blockno)
    (helse : ∀ b, b ≠ y.blockno → t.disk b = s.disk b ∧ store' b = store b)
    (hdisk : y.dirty = false → t.disk y.blockno = store' y.blockno) : Coherent t store' := by
  have hi : t.buf i = y := by rw [hbuf, upd_self]
  have hj : ∀ j, j ≠ i → t.buf j = s.buf j := fun j hji => by rw [hbuf, upd_of_ne hji]
  have hroot : ROOTDEV ≠ 0 := nofun
  refine ⟨fun j hdev => ?_, fun j k hdev hdev' hblock => ?_, fun j hv => ?_, fun j hv => ?_,
    fun j hd => ?_, fun b hb => ?_⟩
  · by_cases hji : j = i
    · rw [hji, hi, hy]
    · rw [hj j hji] at hdev ⊢
      exact h.dev j hdev
  · by_cases hji : j = i
    · by_cases hki : k = i
      · rw [hji, hki]
      · rw [hji, hi, hj k hki, hy] at hdev'
        rw [hji, hi, hj k hki] at hblock
        exact absurd hblock.symm (hunique k hki (hdev' ▸ hroot))
    · by_cases hki : k = i
      · rw [hki, hi, hj j hji] at hblock
        rw [hj j hji] at hdev
        exact absurd hblock (hunique j hji hdev)
      · rw [hj j hji, hj k hki] at hdev' hblock
        rw [hj j hji] at hdev
        exact h.unique j k hdev hdev' hblock
  · by_cases hji : j = i
    · rw [hji, hi, hy]
      exact hroot
    · rw [hj j hji] at hv ⊢
      exact h.used j hv
  · by_cases hji : j = i
    · rw [hji, hi] at hv ⊢
      exact hvalid hv
    · rw [hj j hji] at hv ⊢
      rw [(helse _ (hunique j hji (h.used j hv))).2, h.valid j hv]
  · by_cases hji : j = i
    · rw [hji, hi] at hd ⊢
      exact hdirty hd
    · rw [hj j hji] at hd ⊢
      exact h.dirty j hd
  · by_cases hyb : b = y.blockno
    · subst hyb
      have hclean := hb i (by rw [hi])
      rw [hi] at hclean
      exact hdisk hclean
    · obtain ⟨h1, h2⟩ := helse b hyb
      rw [h1, h2]
      refine h.disk b fun j hjb => ?_
      by_cases hji : j = i
      · rw [Bool.eq_false_iff]
        intro hd
        rw [hji] at hjb hd
        exact hyb (hjb.symm.trans (hsame hd).symm)
      · rw [← hj j hji]
        exact hb j (by rw [hj j hji, hjb])

namespace Inv

variable (hI : Inv s store)

include hI

theorem hit (hpc : s.pc p = .out) (hi : (s.buf i).dev ≠ 0) :
    Inv ((s.modBuf i fun x => { x with refcnt := x.refcnt + 1 }).setPc p (.locking i)) store := by
  refine hI.of_step rfl rfl rfl ?_ (fun j hj => ?_) (fun h => absurd h hi)
    (hI.coherent.congr rfl rfl rfl)
    (hI.requests.step (hI.requests.free ?_) rfl rfl rfl (.inr rfl))
  · show (s.buf i).refcnt + 1 + (s.pc p).refs i + (s.buf i).locked =
      (s.buf i).refcnt + (Pc.locking i).refs i + (s.buf i).locked
    rw [hpc, Pc.refs, Pc.refs, if_pos rfl]
  · rw [hpc, Pc.refs, Pc.refs, if_neg (Ne.symm hj)]
  · rw [hpc]
    exact id

theorem recycle (hpc : s.pc p = .out) (hb : findCached s b = none)
    (hrefcnt : (s.buf i).refcnt = 0) (hdirty : (s.buf i).dirty = false) :
    Inv ((s.modBuf i fun x => { x with
      dev := ROOTDEV, blockno := b, valid := false, dirty := false, refcnt := 1 }).setPc p
        (.locking i)) store := by
  have hown := hI.owner_eq_none hrefcnt
  refine hI.of_step (x := .locking i) rfl rfl rfl ?_ (fun j hj => ?_) nofun ?_
    (hI.requests.step (hI.requests.free ?_) rfl rfl rfl
      (.inl ⟨hI.requests.not_mem_of_owner_eq_none hown, .inl hown⟩))
  · show 1 + (s.pc p).refs i + (s.buf i).locked =
      (s.buf i).refcnt + (Pc.locking i).refs i + (s.buf i).locked
    rw [hpc, hrefcnt, Pc.refs, Pc.refs, if_pos rfl]
  · rw [hpc, Pc.refs, Pc.refs, if_neg (Ne.symm hj)]
  · have hcached := findCached_eq_none hI hb
    refine hI.coherent.modBuf rfl rfl (fun j _ => hcached j) nofun nofun ?_ (fun _ _ => ⟨rfl, rfl⟩)
      fun _ => hI.coherent.disk b fun j hj => ?_
    · rw [hdirty]
      exact nofun
    · rw [Bool.eq_false_iff]
      exact fun hd => hcached j (hI.coherent.used j (hI.coherent.dirty j hd)) hj
  · rw [hpc]
    exact id

theorem bget (hpc : s.pc p = .out) (h : bget s p b = some t) : Inv t store := by
  rw [Bcache.bget] at h
  cases hc : findCached s b with
  | some i =>
    rw [hc] at h
    cases h
    refine hI.hit hpc ?_
    rw [(findCached_eq_some hI hc).1]
    exact nofun
  | none =>
    rw [hc] at h
    cases hu : findUnused s with
    | none =>
      rw [hu] at h
      cases h
    | some i =>
      rw [hu] at h
      cases h
      obtain ⟨hr, hd⟩ := findUnused_eq_some hI hu
      exact hI.recycle hpc hc hr hd

/-- `bread` gets the sleep lock of a buffer, and returns it or asks the disk for it. -/
theorem lock {e : Event} (hpc : s.pc p = .locking i) (h : lock s p i = some (t, e)) :
    Inv t store ∧ (e = .none ∨ ∃ b, e = .read b (store b)) := by
  have hw : Free s p := hI.requests.free (by rw [hpc]; exact id)
  have hpos : (s.pc p).refs i = 1 := by rw [hpc, Pc.refs, if_pos rfl]
  have hdev := hI.dev_ne_zero (refs_pos_of_pc (hpos ▸ Nat.one_pos))
  have hothers : ∀ j, j ≠ i → (s.pc p).refs j = 0 := fun j hj => by
    rw [hpc, Pc.refs, if_neg (Ne.symm hj)]
  rw [Bcache.lock] at h
  by_cases hown : (s.buf i).owner = none
  · rw [if_pos hown] at h
    have hi := hI.requests.not_mem_of_owner_eq_none hown
    have hlocked : (s.buf i).locked = 0 := by rw [Buf.locked, if_pos hown]
    have hbuf : (s.modBuf i fun x => { x with owner := some p }).buf i =
        { s.buf i with owner := some p } := upd_self
    simp only [hbuf] at h
    by_cases hv : (s.buf i).valid = true
    · rw [if_pos hv] at h
      cases h
      refine ⟨hI.of_step rfl rfl rfl ?_ hothers (fun h => absurd h hdev)
        (hI.coherent.congr rfl rfl rfl) (hI.requests.step hw rfl rfl rfl (.inl ⟨hi, .inr hv⟩)),
        .inr ⟨_, by rw [hI.coherent.valid i hv]⟩⟩
      rw [hpos, hlocked]
      rfl
    · rw [if_neg hv] at h
      cases h
      have hv' : (s.buf i).valid = false := by simpa using hv
      have hd : (s.buf i).dirty = false := by
        rw [Bool.eq_false_iff]
        exact fun hd => hv (hI.coherent.dirty i hd)
      refine ⟨hI.of_step rfl rfl rfl ?_ hothers (fun h => absurd h hdev)
        (hI.coherent.congr rfl rfl rfl)
        (hI.requests.push hw rfl rfl hi rfl rfl (.inl ⟨rfl, hv', hd⟩)), .inl rfl⟩
      rw [hpos, hlocked]
      rfl
  · rw [if_neg hown] at h
    cases h

theorem ideintr (h : ideintr s = some t) : Inv t store := by
  rw [Bcache.ideintr] at h
  cases hqueue : s.queue with
  | nil =>
    rw [hqueue] at h
    cases h
  | cons i queue =>
    rw [hqueue] at h
    obtain ⟨q, hq, -⟩ := hI.requests.queued i (hqueue ▸ List.mem_cons_self)
    have hdev := hI.dev_ne_zero (refs_pos_of_owner hq)
    have hunique : ∀ j, j ≠ i → (s.buf j).dev ≠ 0 → (s.buf j).blockno ≠ (s.buf i).blockno :=
      fun j hji hj hb => hji (hI.coherent.unique j i hj
        ((hI.coherent.dev j hj).trans (hI.coherent.dev i hdev).symm) hb)
    by_cases hd : (s.buf i).dirty = true
    · have hdata := hI.coherent.valid i (hI.coherent.dirty i hd)
      simp only [hd, if_true] at h
      cases h
      exact hI.of_step (p := q) upd_eq_self.symm rfl rfl rfl (fun _ _ => rfl) (hI.unused i)
        (hI.coherent.modBuf rfl (hI.coherent.dev i hdev)
          hunique (fun _ => hdata) (fun hh => by cases hh) (fun _ => rfl)
          (fun b hb => ⟨upd_of_ne hb, rfl⟩) fun _ => upd_self.trans hdata)
        (hI.requests.pop hqueue rfl rfl rfl rfl)
    · simp only [hd] at h
      cases h
      -- no other buffer has the block, and this one is clean: what is on the disk counts
      have hdisk : s.disk (s.buf i).blockno = store (s.buf i).blockno :=
        hI.coherent.disk _ fun j hj => by
          rw [Bool.eq_false_iff]
          intro hjd
          have hji : j ≠ i := fun hji => hd (hji ▸ hjd)
          exact hunique j hji (hI.coherent.used j (hI.coherent.dirty j hjd)) hj
      exact hI.of_step (p := q) upd_eq_self.symm rfl rfl rfl (fun _ _ => rfl) (hI.unused i)
        (hI.coherent.modBuf rfl (hI.coherent.dev i hdev) hunique (fun _ => hdisk) (fun _ => rfl)
          (fun _ => rfl) (fun _ _ => ⟨rfl, rfl⟩) fun _ => hdisk)
        (hI.requests.pop hqueue rfl rfl rfl rfl)

theorem wake (hpc : s.pc p = .reading i ∨ s.pc p = .writing i) (h : wake s p i = some t) :
    Inv t store ∧ (s.buf i).data = store (s.buf i).blockno := by
  rw [Bcache.wake] at h
  by_cases hdone : (s.buf i).valid = true ∧ (s.buf i).dirty = false
  · rw [if_pos hdone] at h
    cases h
    have hrefs : ∀ j, (s.pc p).refs j = 0 := fun j => by
      rcases hpc with hpc | hpc <;> rw [hpc] <;> rfl
    have hbuf : s.buf = upd s.buf i (s.buf i) := upd_eq_self.symm
    refine ⟨hI.of_step rfl hbuf rfl (by rw [hrefs]; rfl) (fun j _ => hrefs j) (hI.unused i)
      (hI.coherent.congr hbuf rfl rfl)
      (hI.requests.step (hI.requests.free_of_done hpc hdone.1 hdone.2) rfl hbuf rfl (.inr rfl)),
      hI.coherent.valid i hdone.1⟩
  · rw [if_neg hdone] at h
    cases h

section Owner

variable (hpc : s.pc p = .out) (hown : (s.buf i).owner = some p)

include hpc hown

omit [DecidableEq P] in
/-- A process changes the contents of a buffer that it has locked. -/
theorem coherent_write (hbuf : t.buf = upd s.buf i { s.buf i with data := d, dirty := true })
    (hdisk : t.disk = s.disk) : Coherent t (upd store (s.buf i).blockno d) := by
  have hdev := hI.dev_ne_zero (refs_pos_of_owner hown)
  have hv := (hI.requests.free (by rw [hpc]; exact id) i hown).2
  refine hI.coherent.modBuf hbuf (hI.coherent.dev i hdev) (fun j hji hj hb => hji ?_)
    (fun _ => upd_self.symm) (fun _ => hv) (fun _ => rfl) (fun b hb =>
      ⟨by rw [hdisk], upd_of_ne hb⟩)
    nofun
  exact hI.coherent.unique j i hj
    ((hI.coherent.dev j hj).trans (hI.coherent.dev i hdev).symm) hb

theorem logWrite : Inv (logWrite s i d) (upd store (s.buf i).blockno d) := by
  have hf := hI.requests.free (p := p) (by rw [hpc]; exact id)
  exact hI.of_step (p := p) upd_eq_self.symm rfl rfl rfl (fun _ _ => rfl) (hI.unused i)
    (hI.coherent_write hpc hown rfl rfl)
    (hI.requests.step hf upd_eq_self.symm rfl rfl (.inl ⟨(hf i hown).1, .inr (hf i hown).2⟩))

theorem bwrite : Inv (bwrite s p i d) (upd store (s.buf i).blockno d) := by
  have hf := hI.requests.free (p := p) (by rw [hpc]; exact id)
  refine hI.of_step rfl rfl rfl ?_ (fun j _ => ?_) (hI.unused i)
    (hI.coherent_write hpc hown rfl rfl)
    (hI.requests.push hf rfl rfl (hf i hown).1 rfl hown (.inr ⟨rfl, (hf i hown).2, rfl⟩))
  · rw [hpc]
    rfl
  · rw [hpc]
    rfl

theorem brelse : Inv (brelse s p i) store := by
  have hf := hI.requests.free (p := p) (by rw [hpc]; exact id)
  refine hI.of_step rfl rfl rfl ?_ (fun j hj => ?_) (hI.unused i) (hI.coherent.congr rfl rfl rfl)
    (hI.requests.step hf rfl rfl rfl (.inl ⟨(hf i hown).1, .inl rfl⟩))
  · show (s.buf i).refcnt + (s.pc p).refs i + (s.buf i).locked =
      (s.buf i).refcnt + (Pc.releasing i).refs i + 0
    rw [hpc, Pc.refs, Pc.refs, if_pos rfl, Buf.locked, hown, if_neg nofun]
  · rw [hpc, Pc.refs, Pc.refs, if_neg (Ne.symm hj)]

end Owner

omit [DecidableEq P] in
theorem relink (i : BufId) : Inv { s with list := (s.list.unlink i).insertFront i } store := by
  refine ⟨?_, hI.refcnt, hI.unused, hI.coherent.congr (i := i) upd_eq_self.symm rfl rfl,
    hI.requests.nodup, hI.requests.queued, hI.requests.owner⟩
  obtain ⟨order, hperm, hcircle⟩ := hI.circle
  obtain ⟨xs, ys, rfl⟩ := List.append_of_mem (hperm.mem_iff.mpr (List.mem_finRange i))
  have hi : i ∉ xs ++ ys := (List.nodup_cons.mp (List.nodup_middle.mp hcircle.nodup)).1
  exact ⟨i :: (xs ++ ys), List.perm_middle.symm.trans hperm, hcircle.unlink.insertFront hi⟩

theorem put (hpc : s.pc p = .releasing i) : Inv (put s p i) store := by
  have hpos : (s.pc p).refs i = 1 := by rw [hpc, Pc.refs, if_pos rfl]
  have hrefs := refs_pos_of_pc (hpos ▸ Nat.one_pos)
  have hdev := hI.dev_ne_zero hrefs
  have hput : Inv ((s.modBuf i fun x => { x with refcnt := x.refcnt - 1 }).setPc p .out) store := by
    refine hI.of_step rfl rfl rfl ?_ (fun j hj => ?_) (fun h => absurd h hdev)
      (hI.coherent.congr rfl rfl rfl)
      (hI.requests.step (hI.requests.free (by rw [hpc]; exact id)) rfl rfl rfl (.inr rfl))
    · show (s.buf i).refcnt - 1 + (s.pc p).refs i + (s.buf i).locked =
        (s.buf i).refcnt + 0 + (s.buf i).locked
      rw [← hI.refcnt] at hrefs
      omega
    · rw [hpc, Pc.refs, if_neg (Ne.symm hj)]
      rfl
  rw [Bcache.put]
  split
  · exact hput.relink i
  · exact hput

end Inv

theorem storeStep_read (h : d = store b) : storeStep store (.read b d) = some (store, ()) := by
  rw [storeStep, if_pos h]

/-- **A step of the cache is a step of the store.** -/
theorem Inv.step {l : Label P} {e : Event} (hI : Inv s store) (h : step s l = some (t, e)) :
    ∃ store', storeStep store e = some (store', ()) ∧ Inv t store' := by
  cases l with
  | bget p b =>
    rw [Bcache.step] at h
    split at h
    · next hpc =>
      obtain ⟨u, hu, heq⟩ := Option.map_eq_some_iff.mp h
      cases heq
      exact ⟨store, rfl, hI.bget hpc hu⟩
    · cases h
  | lock p =>
    rw [Bcache.step] at h
    split at h
    · next i hpc =>
      obtain ⟨hI', rfl | ⟨b, rfl⟩⟩ := hI.lock hpc h
      · exact ⟨store, rfl, hI'⟩
      · exact ⟨store, storeStep_read rfl, hI'⟩
    · cases h
  | ideintr =>
    obtain ⟨u, hu, heq⟩ := Option.map_eq_some_iff.mp h
    cases heq
    exact ⟨store, rfl, hI.ideintr hu⟩
  | wake p =>
    rw [Bcache.step] at h
    split at h
    · next i hpc =>
      obtain ⟨u, hu, heq⟩ := Option.map_eq_some_iff.mp h
      cases heq
      obtain ⟨hI', hdata⟩ := hI.wake (.inl hpc) hu
      exact ⟨store, storeStep_read hdata, hI'⟩
    · next i hpc =>
      obtain ⟨u, hu, heq⟩ := Option.map_eq_some_iff.mp h
      cases heq
      exact ⟨store, rfl, (hI.wake (.inr hpc) hu).1⟩
    · cases h
  | logWrite p i d =>
    rw [Bcache.step] at h
    split at h
    · next hp =>
      cases h
      exact ⟨_, rfl, hI.logWrite hp.1 hp.2⟩
    · cases h
  | bwrite p i d =>
    rw [Bcache.step] at h
    split at h
    · next hp =>
      cases h
      exact ⟨_, rfl, hI.bwrite hp.1 hp.2⟩
    · cases h
  | brelse p i =>
    rw [Bcache.step] at h
    split at h
    · next hp =>
      cases h
      exact ⟨store, rfl, hI.brelse hp.1 hp.2⟩
    · cases h
  | put p =>
    rw [Bcache.step] at h
    split at h
    · next i hpc =>
      cases h
      exact ⟨store, rfl, hI.put hpc⟩
    · cases h

end Steps

/-! ## What is recycled -/

section Recycling

/-- The step from `s` to `t` takes the buffer `i` away from its block. -/
def Recycled (s t : State P) (i : BufId) : Prop :=
  (t.buf i).dev ≠ (s.buf i).dev ∨ (t.buf i).blockno ≠ (s.buf i).blockno ∨
    (s.buf i).valid = true ∧ (t.buf i).valid = false

variable [DecidableEq P] {s t : State P} {i : BufId} {y : Buf P} {l : Label P} {e : Event}

/-- Every step changes one buffer at most, and only the second loop of `bget` gives it another
block. -/
theorem step_buf (h : step s l = some (t, e)) : ∃ i y, t.buf = upd s.buf i y ∧
    (y.dev = (s.buf i).dev ∧ y.blockno = (s.buf i).blockno ∧
      ((s.buf i).valid = true → y.valid = true) ∨ findUnused s = some i) := by
  cases l with
  | bget p b =>
    rw [step] at h
    split at h
    · obtain ⟨u, hu, heq⟩ := Option.map_eq_some_iff.mp h
      cases heq
      rw [bget] at hu
      split at hu
      · cases hu
        exact ⟨_, _, rfl, .inl ⟨rfl, rfl, id⟩⟩
      · split at hu
        · next j hj =>
          cases hu
          exact ⟨j, _, rfl, .inr hj⟩
        · cases hu
    · cases h
  | lock p =>
    rw [step] at h
    split at h
    · rw [lock] at h
      split at h
      · dsimp only at h
        split at h <;> cases h <;> exact ⟨_, _, rfl, .inl ⟨rfl, rfl, id⟩⟩
      · cases h
    · cases h
  | ideintr =>
    obtain ⟨u, hu, heq⟩ := Option.map_eq_some_iff.mp h
    cases heq
    rw [ideintr] at hu
    split at hu
    · cases hu
    · dsimp only at hu
      split at hu <;> cases hu <;> exact ⟨_, _, rfl, .inl ⟨rfl, rfl, fun _ => rfl⟩⟩
  | wake p =>
    have hwake : ∀ {i u}, wake s p i = some u → u.buf = s.buf := fun {i u} hu => by
      rw [wake] at hu
      split at hu <;> cases hu
      rfl
    rw [step] at h
    split at h
    · next i _ =>
      obtain ⟨u, hu, heq⟩ := Option.map_eq_some_iff.mp h
      cases heq
      exact ⟨i, _, (hwake hu).trans upd_eq_self.symm, .inl ⟨rfl, rfl, id⟩⟩
    · next i _ =>
      obtain ⟨u, hu, heq⟩ := Option.map_eq_some_iff.mp h
      cases heq
      exact ⟨i, _, (hwake hu).trans upd_eq_self.symm, .inl ⟨rfl, rfl, id⟩⟩
    · cases h
  | logWrite p i d =>
    rw [step] at h
    split at h <;> cases h
    exact ⟨_, _, rfl, .inl ⟨rfl, rfl, id⟩⟩
  | bwrite p i d =>
    rw [step] at h
    split at h <;> cases h
    exact ⟨_, _, rfl, .inl ⟨rfl, rfl, id⟩⟩
  | brelse p i =>
    rw [step] at h
    split at h <;> cases h
    exact ⟨_, _, rfl, .inl ⟨rfl, rfl, id⟩⟩
  | put p =>
    rw [step] at h
    split at h
    · next i _ =>
      cases h
      refine ⟨i, { s.buf i with refcnt := (s.buf i).refcnt - 1 }, ?_, .inl ⟨rfl, rfl, id⟩⟩
      rw [put]
      dsimp only
      split <;> rfl
    · cases h

theorem findUnused_of_recycled (h : step s l = some (t, e)) (hi : Recycled s t i) :
    findUnused s = some i := by
  obtain ⟨j, y, hbuf, hy⟩ := step_buf h
  rw [Recycled, hbuf] at hi
  by_cases hij : i = j
  · subst hij
    refine hy.resolve_left ?_
    rintro ⟨hdev, hblockno, hvalid⟩
    rw [upd_self] at hi
    rcases hi with hi | hi | ⟨hv, hv'⟩
    · exact hi hdev
    · exact hi hblockno
    · rw [hvalid hv] at hv'
      cases hv'
  · rw [upd_of_ne hij] at hi
    rcases hi with hi | hi | ⟨hv, hv'⟩
    · exact absurd rfl hi
    · exact absurd rfl hi
    · rw [hv] at hv'
      cases hv'

end Recycling

/-! ## Runs -/

section Runs

variable [Fintype P] [DecidableEq P]

theorem binit_isCircle : ∃ order : List BufId, order.Perm (List.finRange NBUF) ∧
    binit.IsCircle order := by
  have hfold : ∀ (xs ys : List BufId) (L : Circle BufId), (xs ++ ys).Nodup → L.IsCircle ys →
      (xs.foldl Circle.insertFront L).IsCircle (xs.reverse ++ ys) := by
    intro xs
    induction xs with
    | nil => exact fun ys L _ hL => hL
    | cons x xs ih =>
      intro ys L hnd hL
      have hnd' := List.nodup_middle.mpr hnd
      rw [List.reverse_cons, List.append_assoc]
      refine ih (x :: ys) _ hnd' (hL.insertFront ?_)
      exact (List.nodup_cons.mp (List.nodup_append.mp hnd').2.1).1
  have hnd : (List.finRange NBUF ++ []).Nodup := by
    rw [List.append_nil]
    exact List.nodup_finRange NBUF
  refine ⟨(List.finRange NBUF).reverse, List.reverse_perm _, ?_⟩
  rw [← List.append_nil (List.finRange NBUF).reverse]
  exact hfold (List.finRange NBUF) [] Circle.empty hnd Circle.empty_isCircle

omit [DecidableEq P] in
theorem init_inv (disk : ℕ → Block) : Inv (init P disk) disk := by
  refine ⟨binit_isCircle, fun i => ?_, fun _ _ => rfl,
    ⟨fun i h => absurd rfl h, fun i j h => absurd rfl h, nofun, nofun, nofun, fun _ _ => rfl⟩,
    ⟨List.nodup_nil, nofun, nofun⟩⟩
  show 0 = ∑ p : P, 0 + 0
  rw [Finset.sum_const_zero]

/-- The events of a run are a run of the store. -/
theorem exec_inv {disk : ℕ → Block} {ls : List (Label P)} {t : State P} {es : List Event}
    (h : exec step (init P disk) ls = some (t, es)) :
    ∃ store, exec storeStep disk es = some (store, es.map fun _ => ()) ∧ Inv t store := by
  refine exec_induction (P := fun _ t es => ∃ store,
    exec storeStep disk es = some (store, es.map fun _ => ()) ∧ Inv t store)
    ⟨disk, rfl, init_inv disk⟩ ?_ h
  rintro ls t es l u e - ⟨store, hstore, hI⟩ hu
  obtain ⟨store', hstep, hI'⟩ := hI.step hu
  refine ⟨store', exec_concat_iff.mpr ⟨store, _, (), hstore, hstep, ?_⟩, hI'⟩
  rw [List.map_append, List.map_singleton]

/-- **The buffer cache refines a plain block store.**  After any steps of any number of processes,
from the state that `binit` makes,

* the list is a circle of all buffers;
* no two buffers have the same block;
* what the processes have read and written is a run of a plain block store that starts with the
  contents of the disk: `bread` has returned what was written last;
* no next step takes a buffer that is in use or dirty away from its block. -/
theorem exec_refines_store {disk : ℕ → Block} {ls : List (Label P)} {t : State P} {es : List Event}
    (h : exec step (init P disk) ls = some (t, es)) :
    (∃ order : List BufId, order.Perm (List.finRange NBUF) ∧ t.list.IsCircle order) ∧
      (∀ i j, (t.buf i).dev ≠ 0 → (t.buf i).dev = (t.buf j).dev →
        (t.buf i).blockno = (t.buf j).blockno → i = j) ∧
      (∃ store, exec storeStep disk es = some (store, es.map fun _ => ())) ∧
      ∀ l u e i, step t l = some (u, e) → Recycled t u i →
        (t.buf i).refcnt = 0 ∧ (t.buf i).dirty = false := by
  obtain ⟨store, hstore, hI⟩ := exec_inv h
  exact ⟨hI.circle, hI.coherent.unique, ⟨store, hstore⟩, fun l u e i hu hi =>
    findUnused_eq_some hI (findUnused_of_recycled hu hi)⟩

/-- Two processes on one block: the second has to wait for the lock, and reads what the first
wrote. -/
def sharedBlock : List (Label (Fin 2)) :=
  let i : BufId := 0
  [.bget 0 7, .bget 1 7, .lock 0, .ideintr, .wake 0, .logWrite 0 i fun _ => 5, .brelse 0 i, .lock 1,
    .put 0, .bwrite 1 i fun _ => 6, .ideintr, .wake 1, .brelse 1 i, .put 1]

theorem exec_refines_store_sharedBlock :
    ∃ t es, exec step (init (Fin 2) fun _ _ => 0) sharedBlock = some (t, es) ∧
      (∃ order : List BufId, order.Perm (List.finRange NBUF) ∧ t.list.IsCircle order) ∧
      ∃ store, exec storeStep (fun _ _ => 0) es = some (store, es.map fun _ => ()) := by
  have hrun : (exec step (init (Fin 2) fun _ _ => 0) sharedBlock).isSome = true := by decide +kernel
  obtain ⟨⟨t, es⟩, h⟩ := Option.isSome_iff_exists.mp hrun
  obtain ⟨hcircle, -, hstore, -⟩ := exec_refines_store h
  exact ⟨t, es, h, hcircle, hstore⟩

end Runs

end Xv6.Bcache
