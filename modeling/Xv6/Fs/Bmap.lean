import Xv6.Fs.Blocks

/-!
# Allocating and freeing the blocks of a file

What `balloc`, `bfree`, `bmap` and `itrunc` do to a disk that is owned.

`Ready s ip` is the state of affairs inside a transaction on the inode at the place `ip` of the
cache: the disk is owned by the table of inodes in which that inode is the copy in memory.  `Evolves
s s' ip lo hi` says what an operation on that inode may have done: it has changed the copy's
addresses, the free map and blocks of the disk; every pointer that held a block holds the same
block; and no byte of any file has changed, except bytes `lo` to `hi` of this one.

`bmap` allocates up to two blocks.  It stops only when no block is free; `Credit` counts the free
blocks against the pointers that an operation still has to fill, so that an operation for which
enough blocks are free is known to return.
-/

namespace Xv6.Fs

open Lib

/-! ## Writes through the log -/

/-- The state after block `b` was written and logged. -/
def State.write (s : State) (b : ℕ) (blk : Block) : State :=
  { s with
    disk := upd s.disk b blk
    logged := if b ∈ s.logged then s.logged else s.logged ++ [b] }

theorem logWrite_eq {s : State} (ho : 1 ≤ s.outstanding) (b : ℕ) (f : Block → Block) :
    logWrite b f s = .ok ((), s.write b (f (s.disk b))) := by
  show (if s.outstanding < 1 then _ else _ : Op Unit) s = _
  rw [if_neg (by omega)]
  rfl

variable {Q : Unit → State → Prop} {E : Stop → Prop}

theorem wp_logWrite {s : State} (ho : 1 ≤ s.outstanding) {b : ℕ} {f : Block → Block}
    (h : Q () (s.write b (f (s.disk b)))) : wp (logWrite b f) s Q E :=
  wp_of_ok (logWrite_eq ho b f) h

/-! ## The copy in memory -/

/-- The state with the place `ip` of the cache set to `n`. -/
def State.putInode (s : State) (ip : Icache) (n : Inode) : State :=
  { s with inode := upd s.inode ip n }

/-- The state with the copy of the disk inode at `ip` set to `d`. -/
def State.putDin (s : State) (ip : Icache) (d : Dinode) : State :=
  s.putInode ip { s.inode ip with din := d }

section PutInode

variable {s : State} {ip iq : Icache} {n : Inode} {d : Dinode}

@[simp] theorem putInode_self : (s.putInode ip n).inode ip = n := upd_self

@[simp] theorem putInode_of_ne (h : iq ≠ ip) : (s.putInode ip n).inode iq = s.inode iq :=
  upd_of_ne h

@[simp] theorem putInode_putInode {n' : Inode} :
    (s.putInode ip n).putInode ip n' = s.putInode ip n' :=
  congrArg (fun f => { s with inode := f }) upd_upd

@[simp] theorem note_inode (v : Snapshot) : (s.note v).inode = s.inode := rfl

@[simp] theorem note_file (v : Snapshot) : (s.note v).file = s.file := rfl

@[simp] theorem note_putInode (v : Snapshot) :
    (s.note v).putInode ip n = (s.putInode ip n).note v := rfl

@[simp] theorem putDin_self : (s.putDin ip d).inode ip = { s.inode ip with din := d } := upd_self

@[simp] theorem putDin_of_ne (h : iq ≠ ip) : (s.putDin ip d).inode iq = s.inode iq :=
  upd_of_ne h

@[simp] theorem wp_setInode {f : Inode → Inode} :
    wp (setInode ip f) s Q E ↔ Q () (s.putInode ip (f (s.inode ip))) := Iff.rfl

theorem wp_releasesleep : wp (releasesleep ip) s Q E ↔
    Q () ((s.putInode ip { s.inode ip with locked := false }).note
      (s.putInode ip { s.inode ip with locked := false }).snapshot) := Iff.rfl

@[simp] theorem wp_setDin {f : Dinode → Dinode} :
    wp (setDin ip f) s Q E ↔ Q () (s.putDin ip (f (s.inode ip).din)) := Iff.rfl

end PutInode

/-! ## The block allocator -/

def free (disk : Disk) (sb : Superblock) : ℕ :=
  ((Finset.range sb.size).filter fun b => used disk sb b = false).card

/-- Taking a free block leaves one free block less. -/
theorem free_of_alloc {disk disk' : Disk} {sb : Superblock} {b : ℕ} (hb : b < sb.size)
    (hfree : used disk sb b = false)
    (hused : ∀ c, c < sb.size → used disk' sb c = (used disk sb c || decide (c = b))) :
    free disk' sb + 1 = free disk sb := by
  have hmem : b ∈ (Finset.range sb.size).filter fun c => used disk sb c = false :=
    Finset.mem_filter.mpr ⟨Finset.mem_range.mpr hb, hfree⟩
  have herase : ((Finset.range sb.size).filter fun c => used disk' sb c = false) =
      ((Finset.range sb.size).filter fun c => used disk sb c = false).erase b := by
    ext c
    simp only [Finset.mem_filter, Finset.mem_range, Finset.mem_erase]
    constructor
    · rintro ⟨hc, hu⟩
      rw [hused c hc, Bool.or_eq_false_iff, decide_eq_false_iff_not] at hu
      exact ⟨hu.2, hc, hu.1⟩
    · rintro ⟨hcb, hc, hu⟩
      rw [hused c hc, hu, decide_eq_false hcb]
      exact ⟨hc, rfl⟩
  rw [free, free, herase]
  exact Finset.card_erase_add_one hmem

/-- **`balloc`** takes a free block, or stops because there is none. -/
theorem balloc_spec {s : State} (ho : 1 ≤ s.outstanding) :
    wp balloc s
      (fun b s' => b < s.sb.size ∧ used s.disk s.sb b = false ∧
        ∃ l, s' = { s with disk := allocDisk s.disk s.sb b, logged := l })
      (fun e => e = .panic .ballocOutOfBlocks ∧ free s.disk s.sb = 0) := by
  rw [balloc, wp_bind, wp_get]
  cases hfind : (List.range s.sb.size).find? fun b => !used s.disk s.sb b with
  | none =>
    refine wp_throw.mpr ⟨rfl, Finset.card_eq_zero.mpr (Finset.filter_eq_empty_iff.mpr ?_)⟩
    intro b hb hu
    have hnot := List.find?_eq_none.mp hfind b (List.mem_range.mpr (Finset.mem_range.mp hb))
    rw [hu] at hnot
    exact hnot rfl
  | some b =>
    have hb := List.mem_range.mp (List.mem_of_find?_eq_some hfind)
    have hu := List.find?_some hfind
    rw [Bool.not_eq_true'] at hu
    rw [wp_bind]
    refine wp_logWrite ho ?_
    rw [wp_bind, bzero]
    refine wp_logWrite (s := s.write _ _) ho ?_
    exact ⟨hb, hu, _, rfl⟩

/-! ## A transaction on one inode -/

/-- The table of inodes with the copy in memory at `ip` put in. -/
def view (s : State) (ip : Icache) : ℕ → Dinode :=
  upd (dinode s.disk s.sb) (s.inode ip).inum (s.inode ip).din

@[simp] theorem view_self (s : State) (ip : Icache) :
    view s ip (s.inode ip).inum = (s.inode ip).din := upd_self

variable {j : ℕ}

theorem view_of_ne {s : State} {ip : Icache} (h : j ≠ (s.inode ip).inum) :
    view s ip j = dinode s.disk s.sb j := upd_of_ne h

/-- Inside a transaction, with the inode at `ip` locked and possibly changed. -/
structure Ready (s : State) (ip : Icache) : Prop where
  wf : s.sb.Wf
  super : readsb s.disk = s.sb
  trans : 1 ≤ s.outstanding
  inum : (s.inode ip).inum < s.sb.ninodes
  type : (s.inode ip).din.type ≠ 0
  owned : Owned s.sb s.disk (view s ip)

/-- Nothing in memory has changed but the copy of the disk inode at `ip`. -/
structure Local (s s' : State) (ip : Icache) : Prop where
  sb : s'.sb = s.sb
  outstanding : s'.outstanding = s.outstanding
  file : s'.file = s.file
  proc : s'.proc = s.proc
  devsw : s'.devsw = s.devsw
  history : s'.history = s.history
  inode : ∀ iq, iq ≠ ip → s'.inode iq = s.inode iq
  inum : (s'.inode ip).inum = (s.inode ip).inum
  ref : (s'.inode ip).ref = (s.inode ip).ref
  locked : (s'.inode ip).locked = (s.inode ip).locked
  valid : (s'.inode ip).valid = (s.inode ip).valid

namespace Local

variable {s s' s'' : State} {ip : Icache}

protected theorem refl (s : State) (ip : Icache) : Local s s ip :=
  ⟨rfl, rfl, rfl, rfl, rfl, rfl, fun _ _ => rfl, rfl, rfl, rfl, rfl⟩

theorem trans (h : Local s s' ip) (h' : Local s' s'' ip) : Local s s'' ip where
  sb := h'.sb.trans h.sb
  outstanding := h'.outstanding.trans h.outstanding
  file := h'.file.trans h.file
  proc := h'.proc.trans h.proc
  devsw := h'.devsw.trans h.devsw
  history := h'.history.trans h.history
  inode := fun iq hq => (h'.inode iq hq).trans (h.inode iq hq)
  inum := h'.inum.trans h.inum
  ref := h'.ref.trans h.ref
  locked := h'.locked.trans h.locked
  valid := h'.valid.trans h.valid

theorem write (s : State) (ip : Icache) (b : ℕ) (blk : Block) : Local s (s.write b blk) ip :=
  ⟨rfl, rfl, rfl, rfl, rfl, rfl, fun _ _ => rfl, rfl, rfl, rfl, rfl⟩

theorem putDin (s : State) (ip : Icache) (d : Dinode) : Local s (s.putDin ip d) ip := by
  refine ⟨rfl, rfl, rfl, rfl, rfl, rfl, fun iq hq => putDin_of_ne hq, ?_, ?_, ?_, ?_⟩ <;>
    rw [putDin_self]

end Local

/-- What an operation on the inode at `ip` may have done, with no byte changed outside the range
from `lo` to `hi` of that file. -/
structure Evolves (s s' : State) (ip : Icache) (lo hi : ℕ) : Prop extends Local s s' ip where
  din : (s'.inode ip).din = { (s.inode ip).din with addrs := (s'.inode ip).din.addrs }
  dinode : ∀ j, j < s.sb.ninodes → dinode s'.disk s.sb j = dinode s.disk s.sb j
  addr : ∀ j, j < s.sb.ninodes → (view s ip j).type ≠ 0 → ∀ bn, (view s ip j).addr s.disk bn ≠ 0 →
    (view s' ip j).addr s'.disk bn = (view s ip j).addr s.disk bn
  byte : ∀ j, j < s.sb.ninodes → (view s ip j).type ≠ 0 → ∀ x,
    (view s ip j).addr s.disk (x / BSIZE) ≠ 0 → ¬ (j = (s.inode ip).inum ∧ lo ≤ x ∧ x < hi) →
    (view s' ip j).byte s'.disk x = (view s ip j).byte s.disk x

namespace Evolves

variable {s s' s'' : State} {ip : Icache} {lo mid hi : ℕ}

theorem view_type (h : Evolves s s' ip lo hi) (hj : j < s.sb.ninodes) :
    (view s' ip j).type = (view s ip j).type := by
  by_cases hi : j = (s.inode ip).inum
  · rw [hi, view_self, ← h.inum, view_self, h.din]
  · rw [view_of_ne hi, view_of_ne (by rwa [h.inum]), h.sb, h.dinode j hj]

protected theorem refl (s : State) (ip : Icache) (lo hi : ℕ) : Evolves s s ip lo hi where
  toLocal := Local.refl s ip
  din := rfl
  dinode := fun _ _ => rfl
  addr := fun _ _ _ _ _ => rfl
  byte := fun _ _ _ _ _ _ => rfl

theorem of_empty (h : Evolves s s' ip 0 0) (lo hi : ℕ) : Evolves s s' ip lo hi :=
  { h with byte := fun j hj ht x ha _ => h.byte j hj ht x ha (by omega) }

theorem addr_self (h : Evolves s s' ip lo hi) (hi' : (s.inode ip).inum < s.sb.ninodes)
    (ht : (s.inode ip).din.type ≠ 0) {bn : ℕ} (ha : (s.inode ip).din.addr s.disk bn ≠ 0) :
    (s'.inode ip).din.addr s'.disk bn = (s.inode ip).din.addr s.disk bn := by
  have haddr := h.addr _ hi' (by rwa [view_self]) bn (by rwa [view_self])
  rwa [view_self, ← h.inum, view_self] at haddr

/-- A byte of the inode at `ip` itself, outside the range. -/
theorem byte_self (h : Evolves s s' ip lo hi) (hi' : (s.inode ip).inum < s.sb.ninodes)
    (ht : (s.inode ip).din.type ≠ 0) {x : ℕ} (ha : (s.inode ip).din.addr s.disk (x / BSIZE) ≠ 0)
    (hx : x < lo ∨ hi ≤ x) :
    (s'.inode ip).din.addr s'.disk (x / BSIZE) ≠ 0 ∧
      (s'.inode ip).din.byte s'.disk x = (s.inode ip).din.byte s.disk x := by
  have hbyte := h.byte _ hi' (by rwa [view_self]) x (by rwa [view_self]) (by omega)
  rw [view_self, ← h.inum, view_self] at hbyte
  exact ⟨by rwa [h.addr_self hi' ht ha], hbyte⟩

theorem trans (h : Evolves s s' ip lo mid) (h' : Evolves s' s'' ip mid hi) (h1 : lo ≤ mid)
    (h2 : mid ≤ hi) : Evolves s s'' ip lo hi where
  toLocal := h.toLocal.trans h'.toLocal
  din := by rw [h'.din, h.din]
  dinode := fun j hj => by
    have hj' : j < s'.sb.ninodes := by rwa [h.sb]
    rw [← h.dinode j hj, ← h.sb, h'.dinode j hj']
  addr := fun j hj ht bn ha => by
    have hj' : j < s'.sb.ninodes := by rwa [h.sb]
    have ht' : (view s' ip j).type ≠ 0 := by rwa [h.view_type hj]
    have heq := h.addr j hj ht bn ha
    rw [← heq] at ha ⊢
    exact h'.addr j hj' ht' bn ha
  byte := fun j hj ht x ha hx => by
    have hj' : j < s'.sb.ninodes := by rwa [h.sb]
    have ht' : (view s' ip j).type ≠ 0 := by rwa [h.view_type hj]
    have ha' : (view s' ip j).addr s'.disk (x / BSIZE) ≠ 0 := by rwa [h.addr j hj ht _ ha]
    rw [h'.byte j hj' ht' x ha' (by rw [h.inum]; omega), h.byte j hj ht x ha (by omega)]

end Evolves

/-! ## One new block -/

/-- The pointers in `P` of the inode at `ip` that hold no block. -/
def lacking (s : State) (ip : Icache) (P : Finset Ptr) : ℕ :=
  (P.filter fun p => (s.inode ip).din.ptr s.disk p = 0).card

/-- Enough blocks are free to fill the pointers in `P`. -/
def Credit (s : State) (ip : Icache) (P : Finset Ptr) : Prop :=
  lacking s ip P ≤ free s.disk s.sb

/-- The step from `s` to `s'` has put the free block `b` into the pointer `p`. -/
structure Fills (s s' : State) (ip : Icache) (p : Ptr) (b : ℕ) : Prop extends Local s s' ip where
  lt : b < s.sb.size
  unused : used s.disk s.sb b = false
  empty : (s.inode ip).din.ptr s.disk p = 0
  din : (s'.inode ip).din = { (s.inode ip).din with addrs := (s'.inode ip).din.addrs }
  used : ∀ c, c < s.sb.size → used s'.disk s.sb c = (used s.disk s.sb c || decide (c = b))
  dinode : ∀ j, j < s.sb.ninodes → dinode s'.disk s.sb j = dinode s.disk s.sb j
  super : readsb s'.disk = readsb s.disk
  block : ∀ c, s.sb.nmeta ≤ c → c ≠ b → c ≠ (s.inode ip).din.ptr s.disk Ptr.table →
    s'.disk c = s.disk c
  ptr : ∀ q, (s'.inode ip).din.ptr s'.disk q =
    if q = p then b else (s.inode ip).din.ptr s.disk q

namespace Fills

variable {s s' : State} {ip : Icache} {p : Ptr} {b : ℕ} (h : Fills s s' ip p b)

include h

theorem view_type (hj : j < s.sb.ninodes) : (view s' ip j).type = (view s ip j).type := by
  by_cases hi : j = (s.inode ip).inum
  · rw [hi, view_self, ← h.inum, view_self, h.din]
  · rw [view_of_ne hi, view_of_ne (by rwa [h.inum]), h.sb, h.dinode j hj]

variable (hr : Ready s ip)

include hr

/-- The table of another inode is neither the new block nor the table of this one. -/
theorem ptr_of_ne (hj : j < s.sb.ninodes)
    (ht : (view s ip j).type ≠ 0) (hji : j ≠ (s.inode ip).inum) (q : Ptr) :
    (view s' ip j).ptr s'.disk q = (view s ip j).ptr s.disk q := by
  have hview : view s' ip j = view s ip j := by
    rw [view_of_ne hji, view_of_ne (by rwa [h.inum]), h.sb, h.dinode j hj]
  rw [hview]
  refine Dinode.ptr_congr (fun hne => ?_) q
  have hrange := hr.owned.ptr_range hj ht hne
  refine h.block _ hrange.1 ?_ ?_
  · have hx : pointers s.sb s.disk (view s ip) (j, Ptr.table) =
        (view s ip j).ptr s.disk Ptr.table := pointers_of_alloc hj ht Ptr.table
    rw [← hx] at hne ⊢
    exact hr.owned.ptr_ne h.unused hne
  · intro heq
    have hi := hr.inum
    have hti := hr.type
    rw [← view_self] at hti heq
    exact hji (hr.owned.ptr_inj hj ht hi hti hne heq).1

theorem pointers_eq (x : ℕ × Ptr) : pointers s.sb s'.disk (view s' ip) x =
      upd (pointers s.sb s.disk (view s ip)) ((s.inode ip).inum, p) b x := by
  obtain ⟨j, q⟩ := x
  by_cases hj : j < s.sb.ninodes ∧ (view s ip j).type ≠ 0
  · have ht' : (view s' ip j).type ≠ 0 := by rw [h.view_type hj.1]; exact hj.2
    rw [pointers_of_alloc hj.1 ht']
    by_cases hji : j = (s.inode ip).inum
    · subst hji
      rw [← h.inum, view_self, h.inum, h.ptr q]
      by_cases hqp : q = p
      · rw [hqp, if_pos rfl, upd_self]
      · rw [if_neg hqp, upd_of_ne fun heq => hqp (Prod.mk.inj heq).2,
          pointers_of_alloc hj.1 hj.2, view_self]
    · rw [h.ptr_of_ne hr hj.1 hj.2 hji, upd_of_ne fun heq => hji (Prod.mk.inj heq).1,
        pointers_of_alloc hj.1 hj.2]
  · have hji : (j, q) ≠ ((s.inode ip).inum, p) := by
      intro heq
      cases heq
      exact hj ⟨hr.inum, by rw [view_self]; exact hr.type⟩
    have hj' : ¬ (j < s.sb.ninodes ∧ (view s' ip j).type ≠ 0) := by
      rintro ⟨hlt, ht⟩
      rw [h.view_type hlt] at ht
      exact hj ⟨hlt, ht⟩
    rw [pointers, if_neg hj', upd_of_ne hji, pointers, if_neg hj]

theorem ready : Ready s' ip where
  wf := by rw [h.sb]; exact hr.wf
  super := by rw [h.super, h.sb, hr.super]
  trans := by rw [h.outstanding]; exact hr.trans
  inum := by rw [h.sb, h.inum]; exact hr.inum
  type := by rw [h.din]; exact hr.type
  owned := by
    have hp : pointers s.sb s.disk (view s ip) ((s.inode ip).inum, p) = 0 := by
      rw [pointers_of_alloc hr.inum (by rw [view_self]; exact hr.type), view_self, h.empty]
    rw [Owned, h.sb]
    exact (hr.owned.alloc hp h.lt h.unused).congr h.used (h.pointers_eq hr)

variable {bn : ℕ}

theorem addr (hj : j < s.sb.ninodes)
    (ht : (view s ip j).type ≠ 0) (ha : (view s ip j).addr s.disk bn ≠ 0) :
    (view s' ip j).addr s'.disk bn = (view s ip j).addr s.disk bn := by
  have hbn := Dinode.lt_maxfile ha
  rw [Dinode.addr_eq hbn] at ha ⊢
  rw [Dinode.addr_eq hbn]
  by_cases hji : j = (s.inode ip).inum
  · subst hji
    rw [view_self] at ha ⊢
    rw [← h.inum, view_self, h.ptr, if_neg]
    intro hq
    rw [hq] at ha
    exact ha h.empty
  · exact h.ptr_of_ne hr hj ht hji _

theorem evolves : Evolves s s' ip 0 0 where
  toLocal := h.toLocal
  din := h.din
  dinode := h.dinode
  addr := fun j hj ht bn ha => h.addr hr hj ht ha
  byte := fun j hj ht x ha _ => by
    have hti := hr.type
    rw [← view_self] at hti
    have hne : (view s ip j).addr s.disk (x / BSIZE) ≠ b := by
      have hbn := Dinode.lt_maxfile ha
      rw [Dinode.addr_eq hbn, ← pointers_of_alloc hj ht] at ha ⊢
      exact hr.owned.ptr_ne h.unused ha
    have htab := hr.owned.addr_ne_table hj ht hr.inum hti ha
    rw [view_self] at htab
    rw [Dinode.byte, Dinode.byte, h.addr hr hj ht ha,
      h.block _ (hr.owned.addr_range hj ht ha).1 hne htab]

variable {P : Finset Ptr}

theorem credit (hp : p ∈ P) (hc : Credit s ip P) : Credit s' ip P := by
  have hfree := free_of_alloc h.lt h.unused h.used
  have hmem : p ∈ P.filter fun q => (s.inode ip).din.ptr s.disk q = 0 :=
    Finset.mem_filter.mpr ⟨hp, h.empty⟩
  have hb : b ≠ 0 := hr.owned.ne_zero h.lt h.unused
  have herase : (P.filter fun q => (s'.inode ip).din.ptr s'.disk q = 0) =
      (P.filter fun q => (s.inode ip).din.ptr s.disk q = 0).erase p := by
    ext q
    rw [Finset.mem_filter, Finset.mem_erase, Finset.mem_filter, h.ptr]
    by_cases hqp : q = p
    · rw [if_pos hqp]
      exact ⟨fun hq => absurd hq.2 hb, fun hq => absurd hqp hq.1⟩
    · rw [if_neg hqp]
      exact ⟨fun hq => ⟨hqp, hq⟩, fun hq => hq.2⟩
  have hcard := Finset.card_erase_add_one hmem
  rw [Credit, lacking, herase, h.sb]
  rw [Credit, lacking] at hc
  omega

end Fills

theorem not_credit {s : State} {ip : Icache} {p : Ptr} (hp : p ∈ P)
    (hempty : (s.inode ip).din.ptr s.disk p = 0) (hfree : free s.disk s.sb = 0) :
    ¬ Credit s ip P := by
  intro hc
  have hpos : 0 < lacking s ip P :=
    Finset.card_pos.mpr ⟨p, Finset.mem_filter.mpr ⟨hp, hempty⟩⟩
  rw [Credit] at hc
  omega

/-! ## `bmap` -/

/-- A slot of `addrs` is loaded, or filled with a free block. -/
theorem loadAddr_spec {s : State} {ip : Icache} (hr : Ready s ip) (k : Fin (NDIRECT + 1)) :
    wp (loadAddr ip k) s
      (fun a s' => a ≠ 0 ∧ a = ((s'.inode ip).din.addrs k).toNat ∧
        (s' = s ∨ Fills s s' ip (.addr k) a))
      (fun e => e = .panic .ballocOutOfBlocks ∧ (s.inode ip).din.ptr s.disk (.addr k) = 0 ∧
        free s.disk s.sb = 0) := by
  rw [loadAddr, wp_bind, wp_get, wp_ite]
  refine ⟨fun hk => ?_, fun hk => ?_⟩
  · have hempty : (s.inode ip).din.ptr s.disk (.addr k) = 0 := by
      rw [Dinode.ptr, hk]
      rfl
    refine (balloc_spec hr.trans).chain (fun e he => ⟨he.1, hempty, he.2⟩) ?_
    rintro b s' ⟨hb, hu, l, rfl⟩
    have hbm := hr.owned.nmeta_le hb hu
    have hnat := toNat_ofNat_of_lt hr.wf hb
    refine ⟨hr.owned.ne_zero hb hu, ?_, Or.inr ?_⟩
    · simp only [upd_self, hnat]
    refine { lt := hb, unused := hu, empty := hempty, toLocal := ?_, din := ?_, used := ?_,
             dinode := ?_, super := ?_, block := ?_, ptr := ?_ }
    · refine ⟨rfl, rfl, rfl, rfl, rfl, rfl, fun iq hq => upd_of_ne hq, ?_, ?_, ?_, ?_⟩ <;>
        simp only [upd_self]
    · simp only [upd_self]
    · exact fun c hc => used_allocDisk hr.wf hbm hc
    · exact fun j hj => dinode_allocDisk hr.wf hbm hj
    · exact readsb_allocDisk hr.wf hbm
    · exact fun c hc hcb _ => allocDisk_of_ne hr.wf hb hc hcb
    · intro q
      simp only [upd_self]
      refine Dinode.ptr_setSlot hk hnat allocDisk_self (fun hne => ?_) q
      have hti := hr.type
      rw [← view_self] at hti hne ⊢
      refine allocDisk_of_ne hr.wf hb (hr.owned.ptr_range hr.inum hti hne).1 ?_
      rw [← pointers_of_alloc hr.inum hti] at hne ⊢
      exact hr.owned.ptr_ne hu hne
  · exact ⟨fun h0 => hk (UInt32.toNat_inj.mp h0), rfl, Or.inl rfl⟩

/-- An entry of the table is loaded, or filled with a free block. -/
theorem loadEntry_spec {s : State} {ip : Icache} (hr : Ready s ip) {t : ℕ}
    (ht : t = ((s.inode ip).din.addrs (Fin.last NDIRECT)).toNat) (ht0 : t ≠ 0)
    (j : Fin NINDIRECT) :
    wp (loadEntry t j) s
      (fun b s' => b ≠ 0 ∧ (s'.inode ip).din.ptr s'.disk (.entry j) = b ∧
        (s' = s ∨ Fills s s' ip (.entry j) b))
      (fun e => e = .panic .ballocOutOfBlocks ∧ (s.inode ip).din.ptr s.disk (.entry j) = 0 ∧
        free s.disk s.sb = 0) := by
  have htab : (s.inode ip).din.addrs (Fin.last NDIRECT) ≠ 0 := by
    intro h0
    rw [ht, h0] at ht0
    exact ht0 rfl
  have hptr : (s.inode ip).din.ptr s.disk (.entry j) = (entry (s.disk t) j).toNat := by
    rw [Dinode.ptr, if_neg htab, ht]
  rw [loadEntry, wp_bind, bread, wp_bind, wp_get, wp_pure, wp_ite]
  refine ⟨fun hj => ?_, fun hj => ?_⟩
  · have hempty : (s.inode ip).din.ptr s.disk (.entry j) = 0 := by
      rw [hptr, hj]
      rfl
    refine (balloc_spec hr.trans).chain (fun e he => ⟨he.1, hempty, he.2⟩) ?_
    rintro b s' ⟨hb, hu, l, rfl⟩
    have hbm := hr.owned.nmeta_le hb hu
    have hnat := toNat_ofNat_of_lt hr.wf hb
    have hti := hr.type
    have htp : t = (view s ip (s.inode ip).inum).ptr s.disk Ptr.table := by
      rw [view_self, ht]
      rfl
    have htb : t ≠ b := by
      rw [← view_self] at hti
      rw [htp, ← pointers_of_alloc hr.inum hti] at ht0 ⊢
      exact hr.owned.ptr_ne hu ht0
    have htm : s.sb.nmeta ≤ t := by
      rw [← view_self] at hti
      rw [htp] at ht0 ⊢
      exact (hr.owned.ptr_range hr.inum hti ht0).1
    rw [wp_bind]
    refine wp_logWrite (by exact hr.trans) ?_
    have hdisk : ∀ q, (s.inode ip).din.ptr (upd (allocDisk s.disk s.sb b) t
        (putEntry j (UInt32.ofNat b) (allocDisk s.disk s.sb b t))) q =
          if q = .entry j then b else (s.inode ip).din.ptr s.disk q := by
      refine Dinode.ptr_putEntry htab hnat ?_
      rw [← ht, upd_self, allocDisk_of_ne hr.wf hb htm htb]
    refine ⟨hr.owned.ne_zero hb hu, ?_, Or.inr ?_⟩
    · exact (hdisk _).trans (if_pos rfl)
    refine { lt := hb, unused := hu, empty := hempty, toLocal := ?_, din := rfl, used := ?_,
             dinode := ?_, super := ?_, block := ?_, ptr := hdisk }
    · exact ⟨rfl, rfl, rfl, rfl, rfl, rfl, fun _ _ => rfl, rfl, rfl, rfl, rfl⟩
    · intro c hc
      exact (hr.wf.used_update_data htm hc).trans (used_allocDisk hr.wf hbm hc)
    · intro i hi
      exact (hr.wf.dinode_update_data htm hi).trans (dinode_allocDisk hr.wf hbm hi)
    · exact (Superblock.Wf.readsb_update (hr.wf.two_le_of_nmeta_le htm)).trans
        (readsb_allocDisk hr.wf hbm)
    · intro c hc hcb hct
      have hct' : c ≠ t := by
        rw [htp, view_self]
        exact hct
      exact (upd_of_ne hct').trans (allocDisk_of_ne hr.wf hb hc hcb)
  · exact ⟨fun h0 => hj (UInt32.toNat_inj.mp h0), hptr, Or.inl rfl⟩

/-- The pointers that block `bn` of a file needs. -/
def Ptr.needed (bn : ℕ) (h : bn < MAXFILE) : Finset Ptr :=
  if bn < NDIRECT then {Ptr.ofBlock bn h} else {Ptr.table, Ptr.ofBlock bn h}

theorem Ptr.ofBlock_mem_needed (h : bn < MAXFILE) : Ptr.ofBlock bn h ∈ Ptr.needed bn h := by
  rw [Ptr.needed]
  by_cases hd : bn < NDIRECT
  · rw [if_pos hd]
    exact Finset.mem_singleton_self _
  · rw [if_neg hd]
    exact Finset.mem_insert_of_mem (Finset.mem_singleton_self _)

/-- What allocating blocks to the inode at `ip` leaves. -/
structure Progress (s s' : State) (ip : Icache) (P : Finset Ptr) : Prop where
  ready : Ready s' ip
  evolves : Evolves s s' ip 0 0
  credit : Credit s ip P → Credit s' ip P

protected theorem Progress.refl {s : State} {ip : Icache} (hr : Ready s ip) (P : Finset Ptr) :
    Progress s s ip P :=
  ⟨hr, Evolves.refl _ _ _ _, fun hc => hc⟩

theorem Progress.of_fills {s s' : State} {ip : Icache} (hr : Ready s ip) {p : Ptr} {b : ℕ}
    (hp : p ∈ P) (h : s' = s ∨ Fills s s' ip p b) : Progress s s' ip P := by
  rcases h with rfl | h
  · exact Progress.refl hr P
  · exact ⟨h.ready hr, h.evolves hr, h.credit hr hp⟩

theorem Progress.trans {s s' s'' : State} {ip : Icache}
    (h : Progress s s' ip P) (h' : Progress s' s'' ip P) : Progress s s'' ip P :=
  ⟨h'.ready, h.evolves.trans h'.evolves le_rfl le_rfl, fun hc => h'.credit (h.credit hc)⟩

/-- Where a block of the file has an address, `bmap` returns it and changes nothing. -/
theorem bmap_eq {s : State} {ip : Icache} (h : (s.inode ip).din.addr s.disk bn ≠ 0) :
    bmap ip bn s = .ok ((s.inode ip).din.addr s.disk bn, s) := by
  have hbn := Dinode.lt_maxfile h
  have hload : ∀ k, (s.inode ip).din.addrs k ≠ 0 →
      loadAddr ip k s = .ok (((s.inode ip).din.addrs k).toNat, s) := by
    intro k hk
    show (if (s.inode ip).din.addrs k = 0 then _ else _ : Op ℕ) s = _
    rw [if_neg hk]
    rfl
  rw [Dinode.addr_eq hbn] at h ⊢
  rw [bmap]
  by_cases hd : bn < NDIRECT
  · have hof : Ptr.ofBlock bn hbn = .addr ⟨bn, Nat.lt_succ_of_lt hd⟩ := dif_pos hd
    rw [hof] at h ⊢
    rw [dif_pos hd]
    refine hload _ fun h0 => h ?_
    rw [Dinode.ptr, h0]
    rfl
  · have hj : bn - NDIRECT < NINDIRECT := by
      rw [MAXFILE] at hbn
      omega
    have hof : Ptr.ofBlock bn hbn = .entry ⟨bn - NDIRECT, hj⟩ := dif_neg hd
    rw [hof] at h ⊢
    have htab : (s.inode ip).din.addrs (Fin.last NDIRECT) ≠ 0 := by
      intro h0
      exact h (by rw [Dinode.ptr, if_pos h0])
    rw [Dinode.ptr, if_neg htab] at h ⊢
    rw [dif_neg hd, if_pos hj]
    show (loadAddr ip (Fin.last NDIRECT) s >>= fun r => loadEntry r.1 (bn - NDIRECT) r.2) = _
    rw [hload _ htab]
    show (if entry (s.disk _) (bn - NDIRECT) = 0 then _ else _ : Op ℕ) s = _
    rw [if_neg fun h0 => h (by rw [h0]; rfl)]
    rfl

/-- **`bmap`** returns the address of a block of the file, allocating what is missing; it stops only
if too few blocks are free for that. -/
theorem bmap_spec {s : State} {ip : Icache} (hr : Ready s ip) (hbn : bn < MAXFILE)
    (hP : Ptr.needed bn hbn ⊆ P) :
    wp (bmap ip bn) s
      (fun a s' => Progress s s' ip P ∧ (s'.inode ip).din.addr s'.disk bn = a ∧ a ≠ 0 ∧
        ((s.inode ip).din.addr s.disk bn ≠ 0 → s' = s))
      (fun e => e = .panic .ballocOutOfBlocks ∧ ¬ Credit s ip P) := by
  by_cases haddr : (s.inode ip).din.addr s.disk bn ≠ 0
  · exact wp_of_ok (bmap_eq haddr) ⟨Progress.refl hr P, rfl, haddr, fun _ => rfl⟩
  have hmem := hP (Ptr.ofBlock_mem_needed hbn)
  rw [bmap]
  by_cases hd : bn < NDIRECT
  · have hof : Ptr.ofBlock bn hbn = .addr ⟨bn, Nat.lt_succ_of_lt hd⟩ := dif_pos hd
    rw [dif_pos hd]
    rw [hof] at hmem
    refine (loadAddr_spec hr _).mono ?_ ?_
    · rintro a s' ⟨ha0, ha, hs'⟩
      refine ⟨Progress.of_fills hr hmem hs', ?_, ha0, fun h => absurd h haddr⟩
      rw [Dinode.addr_eq hbn, hof, ha]
      rfl
    · rintro e ⟨he, hempty, hfree⟩
      exact ⟨he, not_credit hmem hempty hfree⟩
  · have hj : bn - NDIRECT < NINDIRECT := by
      rw [MAXFILE] at hbn
      omega
    have hof : Ptr.ofBlock bn hbn = .entry ⟨bn - NDIRECT, hj⟩ := dif_neg hd
    have htab : Ptr.table ∈ P := by
      refine hP ?_
      rw [Ptr.needed, if_neg hd]
      exact Finset.mem_insert_self _ _
    rw [dif_neg hd, if_pos hj]
    rw [hof] at hmem
    refine (loadAddr_spec hr (Fin.last NDIRECT)).chain ?_ ?_
    · rintro e ⟨he, hempty, hfree⟩
      exact ⟨he, not_credit htab hempty hfree⟩
    · rintro t s1 ⟨ht0, ht, hs1⟩
      have hp := Progress.of_fills hr htab hs1
      refine (loadEntry_spec hp.ready ht ht0 ⟨bn - NDIRECT, hj⟩).mono ?_ ?_
      · rintro a s' ⟨ha0, ha, hs'⟩
        refine ⟨hp.trans (Progress.of_fills hp.ready hmem hs'), ?_, ha0, fun h => absurd h haddr⟩
        rw [Dinode.addr_eq hbn, hof, ha]
      · rintro e ⟨he, hempty, hfree⟩
        exact ⟨he, fun hc => not_credit hmem hempty hfree (hp.credit hc)⟩

end Xv6.Fs
