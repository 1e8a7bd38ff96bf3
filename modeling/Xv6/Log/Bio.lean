import Mathlib.Data.Fintype.Card
import Xv6.Param

/-!
# The buffer cache

The `NBUF` buffers of `bio.c` over the disk.  A buffer holds a copy of one block, belongs to at
most one process at a time (its sleep lock), and can be reused for another block when nobody holds
it and `B_DIRTY` is not set.  Which of the reusable buffers `bget` takes is an argument, so that
everything below holds for any order of the list that the source keeps.

A wait for the lock of a buffer is a call that is not enabled yet; so `bread` with its read from
the disk is one step, and `refcnt` is 1 if the buffer has an owner and 0 if not.  `bget: no buffers`
is a call that is never enabled.

What the rest of the system sees of all this is `view`, the current contents of a block, and
`isDirty`, whether it waits to be written.  Reading a block changes neither (`bread_spec`), as long
as the buffers that are not dirty agree with the disk (`CacheOk`).
-/

namespace Xv6.Log

/-- A disk block, as the sequence of its `int`s. -/
abbrev Block := ℕ → ℕ

/-- `struct buf`, without the links of the lists it is on. -/
structure Buf where
  blockno : Option ℕ := none
  data : Block := fun _ => 0
  valid : Bool := false
  dirty : Bool := false
  owner : Option Slot := none

/-- The disk, and `bcache`. -/
structure Dev where
  disk : ℕ → Block
  buf : Fin NBUF → Buf

def Dev.modBuf (m : Dev) (i : Fin NBUF) (f : Buf → Buf) : Dev :=
  { m with buf := Function.update m.buf i (f (m.buf i)) }

def Dev.lookup (m : Dev) (b : ℕ) : Option (Fin NBUF) :=
  (List.finRange NBUF).find? fun i => (m.buf i).blockno == some b

/-- Return the buffer of the block `b`, locked by `p`; the buffer `v` if `b` is not cached. -/
def bget (p : Slot) (b : ℕ) (v : Fin NBUF) (m : Dev) : Option (Fin NBUF × Dev) :=
  match m.lookup b with
  | some i =>
    if (m.buf i).owner = none then some (i, m.modBuf i fun x => { x with owner := some p })
    else none
  | none =>
    if (m.buf v).owner = none ∧ (m.buf v).dirty = false then
      some (v, m.modBuf v fun x =>
        { x with blockno := some b, valid := false, dirty := false, owner := some p })
    else none

/-- Return a locked buffer with the contents of the block `b`. -/
def bread (p : Slot) (b : ℕ) (v : Fin NBUF) (m : Dev) : Option (Fin NBUF × Dev) :=
  match bget p b v m with
  | none => none
  | some (i, m) =>
    if (m.buf i).valid then some (i, m)
    else some (i, m.modBuf i fun x => { x with data := m.disk b, valid := true })

/-- Change the contents of a buffer, as its owner does. -/
def Dev.setData (m : Dev) (i : Fin NBUF) (d : Block) : Dev :=
  m.modBuf i fun x => { x with data := d }

/-- Write the buffer's contents to disk. -/
def bwrite (i : Fin NBUF) (m : Dev) : Dev :=
  match (m.buf i).blockno with
  | none => m
  | some b =>
    { m.modBuf i (fun x => { x with valid := true, dirty := false }) with
      disk := Function.update m.disk b (m.buf i).data }

def brelse (i : Fin NBUF) (m : Dev) : Dev := m.modBuf i fun x => { x with owner := none }

/-- The current contents of the block `b`. -/
def Dev.view (m : Dev) (b : ℕ) : Block :=
  match m.lookup b with
  | some i => (m.buf i).data
  | none => m.disk b

def Dev.isDirty (m : Dev) (b : ℕ) : Bool :=
  match m.lookup b with
  | some i => (m.buf i).dirty
  | none => false

/-! ## Consistency

A process that is in the middle of a change to a block (`busy p b`) owns its buffer, and only such
a buffer may differ from the disk without being dirty. -/

/-- The cache is consistent, while the blocks with `busy p b` are being changed by `p`. -/
structure CacheOk (m : Dev) (busy : Slot → ℕ → Prop) : Prop where
  valid : ∀ {i b}, (m.buf i).blockno = some b → (m.buf i).valid = true
  inj : ∀ {i j b}, (m.buf i).blockno = some b → (m.buf j).blockno = some b → i = j
  clean : ∀ {i b}, (m.buf i).blockno = some b → (m.buf i).dirty = false → (∀ p, ¬ busy p b) →
    (m.buf i).data = m.disk b
  owned : ∀ {p b}, busy p b → ∃ i, (m.buf i).blockno = some b ∧ (m.buf i).owner = some p

variable {m t : Dev} {busy : Slot → ℕ → Prop} {p : Slot} {b x : ℕ} {i v j : Fin NBUF} {d : Block}

@[simp] theorem modBuf_self (m : Dev) (i : Fin NBUF) (f : Buf → Buf) :
    (m.modBuf i f).buf i = f (m.buf i) :=
  Function.update_self ..

theorem modBuf_of_ne (m : Dev) {i : Fin NBUF} (f : Buf → Buf) (h : j ≠ i) :
    (m.modBuf i f).buf j = m.buf j :=
  Function.update_of_ne h ..

theorem lookup_eq_none_iff : m.lookup b = none ↔ ∀ i, (m.buf i).blockno ≠ some b := by
  unfold Dev.lookup
  rw [List.find?_eq_none]
  simp [List.mem_finRange]

theorem blockno_of_lookup (h : m.lookup b = some i) : (m.buf i).blockno = some b := by
  have := List.find?_some h
  simpa using this

theorem CacheOk.lookup_eq (h : CacheOk m busy) (hi : (m.buf i).blockno = some b) :
    m.lookup b = some i := by
  cases hl : m.lookup b with
  | none => exact absurd hi (lookup_eq_none_iff.mp hl i)
  | some j => rw [h.inj hi (blockno_of_lookup hl)]

theorem CacheOk.view_of_buf (h : CacheOk m busy) (hi : (m.buf i).blockno = some b) :
    m.view b = (m.buf i).data := by
  rw [Dev.view, h.lookup_eq hi]

theorem CacheOk.isDirty_of_buf (h : CacheOk m busy) (hi : (m.buf i).blockno = some b) :
    m.isDirty b = (m.buf i).dirty := by
  rw [Dev.isDirty, h.lookup_eq hi]

theorem view_of_not_cached (h : ∀ i, (m.buf i).blockno ≠ some b) : m.view b = m.disk b := by
  rw [Dev.view, lookup_eq_none_iff.mpr h]

theorem isDirty_of_not_cached (h : ∀ i, (m.buf i).blockno ≠ some b) : m.isDirty b = false := by
  rw [Dev.isDirty, lookup_eq_none_iff.mpr h]

/-- A block that is not being changed and is not dirty is the same on the disk. -/
theorem CacheOk.view_eq_disk (h : CacheOk m busy) (hb : ∀ p, ¬ busy p b)
    (hd : m.isDirty b = false) : m.view b = m.disk b := by
  by_cases hc : ∃ i, (m.buf i).blockno = some b
  · obtain ⟨i, hi⟩ := hc
    rw [h.isDirty_of_buf hi] at hd
    rw [h.view_of_buf hi]
    exact h.clean hi hd hb
  · exact view_of_not_cached fun i hi => hc ⟨i, hi⟩

theorem cacheOk_empty (disk : ℕ → Block) : CacheOk ⟨disk, fun _ => {}⟩ fun _ _ => False where
  valid := fun h => by cases h
  inj := fun h => by cases h
  clean := fun h => by cases h
  owned := fun h => h.elim

/-! ## Changing one buffer -/

/-- The two caches show the same blocks. -/
structure SameView (m t : Dev) : Prop where
  view : ∀ b, t.view b = m.view b
  isDirty : ∀ b, t.isDirty b = m.isDirty b

/-- Only the buffer `i` changes, which is and remains the buffer of `b`, and the disk at most
at `b`. -/
structure ChangeAt (m t : Dev) (i : Fin NBUF) (b : ℕ) : Prop where
  before : (m.buf i).blockno = some b
  after : (t.buf i).blockno = some b
  buf : ∀ {j}, j ≠ i → t.buf j = m.buf j
  disk : ∀ {x}, x ≠ b → t.disk x = m.disk x

theorem changeAt_modBuf {f : Buf → Buf} (hi : (m.buf i).blockno = some b)
    (hf : (f (m.buf i)).blockno = (m.buf i).blockno) : ChangeAt m (m.modBuf i f) i b :=
  ⟨hi, by rw [modBuf_self, hf, hi], modBuf_of_ne m f, fun _ => rfl⟩

theorem ChangeAt.blockno (h : ChangeAt m t i b) (j : Fin NBUF) :
    (t.buf j).blockno = (m.buf j).blockno := by
  by_cases hj : j = i
  · rw [hj, h.after, h.before]
  · rw [h.buf hj]

/-- The buffer `i` becomes the one of `b`, which no other has.  The other buffers of the cache stay
consistent, so only the one that changes is to be checked. -/
theorem CacheOk.replace (h : CacheOk m busy) {busy' : Slot → ℕ → Prop}
    (hbuf : ∀ {j}, j ≠ i → t.buf j = m.buf j) (hdisk : ∀ {x}, x ≠ b → t.disk x = m.disk x)
    (hafter : (t.buf i).blockno = some b)
    (hnew : ∀ {j x}, j ≠ i → (m.buf j).blockno = some x → x ≠ b)
    (hold : ∀ {q x}, busy q x → x ≠ b → (m.buf i).blockno ≠ some x)
    (hbusy : ∀ {q x}, x ≠ b → (busy' q x ↔ busy q x)) (hvalid : (t.buf i).valid = true)
    (hclean : (t.buf i).dirty = false → (∀ q, ¬ busy' q b) → (t.buf i).data = t.disk b)
    (howned : ∀ q, busy' q b → (t.buf i).owner = some q) : CacheOk t busy' := by
  constructor
  · intro j x hj
    by_cases hji : j = i
    · rw [hji]
      exact hvalid
    · rw [hbuf hji] at hj ⊢
      exact h.valid hj
  · intro j k x hj hk
    by_cases hji : j = i
    · by_cases hki : k = i
      · rw [hji, hki]
      · rw [hji, hafter] at hj
        rw [hbuf hki] at hk
        exact absurd (Option.some.inj hj).symm (hnew hki hk)
    · rw [hbuf hji] at hj
      by_cases hki : k = i
      · rw [hki, hafter] at hk
        exact absurd (Option.some.inj hk).symm (hnew hji hj)
      · rw [hbuf hki] at hk
        exact h.inj hj hk
  · intro j x hj hd hx
    by_cases hji : j = i
    · rw [hji] at hj hd ⊢
      obtain rfl : b = x := Option.some.inj (hafter.symm.trans hj)
      exact hclean hd hx
    · rw [hbuf hji] at hj hd ⊢
      rw [hdisk (hnew hji hj)]
      exact h.clean hj hd fun q hq => hx q ((hbusy (hnew hji hj)).mpr hq)
  · intro q x hq
    by_cases hxb : x = b
    · rw [hxb] at hq ⊢
      exact ⟨i, hafter, howned q hq⟩
    · have hq' := (hbusy hxb).mp hq
      obtain ⟨j, hj, ho⟩ := h.owned hq'
      have hji : j ≠ i := by
        rintro rfl
        exact hold hq' hxb hj
      exact ⟨j, by rwa [hbuf hji], by rwa [hbuf hji]⟩

theorem CacheOk.change (h : CacheOk m busy) (hc : ChangeAt m t i b) {busy' : Slot → ℕ → Prop}
    (hbusy : ∀ {q x}, x ≠ b → (busy' q x ↔ busy q x)) (hvalid : (t.buf i).valid = true)
    (hclean : (t.buf i).dirty = false → (∀ q, ¬ busy' q b) → (t.buf i).data = t.disk b)
    (howned : ∀ q, busy' q b → (t.buf i).owner = some q) : CacheOk t busy' :=
  h.replace hc.buf hc.disk hc.after (fun hji hj hxb => hji (h.inj (hxb ▸ hj) hc.before))
    (fun _ hxb hx => hxb (Option.some.inj (hx.symm.trans hc.before))) hbusy hvalid hclean howned

theorem ChangeAt.lookup (h : ChangeAt m t i b) (x : ℕ) : t.lookup x = m.lookup x := by
  unfold Dev.lookup
  simp only [h.blockno]

theorem ChangeAt.lookup_ne (h : ChangeAt m t i b) (hx : x ≠ b) (hj : m.lookup x = some j) :
    j ≠ i := by
  rintro rfl
  exact hx (Option.some.inj ((blockno_of_lookup hj).symm.trans h.before))

theorem ChangeAt.view (h : ChangeAt m t i b) (hok : CacheOk t busy) (x : ℕ) :
    t.view x = if x = b then (t.buf i).data else m.view x := by
  split_ifs with hx
  · rw [hx, hok.view_of_buf h.after]
  · unfold Dev.view
    rw [h.lookup]
    split
    · rename_i j hj
      rw [h.buf (h.lookup_ne hx hj)]
    · exact h.disk hx

theorem ChangeAt.isDirty (h : ChangeAt m t i b) (hok : CacheOk t busy) (x : ℕ) :
    t.isDirty x = if x = b then (t.buf i).dirty else m.isDirty x := by
  split_ifs with hx
  · rw [hx, hok.isDirty_of_buf h.after]
  · unfold Dev.isDirty
    rw [h.lookup]
    split
    · rename_i j hj
      rw [h.buf (h.lookup_ne hx hj)]
    · rfl

/-- The lock of a buffer whose block is not being changed may change hands. -/
theorem CacheOk.setOwner (h : CacheOk m busy) (hi : (m.buf i).blockno = some b)
    (hb : ∀ q, ¬ busy q b) (o : Option Slot) :
    CacheOk (m.modBuf i fun x => { x with owner := o }) busy ∧
      SameView m (m.modBuf i fun x => { x with owner := o }) := by
  have hc : ChangeAt m (m.modBuf i fun x => { x with owner := o }) i b := changeAt_modBuf hi rfl
  have hok : CacheOk (m.modBuf i fun x => { x with owner := o }) busy := by
    refine h.change hc (fun _ => Iff.rfl) ?_ ?_ fun q hq => absurd hq (hb q)
    · rw [modBuf_self]
      exact h.valid hi
    · rw [modBuf_self]
      exact h.clean hi
  refine ⟨hok, fun x => ?_, fun x => ?_⟩
  · rw [hc.view hok, modBuf_self]
    split_ifs with hx
    · rw [hx, h.view_of_buf hi]
    · rfl
  · rw [hc.isDirty hok, modBuf_self]
    split_ifs with hx
    · rw [hx, h.isDirty_of_buf hi]
    · rfl

/-! ## Reading -/

/-- What `bread` makes of the cache. -/
structure Fetched (m t : Dev) (busy : Slot → ℕ → Prop) (p : Slot) (b : ℕ) (i : Fin NBUF) :
    Prop where
  ok : CacheOk t busy
  disk : t.disk = m.disk
  same : SameView m t
  blockno : (t.buf i).blockno = some b
  owner : (t.buf i).owner = some p
  free : ∀ q, ¬ busy q b
  rest : ∀ j, (m.buf j).owner ≠ none → t.buf j = m.buf j

theorem fetched_of_cached (h : CacheOk m busy) (hi : (m.buf i).blockno = some b)
    (ho : (m.buf i).owner = none) :
    Fetched m (m.modBuf i fun x => { x with owner := some p }) busy p b i := by
  have hfree : ∀ q, ¬ busy q b := by
    intro q hq
    obtain ⟨j, hj, hjo⟩ := h.owned hq
    rw [h.inj hj hi, ho] at hjo
    cases hjo
  obtain ⟨hok, hsame⟩ := h.setOwner hi hfree (some p)
  refine ⟨hok, rfl, hsame, ?_, ?_, hfree, ?_⟩
  · rw [modBuf_self]
    exact hi
  · rw [modBuf_self]
  · intro j hj
    exact modBuf_of_ne m _ fun hji => hj (hji ▸ ho)

theorem fetched_of_recycled (h : CacheOk m busy) (hb : ∀ i, (m.buf i).blockno ≠ some b)
    (ho : (m.buf v).owner = none) (hd : (m.buf v).dirty = false) :
    Fetched m (m.modBuf v fun _ => ⟨some b, m.disk b, true, false, some p⟩) busy p b v := by
  have hfree : ∀ q, ¬ busy q b := by
    intro q hq
    obtain ⟨j, hj, -⟩ := h.owned hq
    exact hb j hj
  have hidle : ∀ {q x}, busy q x → (m.buf v).blockno ≠ some x := by
    intro q x hq hx
    obtain ⟨j, hj, hjo⟩ := h.owned hq
    rw [h.inj hj hx, ho] at hjo
    cases hjo
  have hself := modBuf_self m v fun _ => ⟨some b, m.disk b, true, false, some p⟩
  have hother : ∀ {j}, j ≠ v → _ := modBuf_of_ne m fun _ => ⟨some b, m.disk b, true, false, some p⟩
  have hdisk : (m.modBuf v fun _ => ⟨some b, m.disk b, true, false, some p⟩).disk = m.disk := rfl
  generalize m.modBuf v (fun _ => ⟨some b, m.disk b, true, false, some p⟩) =
    t at hself hother hdisk ⊢
  have hok : CacheOk t busy := by
    refine h.replace hother (fun _ => by rw [hdisk]) (by rw [hself]) (fun _ hj hxb =>
      hb _ (hxb ▸ hj))
      (fun hq _ => hidle hq) (fun _ => Iff.rfl) (by rw [hself]) ?_ fun q hq => absurd hq (hfree q)
    rw [hself, hdisk]
    exact fun _ _ => rfl
  have hcases : ∀ x, t.view x = m.view x ∧ t.isDirty x = m.isDirty x := by
    intro x
    cases hx : t.lookup x with
    | some j =>
      have hj := blockno_of_lookup hx
      rw [hok.view_of_buf hj, hok.isDirty_of_buf hj]
      by_cases hjv : j = v
      · rw [hjv, hself] at hj ⊢
        obtain rfl := Option.some.inj hj
        rw [view_of_not_cached hb, isDirty_of_not_cached hb]
        exact ⟨rfl, rfl⟩
      · rw [hother hjv] at hj ⊢
        rw [h.view_of_buf hj, h.isDirty_of_buf hj]
        exact ⟨rfl, rfl⟩
    | none =>
      have hn := lookup_eq_none_iff.mp hx
      rw [view_of_not_cached hn, isDirty_of_not_cached hn, hdisk]
      cases hm : m.lookup x with
      | none =>
        have hn' := lookup_eq_none_iff.mp hm
        rw [view_of_not_cached hn', isDirty_of_not_cached hn']
        exact ⟨rfl, rfl⟩
      | some j =>
        -- the block that loses its buffer is as on the disk
        have hj := blockno_of_lookup hm
        obtain rfl : j = v := by
          by_contra hjv
          exact hn j (by rwa [hother hjv])
        rw [h.view_of_buf hj, h.isDirty_of_buf hj]
        exact ⟨(h.clean hj hd fun q hq => hidle hq hj).symm, hd.symm⟩
  refine ⟨hok, hdisk, ⟨fun x => (hcases x).1, fun x => (hcases x).2⟩, ?_, ?_, hfree, ?_⟩
  · rw [hself]
  · rw [hself]
  · exact fun j hj => hother fun hjv => hj (hjv ▸ ho)

/-- **`bread` changes nothing that can be seen**, and leaves its caller with the buffer. -/
theorem bread_spec (h : CacheOk m busy) (hs : bread p b v m = some (i, t)) :
    Fetched m t busy p b i := by
  unfold bread bget at hs
  cases hl : m.lookup b with
  | some j =>
    rw [hl] at hs
    have hj := blockno_of_lookup hl
    by_cases ho : (m.buf j).owner = none
    · simp only [if_pos ho, modBuf_self, h.valid hj, if_true, Option.some.injEq,
        Prod.mk.injEq] at hs
      obtain ⟨rfl, rfl⟩ := hs
      exact fetched_of_cached h hj ho
    · simp only [if_neg ho] at hs
      cases hs
  | none =>
    rw [hl] at hs
    by_cases ho : (m.buf v).owner = none ∧ (m.buf v).dirty = false
    · simp only [if_pos ho, modBuf_self, Bool.false_eq_true, if_false, Option.some.injEq,
        Prod.mk.injEq] at hs
      obtain ⟨rfl, rfl⟩ := hs
      have := fetched_of_recycled (p := p) h (lookup_eq_none_iff.mp hl) ho.1 ho.2
      unfold Dev.modBuf at this ⊢
      simpa using this
    · simp only [if_neg ho] at hs
      cases hs

/-! ## Writing -/

/-- What `brelse` makes of the cache: nothing. -/
theorem brelse_spec (h : CacheOk m busy) (hi : (m.buf i).blockno = some b)
    (hb : ∀ q, ¬ busy q b) : CacheOk (brelse i m) busy ∧ SameView m (brelse i m) :=
  h.setOwner hi hb none

theorem brelse_blockno (i j : Fin NBUF) (m : Dev) :
    ((brelse i m).buf j).blockno = (m.buf j).blockno := by
  unfold brelse
  by_cases hj : j = i
  · rw [hj, modBuf_self]
  · rw [modBuf_of_ne m _ hj]

/-- The block `b` gets the contents `d`, in the cache and on the disk. -/
structure Stored (m t : Dev) (busy : Slot → ℕ → Prop) (b : ℕ) (d : Block) : Prop where
  ok : CacheOk t busy
  disk : t.disk = Function.update m.disk b d
  view : ∀ x, t.view x = if x = b then d else m.view x
  isDirty : ∀ x, t.isDirty x = if x = b then false else m.isDirty x
  cached : ∃ i, (t.buf i).blockno = some b

theorem bwrite_eq (hi : (m.buf i).blockno = some b) :
    (bwrite i m).buf = (m.modBuf i fun x => { x with valid := true, dirty := false }).buf ∧
      (bwrite i m).disk = Function.update m.disk b (m.buf i).data := by
  unfold bwrite
  simp [hi]

theorem bwrite_spec (h : CacheOk m busy) (hi : (m.buf i).blockno = some b)
    (hb : ∀ q, ¬ busy q b) : Stored m (bwrite i (m.setData i d)) busy b d ∧
      ∀ j, ((bwrite i (m.setData i d)).buf j).blockno = (m.buf j).blockno := by
  have hset : (m.setData i d).buf i = { m.buf i with data := d } := modBuf_self m i _
  obtain ⟨hbuf, hdisk⟩ := bwrite_eq (m := m.setData i d) (by rw [hset, hi])
  have hat : (bwrite i (m.setData i d)).buf i =
      { m.buf i with data := d, valid := true, dirty := false } := by
    rw [hbuf, modBuf_self, hset]
  rw [hset] at hdisk
  have hc : ChangeAt m (bwrite i (m.setData i d)) i b := by
    refine ⟨hi, by rw [hat, hi], fun hj => ?_, fun hx => ?_⟩
    · rw [hbuf, modBuf_of_ne _ _ hj]
      exact modBuf_of_ne m _ hj
    · rw [hdisk, Function.update_of_ne hx]
      rfl
  have hok : CacheOk (bwrite i (m.setData i d)) busy := by
    refine h.change hc (fun _ => Iff.rfl) ?_ ?_ fun q hq => absurd hq (hb q)
    · rw [hat]
    · intro _ _
      rw [hat, hdisk, Function.update_self]
  refine ⟨⟨hok, hdisk, fun x => ?_, fun x => ?_, i, hc.after⟩, hc.blockno⟩
  · rw [hc.view hok, hat]
  · rw [hc.isDirty hok, hat]

theorem Stored.brelse (h : Stored m t busy b d)
    (hj : (t.buf j).blockno = some x) (hx : ∀ q, ¬ busy q x) : Stored m (brelse j t) busy b d := by
  obtain ⟨hok, hsame⟩ := brelse_spec h.ok hj hx
  obtain ⟨i, hi⟩ := h.cached
  exact ⟨hok, h.disk, fun y => (hsame.view y).trans (h.view y),
    fun y => (hsame.isDirty y).trans (h.isDirty y), i, (brelse_blockno j i t).trans hi⟩

theorem Stored.of_fetched {u : Dev} (hf : Fetched m u busy p x i)
    (h : Stored u t busy b d) : Stored m t busy b d :=
  ⟨h.ok, by rw [h.disk, hf.disk], fun y => by rw [h.view, hf.same.view],
    fun y => by rw [h.isDirty, hf.same.isDirty], h.cached⟩

/-- **There are only `NBUF` buffers**: fewer blocks are dirty if some other block is cached. -/
theorem length_lt_of_isDirty {l : List ℕ} (hl : l.Nodup)
    (hd : ∀ b ∈ l, m.isDirty b = true) (hi : (m.buf i).blockno = some b) (hb : b ∉ l) :
    l.length < NBUF := by
  -- a dirty block has a buffer
  have hbuf : ∀ x ∈ l, (m.buf ((m.lookup x).getD i)).blockno = some x := by
    intro x hx
    cases hx' : m.lookup x with
    | none =>
      have := hd x hx
      rw [Dev.isDirty, hx'] at this
      cases this
    | some j => exact blockno_of_lookup hx'
  have hcard : l.toFinset.card ≤ (Finset.univ.erase i).card := by
    refine Finset.card_le_card_of_injOn (fun x => (m.lookup x).getD i) ?_ ?_
    · intro x hx
      have hx' := hbuf x (List.mem_toFinset.mp hx)
      refine Finset.mem_coe.mpr (Finset.mem_erase.mpr ⟨fun heq => ?_, Finset.mem_univ _⟩)
      dsimp only at heq
      rw [heq, hi] at hx'
      exact hb (Option.some.inj hx' ▸ List.mem_toFinset.mp hx)
    · intro x hx y hy heq
      dsimp only at heq
      have hx' := hbuf x (List.mem_toFinset.mp hx)
      rw [heq, hbuf y (List.mem_toFinset.mp hy)] at hx'
      exact (Option.some.inj hx').symm
  rw [List.toFinset_card_of_nodup hl, Finset.card_erase_of_mem (Finset.mem_univ i),
    Finset.card_univ, Fintype.card_fin] at hcard
  have := nbuf_pos
  omega

end Xv6.Log
