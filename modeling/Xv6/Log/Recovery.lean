import Xv6.Lib.RedoLog
import Xv6.Log.Machine

/-!
# What recovery makes of a disk

`logged` reads the log from a disk, and `recovered` is the disk with this log installed: what
`recover_from_log` is going to produce if it is left to finish.  The disk writes of `commit` and of
`recover_from_log` are of four kinds, and only one of them changes what recovery produces.

* A log block, while the header is empty: nothing (`recovered_of_empty`).
* The header, when the log blocks are written: all blocks of the transaction at once
  (`recovered_of_head`).
* A home block, as the log says: nothing (`recovered_update`).
* The header again, emptied when all blocks are installed: nothing (`recovered_eq_disk`).

The second part says what the functions of `log.c` do to the cache and the disk.
-/

namespace Xv6.Log

open Lib

variable {sb : Superblock} {disk disk' : ℕ → Block} {b tail : ℕ} {lh : List ℕ} {d : Block}

def logged (sb : Superblock) (disk : ℕ → Block) : List (ℕ × Block) :=
  (List.range (disk sb.logstart 0)).map fun k =>
    (disk sb.logstart (k + 1), disk (sb.logstart + k + 1))

def recovered (sb : Superblock) (disk : ℕ → Block) : ℕ → Block := install (logged sb disk) disk

/-- The header on the disk names different home blocks, no more than the log has room for. -/
structure HeadOk (sb : Superblock) (disk : ℕ → Block) : Prop where
  nodup : (readHead (disk sb.logstart)).Nodup
  home : ∀ b ∈ readHead (disk sb.logstart), sb.IsHome b
  lt : disk sb.logstart 0 < sb.nlog

theorem Superblock.not_isHome_logstart (sb : Superblock) : ¬ sb.IsHome sb.logstart := by
  have := sb.nbuf_le
  have := nbuf_pos
  unfold Superblock.IsHome
  omega

theorem Superblock.not_isHome_log (sb : Superblock) {k : ℕ} (h : k + 1 < sb.nlog) :
    ¬ sb.IsHome (sb.logstart + k + 1) := by
  unfold Superblock.IsHome
  omega

/-! ## The header -/

@[simp] theorem length_readHead (d : Block) : (readHead d).length = d 0 := by
  rw [readHead, List.length_map, List.length_range]

theorem getElem?_readHead {k : ℕ} (h : k < d 0) : (readHead d)[k]? = some (d (k + 1)) := by
  rw [readHead, List.getElem?_map, List.getElem?_range h]
  rfl

theorem readHead_headBlock (lh : List ℕ) (d : Block) : readHead (headBlock lh d) = lh := by
  refine List.ext_getElem? fun k => ?_
  by_cases hk : k < lh.length
  · rw [getElem?_readHead hk, List.getElem?_eq_getElem hk]
    simp [headBlock, hk]
  · rw [List.getElem?_eq_none (by rw [length_readHead]; exact not_lt.mp hk),
      List.getElem?_eq_none (not_lt.mp hk)]

theorem keys_logged (sb : Superblock) (disk : ℕ → Block) :
    (logged sb disk).map Prod.fst = readHead (disk sb.logstart) := by
  rw [logged, List.map_map]
  rfl

/-- The log depends only on the header and on the log blocks that the header counts. -/
theorem logged_congr (hhead : disk' sb.logstart = disk sb.logstart)
    (hlog : ∀ k < disk sb.logstart 0, disk' (sb.logstart + k + 1) = disk (sb.logstart + k + 1)) :
    logged sb disk' = logged sb disk := by
  unfold logged
  rw [hhead]
  refine List.map_congr_left fun k hk => ?_
  rw [hlog k (List.mem_range.mp hk)]

theorem recovered_of_empty (h : disk sb.logstart 0 = 0) : recovered sb disk = disk := by
  unfold recovered logged
  rw [h]
  rfl

theorem headOk_of_empty (h : disk sb.logstart 0 = 0) : HeadOk sb disk := by
  have hnil : readHead (disk sb.logstart) = [] := by
    rw [readHead, h]
    rfl
  refine ⟨by rw [hnil]; exact List.nodup_nil, by rw [hnil]; simp, ?_⟩
  have := sb.nbuf_le
  have := nbuf_pos
  omega

/-- What recovery writes to a block that the header names. -/
theorem HeadOk.recovered_of_getElem? (h : HeadOk sb disk)
    (hk : (readHead (disk sb.logstart))[tail]? = some b) :
    recovered sb disk b = disk (sb.logstart + tail + 1) := by
  obtain ⟨hlt, rfl⟩ := List.getElem?_eq_some_iff.mp hk
  unfold recovered
  have hlt' : tail < disk sb.logstart 0 := by rwa [length_readHead] at hlt
  have hmem : (disk sb.logstart (tail + 1), disk (sb.logstart + tail + 1)) ∈ logged sb disk :=
    List.mem_map.mpr ⟨tail, List.mem_range.mpr hlt', rfl⟩
  have hget : (readHead (disk sb.logstart))[tail] = disk sb.logstart (tail + 1) := by
    simp [readHead]
  rw [hget]
  exact install_of_mem (by rw [keys_logged]; exact h.nodup) hmem

/-- **Installing a block changes nothing for recovery.** -/
theorem HeadOk.recovered_update (h : HeadOk sb disk) (hb : b ∈ readHead (disk sb.logstart)) :
    HeadOk sb (Function.update disk b d) ∧
      recovered sb (Function.update disk b d) = recovered sb disk := by
  have hhome := h.home b hb
  have hhead : Function.update disk b d sb.logstart = disk sb.logstart := by
    refine Function.update_of_ne (fun heq => ?_) ..
    exact sb.not_isHome_logstart (heq ▸ hhome)
  have hlogged : logged sb (Function.update disk b d) = logged sb disk := by
    refine logged_congr hhead fun k hk => Function.update_of_ne (fun heq => ?_) ..
    exact sb.not_isHome_log (lt_of_le_of_lt hk h.lt) (heq ▸ hhome)
  refine ⟨⟨by rw [hhead]; exact h.nodup, by rw [hhead]; exact h.home, by rw [hhead]; exact h.lt⟩,
    ?_⟩
  unfold recovered
  rw [hlogged]
  exact install_update (by rw [keys_logged]; exact hb)

/-- **The commit point.**  With the header for `lh` on the disk, recovery writes `g b` to every
block `b` of `lh`, if that is what the log blocks hold. -/
theorem recovered_of_head {g : ℕ → Block} (hhead : disk sb.logstart = headBlock lh d)
    (hlog : ∀ k b, lh[k]? = some b → disk (sb.logstart + k + 1) = g b) (b : ℕ) :
    recovered sb disk b = if b ∈ lh then g b else disk b := by
  have hlogged : logged sb disk = lh.map fun b => (b, g b) := by
    refine List.ext_getElem? fun k => ?_
    unfold logged
    rw [hhead, List.getElem?_map, List.getElem?_map, headBlock]
    by_cases hk : k < lh.length
    · rw [List.getElem?_range hk, List.getElem?_eq_getElem hk]
      simp [headBlock, hk, hlog k _ (List.getElem?_eq_getElem hk)]
    · rw [List.getElem?_eq_none (not_lt.mp hk), List.getElem?_eq_none]
      · rfl
      · rw [List.length_range]
        exact not_lt.mp hk
  unfold recovered
  rw [hlogged, install_map]

theorem recovered_eq_disk
    (h : ∀ b ∈ readHead (disk sb.logstart), disk b = recovered sb disk b) :
    recovered sb disk = disk := by
  funext b
  by_cases hb : b ∈ readHead (disk sb.logstart)
  · exact (h b hb).symm
  · exact install_of_notMem (by rwa [keys_logged])

/-! ## The functions of `log.c` -/

section Dev

variable {m t u : Dev} {busy : Slot → ℕ → Prop} {p : Slot} {v w i j : Fin NBUF} {a : ℕ}

theorem Fetched.data (h : Fetched m t busy p b i) : (t.buf i).data = m.view b := by
  rw [← h.same.view, h.ok.view_of_buf h.blockno]

theorem writeHead_spec (h : CacheOk m busy) (hs : writeHead sb p v lh m = some t) :
    Stored m t busy sb.logstart (headBlock lh (m.view sb.logstart)) := by
  unfold writeHead at hs
  split at hs
  · cases hs
  · rename_i i u hb
    cases hs
    have hf := bread_spec h hb
    rw [hf.data]
    obtain ⟨hw, hno⟩ := bwrite_spec (d := headBlock lh (m.view sb.logstart)) hf.ok hf.blockno
      hf.free
    exact Stored.of_fetched hf (hw.brelse ((hno i).trans hf.blockno) hf.free)

theorem Fetched.second (h : Fetched m u busy p a i) (hb : bread p b w u = some (j, t)) :
    Fetched u t busy p b j ∧ (t.buf i).blockno = some a ∧ (t.buf i).data = m.view a := by
  have hf := bread_spec h.ok hb
  have hi : t.buf i = u.buf i := hf.rest i (by rw [h.owner]; simp)
  refine ⟨hf, ?_, ?_⟩
  · rw [hi]
    exact h.blockno
  · rw [hi]
    exact h.data

theorem writeLogOne_spec (h : CacheOk m busy) (hs : writeLogOne sb p v w tail b m = some t) :
    Stored m t busy (sb.logstart + tail + 1) (m.view b) := by
  unfold writeLogOne at hs
  split at hs
  · cases hs
  · rename_i i u hu
    have hf := bread_spec h hu
    split at hs
    · cases hs
    · rename_i j x hx
      cases hs
      obtain ⟨hf', hi, -⟩ := hf.second hx
      rw [hf'.data, hf.same.view]
      obtain ⟨hw, hno⟩ := bwrite_spec (d := m.view b) hf'.ok hi hf.free
      have hj := hw.brelse ((hno j).trans hf'.blockno) hf'.free
      refine Stored.of_fetched hf (Stored.of_fetched hf' (hj.brelse ?_ hf.free))
      rw [brelse_blockno, hno, hi]

theorem installOne_spec (h : CacheOk m busy) (hs : installOne sb p v w tail b m = some t) :
    Stored m t busy b (m.view (sb.logstart + tail + 1)) := by
  unfold installOne at hs
  split at hs
  · cases hs
  · rename_i i u hu
    have hf := bread_spec h hu
    split at hs
    · cases hs
    · rename_i j x hx
      cases hs
      obtain ⟨hf', hi, hdata⟩ := hf.second hx
      rw [hdata]
      obtain ⟨hw, hno⟩ := bwrite_spec (d := m.view (sb.logstart + tail + 1)) hf'.ok hf'.blockno
        hf'.free
      have hj := hw.brelse ((hno i).trans hi) hf.free
      refine Stored.of_fetched hf (Stored.of_fetched hf' (hj.brelse ?_ hf'.free))
      rw [brelse_blockno, hno, hf'.blockno]

end Dev

end Xv6.Log
