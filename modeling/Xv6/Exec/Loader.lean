import Xv6.Exec.Program
import Xv6.Fs.Balance

/-!
# Loading a program is safe

The loop of `exec` over the program headers, for headers with any values and reads that deliver
anything.  Between two headers the pages below the size are there for the user and no others
(`Space.Spans`), and the new directory belongs to nobody else (`Fresh`).  That is why none of the
panics of `loaduvm`, `mappages`, `clearpteu` and `kfree` is reached, and why a segment is loaded
only into pages of the new image.

`Apart` is the whole invariant: besides the new directory it says that the process is as it was, and
counts the references and operations of the file system.
-/

namespace Xv6

namespace Exec

open Lib Vm

variable {α : Type} {s s0 : State} {L : Layout} {K U W : Frame → ℕ} {c : Fs.Icache → ℕ} {m : ℕ}
  {d : PageDir} {ip : Fs.Icache} {sz : ℕ}

/-! ## The two sides of the state -/

/-- The stop is one of the file system. -/
def Stop.OfFs (e : Stop) : Prop := ∃ e', e = .fs e'

/-- A function of the file system leaves the memory and the process alone. -/
theorem wp_fsys {p : Fs.Op α} {R : α → Fs.State → Prop} (h : wp p s.fs R fun _ => True) :
    wp (fsys p) s (fun a s' => R a s'.fs ∧ s'.kmem = s.kmem ∧ s'.proc = s.proc) Stop.OfFs := by
  rw [wp] at h ⊢
  unfold fsys
  cases hp : p s.fs with
  | ok r =>
    rw [hp] at h
    exact ⟨h, rfl, rfl⟩
  | error e => exact ⟨e, rfl⟩

theorem wp_call {β : Type} {e : Stop} {o : Option α} {a : α} {f : α → Op β} {Q : β → State → Prop}
    {E : Stop → Prop} (ho : o = some a) (h : wp (f a) s Q E) : wp (call e o >>= f) s Q E := by
  rw [ho, call]
  exact h

theorem wp_call_cases {β : Type} {e : Stop} {o : Option α} {f : α → Op β} {Q : β → State → Prop}
    {E : Stop → Prop} (he : E e) (h : ∀ a, o = some a → wp (f a) s Q E) :
    wp (call e o >>= f) s Q E := by
  cases ho : o with
  | none =>
    rw [call]
    exact he
  | some a => exact wp_call rfl (h a ho)

/-- A directory under construction, for a process that is still as it was in `s0`.  The rest of the
system has the books `K`, `U` and `W`, and the file system the counts `c` and `m`. -/
structure Apart (L : Layout) (K U W : Frame → ℕ) (c : Fs.Icache → ℕ) (m : ℕ) (s0 s : State)
    (d : PageDir) : Prop where
  fresh : Fresh L.Dom K U W s0.kmem s.kmem d
  proc : s.proc = s0.proc
  counts : Fs.Counts s.fs c m

theorem Apart.quiet {p : Fs.Op α} (h : Apart L K U W c m s0 s d) (hp : Fs.Quiet p) :
    wp (fsys p) s (fun _ s' => Apart L K U W c m s0 s' d ∧ s'.kmem = s.kmem) Stop.OfFs := by
  refine (wp_fsys (hp h.counts)).mono ?_ fun _ he => he
  rintro _ s' ⟨hcounts, hkmem, hproc⟩
  exact ⟨⟨by rw [hkmem]; exact h.fresh, hproc.trans h.proc, hcounts⟩, hkmem⟩

theorem readAll_spec (h : Apart L K U W c m s0 s d) (off n : ℕ) :
    wp (readAll ip off n) s (fun _ s' => Apart L K U W c m s0 s' d ∧ s'.kmem = s.kmem)
      Stop.OfFs := by
  refine (h.quiet (Fs.quiet_readi ip _ _)).bind fun r s1 h1 => ?_
  cases r with
  | none => exact h1
  | some bs => exact h1

/-! ## One segment -/

/-- **`allocuvm`** on a directory under construction returns, and the pages up to the new size are
there or else it fails. -/
theorem allocuvm_spec (h : Apart L K U W c m s0 s d) (hsp : (view s.kmem d).Spans (pgroundup sz))
    (newsz : ℕ) :
    wp (allocuvm L d sz newsz) s
      (fun r s' => Apart L K U W c m s0 s' r.2 ∧ (r.1 ≠ 0 → newsz < KERNBASE ∧
        r.1 = max sz newsz ∧ (view s'.kmem r.2).Spans (pgroundup r.1) ∧
        view s'.kmem r.2 = (view s.kmem d).fill (pgroundup sz) (pgroundup newsz)))
      (fun _ => False) := by
  obtain ⟨sz1, k1, d1, hs, hfresh, hdone⟩ := h.fresh.allocuvm newsz fun u hu hlt =>
    hsp.not_present hu hlt
  rw [allocuvm, wp_bind, wp_get]
  refine wp_call hs ?_
  refine ⟨⟨hfresh, h.proc, h.counts⟩, fun hne => ?_⟩
  obtain ⟨hlt, hmax, hview⟩ := hdone hne
  refine ⟨hlt, hmax, ?_, hview⟩
  show (view k1 d1).Spans (pgroundup sz1)
  rw [hview, hmax, pgroundup_max]
  exact hsp.fill _

/-- Memory changes only in the pages from `lo` up to `hi` of the directory. -/
def Inside (d : PageDir) (lo hi : ℕ) (k k' : Kmem) : Prop :=
  ∀ f, k'.mem f ≠ k.mem f → ∃ v, lo ≤ v ∧ v < hi ∧ (d.pte v).addr = f

theorem loadLoop_spec {N addr off len n i : ℕ} (h : Apart L K U W c m s0 s d)
    (hsp : (view s.kmem d).Spans N) (hn : addr / PGSIZE + (i + n) ≤ N) :
    wp (loadLoop d addr ip off len n i) s
      (fun _ s' => Apart L K U W c m s0 s' d ∧ (view s'.kmem d).Spans N ∧
        Inside d (addr / PGSIZE + i) (addr / PGSIZE + (i + n)) s.kmem s'.kmem)
      Stop.OfFs := by
  induction n generalizing i s with
  | zero => exact ⟨h, hsp, fun f hf => absurd rfl hf⟩
  | succ n ih =>
    obtain ⟨hlt, hp, -⟩ := hsp.accessible (v := addr / PGSIZE + i) (by omega)
    rw [loadLoop]
    refine wp_call (PageDir.walkpgdir_of_present hp) ?_
    refine (h.quiet (Fs.quiet_readi ip _ _)).bind fun r s1 ⟨h1, hk1⟩ => ?_
    rw [wp_bind, wp_get, hk1, wp_bind]
    -- the page gets what was read, whether or not that is all of it
    obtain ⟨hfresh, hview⟩ := h.fresh.write hlt hp 0 (r.getD [])
    have hsp2 : (view (s.kmem.write (d.pte (addr / PGSIZE + i)).addr 0 (r.getD [])) d).Spans N := by
      rw [hview]
      exact hsp.write _ _ _
    have hself : ∀ f, (s.kmem.write (d.pte (addr / PGSIZE + i)).addr 0 (r.getD [])).mem f ≠
        s.kmem.mem f → (d.pte (addr / PGSIZE + i)).addr = f := by
      intro f hf
      by_contra hne
      exact hf (Function.update_of_ne (Ne.symm hne) ..)
    have h2 : Apart L K U W c m s0 { s1 with
        kmem := s.kmem.write (d.pte (addr / PGSIZE + i)).addr 0 (r.getD []) } d :=
      ⟨hfresh, h1.proc, h1.counts⟩
    show wp (if _ then _ else _) _ _ _
    rw [wp_ite]
    refine ⟨fun _ => ?_, fun _ => ?_⟩
    · refine (ih h2 hsp2 (by omega)).mono ?_ fun _ he => he
      rintro _ s3 ⟨h3, hsp3, hin⟩
      refine ⟨h3, hsp3, fun f hf => ?_⟩
      by_cases hstep : s3.kmem.mem f = (s.kmem.write (d.pte (addr / PGSIZE + i)).addr 0
          (r.getD [])).mem f
      · rw [hstep] at hf
        exact ⟨addr / PGSIZE + i, le_rfl, by omega, hself f hf⟩
      · obtain ⟨v, hlo, hhi, hv⟩ := hin f hstep
        exact ⟨v, by omega, by omega, hv⟩
    · exact ⟨h2, hsp2, fun f hf => ⟨addr / PGSIZE + i, le_rfl, by omega, hself f hf⟩⟩

theorem segment_le {addr len lim : ℕ} (ha : addr % PGSIZE = 0) (hlim : addr + len ≤ lim) :
    addr / PGSIZE + pgroundup len ≤ pgroundup lim := by
  unfold pgroundup PGSIZE at *
  omega

theorem loaduvm_spec {addr off len : ℕ} (h : Apart L K U W c m s0 s d)
    (hsp : (view s.kmem d).Spans (pgroundup sz)) (ha : addr % PGSIZE = 0) (hlen : addr + len ≤ sz) :
    wp (loaduvm d addr ip off len) s
      (fun _ s' => Apart L K U W c m s0 s' d ∧ (view s'.kmem d).Spans (pgroundup sz) ∧
        Inside d (addr / PGSIZE) (pgroundup sz) s.kmem s'.kmem)
      Stop.OfFs := by
  have hle := segment_le ha hlen
  rw [loaduvm, if_pos ha]
  refine (loadLoop_spec (i := 0) h hsp (by rwa [Nat.zero_add])).mono ?_ fun _ he => he
  rintro _ s' ⟨h', hsp', hin⟩
  refine ⟨h', hsp', fun f hf => ?_⟩
  obtain ⟨v, hlo, hhi, hv⟩ := hin f hf
  exact ⟨v, hlo, by omega, hv⟩

/-! ## All segments -/

/-- **The loop over the program headers** reaches no panic.  If it ends without an error, the pages
below the size are there. -/
theorem loadSegments_spec {n off : ℕ} (h : Apart L K U W c m s0 s d)
    (hsp : (view s.kmem d).Spans (pgroundup sz)) (hsz : sz < KERNBASE) :
    wp (loadSegments L ip n off sz d) s
      (fun r s' => Apart L K U W c m s0 s' r.2 ∧ ∀ sz', r.1 = some sz' →
        (view s'.kmem r.2).Spans (pgroundup sz') ∧ sz' < KERNBASE)
      Stop.OfFs := by
  induction n generalizing off sz d s with
  | zero =>
    refine ⟨h, fun sz' hsz' => ?_⟩
    cases hsz'
    exact ⟨hsp, hsz⟩
  | succ n ih =>
    rw [loadSegments]
    refine (readAll_spec h off PROGHDRSIZE).bind fun o s1 ⟨h1, hk1⟩ => ?_
    rw [← hk1] at hsp
    cases o with
    | none => exact ⟨h1, nofun⟩
    | some bs =>
      have hmem : (Proghdr.parse bs).memsz < 2 ^ 32 := littleEndian_lt bs 20 4
      dsimp only
      generalize Proghdr.parse bs = ph at hmem ⊢
      rw [wp_ite]
      refine ⟨fun _ => ih h1 hsp hsz, fun _ => ?_⟩
      rw [wp_ite]
      refine ⟨fun _ => ⟨h1, nofun⟩, fun hfile => ?_⟩
      rw [wp_ite]
      refine ⟨fun _ => ⟨h1, nofun⟩, fun hwrap => ?_⟩
      refine (allocuvm_spec h1 hsp ph.limit).chain (fun _ he => he.elim) ?_
      rintro ⟨sz1, d1⟩ s2 ⟨h2, hdone⟩
      dsimp only at h2 hdone ⊢
      rw [wp_ite]
      refine ⟨fun _ => ⟨h2, nofun⟩, fun hne => ?_⟩
      rw [wp_ite]
      refine ⟨fun _ => ⟨h2, nofun⟩, fun halign => ?_⟩
      obtain ⟨hlim, hmax, hsp2, -⟩ := hdone hne
      have hend : ph.vaddr + ph.filesz ≤ sz1 := by
        have := Proghdr.limit_eq hmem hwrap
        omega
      refine (loaduvm_spec h2 hsp2 (not_ne_iff.mp halign) hend).bind ?_
      rintro ok s3 ⟨h3, hsp3, -⟩
      rw [wp_ite]
      exact ⟨fun _ => ih h3 hsp3 (by omega), fun _ => ⟨h3, nofun⟩⟩

end Exec
end Xv6
