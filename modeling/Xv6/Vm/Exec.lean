import Xv6.Vm.Cow

/-!
# Memory operations of a program load

What `exec` of `exec.c` does to the directory of the new image: `clearpteu`, `uva2ka` and `copyout`
of `vm.c`, the headers parsed from the bytes of the file, and the loop over the argument strings.

`uva2ka` reads the entry that `walkpgdir` returns without a check that there is one.  An address
whose table is missing therefore has no result here; it takes an argument string that reaches down
below the start of the new image and out of the device space at the top of the address space.

The second half says the same in terms of user memory only, on pages that simply exist.
-/

namespace Xv6.Vm

open Lib

/-- The number in the `n` bytes from offset `off` on, the lowest first. -/
def littleEndian (bs : List UInt8) (off n : ℕ) : ℕ :=
  ((bs.drop off).take n).foldr (fun b x => b.toNat + 256 * x) 0

def uintBytes (x : ℕ) : List UInt8 := (List.range 4).map fun i => UInt8.ofNat (x / 256 ^ i)

/-- The file header, the fields that `exec` uses. -/
structure Elfhdr where
  magic : ℕ
  phoff : ℕ
  phnum : ℕ

/-- `sizeof(struct elfhdr)`. -/
def ELFHDRSIZE : ℕ := 52

def Elfhdr.parse (bs : List UInt8) : Elfhdr where
  magic := littleEndian bs 0 4
  phoff := littleEndian bs 28 4
  phnum := littleEndian bs 44 2

/-- The program section header, the fields that `exec` uses. -/
structure Proghdr where
  type : ℕ
  off : ℕ
  vaddr : ℕ
  filesz : ℕ
  memsz : ℕ

/-- `sizeof(struct proghdr)`. -/
def PROGHDRSIZE : ℕ := 32

def Proghdr.parse (bs : List UInt8) : Proghdr where
  type := littleEndian bs 0 4
  off := littleEndian bs 4 4
  vaddr := littleEndian bs 8 4
  filesz := littleEndian bs 16 4
  memsz := littleEndian bs 20 4

def ELF_MAGIC : ℕ := 0x464C457F

def ELF_PROG_LOAD : ℕ := 1

/-- `ph.vaddr + ph.memsz`. -/
def Proghdr.limit (ph : Proghdr) : ℕ := (ph.vaddr + ph.memsz) % 2 ^ 32

/-- A page with the bytes `bs` put in at `off`. -/
def Page.write (y : Page) (off : ℕ) (bs : List UInt8) : Page := fun i =>
  if off ≤ i then bs.getD (i - off) (y i) else y i

def Kmem.write (k : Kmem) (f : Frame) (off : ℕ) (bs : List UInt8) : Kmem :=
  k.store f ((k.mem f).write off bs)

def clearpteu (d : PageDir) (v : ℕ) : Option PageDir :=
  match walkpgdir d v with
  | none => none
  | some pte => some (d.setPte v pte.clearU)

/-- Map user virtual address to kernel address. -/
def uva2ka (d : PageDir) (v : ℕ) : Option (Option Frame) :=
  match walkpgdir d v with
  | none => none
  | some pte => if pte.present && pte.user then some (some pte.addr) else some none

/-- The number of bytes that fit into the page of `va`. -/
def chunk (va : ℕ) (buf : List UInt8) : ℕ := min (PGSIZE - va % PGSIZE) buf.length

/-- `va0 + PGSIZE`. -/
def nextPage (va : ℕ) : ℕ := (va / PGSIZE + 1) * PGSIZE % 2 ^ 32

/-- The loop of `copyout`; `n` bounds the number of rounds. -/
def copyoutLoop (d : PageDir) : ℕ → Kmem → ℕ → List UInt8 → Option (Bool × Kmem)
  | 0, k, _, _ => some (true, k)
  | n + 1, k, va, buf =>
    if buf.length = 0 then some (true, k)
    else
      match uva2ka d (va / PGSIZE) with
      | none => none
      | some none => some (false, k)
      | some (some f) =>
        copyoutLoop d n (k.write f (va % PGSIZE) (buf.take (chunk va buf))) (nextPage va)
          (buf.drop (chunk va buf))

/-- Copy bytes to user address `va` in the directory. -/
def copyout (k : Kmem) (d : PageDir) (va : ℕ) (buf : List UInt8) : Option (Bool × Kmem) :=
  copyoutLoop d buf.length k va buf

/-- `(sp - n) & ~3`. -/
def pushDown (sp n : ℕ) : ℕ := (sp + (2 ^ 32 - n % 2 ^ 32)) % 2 ^ 32 / 4 * 4

/-- The loop of `exec` over the argument strings; `us` collects their addresses. -/
def pushArgs (d : PageDir) :
    List (List UInt8) → ℕ → List ℕ → Kmem → Option (Option (ℕ × List ℕ) × Kmem)
  | [], sp, us, k => some (some (sp, us), k)
  | s :: ss, sp, us, k =>
    if MAXARG ≤ us.length then some (none, k)
    else do
      let sp := pushDown sp (s.length + 1)
      let (ok, k) ← copyout k d sp (s ++ [0])
      if ok then pushArgs d ss sp (us ++ [sp]) k else some (none, k)

/-- `ustack`: fake return PC, `argc`, `argv` pointer, and the argument pointers. -/
def ustack (sp : ℕ) (us : List ℕ) : List UInt8 :=
  ([0xffffffff, us.length, (sp + (2 ^ 32 - (us.length + 1) * 4)) % 2 ^ 32] ++ us ++ [0]).flatMap
    uintBytes

def ustackSize (us : List ℕ) : ℕ := (3 + us.length + 1) * 4

/-! ## The image as user memory -/

def Space.write (σ : Space) (v off : ℕ) (bs : List UInt8) : Space :=
  Function.update σ v ((σ v).map fun y => (y.1, y.2.write off bs))

def Space.guard (σ : Space) (v : ℕ) : Space := Function.update σ v ((σ v).map fun y => (false, y.2))

def Space.copyout : ℕ → Space → ℕ → List UInt8 → Option Space
  | 0, σ, _, _ => some σ
  | n + 1, σ, va, buf =>
    if buf.length = 0 then some σ
    else
      match σ (va / PGSIZE) with
      | some (true, _) =>
        Space.copyout n (σ.write (va / PGSIZE) (va % PGSIZE) (buf.take (chunk va buf)))
          (nextPage va) (buf.drop (chunk va buf))
      | _ => none

def Space.pushArgs : List (List UInt8) → ℕ → List ℕ → Space → Option (ℕ × List ℕ × Space)
  | [], sp, us, σ => some (sp, us, σ)
  | s :: ss, sp, us, σ => do
    let sp := pushDown sp (s.length + 1)
    let σ ← Space.copyout (s ++ [0]).length σ sp (s ++ [0])
    Space.pushArgs ss sp (us ++ [sp]) σ

/-- A directory under construction: nobody else sees it, and it changes nothing for anybody else. -/
structure Fresh (dom : Frame → Prop) (K U W : Frame → ℕ) (k0 k : Kmem) (d : PageDir) : Prop where
  dir : DirOk dom K U W k d
  priv : Private d
  keeps : Keeps U k0 k

variable {L : Layout} {dom : Frame → Prop} {k0 k k' : Kmem} {K U W : Frame → ℕ} {d d' : PageDir}
  {v n sz : ℕ} {ok : Bool}

theorem Fresh.write (h : Fresh dom K U W k0 k d) (hv : v < UPAGES)
    (hp : (d.pte v).present = true) (off : ℕ) (bs : List UInt8) :
    Fresh dom K U W k0 (k.write (d.pte v).addr off bs) d ∧
      view (k.write (d.pte v).addr off bs) d = (view k d).write v off bs := by
  obtain ⟨h1, hkeep, hview⟩ := h.dir.store hv hp (h.priv v hv hp)
    ((k.mem (d.pte v).addr).write off bs)
  refine ⟨⟨h1, h.priv, h.keeps.trans hkeep⟩, hview.trans ?_⟩
  rw [Space.write, view_of_present hv hp]
  rfl

theorem uva2ka_eq_some {f : Frame} (h : d.Wf) (hs : uva2ka d v = some (some f)) :
    v < UPAGES ∧ (d.pte v).present = true ∧ (d.pte v).user = true ∧ (d.pte v).addr = f := by
  unfold uva2ka at hs
  split at hs
  · cases hs
  · rename_i pte hw
    obtain rfl := d.pte_of_walkpgdir hw
    split_ifs at hs with hpu
    · rw [Bool.and_eq_true] at hpu
      refine ⟨?_, hpu.1, hpu.2, Option.some.inj (Option.some.inj hs)⟩
      by_contra hv
      have := h.kern v (by omega)
      rw [hpu.2] at this
      cases this
    · cases hs

theorem copyoutLoop_spec {va : ℕ} {buf : List UInt8} (h : Fresh dom K U W k0 k d)
    (hs : copyoutLoop d n k va buf = some (ok, k')) :
    Fresh dom K U W k0 k' d ∧
      (ok = true → Space.copyout n (view k d) va buf = some (view k' d)) := by
  induction n generalizing k va buf with
  | zero =>
    cases hs
    exact ⟨h, fun _ => rfl⟩
  | succ n ih =>
    rw [copyoutLoop] at hs
    split_ifs at hs with hlen
    · cases hs
      refine ⟨h, fun _ => ?_⟩
      rw [Space.copyout, if_pos hlen]
    · split at hs
      · cases hs
      · cases hs
        exact ⟨h, nofun⟩
      · rename_i f hf
        obtain ⟨hv, hp, hu, rfl⟩ := uva2ka_eq_some h.dir.wf hf
        obtain ⟨h1, hview1⟩ := h.write hv hp (va % PGSIZE) (buf.take (chunk va buf))
        obtain ⟨h2, hview2⟩ := ih h1 hs
        refine ⟨h2, fun hok => ?_⟩
        rw [Space.copyout, if_neg hlen, view_of_present hv hp, hu, ← hview1]
        exact hview2 hok

theorem pushArgs_spec {ss : List (List UInt8)} {sp : ℕ} {us : List ℕ} {o : Option (ℕ × List ℕ)}
    (h : Fresh dom K U W k0 k d) (hs : pushArgs d ss sp us k = some (o, k')) :
    Fresh dom K U W k0 k' d ∧ ∀ sp' us', o = some (sp', us') →
      Space.pushArgs ss sp us (view k d) = some (sp', us', view k' d) := by
  induction ss generalizing k sp us with
  | nil =>
    cases hs
    refine ⟨h, fun sp' us' ho => ?_⟩
    cases ho
    rfl
  | cons s ss ih =>
    rw [pushArgs] at hs
    split_ifs at hs with hlen
    · cases hs
      exact ⟨h, nofun⟩
    · obtain ⟨⟨ok, k1⟩, hc, hrest⟩ := Option.bind_eq_some_iff.mp hs
      obtain ⟨h1, hview1⟩ := copyoutLoop_spec h hc
      cases ok with
      | false =>
        cases hrest
        exact ⟨h1, nofun⟩
      | true =>
        obtain ⟨h2, hview2⟩ := ih h1 hrest
        refine ⟨h2, fun sp' us' ho => ?_⟩
        rw [Space.pushArgs, Option.bind_eq_bind]
        exact Option.bind_eq_some_iff.mpr ⟨_, hview1 rfl, hview2 sp' us' ho⟩

theorem Fresh.allocuvm {oldsz : ℕ} (h : Fresh L.Dom K U W k0 k d) (newsz : ℕ)
    (hfree : ∀ u, pgroundup oldsz ≤ u → u < UPAGES → (d.pte u).present = false) :
    ∃ sz k' d', allocuvm L k d oldsz newsz = some (sz, k', d') ∧ Fresh L.Dom K U W k0 k' d' ∧
      (sz ≠ 0 → newsz < KERNBASE ∧ sz = max oldsz newsz ∧
        view k' d' = (view k d).fill (pgroundup oldsz) (pgroundup newsz)) := by
  obtain ⟨sz, k', d', hs, h1, hkeep, hpriv, hres⟩ := allocuvm_spec h.dir newsz hfree
  exact ⟨sz, k', d', hs, ⟨h1, hpriv h.priv, h.keeps.trans hkeep⟩,
    fun hne => hres.resolve_right fun hno => hne hno.1⟩

theorem littleEndian_lt (bs : List UInt8) (off n : ℕ) : littleEndian bs off n < 256 ^ n := by
  unfold littleEndian
  generalize bs.drop off = l
  induction n generalizing l with
  | zero => exact Nat.one_pos
  | succ n ih =>
    cases l with
    | nil => exact Nat.pow_pos (by decide)
    | cons b l =>
      have hb := b.toNat_lt
      have := ih l
      rw [List.take_succ_cons, List.foldr_cons, Nat.pow_succ]
      omega

/-- The check for wrap-around in `exec` does what it is for. -/
theorem Proghdr.limit_eq {ph : Proghdr} (hmem : ph.memsz < 2 ^ 32) (h : ¬ ph.limit < ph.vaddr) :
    ph.limit = ph.vaddr + ph.memsz := by
  unfold Proghdr.limit at *
  omega

theorem clearpteu_spec (h : Fresh dom K U W k0 k d) (hv : v < UPAGES)
    (hp : (d.pte v).present = true) (hs : clearpteu d v = some d') :
    Fresh dom K U W k0 k d' ∧ view k d' = (view k d).guard v := by
  rw [clearpteu, PageDir.walkpgdir_of_present hp] at hs
  cases hs
  obtain ⟨h1, hview⟩ := h.dir.reflag (x := (d.pte v).clearU) hv hp hp rfl Or.inl
  have hsome : (walkpgdir d v).isSome := PageDir.isSome_walkpgdir hp
  refine ⟨⟨h1, h.priv.setPte hsome fun _ => h.priv v hv hp, h.keeps⟩, hview.trans ?_⟩
  rw [Space.guard, view_of_present hv hp]
  rfl

end Xv6.Vm
