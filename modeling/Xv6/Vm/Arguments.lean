import Xv6.Vm.Copyout

/-!
# The arguments on the stack

What `copyout` and the loop over the argument strings do to user memory, byte by byte.  A string
takes `room s` bytes of the stack: its characters and the zero, rounded up to a multiple of four.
The strings are put one below the other from the end of the image on, and the pointers to them below
the strings.

Below the page of the stack lies a page that the user may not access (`Guarded`).  The loop leaves
no gap of more than three bytes, so it cannot get past that page without touching it.
-/

namespace Xv6.Vm

/-! ## Bytes -/

/-- The byte at address `a`, if the user may read it. -/
def Space.byte (σ : Space) (a : ℕ) : Option UInt8 :=
  match σ (a / PGSIZE) with
  | some (true, y) => some (y (a % PGSIZE))
  | _ => none

/-- The bytes from address `a` on are `l`. -/
def Space.Holds (σ : Space) (a : ℕ) (l : List UInt8) : Prop :=
  ∀ i < l.length, σ.byte (a + i) = l[i]?

variable {σ τ : Space} {a v n va off : ℕ} {y : Page} {bs buf l : List UInt8}

theorem Space.byte_of_some (h : σ (a / PGSIZE) = some (true, y)) :
    σ.byte a = some (y (a % PGSIZE)) := by
  rw [Space.byte, h]

theorem Space.byte_write (h : σ v = some (true, y)) (off : ℕ) (bs : List UInt8) (a : ℕ) :
    (σ.write v off bs).byte a =
      if a / PGSIZE = v ∧ off ≤ a % PGSIZE ∧ a % PGSIZE < off + bs.length then bs[a % PGSIZE - off]?
      else σ.byte a := by
  by_cases hv : a / PGSIZE = v
  · have hnew : σ.write v off bs (a / PGSIZE) = some (true, y.write off bs) := by
      rw [Space.write, hv, Function.update_self, h]
      rfl
    rw [Space.byte_of_some hnew, Space.byte_of_some (y := y) (by rw [hv, h]), Page.write]
    by_cases hoff : off ≤ a % PGSIZE
    · rw [if_pos hoff]
      by_cases hlen : a % PGSIZE < off + bs.length
      · have hlt : a % PGSIZE - off < bs.length := by omega
        rw [if_pos ⟨hv, hoff, hlen⟩, List.getD_eq_getElem?_getD, List.getElem?_eq_getElem hlt]
        rfl
      · rw [if_neg (fun hc => hlen hc.2.2), List.getD_eq_getElem?_getD,
          List.getElem?_eq_none (by omega)]
        rfl
    · rw [if_neg hoff, if_neg fun hc => hoff hc.2.1]
  · rw [if_neg fun hc => hv hc.1, Space.byte, Space.byte, Space.write, Function.update_of_ne hv]

/-- **A copy, byte by byte.**  The bytes of the destination are those of the buffer, and the others
are what they were. -/
theorem Space.byte_copyout (hs : Space.copyout n σ va buf = some τ) (hn : buf.length ≤ n)
    (hva : va + buf.length < 2 ^ 32) (a : ℕ) :
    τ.byte a = if va ≤ a ∧ a < va + buf.length then buf[a - va]? else σ.byte a := by
  induction n generalizing σ va buf with
  | zero =>
    cases hs
    rw [if_neg (by omega)]
  | succ n ih =>
    rw [Space.copyout] at hs
    by_cases hbuf : buf.length = 0
    · rw [if_pos hbuf] at hs
      cases hs
      rw [if_neg (by omega)]
    rw [if_neg hbuf] at hs
    split at hs
    · rename_i y hy
      have hchunk := chunk_pos hbuf va
      have hmod := Nat.mod_lt va (show 0 < PGSIZE by decide)
      have hle : chunk va buf ≤ buf.length := Nat.min_le_right ..
      have hdrop : (buf.drop (chunk va buf)).length = buf.length - chunk va buf := List.length_drop
      have htake : (buf.take (chunk va buf)).length = chunk va buf := by
        rw [List.length_take]
        omega
      -- the bytes of this page
      have hfirst := Space.byte_write hy (va % PGSIZE) (buf.take (chunk va buf)) a
      rw [htake] at hfirst
      have hin : (a / PGSIZE = va / PGSIZE ∧ va % PGSIZE ≤ a % PGSIZE ∧
          a % PGSIZE < va % PGSIZE + chunk va buf) ↔ va ≤ a ∧ a < va + chunk va buf := by
        unfold chunk PGSIZE at *
        omega
      by_cases hrest : buf.length = chunk va buf
      · -- there is nothing left
        have hτ : Space.copyout n (σ.write (va / PGSIZE) (va % PGSIZE) (buf.take (chunk va buf)))
            (nextPage va) (buf.drop (chunk va buf)) =
            some (σ.write (va / PGSIZE) (va % PGSIZE) (buf.take (chunk va buf))) := by
          cases n with
          | zero => rfl
          | succ n => rw [Space.copyout, if_pos (by omega)]
        rw [hτ] at hs
        cases hs
        rw [hfirst]
        simp only [hin]
        rw [← hrest, List.take_length]
        by_cases hc : va ≤ a ∧ a < va + buf.length
        · rw [if_pos hc, if_pos hc]
          congr 1
          have := hin.mpr (by omega)
          unfold PGSIZE at *
          omega
        · rw [if_neg hc, if_neg hc]
      · have hfull : chunk va buf = PGSIZE - va % PGSIZE := by
          unfold chunk at *
          omega
        have hnext : nextPage va = va + chunk va buf := by
          rw [hfull]
          unfold nextPage PGSIZE at *
          omega
        rw [ih hs (by omega) (by rw [hnext]; omega), hnext, hdrop, hfirst]
        simp only [hin]
        by_cases h1 : va + chunk va buf ≤ a ∧ a < va + chunk va buf + (buf.length - chunk va buf)
        · rw [if_pos h1, if_pos (by omega), List.getElem?_drop]
          congr 1
          omega
        · rw [if_neg h1]
          by_cases h2 : va ≤ a ∧ a < va + chunk va buf
          · rw [if_pos h2, if_pos (by omega), List.getElem?_take_of_lt]
            · congr 1
              have := hin.mpr h2
              unfold PGSIZE at *
              omega
            · have := hin.mpr h2
              omega
          · rw [if_neg h2, if_neg (by omega)]
    · cases hs

theorem Space.holds_copyout (hs : Space.copyout n σ va buf = some τ) (hn : buf.length ≤ n)
    (hva : va + buf.length < 2 ^ 32) : τ.Holds va buf := by
  intro i hi
  rw [Space.byte_copyout hs hn hva, if_pos (by omega), Nat.add_sub_cancel_left]

theorem Space.Holds.copyout (h : σ.Holds a l) (hs : Space.copyout n σ va buf = some τ)
    (hn : buf.length ≤ n) (hva : va + buf.length < 2 ^ 32)
    (hoff : a + l.length ≤ va ∨ va + buf.length ≤ a) : τ.Holds a l := by
  intro i hi
  rw [Space.byte_copyout hs hn hva, if_neg (by omega)]
  exact h i hi

theorem Space.holds_append {l' : List UInt8} :
    σ.Holds a (l ++ l') ↔ σ.Holds a l ∧ σ.Holds (a + l.length) l' := by
  constructor
  · intro h
    refine ⟨fun i hi => ?_, fun i hi => ?_⟩
    · rw [h i (by rw [List.length_append]; omega), List.getElem?_append_left hi]
    · rw [Nat.add_assoc, h (l.length + i) (by rw [List.length_append]; omega),
        List.getElem?_append_right (by omega), Nat.add_sub_cancel_left]
  · rintro ⟨h1, h2⟩ i hi
    rw [List.length_append] at hi
    by_cases hlt : i < l.length
    · rw [h1 i hlt, List.getElem?_append_left hlt]
    · have hi' := h2 (i - l.length) (by omega)
      rw [List.getElem?_append_right (by omega), ← hi']
      congr 1
      omega

/-! ## Words -/

/-- The `uint` at address `a`, if the user may read it. -/
def Space.word (σ : Space) (a : ℕ) : Option ℕ := do
  let b0 ← σ.byte a
  let b1 ← σ.byte (a + 1)
  let b2 ← σ.byte (a + 2)
  let b3 ← σ.byte (a + 3)
  some (b0.toNat + 256 * (b1.toNat + 256 * (b2.toNat + 256 * b3.toNat)))

theorem length_uintBytes (x : ℕ) : (uintBytes x).length = 4 := rfl

theorem length_flatMap_uintBytes (ws : List ℕ) : (ws.flatMap uintBytes).length = 4 * ws.length := by
  induction ws with
  | nil => rfl
  | cons x ws ih =>
    rw [List.flatMap_cons, List.length_append, length_uintBytes, ih, List.length_cons]
    omega

theorem Space.Holds.word {x : ℕ} (h : σ.Holds a (uintBytes x)) (hx : x < 2 ^ 32) :
    σ.word a = some x := by
  have h0 : σ.byte a = some (UInt8.ofNat (x / 256 ^ 0)) := h 0 (by rw [length_uintBytes]; decide)
  have h1 : σ.byte (a + 1) = some (UInt8.ofNat (x / 256 ^ 1)) :=
    h 1 (by rw [length_uintBytes]; decide)
  have h2 : σ.byte (a + 2) = some (UInt8.ofNat (x / 256 ^ 2)) :=
    h 2 (by rw [length_uintBytes]; decide)
  have h3 : σ.byte (a + 3) = some (UInt8.ofNat (x / 256 ^ 3)) :=
    h 3 (by rw [length_uintBytes]; decide)
  rw [Space.word, h0, h1, h2, h3]
  show some _ = some x
  simp only [UInt8.toNat_ofNat']
  congr 1
  omega

theorem Space.Holds.words {ws : List ℕ} (h : σ.Holds a (ws.flatMap uintBytes)) {i x : ℕ}
    (hi : ws[i]? = some x) (hx : x < 2 ^ 32) : σ.word (a + 4 * i) = some x := by
  induction ws generalizing a i with
  | nil => cases hi
  | cons w ws ih =>
    rw [List.flatMap_cons, Space.holds_append] at h
    cases i with
    | zero =>
      rw [List.getElem?_cons_zero] at hi
      cases hi
      exact h.1.word hx
    | succ i =>
      rw [List.getElem?_cons_succ] at hi
      have := ih h.2 hi
      rwa [length_uintBytes, Nat.add_assoc, show 4 + 4 * i = 4 * (i + 1) by omega] at this

/-! ## Strings -/

/-- What a string takes of the stack: the zero is part of it, and its address is a multiple of
four. -/
def room (s : List UInt8) : ℕ := (s.length + 1 + 3) / 4 * 4

def strings (ss : List (List UInt8)) : ℕ := (ss.map room).sum

/-- What the strings and the pointers to them take. -/
def need (argv : List (List UInt8)) : ℕ := strings argv + (3 + argv.length + 1) * 4

/-- The addresses of the strings, from the stack pointer `sp` on downwards. -/
def addrs : List (List UInt8) → ℕ → List ℕ
  | [], _ => []
  | s :: ss, sp => (sp - room s) :: addrs ss (sp - room s)

variable {ss : List (List UInt8)} {s : List UInt8} {sp sp' : ℕ} {us us' : List ℕ}

theorem strings_cons (s : List UInt8) (ss : List (List UInt8)) :
    strings (s :: ss) = room s + strings ss := List.sum_cons

theorem length_addrs (ss : List (List UInt8)) (sp : ℕ) : (addrs ss sp).length = ss.length := by
  induction ss generalizing sp with
  | nil => rfl
  | cons s ss ih => rw [addrs, List.length_cons, ih, List.length_cons]

theorem length_le_room (s : List UInt8) : s.length + 1 ≤ room s := by
  unfold room
  omega

/-- The stack pointer after a string, if that does not go below zero. -/
theorem pushDown_eq (h4 : sp % 4 = 0) (hle : room s ≤ sp) (hsp : sp < 2 ^ 32) :
    pushDown sp (s.length + 1) = sp - room s := by
  unfold pushDown room at *
  omega

theorem room_mod (s : List UInt8) : room s % 4 = 0 := by
  unfold room
  omega

theorem addrs_bounds (hsum : strings ss ≤ sp) {i p : ℕ} (hp : (addrs ss sp)[i]? = some p)
    (hs : ss[i]? = some s) : sp - strings ss ≤ p ∧ p + (s.length + 1) ≤ sp := by
  induction ss generalizing sp i with
  | nil => cases hs
  | cons t ss ih =>
    rw [strings_cons] at hsum ⊢
    rw [addrs] at hp
    have hroom := length_le_room t
    cases i with
    | zero =>
      rw [List.getElem?_cons_zero] at hp hs
      cases hp
      cases hs
      omega
    | succ i =>
      rw [List.getElem?_cons_succ] at hp hs
      have := ih (by omega) hp hs
      omega

theorem addrs_below (hsum : strings ss ≤ sp) {i j p q : ℕ} (hij : i < j)
    (hp : (addrs ss sp)[i]? = some p) (hq : (addrs ss sp)[j]? = some q) (hs : ss[j]? = some s) :
    q + (s.length + 1) ≤ p := by
  induction ss generalizing sp i j with
  | nil => cases hs
  | cons t ss ih =>
    rw [strings_cons] at hsum
    rw [addrs] at hp hq
    cases j with
    | zero => exact absurd hij (Nat.not_lt_zero i)
    | succ j =>
      rw [List.getElem?_cons_succ] at hq hs
      cases i with
      | zero =>
        rw [List.getElem?_cons_zero] at hp
        cases hp
        exact (addrs_bounds (by omega) hq hs).2
      | succ i =>
        rw [List.getElem?_cons_succ] at hp
        exact ih (by omega) (by omega) hp hq hs

/-- **The loop over the argument strings.**  Every string is at its address, and what lies above the
stack pointer stays. -/
theorem Space.pushArgs_bytes (hs : Space.pushArgs ss sp us σ = some (sp', us', τ))
    (h4 : sp % 4 = 0) (hsum : strings ss ≤ sp) (hsp : sp < 2 ^ 32) :
    sp' = sp - strings ss ∧ us' = us ++ addrs ss sp ∧
      (∀ a l, sp ≤ a → σ.Holds a l → τ.Holds a l) ∧
      ∀ (i : ℕ) s p, ss[i]? = some s → (addrs ss sp)[i]? = some p → τ.Holds p (s ++ [0]) := by
  induction ss generalizing sp us σ with
  | nil =>
    cases hs
    exact ⟨rfl, (List.append_nil _).symm, fun a l _ h => h, nofun⟩
  | cons s ss ih =>
    rw [strings_cons] at hsum ⊢
    have hroom := length_le_room s
    have hmod := room_mod s
    rw [Space.pushArgs, pushDown_eq h4 (by omega) hsp] at hs
    obtain ⟨ρ, hcopy, hrest⟩ := Option.bind_eq_some_iff.mp hs
    have hlen : (s ++ [0]).length = s.length + 1 := List.length_append
    have hend : sp - room s + (s ++ [0]).length ≤ sp := by omega
    obtain ⟨hsp', hus', hkeep, hstrs⟩ := ih hrest (by omega) (by omega) (by omega)
    have hnew : ρ.Holds (sp - room s) (s ++ [0]) :=
      Space.holds_copyout hcopy le_rfl (by omega)
    refine ⟨by omega, ?_, fun a l ha h => ?_, fun i t p ht hp => ?_⟩
    · rw [hus', addrs, List.append_assoc]
      rfl
    · exact hkeep a l (by omega) (h.copyout hcopy le_rfl (by omega) (Or.inr (by omega)))
    · rw [addrs] at hp
      cases i with
      | zero =>
        rw [List.getElem?_cons_zero] at ht hp
        cases ht
        cases hp
        exact hkeep _ _ le_rfl hnew
      | succ i =>
        rw [List.getElem?_cons_succ] at ht hp
        exact hstrs i t p ht hp

/-! ## What the program finds -/

/-- **The arguments as a program finds them** in the memory `σ` of an image of the size `sz`, with
the stack pointer `esp`: a return address, `argc`, a pointer to `argv`, the array itself with a null
pointer after it, and the strings, in one page and one below the other. -/
structure Passed (σ : Space) (sz esp : ℕ) (argv : List (List UInt8)) (p : ℕ → ℕ) : Prop where
  fakePC : σ.word esp = some 0xffffffff
  argc : σ.word (esp + 4) = some argv.length
  array : σ.word (esp + 8) = some (esp + 12)
  pointer : ∀ i < argv.length, σ.word (esp + 12 + 4 * i) = some (p i)
  null : σ.word (esp + 12 + 4 * argv.length) = some 0
  string : ∀ (i : ℕ) s, argv[i]? = some s → σ.Holds (p i) (s ++ [0])
  low : sz - PGSIZE ≤ esp
  above : ∀ i < argv.length, esp + (3 + argv.length + 1) * 4 ≤ p i
  below : ∀ (i : ℕ) s, argv[i]? = some s → p i + (s.length + 1) ≤ sz
  apart : ∀ (i j : ℕ) s, i < j → argv[j]? = some s → p j + (s.length + 1) ≤ p i

/-- The word `i` of the block of pointers. -/
def block (esp : ℕ) (us : List ℕ) : List ℕ := [0xffffffff, us.length, esp + 12] ++ us ++ [0]

theorem ustack_eq {esp : ℕ} (hesp : esp + ustackSize us = sp) (hsp : sp < 2 ^ 32) :
    ustack sp us = (block esp us).flatMap uintBytes := by
  unfold ustack block
  congr 3
  unfold ustackSize at hesp
  rw [show (sp + (2 ^ 32 - (us.length + 1) * 4)) % 2 ^ 32 = esp + 12 by omega]

theorem length_block (esp : ℕ) (us : List ℕ) : (block esp us).length = us.length + 4 := by
  unfold block
  rw [List.length_append, List.length_append, List.length_singleton]
  show 3 + us.length + 1 = _
  omega

/-- **Arguments that fit into the page are passed.**  Whatever memory there was, after the loop over
the strings and the copy of the pointers the program finds its arguments. -/
theorem passed_of_copyout {sz esp : ℕ} {argv : List (List UInt8)} {ρ : Space}
    (hargs : Space.pushArgs argv sz [] σ = some (sp, us, ρ))
    (hesp : esp = (sp + (2 ^ 32 - ustackSize us)) % 2 ^ 32)
    (hcopy : Space.copyout (ustack sp us).length ρ esp (ustack sp us) = some τ)
    (h4 : sz % 4 = 0) (hsz : sz < 2 ^ 32) (hneed : need argv ≤ sz) :
    esp + need argv = sz ∧
      (need argv ≤ PGSIZE → Passed τ sz esp argv fun i => (addrs argv sz).getD i 0) := by
  unfold need at *
  obtain ⟨rfl, rfl, hkeep, hstrs⟩ := Space.pushArgs_bytes hargs h4 (by omega) hsz
  rw [List.nil_append] at *
  have hlen := length_addrs argv sz
  have hsize : ustackSize (addrs argv sz) = (3 + argv.length + 1) * 4 := by rw [ustackSize, hlen]
  have hsum : esp + ustackSize (addrs argv sz) = sz - strings argv := by omega
  rw [ustack_eq hsum (by omega)] at hcopy
  have hblock : ((block esp (addrs argv sz)).flatMap uintBytes).length =
      (3 + argv.length + 1) * 4 := by
    rw [length_flatMap_uintBytes, length_block, hlen]
    omega
  have hholds := Space.holds_copyout hcopy le_rfl (by omega)
  have haddr : ∀ i < argv.length, (addrs argv sz)[i]? = some ((addrs argv sz).getD i 0) := by
    intro i hi
    have hlt : i < (addrs argv sz).length := by omega
    rw [List.getD_eq_getElem?_getD, List.getElem?_eq_getElem hlt]
    rfl
  have hargv : ∀ {i : ℕ} {s}, argv[i]? = some s → i < argv.length := fun h =>
    (List.getElem?_eq_some_iff.mp h).1
  refine ⟨by omega, fun hfit => ?_⟩
  constructor
  · exact hholds.words (i := 0) rfl (by decide)
  · exact hholds.words (i := 1) (by rw [block, hlen]; rfl) (by omega)
  · exact hholds.words (i := 2) rfl (by omega)
  · intro i hi
    have hat : (block esp (addrs argv sz))[3 + i]? = some ((addrs argv sz).getD i 0) := by
      rw [block, List.append_assoc, List.getElem?_append_right (by simp),
        List.getElem?_append_left (by simp; omega)]
      simpa using haddr i hi
    have hb := addrs_bounds (by omega) (haddr i hi) (List.getElem?_eq_getElem hi)
    have := hholds.words hat (by omega)
    rwa [Nat.mul_add, ← Nat.add_assoc] at this
  · have hat : (block esp (addrs argv sz))[3 + argv.length]? = some 0 := by
      have hpos : 3 + argv.length - ([0xffffffff, (addrs argv sz).length, esp + 12] ++
          addrs argv sz).length = 0 := by
        rw [List.length_append, hlen]
        exact Nat.sub_self _
      rw [block, List.getElem?_append_right (by simp; omega), hpos]
      rfl
    have := hholds.words hat (by decide)
    rwa [Nat.mul_add, ← Nat.add_assoc] at this
  · intro i s hs
    exact (hstrs i s _ hs (haddr i (hargv hs))).copyout hcopy le_rfl (by omega)
      (Or.inr (by have := addrs_bounds (by omega) (haddr i (hargv hs)) hs; omega))
  · omega
  · intro i hi
    have := addrs_bounds (by omega) (haddr i hi) (List.getElem?_eq_getElem hi)
    omega
  · intro i s hs
    exact (addrs_bounds (by omega) (haddr i (hargv hs)) hs).2
  · intro i j s hij hs
    have hj := hargv hs
    exact addrs_below (by omega) hij (haddr i (by omega)) (haddr j hj) hs

/-! ## The page below the stack -/

/-- Page `g` is there, but not for the user; the user may access the pages below it, and the one
above it, which is the stack. -/
structure Guarded (d : PageDir) (g : ℕ) : Prop where
  below : ∀ v < g, d.Accessible v
  table : (walkpgdir d g).isSome
  guard : ¬ d.Accessible g
  stack : d.Accessible (g + 1)
  le : g + 2 ≤ UPAGES

variable {d : PageDir} {k : Kmem} {g : ℕ}

theorem clearpteu_guarded {d1 : PageDir} (h : (view k d1).Spans (g + 2))
    (hs : clearpteu d1 g = some d) : Guarded d g := by
  have hacc : ∀ v < g + 2, v < UPAGES ∧ d1.Accessible v := fun v hv => h.accessible hv
  obtain ⟨hlt, hp, -⟩ := hacc g (by omega)
  have hsome : (walkpgdir d1 g).isSome := PageDir.isSome_walkpgdir hp
  rw [clearpteu, PageDir.walkpgdir_of_present hp] at hs
  cases hs
  have hpte : ∀ v, v ≠ g → (d1.setPte g (d1.pte g).clearU).pte v = d1.pte v := fun v hv => by
    rw [PageDir.pte_setPte hsome, if_neg hv]
  refine ⟨fun v hv => ?_, ?_, ?_, ?_, (hacc (g + 1) (by omega)).1⟩
  · rw [PageDir.Accessible, hpte v (by omega)]
    exact (hacc v (by omega)).2
  · rwa [isSome_setPte hsome]
  · rintro ⟨-, hu⟩
    rw [PageDir.pte_setPte hsome, if_pos rfl] at hu
    cases hu
  · rw [PageDir.Accessible, hpte (g + 1) (by omega)]
    exact (hacc (g + 1) (by omega)).2

/-- A copy inside the page of the stack is made. -/
theorem Guarded.copyout_above (h : Guarded d g) (k : Kmem) (buf : List UInt8)
    (hlo : (g + 1) * PGSIZE ≤ va) (hhi : va + buf.length ≤ (g + 2) * PGSIZE) :
    ∃ k', copyout k d va buf = some (true, k') := by
  have hle := h.le
  unfold UPAGES KERNBASE PGSIZE at hle
  unfold PGSIZE at hlo hhi
  refine copyoutLoop_done (by omega) le_rfl fun i hi => ?_
  have hone : pageAt va i = g + 1 := by
    unfold pages pgroundup at hi
    unfold pageAt PGSIZE VPAGES at *
    split_ifs at hi <;> omega
  rw [hone]
  exact h.stack

/-- A copy that touches the page below it fails. -/
theorem Guarded.copyout_across (h : Guarded d g) (k : Kmem) (hbuf : buf.length ≠ 0)
    (hlo : va < (g + 1) * PGSIZE) (hhi : g * PGSIZE < va + buf.length) :
    ∃ k', copyout k d va buf = some (false, k') := by
  have hle := h.le
  unfold UPAGES KERNBASE PGSIZE at hle
  unfold PGSIZE at hlo hhi
  have hpage : ∀ j ≤ g - va / PGSIZE, pageAt va j = va / PGSIZE + j := by
    intro j hj
    unfold pageAt PGSIZE VPAGES at *
    omega
  have hat : pageAt va (g - va / PGSIZE) = g := by
    rw [hpage _ le_rfl]
    unfold PGSIZE
    omega
  have hi : g - va / PGSIZE < pages va buf.length := by
    unfold pages pgroundup PGSIZE
    rw [if_neg hbuf]
    omega
  obtain ⟨k', hk'⟩ := copyoutLoop_stops (k := k) (by omega) le_rfl hi (fun j hj => by
    rw [hpage j hj.le]
    exact h.below _ (by unfold PGSIZE at *; omega)) (by rw [hat]; exact h.guard)
  obtain ⟨pte, hpte⟩ := Option.isSome_iff_exists.mp h.table
  exact ⟨k', by rw [copyout, hk', hat, hpte]; rfl⟩

/-- **The loop over the strings stays in the page of the stack**, or fails.  It does not fail if
there is room for the strings in that page and they are not too many. -/
theorem Guarded.pushArgs (h : Guarded d g) (k : Kmem) (us : List ℕ) (h4 : sp % 4 = 0)
    (hlo : (g + 1) * PGSIZE ≤ sp) (hhi : sp ≤ (g + 2) * PGSIZE) (hsum : strings ss ≤ sp) :
    ∃ o k', Vm.pushArgs d ss sp us k = some (o, k') ∧
      (∀ sp' us', o = some (sp', us') → sp' = sp - strings ss ∧
        us'.length = us.length + ss.length ∧ (g + 1) * PGSIZE ≤ sp') ∧
      (us.length + ss.length ≤ MAXARG → (g + 1) * PGSIZE + strings ss ≤ sp → o ≠ none) := by
  induction ss generalizing sp us k with
  | nil =>
    refine ⟨_, _, rfl, fun sp' us' ho => ?_, fun _ _ => Option.some_ne_none _⟩
    cases ho
    exact ⟨rfl, rfl, hlo⟩
  | cons s ss ih =>
    rw [strings_cons] at hsum ⊢
    have hle := h.le
    have hroom := length_le_room s
    have hmod := room_mod s
    have hlen : (s ++ [0]).length = s.length + 1 := List.length_append
    rw [Vm.pushArgs]
    by_cases hmax : MAXARG ≤ us.length
    · rw [if_pos hmax]
      refine ⟨_, _, rfl, fun _ _ ho => (by cases ho), fun hle => ?_⟩
      rw [List.length_cons] at hle
      omega
    rw [if_neg hmax, pushDown_eq h4 (by omega) (by
      unfold UPAGES KERNBASE PGSIZE at hle
      unfold PGSIZE at hhi
      omega)]
    by_cases hin : (g + 1) * PGSIZE ≤ sp - room s
    · obtain ⟨k1, hk1⟩ := h.copyout_above k (s ++ [0]) hin (by omega)
      obtain ⟨o, k', hrest, hres, hfit⟩ := ih k1 (us ++ [sp - room s])
        (show (sp - room s) % 4 = 0 by omega) hin (by omega) (by omega)
      rw [List.length_append, List.length_singleton] at hfit
      refine ⟨o, k', ?_, fun sp' us' ho => ?_, fun hle hroom => hfit ?_ (by omega)⟩
      · show (copyout k d _ _ >>= _) = _
        rw [hk1]
        exact hrest
      · obtain ⟨h1, h2, h3⟩ := hres sp' us' ho
        rw [List.length_append, List.length_singleton] at h2
        exact ⟨by omega, by rw [List.length_cons]; omega, h3⟩
      · rw [List.length_cons] at hle
        omega
    · -- the string ends at most three bytes below the old stack pointer
      have htouch : g * PGSIZE < sp - room s + (s ++ [0]).length := by
        unfold room PGSIZE at *
        omega
      obtain ⟨k1, hk1⟩ := h.copyout_across k (by omega) (by omega) htouch
      refine ⟨none, k1, ?_, fun _ _ ho => (by cases ho), fun _ hroom => absurd hin (by omega)⟩
      show (copyout k d _ _ >>= _) = _
      rw [hk1]
      rfl

end Xv6.Vm
