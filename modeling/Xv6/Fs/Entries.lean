import Xv6.Fs.Cache
import Xv6.Fs.Directory

/-!
# The entries of a directory

The contents of a directory are a list of bytes, and every `DESIZE` of them are an entry
(`direntAt`).  The loops over a directory (`dirlookup`, `dirlink`, `isdirempty`) read one entry
after the other.  What they find is said here in terms of the list.

A name is compared with at most `DIRSIZ` characters, and stored with as many.  A stored name is
found by every name that has the same first `DIRSIZ` characters and by no other (`namecmp_strncpy`).
-/

namespace Xv6.Fs

open Lib

/-! ## Names -/

@[simp] theorem length_strncpy (t : List UInt8) (n : ℕ) : (strncpy t n).length = n := by
  induction n generalizing t with
  | zero => rfl
  | succ n ih =>
    rw [strncpy]
    split_ifs
    · exact List.length_replicate
    · rw [List.length_cons, ih]

/-- Two strings without a zero in them, the second one stored in a field of `n` characters. -/
theorem strncmp_strncpy {n : ℕ} {p t : List UInt8} (hp : 0 ∉ p) (ht : 0 ∉ t) :
    strncmp n p (strncpy t n) = true ↔ p.take n = t.take n := by
  induction n generalizing p t with
  | zero => exact ⟨fun _ => rfl, fun _ => rfl⟩
  | succ n ih =>
    cases t with
    | nil =>
      cases p with
      | nil => exact ⟨fun _ => rfl, fun _ => rfl⟩
      | cons a p =>
        have ha : a ≠ 0 := fun h => hp (h ▸ List.mem_cons_self)
        have hcmp : strncmp (n + 1) (a :: p) (strncpy [] (n + 1)) = false := if_pos ha
        rw [hcmp]
        exact ⟨nofun, nofun⟩
    | cons b t =>
      have hb : b ≠ 0 := fun h => ht (h ▸ List.mem_cons_self)
      have hcpy : strncpy (b :: t) (n + 1) = b :: strncpy t n := if_neg hb
      rw [hcpy]
      cases p with
      | nil =>
        have hcmp : strncmp (n + 1) [] (b :: strncpy t n) = false := if_pos hb.symm
        rw [hcmp]
        exact ⟨nofun, nofun⟩
      | cons a p =>
        have ha : a ≠ 0 := fun h => hp (h ▸ List.mem_cons_self)
        rw [strncmp, List.headD_cons, List.headD_cons, List.take_succ_cons, List.take_succ_cons,
          List.cons.injEq]
        by_cases hab : a = b
        · rw [if_neg (not_not.mpr hab), if_neg ha, List.tail_cons, List.tail_cons,
            ih (fun h => hp (List.mem_cons_of_mem a h)) fun h => ht (List.mem_cons_of_mem b h)]
          exact ⟨fun h => ⟨hab, h⟩, fun h => h.2⟩
        · rw [if_pos hab]
          exact ⟨nofun, fun h => absurd h.1 hab⟩

/-- A stored name is found by the names that agree with it in the first `DIRSIZ` characters. -/
theorem namecmp_strncpy {p t : List UInt8} (hp : 0 ∉ p) (ht : 0 ∉ t) :
    namecmp p (strncpy t DIRSIZ) = true ↔ p.take DIRSIZ = t.take DIRSIZ :=
  strncmp_strncpy hp ht

/-! ## Entries -/

theorem Dirent.length_toBytes {de : Dirent} (h : de.name.length = DIRSIZ) :
    de.toBytes.length = DESIZE := by
  rw [Dirent.toBytes, List.length_append, length_leBytes, h]
  rfl

@[simp] theorem Dirent.length_toBytes_strncpy (inum : ℕ) (name : Name) :
    (⟨inum, strncpy name DIRSIZ⟩ : Dirent).toBytes.length = DESIZE :=
  Dirent.length_toBytes (length_strncpy name DIRSIZ)

/-- An entry is read back as it was stored. -/
theorem Dirent.ofBytes_toBytes {de : Dirent} (h : de.inum < 2 ^ 16) :
    Dirent.ofBytes de.toBytes = de := by
  have hlen : (leBytes 2 de.inum).length = 2 := length_leBytes _ _
  rw [Dirent.ofBytes, Dirent.toBytes, List.take_left' hlen, List.drop_left' hlen,
    leNat_leBytes_of_lt h]

/-- Entry `k` of a directory with the contents `l`. -/
def direntAt (l : List UInt8) (k : ℕ) : Dirent := Dirent.ofBytes ((l.drop (DESIZE * k)).take DESIZE)

/-- The entry has the name, and is not empty. -/
def Dirent.Named (de : Dirent) (name : Name) : Prop := de.inum ≠ 0 ∧ namecmp name de.name = true

instance (de : Dirent) (name : Name) : Decidable (de.Named name) :=
  inferInstanceAs (Decidable (_ ∧ _))

/-- Reading the entries of the directory at `dp` gives those of the contents `l`, as far as they
go. -/
def Reads (s : State) (dp : Icache) (l : List UInt8) : Prop :=
  ∀ k, DESIZE * (k + 1) ≤ l.length → readDirent dp (DESIZE * k) s = .ok (some (direntAt l k), s)

section Lookup

variable {s : State} {dp : Icache} {l : List UInt8} {name : Name}

theorem reads_of_addr (ht : (s.inode dp).din.type ≠ T_DEV)
    (hlen : l.length ≤ (s.inode dp).din.size.toNat)
    (hdata : slice ((s.inode dp).din.byte s.disk) 0 l.length = l)
    (haddr : ∀ x, x < l.length → (s.inode dp).din.addr s.disk (x / BSIZE) ≠ 0) : Reads s dp l := by
  intro k hk
  rw [Nat.mul_succ] at hk
  have hlt := (s.inode dp).din.size.toNat_lt
  have hD : DESIZE = 16 := rfl
  have hoff : (UInt32.ofNat (DESIZE * k)).toNat = DESIZE * k :=
    UInt32.toNat_ofNat_of_lt' (by rw [UInt32.size]; omega)
  have hn : (UInt32.ofNat DESIZE).toNat = DESIZE := rfl
  have hread : readi dp (UInt32.ofNat (DESIZE * k)) (UInt32.ofNat DESIZE) s =
      .ok (some ((l.drop (DESIZE * k)).take DESIZE), s) := by
    rw [readi_range_eq (fun x _ hx _ => haddr x (by omega)) ht, readData, Dinode.length_data, hoff,
      hn, if_neg (by omega)]
    nth_rewrite 1 [← hdata]
    rw [Dinode.data, drop_slice, drop_slice, take_slice, take_slice, Nat.min_eq_left (by omega),
      Nat.min_eq_left (by omega)]
  have hfull : ((l.drop (DESIZE * k)).take DESIZE).length = DESIZE := by
    rw [List.length_take, List.length_drop]
    omega
  rw [readDirent, bind_ok hread]
  show Except.ok ((if ((l.drop (DESIZE * k)).take DESIZE).length = DESIZE then _ else _), s) = _
  rw [if_pos hfull]
  rfl

theorem dirlookupLoop_succ {off k : ℕ} {de : Dirent}
    (h : readDirent dp off s = .ok (some de, s)) :
    dirlookupLoop dp name (k + 1) off s =
      if de.Named name then .ok (some (de.inum, off), s)
      else dirlookupLoop dp name k (off + DESIZE) s := by
  rw [dirlookupLoop, bind_ok h]
  by_cases hz : de.inum = 0
  · simp only [hz, if_pos]
    rw [if_neg fun hn : de.Named name => hn.1 hz]
  · by_cases hn : namecmp name de.name = true
    · simp only [if_neg hz, if_pos hn]
      rw [if_pos (show de.Named name from ⟨hz, hn⟩)]
      rfl
    · simp only [if_neg hz, if_neg hn]
      rw [if_neg fun h : de.Named name => hn h.2]

/-- **`dirlookup` finds** the first entry with the name. -/
theorem Reads.found (h : Reads s dp l) {m : ℕ} (hm : DESIZE * (m + 1) ≤ l.length)
    (hyes : (direntAt l m).Named name) {i k : ℕ} (him : i ≤ m) (hk : m < i + k)
    (hno : ∀ j, i ≤ j → j < m → ¬ (direntAt l j).Named name) :
    dirlookupLoop dp name k (DESIZE * i) s = .ok (some ((direntAt l m).inum, DESIZE * m), s) := by
  induction k generalizing i with
  | zero => omega
  | succ k ih =>
    have hi := h i (le_trans (Nat.mul_le_mul_left _ (by omega)) hm)
    rw [dirlookupLoop_succ hi]
    rcases Nat.eq_or_lt_of_le him with rfl | hlt
    · rw [if_pos hyes]
    · rw [if_neg (hno i le_rfl hlt)]
      exact ih hlt (by omega) fun j hj => hno j (by omega)

/-- What `dirlookup` does after its loop found an entry. -/
theorem dirlookup_some {inum off : ℕ} (ht : (s.inode dp).din.type = T_DIR)
    (h : dirlookupLoop dp name (dirents (s.inode dp).din) 0 s = .ok (some (inum, off), s))
    {ip : Icache} {s' : State} (hget : iget inum s = .ok (ip, s')) :
    dirlookup dp name s = .ok (some (ip, off), s') := by
  rw [dirlookup, bind_ok (show (get : Op State) s = .ok (s, s) from rfl)]
  simp only [ne_eq, ht, not_true, if_false]
  rw [bind_ok h]
  show (iget inum >>= fun ip => pure (some (ip, off))) s = _
  rw [bind_ok hget]
  rfl

end Lookup

/-! ## Writing an entry -/

section Writing

variable {l m : List UInt8} {j k : ℕ}

/-- A directory of full entries, with room for an entry at `k`: one that is there, or the next
one. -/
theorem length_splice_entry (hk : DESIZE * k ≤ l.length) (hm : m.length = DESIZE) :
    (splice l (DESIZE * k) m).length = max l.length (DESIZE * (k + 1)) := by
  rw [splice, List.length_append, List.length_append, List.length_take, List.length_drop, hm,
    Nat.mul_succ]
  omega

theorem direntAt_splice_self (hk : DESIZE * k ≤ l.length) (hm : m.length = DESIZE) :
    direntAt (splice l (DESIZE * k) m) k = Dirent.ofBytes m := by
  have hlen : (l.take (DESIZE * k)).length = DESIZE * k := List.length_take_of_le hk
  rw [direntAt, splice, List.drop_left' hlen, List.take_left' hm]

theorem direntAt_splice_of_ne (hk : DESIZE * k ≤ l.length) (hm : m.length = DESIZE) (hjk : j ≠ k) :
    direntAt (splice l (DESIZE * k) m) j = direntAt l j := by
  have hlen : (l.take (DESIZE * k)).length = DESIZE * k := List.length_take_of_le hk
  rw [direntAt, direntAt, splice]
  rcases Nat.lt_or_gt_of_ne hjk with hlt | hgt
  · have hle : DESIZE * j + DESIZE ≤ DESIZE * k := by
      rw [← Nat.mul_succ]
      exact Nat.mul_le_mul_left _ hlt
    rw [List.drop_append_of_le_length (by omega), List.take_append_of_le_length
      (by rw [List.length_drop]; omega), List.drop_take, List.take_take, Nat.min_eq_left (by omega)]
  · obtain ⟨n, rfl⟩ : ∃ n, j = k + 1 + n := ⟨j - (k + 1), by omega⟩
    have hadd : DESIZE * (k + 1 + n) = DESIZE * k + (DESIZE + DESIZE * n) := by
      rw [Nat.mul_add, Nat.mul_succ, Nat.add_assoc]
    rw [hadd, ← List.drop_drop, List.drop_left' hlen, ← List.drop_drop, List.drop_left' hm, hm,
      List.drop_drop, Nat.add_assoc]

end Writing

end Xv6.Fs
