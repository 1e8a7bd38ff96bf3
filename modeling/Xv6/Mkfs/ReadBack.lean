import Xv6.Fs.Syscall
import Xv6.Mkfs.WellFormed

/-!
# The kernel reads what `mkfs` wrote

The kernel starts on the image that `mkfs` made, looks up a name in the root directory, and reads
from the inode that it finds.  For files that fit the image, the answer is the contents of the file
with this name, at every offset and for every length (`lookupRead_main`).

The root directory of the image may have a hole at its end, behind the last entry.  The search does
not get that far: it ends at the entry of the file.
-/

namespace Xv6.Mkfs

open Lib Fs

/-- The kernel looks up `name` in the root directory and reads `n` bytes at `off` of what it finds.
Returns the size of the file and the result of `readi`. -/
def lookupRead (name : Name) (off n : UInt32) : Op (Option (UInt32 × Option (List UInt8))) := do
  let dp ← iget ROOTINO
  ilock dp
  match ← dirlookup dp name with
  | none => return none
  | some (ip, _) =>
    ilock ip
    let size := ((← get).inode ip).din.size
    return some (size, ← readi ip off n)

/-- **Files that fit the image**: not too many, none too long, enough blocks, and names that are
different in the first `DIRSIZ` characters. -/
structure Fits (files : List Input) : Prop where
  count : files.length + 2 ≤ NINODES
  length : ∀ f ∈ files, f.data.length ≤ MAXFILE * BSIZE
  blocks : nmeta + total files ≤ FSSIZE
  nonempty : ∀ f ∈ files, f.base ≠ []
  distinct : (files.map fun f => f.base.take DIRSIZ).Nodup
  dots : ∀ f ∈ files, f.base.take DIRSIZ ≠ dot ∧ f.base.take DIRSIZ ≠ dotdot

/-! ## The entries of the root directory -/

theorem Input.nul_base (f : Input) : 0 ∉ f.base := by
  rw [Input.base]
  split_ifs
  · exact fun h => f.nul (List.mem_of_mem_tail h)
  · exact f.nul

section Root

variable {files : List Input} {k : ℕ}

theorem length_rootEntries (files : List Input) :
    (rootEntries files).length = files.length + 2 := by
  rw [rootEntries, List.length_cons, List.length_cons, List.length_mapIdx]

/-- The entries of the root directory are the ones that were written. -/
theorem direntAt_rootData (hn : files.length + 2 ≤ NINODES) (hk : k < (rootEntries files).length) :
    direntAt (rootData files) k = (rootEntries files)[k] := by
  have hwidth : ∀ de ∈ rootEntries files, de.toBytes.length = DESIZE ∧ de.inum < 2 ^ 16 := by
    intro de hde
    rw [rootEntries, List.mem_cons, List.mem_cons, List.mem_mapIdx] at hde
    rcases hde with rfl | rfl | ⟨j, hj, rfl⟩
    · exact ⟨Dirent.length_toBytes_strncpy _ _, by decide⟩
    · exact ⟨Dirent.length_toBytes_strncpy _ _, by decide⟩
    · have hN : NINODES = 200 := rfl
      exact ⟨Dirent.length_toBytes_strncpy _ _, show j + 2 < 2 ^ 16 by omega⟩
  have hpiece := take_drop_flatMap Dirent.toBytes (rootEntries files)
    (fun de hde => (hwidth de hde).1) [] hk
  rw [List.append_nil] at hpiece
  rw [direntAt, rootData, hpiece, Dirent.ofBytes_toBytes (hwidth _ (List.getElem_mem hk)).2]

theorem direntAt_file (hn : files.length + 2 ≤ NINODES) (hk : k < files.length) :
    direntAt (rootData files) (k + 2) = ⟨k + 2, strncpy files[k].base DIRSIZ⟩ := by
  rw [direntAt_rootData hn (by rw [length_rootEntries]; omega)]
  simp only [rootEntries, List.getElem_cons_succ, List.getElem_mapIdx]

/-- A file is named by its own entry and by none before it. -/
theorem Fits.named (h : Fits files) (hk : k < files.length) {j : ℕ} (hj : j ≤ k + 2) :
    (direntAt (rootData files) j).Named (files[k].base.take DIRSIZ) ↔ j = k + 2 := by
  have hmem : files[k] ∈ files := List.getElem_mem hk
  have hnul : 0 ∉ files[k].base.take DIRSIZ := fun hz => files[k].nul_base (List.mem_of_mem_take hz)
  have htake : (files[k].base.take DIRSIZ).take DIRSIZ = files[k].base.take DIRSIZ := by
    rw [List.take_take, Nat.min_self]
  -- an entry with the name `t` is found exactly if the name of the file begins like `t`
  have hcmp : ∀ {i : ℕ} {t : Name}, i ≠ 0 → 0 ∉ t →
      ((⟨i, strncpy t DIRSIZ⟩ : Dirent).Named (files[k].base.take DIRSIZ) ↔
        files[k].base.take DIRSIZ = t.take DIRSIZ) := by
    intro i t hi ht
    have hname := namecmp_strncpy hnul ht
    rw [htake] at hname
    exact ⟨fun hd => hname.mp hd.2, fun heq => ⟨hi, hname.mpr heq⟩⟩
  match j, hj with
  | 0, _ =>
    rw [direntAt_rootData h.count (by rw [length_rootEntries]; omega)]
    refine (hcmp (t := dot) (by decide) (by decide)).trans ⟨fun heq => ?_, fun heq => by omega⟩
    exact absurd heq (h.dots _ hmem).1
  | 1, _ =>
    rw [direntAt_rootData h.count (by rw [length_rootEntries]; omega)]
    refine (hcmp (t := dotdot) (by decide) (by decide)).trans ⟨fun heq => ?_, fun heq => by omega⟩
    exact absurd heq (h.dots _ hmem).2
  | j + 2, hj =>
    have hjl : j < files.length := by omega
    rw [direntAt_file h.count hjl, hcmp (Nat.succ_ne_zero _) files[j].nul_base]
    constructor
    · intro heq
      have hlen : (files.map fun f => f.base.take DIRSIZ).length = files.length := List.length_map _
      have hnames : (files.map fun f => f.base.take DIRSIZ)[j] =
          (files.map fun f => f.base.take DIRSIZ)[k] := by
        rw [List.getElem_map, List.getElem_map, heq]
      have hidx := h.distinct.getElem_inj_iff.mp hnames
      omega
    · intro heq
      obtain rfl : j = k := by omega
      rfl

end Root

/-! ## Reading a file -/

section Read

variable {files : List Input} {s : State} {k : ℕ}

theorem Built.file (h : Built files s) (hn : files.length + 2 ≤ NINODES) (hk : k < files.length) :
    (dinode s.img sb (k + 2)).type = T_FILE ∧
      (dinode s.img sb (k + 2)).data s.img = files[k].data ∧
      (dinode s.img sb (k + 2)).NoHoles s.img := by
  have hnode := h.node (k + 2) (by rw [ROOTINO]; omega)
  rw [nodes, List.getElem?_eq_getElem hk, Option.map_some, nodeOf] at hnode
  split_ifs at hnode with hc
  have heq := Option.some.inj hnode
  exact ⟨congrArg Node.type heq, congrArg Node.data heq,
    h.noHoles _ (by omega) (by rw [ROOTINO]; omega) hc.2⟩

/-- The search for the name of a file in the root directory ends at its entry. -/
theorem Built.dirlookupLoop (h : Built files s) (hf : Fits files) (hk : k < files.length)
    {ks : Fs.State} (dp : Icache) (hdisk : ks.disk = s.img)
    (hdin : (ks.inode dp).din = dinode s.img sb ROOTINO) :
    dirlookupLoop dp (files[k].base.take DIRSIZ) (dirents (ks.inode dp).din) 0 ks =
      .ok (some (k + 2, DESIZE * (k + 2)), ks) := by
  have hroot := h.root
  have hlen := length_rootData files
  have hB : BSIZE = 512 := rfl
  have hD : DESIZE = 16 := rfl
  have hsize : DESIZE * (files.length + 2) ≤ (ks.inode dp).din.size.toNat := by
    rw [hdin, hroot.size, hB, hD]
    omega
  have hreads : Reads ks dp (rootData files) := by
    refine reads_of_addr ?_ ?_ ?_ fun x hx => ?_
    · rw [hdin, hroot.type]
      decide
    · rwa [hlen]
    · rw [hdin, hdisk, hlen, hroot.data]
    · rw [hlen] at hx
      rw [hdin, hdisk]
      exact hroot.addr x hx
  have hbound : k + 2 < 0 + dirents (ks.inode dp).din := by
    rw [dirents, hD]
    rw [hD] at hsize
    omega
  have hfound := hreads.found (m := k + 2) (by rw [hlen]; exact Nat.mul_le_mul_left _ (by omega))
    ((hf.named hk le_rfl).mpr rfl) (Nat.zero_le _) hbound
    fun j _ hj hname => absurd ((hf.named hk hj.le).mp hname) (ne_of_lt hj)
  rwa [direntAt_file hf.count hk] at hfound

/-- **Reading back.**  On the image of `mkfs`, the kernel finds a file under its name, with its size
and its contents. -/
theorem Built.lookupRead (h : Built files s) (hf : Fits files) (hk : k < files.length)
    (devsw : ℕ → Devsw) (off n : UInt32) :
    ∃ ks, lookupRead (files[k].base.take DIRSIZ) off n (init s.img devsw) =
      .ok (some (UInt32.ofNat files[k].data.length, readData files[k].data off n), ks) := by
  obtain ⟨htype, hdata, hfull⟩ := h.file hf.count hk
  have hroot := h.root.type
  have hsb : (init s.img devsw).sb = sb := h.super
  have hempty :
    ∀ iq, (init s.img devsw).inode iq = ⟨0, 0, false, false, Dinode.zero⟩ := fun _ => rfl
  have hdisk : (init s.img devsw).disk = s.img := rfl
  generalize init s.img devsw = s0 at hsb hempty hdisk ⊢
  -- the root directory comes into the empty cache
  obtain ⟨dp, s1, -, hget, hlock⟩ := fetch_miss (s := s0) (i := ROOTINO)
    (fun iq hq => absurd hq (by rw [hempty]; decide)) ⟨0, by rw [hempty]⟩
    (fun iq _ => by rw [hempty]) (by rw [hdisk, hsb, hroot]; decide)
  rw [hdisk, hsb] at hlock
  generalize hs2 : s0.putInode dp ⟨ROOTINO, 1, true, true, dinode s.img sb ROOTINO⟩ = s2 at hlock
  have hdp : s2.inode dp = ⟨ROOTINO, 1, true, true, dinode s.img sb ROOTINO⟩ := by
    rw [← hs2, putInode_self]
  have hother : ∀ iq, iq ≠ dp → s2.inode iq = ⟨0, 0, false, false, Dinode.zero⟩ := by
    intro iq hq
    rw [← hs2, putInode_of_ne hq, hempty]
  have hdisk2 : s2.disk = s.img := by rw [← hs2]; exact hdisk
  have hsb2 : s2.sb = sb := by rw [← hs2]; exact hsb
  have hloop := h.dirlookupLoop hf hk dp hdisk2 (by rw [hdp])
  -- the file comes into a place that the root directory does not take
  obtain ⟨iq, hiq⟩ : ∃ iq : Icache, iq ≠ dp :=
    have : Nontrivial Icache := Fin.nontrivial_iff_two_le.mpr (by decide)
    exists_ne dp
  obtain ⟨ip, s3, -, hget', hlock'⟩ := fetch_miss (s := s2) (i := k + 2)
    (fun iq hq => by
      by_cases hiq : iq = dp
      · rw [hiq, hdp]
        exact show 1 ≠ k + 2 by omega
      · rw [hother iq hiq] at hq
        exact absurd hq (by decide))
    ⟨iq, by rw [hother iq hiq]⟩
    (fun iq hq => by
      by_cases hiq : iq = dp
      · rw [hiq, hdp] at hq
        exact absurd hq Nat.one_ne_zero
      · rw [hother iq hiq])
    (by rw [hdisk2, hsb2, htype]; decide)
  rw [hdisk2, hsb2] at hlock'
  generalize hs4 : s2.putInode ip ⟨k + 2, 1, true, true, dinode s.img sb (k + 2)⟩ = s4 at hlock'
  have hip : s4.inode ip = ⟨k + 2, 1, true, true, dinode s.img sb (k + 2)⟩ := by
    rw [← hs4, putInode_self]
  have hdisk4 : s4.disk = s.img := by rw [← hs4]; exact hdisk2
  have hlook := dirlookup_some (by rw [hdp]; exact hroot) hloop hget'
  have hfull' : (s4.inode ip).din.NoHoles s4.disk := by
    rw [hip, hdisk4]
    exact hfull
  have hread := readi_eq hfull' (by rw [hip, htype]; decide) off n
  have hsize : (s4.inode ip).din.size = UInt32.ofNat files[k].data.length := by
    rw [← hdata, Dinode.length_data, hip, UInt32.ofNat_toNat]
  refine ⟨s4, ?_⟩
  rw [Mkfs.lookupRead, bind_ok hget, bind_ok hlock, bind_ok hlook]
  show (ilock ip >>= fun _ => _) s3 = _
  rw [bind_ok hlock', bind_ok (show (get : Op Fs.State) s4 = .ok (s4, s4) from rfl), bind_ok hread,
    hsize, hip, hdisk4, hdata]
  rfl

/-- **`mkfs` and the kernel agree on the format of the disk.**  `mkfs` makes an image of all files
that fit, if their names have no slashes.  On the image, the kernel finds every file under the first
`DIRSIZ` characters of its name, and reads its size and, at every offset and for every length, its
contents. -/
theorem lookupRead_main (hf : Fits files) :
    ((∀ f ∈ files, slash ∉ f.name) → ∃ s, main files start = .ok ((), s)) ∧
      ∀ s, main files start = .ok ((), s) → ∀ k (hk : k < files.length) devsw off n,
        ∃ ks, Mkfs.lookupRead (files[k].base.take DIRSIZ) off n (init s.img devsw) =
          .ok (some (UInt32.ofNat files[k].data.length, readData files[k].data off n), ks) := by
  refine ⟨fun hslash => ?_, fun s hrun k hk devsw off n => ?_⟩
  · exact main_ok hf.count (fun f hmem => ⟨hslash f hmem, hf.length f hmem⟩) hf.blocks
  · exact (main_built hf.count hrun).lookupRead hf hk devsw off n

end Read

/-- The file `_a` is found under the name `a`. -/
theorem lookupRead_main_small : ∃ s, main [smallFile] start = .ok ((), s) ∧
    ∃ ks, lookupRead [97] 1 8 (init s.img fun _ => ⟨none, none⟩) =
      .ok (some (3, some [2, 3]), ks) := by
  have hmem : ∀ f ∈ [smallFile], f = smallFile := fun f hf => List.mem_singleton.mp hf
  have hf : Fits [smallFile] := by
    refine ⟨by decide, fun f hf => ?_, by decide, fun f hf => ?_, by decide, fun f hf => ?_⟩
    · rw [hmem f hf]
      decide
    · rw [hmem f hf]
      decide
    · rw [hmem f hf]
      decide
  obtain ⟨hok, hread⟩ := lookupRead_main hf
  obtain ⟨s, hrun⟩ := hok fun f hf => by rw [hmem f hf]; decide
  exact ⟨s, hrun, hread s hrun 0 (by decide) (fun _ => ⟨none, none⟩) 1 8⟩

end Xv6.Mkfs
