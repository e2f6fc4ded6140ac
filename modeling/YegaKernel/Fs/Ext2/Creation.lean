import YegaKernel.Fs.Ext2.Counts
import YegaKernel.Fs.Ext2.Directory

/-! # Creating files and directories

`ext2_create` and `ext2_mkdir` of `ext2_dir.c`, up to the `iget` of the new inode, after which both
return 0. Nothing that they reserved is given back when a later step fails: a call that fails leaves
the file system as it was only if it fails before the inode is reserved (`unchanged_iff`).

The `struct inode` of the directory is taken for an inode of the disk, as in `File`. -/

namespace YegaKernel.Fs.Ext2.Creation

open Lib.Bytes Lib.Word Lib.Strings
open Fs.Disk (Bytes)
open Fs.Ext2.Layout Fs.Ext2.Balloc Fs.Ext2.InodeTable
open Fs.Ext2.Counts Fs.Ext2.Directory

/-! ### The code -/

/-- What the calls depend on besides the file system: whether `kmalloc` has memory for
`get_file_block`, and what is on the stack where `inode_t`, `dentry_t` and `new_block` are. -/
structure Env where
  memory : Bool
  inode : Bytes
  dentry : Bytes
  newBlock : ℕ

/-- `add_dentry_to_new_block`, which does not look whether `reserve_free_block` gave a block. -/
def addDentryToNewBlock (env : Env) (v : Volume) (dir : Handle) (d : Bytes) : Option (ℤ × Volume) := do
  let (found, v) ← reserveFreeBlock v
  let (ret, s) ← Directory.addDentryToNewBlock (fun _ => found.getD env.newBlock) ⟨v, 0⟩ dir d
  return (ret, s.vol)

/-- `add_dentry`, with the block reserved in the bitmap. -/
def addDentry (env : Env) (v : Volume) (dir : Handle) (d : Bytes) : Option (ℤ × Volume) :=
  if iBlockLen dir.inode = 0 then addDentryToNewBlock env v dir d
  else if env.memory then do
    let (_, dentriesRead) ← lastDentry (getFileBlock v dir (iBlockLen dir.inode - 1))
    if dentriesRead ≥ dentriesPerBlk then addDentryToNewBlock env v dir d
    else
      -- nothing is reserved for an entry that goes into the last block
      let (ret, s) ← Directory.addDentry (fun _ => env.newBlock) ⟨v, 0⟩ dir d
      return (ret, s.vol)
  else some (-1, v)

/-- The directory entry: `strncpy` fills the first 63 bytes of the name. -/
def newDentry (env : Env) (inodeN fileType : ℕ) (dName : CString) : Bytes :=
  copy (storeAll env.dentry [(0, 4, inodeN), (4, 2, dentrySize), (6, 1, dName.chars.length),
    (7, 1, fileType)]) 8 (nameSize - 1) fun i => dName.chars.getD i 0

/-- What `ext2_create` and `ext2_mkdir` have in common: `newInode` is the inode for a first block. -/
def create (env : Env) (fileType : ℕ) (newInode : ℕ → Bytes) (v : Volume) (dir : Option Bytes)
    (dentry : Option CString) : Option (ℤ × Volume) :=
  match dir, dentry with
  | some dir, some dName => do
    let (freeInode, v) ← reserveFreeInode v
    match freeInode with
    | none => return (-1, v)
    | some freeInodeN =>
      let (freeBlock, v) ← reserveFreeBlock v
      match freeBlock with
      | none => return (-1, v)
      | some freeBlockN =>
        let v ← writeInodeTable v freeInodeN (newInode freeBlockN)
        let dirFile := { inode := dir, inodeN := load dir 36 4 }
        let (ret, v) ← addDentry env v dirFile (newDentry env freeInodeN fileType dName)
        return (if ret ≠ 0 then -1 else 0, v)
  | _, _ => some (-1, v)

/-- `ext2_create`, with `EXT2_S_IFREG` and `EXT2_FT_REG_FILE`. -/
def ext2Create (env : Env) (mode : ℕ) : Volume → Option Bytes → Option CString → Option (ℤ × Volume) :=
  create env 1 fun b =>
    storeAll (fun _ => 0) [(0, 2, 0x8000 ||| mode), (4, 4, 0), (28, 4, 2), (26, 2, 1), (40, 4, b)]

/-- `new_dir_inode`, with `EXT2_S_IFDIR`. -/
def newDirInode (env : Env) : Bytes :=
  storeAll env.inode [(0, 2, 0x4000), (26, 2, 1), (28, 4, 0), (26, 2, 1), (104, 4, 0), (108, 4, 0),
    (112, 4, 0)]

/-- `ext2_mkdir`, with `EXT2_FT_DIR`. -/
def ext2Mkdir (env : Env) (mode : ℕ) : Volume → Option Bytes → Option CString → Option (ℤ × Volume) :=
  create env 2 fun b =>
    storeAll (newDirInode env) [(0, 2, load (newDirInode env) 0 2 ||| mode), (28, 4, 2), (40, 4, b)]

/-- Which of the two calls. -/
inductive Call
  | create
  | mkdir

def Call.run : Call → Env → ℕ → Volume → Option Bytes → Option CString → Option (ℤ × Volume)
  | .create => ext2Create
  | .mkdir => ext2Mkdir

/-! ### What ought to hold -/

/-- **Nothing has changed**: the counts, the bitmaps, the inode tables and the blocks of the
directory. -/
structure Unchanged (v v' : Volume) (dir : Option Bytes) : Prop where
  freeInodes : sFreeInodesCount v'.super = sFreeInodesCount v.super
  freeBlocks : sFreeBlocksCount v'.super = sFreeBlocksCount v.super
  groups : ∀ g < v.nBlockGroups, v'.group g = v.group g
  blockBitmap : ∀ g < v.nBlockGroups, v'.blockBitmap g = v.blockBitmap g
  inodeBitmap : ∀ g < v.nBlockGroups, v'.inodeBitmap g = v.inodeBitmap g
  inodeTable : ∀ g < v.nBlockGroups, ∀ k < inodeTableBlocks,
    v'.disk (bgInodeTable (v.group g) + k) = v.disk (bgInodeTable (v.group g) + k)
  directory : ∀ d, dir = some d → ∀ i < iBlockLen d,
    getFileBlock v' ⟨d, load d 36 4⟩ i = getFileBlock v ⟨d, load d 36 4⟩ i

theorem Unchanged.refl (v : Volume) (dir : Option Bytes) : Unchanged v v dir :=
  ⟨rfl, rfl, fun _ _ => rfl, fun _ _ => rfl, fun _ _ => rfl, fun _ _ _ _ => rfl, fun _ _ _ _ => rfl⟩

/-- No group has a free entry of the kind, by its count. -/
def NoneFree (count : Bytes → ℕ) (v : Volume) : Prop := ∀ g < v.nBlockGroups, count (v.group g) = 0

/-- There is a block for the file, and memory to read the directory, if it has blocks. -/
def Possible (env : Env) (v : Volume) (dir : Option Bytes) : Prop :=
  ¬ NoneFree bgFreeBlocksCount v ∧ (env.memory = true ∨ ∀ d, dir = some d → iBlockLen d = 0)

/-- **The condition**: the call fails at once, or it finds no inode, or nothing is missing. -/
def Harmless (env : Env) (v : Volume) (dir : Option Bytes) (dentry : Option CString) : Prop :=
  dir = none ∨ dentry = none ∨ NoneFree bgFreeInodesCount v ∨ Possible env v dir

/-! ### The steps -/

section Steps
variable {v v' : Volume}

variable {r : Option ℕ} {dir : Handle} {d : Bytes}

theorem firstFreeNumFrom_cases {count first : Bytes → ℕ} {n i : ℕ}
    (h : firstFreeNumFrom count first v n i = some r) :
    (r = none ∧ ∀ g, i ≤ g → g < i + n → count (v.group g) = 0) ∨
      ((∃ x, r = some x) ∧ ∃ g, i ≤ g ∧ g < i + n ∧ count (v.group g) ≠ 0) := by
  induction n generalizing i with
  | zero => exact .inl ⟨(Option.some.inj h).symm, fun g h1 h2 => absurd h1 (by omega)⟩
  | succ n ih =>
    obtain ⟨d, hd, h⟩ := Option.bind_eq_some_iff.mp h
    have hgroup : v.group i = d := by
      unfold Volume.desc at hd
      split_ifs at hd
      exact Option.some.inj hd
    split_ifs at h with hzero
    · rcases ih h with ⟨hr, hall⟩ | ⟨hr, g, h1, h2, hg⟩
      · refine .inl ⟨hr, fun g h1 h2 => ?_⟩
        rcases h1.eq_or_lt with rfl | h1
        · rw [hgroup, hzero]
        · exact hall g h1 (by omega)
      · exact .inr ⟨hr, g, by omega, by omega, hg⟩
    · exact .inr ⟨⟨_, (Option.some.inj h).symm⟩, i, le_rfl, by omega, hgroup ▸ hzero⟩

theorem firstFreeNum_cases {count first : Bytes → ℕ}
    (h : firstFreeNumFrom count first v v.nBlockGroups 0 = some r) :
    (r = none ∧ NoneFree count v) ∨ ((∃ x, r = some x) ∧ ¬ NoneFree count v) := by
  rcases firstFreeNumFrom_cases h with ⟨hr, hall⟩ | ⟨hr, g, -, hg, hne⟩
  · exact .inl ⟨hr, fun g hg => hall g (Nat.zero_le g) (by omega)⟩
  · exact .inr ⟨hr, fun hall => hne (hall g (by omega))⟩

/-- **`reserve_free_inode`** fails and changes nothing, or it counts down in the superblock. -/
theorem reserveFreeInode_cases (h : reserveFreeInode v = some (r, v')) :
    (r = none ∧ v' = v ∧ NoneFree bgFreeInodesCount v) ∨
      ((∃ x, r = some x) ∧ ¬ NoneFree bgFreeInodesCount v ∧ ∃ disk,
        v' = { v with disk := disk, super := store v.super 16 4 (sub32 (sFreeInodesCount v.super) 1) }) := by
  obtain ⟨found, hfound, h⟩ := Option.bind_eq_some_iff.mp h
  rcases firstFreeNum_cases hfound with ⟨rfl, hnone⟩ | ⟨⟨x, rfl⟩, hsome⟩
  · obtain ⟨rfl, rfl⟩ := Prod.mk.inj (Option.some.inj h)
    exact .inl ⟨rfl, rfl, hnone⟩
  · obtain ⟨v₁, hres, h⟩ := Option.bind_eq_some_iff.mp h
    obtain ⟨rfl, rfl⟩ := Prod.mk.inj (Option.some.inj h)
    exact .inr ⟨⟨x, rfl⟩, hsome, reserveInode_memory hres⟩

theorem reserveFreeBlock_cases (h : reserveFreeBlock v = some (r, v')) :
    (r = none ∧ v' = v ∧ NoneFree bgFreeBlocksCount v) ∨
      ((∃ x, r = some x) ∧ ¬ NoneFree bgFreeBlocksCount v ∧ ∃ disk,
        v' = { v with disk := disk, super := store v.super 12 4 (sub32 (sFreeBlocksCount v.super) 1) }) := by
  have hres := h
  obtain ⟨found, hfound, h⟩ := Option.bind_eq_some_iff.mp h
  rcases firstFreeNum_cases hfound with ⟨rfl, hnone⟩ | ⟨⟨x, rfl⟩, hsome⟩
  · obtain ⟨rfl, rfl⟩ := Prod.mk.inj (Option.some.inj h)
    exact .inl ⟨rfl, rfl, hnone⟩
  · obtain ⟨v₁, -, h⟩ := Option.bind_eq_some_iff.mp h
    obtain ⟨v₂, -, h⟩ := Option.bind_eq_some_iff.mp h
    obtain ⟨v₃, -, h⟩ := Option.bind_eq_some_iff.mp h
    obtain ⟨rfl, -⟩ := Prod.mk.inj (Option.some.inj h)
    exact .inr ⟨⟨x, rfl⟩, hsome, reserveFreeBlock_memory hres⟩

theorem writeInodeTable_super {n : ℕ} {x : Bytes} (h : writeInodeTable v n x = some v') :
    v'.super = v.super := by
  unfold writeInodeTable at h
  split_ifs at h
  obtain ⟨d, -, h⟩ := Option.bind_eq_some_iff.mp h
  rw [← Option.some.inj h]

theorem newBlock_ret {reserved : ℕ → ℕ} {s s' : Store} {r : ℤ}
    (h : Directory.addDentryToNewBlock reserved s dir d = some (r, s')) : r = 0 := by
  unfold Directory.addDentryToNewBlock at h
  obtain ⟨⟨file, v₁⟩, -, h⟩ := Option.bind_eq_some_iff.mp h
  exact (Prod.mk.inj (Option.some.inj h)).1.symm

theorem directory_addDentry_ret {reserved : ℕ → ℕ} {s s' : Store} {r : ℤ}
    (h : Directory.addDentry reserved s dir d = some (r, s')) : r = 0 := by
  unfold Directory.addDentry at h
  simp only at h
  split_ifs at h
  · exact newBlock_ret h
  · obtain ⟨⟨curr, read⟩, -, h⟩ := Option.bind_eq_some_iff.mp h
    split_ifs at h
    · exact newBlock_ret h
    · exact (Prod.mk.inj (Option.some.inj h)).1.symm

theorem addDentryToNewBlock_ret {env : Env} {r : ℤ}
    (h : addDentryToNewBlock env v dir d = some (r, v')) : r = 0 := by
  obtain ⟨⟨found, v₁⟩, -, h⟩ := Option.bind_eq_some_iff.mp h
  obtain ⟨⟨ret, s⟩, hadd, h⟩ := Option.bind_eq_some_iff.mp h
  obtain ⟨rfl, -⟩ := Prod.mk.inj (Option.some.inj h)
  exact newBlock_ret hadd

/-- **`add_dentry` fails** only if there is no memory for the last block, and then changes nothing. -/
theorem addDentry_cases {env : Env} {r : ℤ} (h : addDentry env v dir d = some (r, v')) :
    (iBlockLen dir.inode ≠ 0 ∧ env.memory = false ∧ r = -1 ∧ v' = v) ∨
      ((env.memory = true ∨ iBlockLen dir.inode = 0) ∧ r = 0) := by
  unfold addDentry at h
  split_ifs at h with hlen hmem
  · exact .inr ⟨.inr hlen, addDentryToNewBlock_ret h⟩
  · obtain ⟨⟨curr, read⟩, -, h⟩ := Option.bind_eq_some_iff.mp h
    simp only at h
    split_ifs at h
    · exact .inr ⟨.inl hmem, addDentryToNewBlock_ret h⟩
    · obtain ⟨⟨ret, s⟩, hadd, h⟩ := Option.bind_eq_some_iff.mp h
      obtain ⟨rfl, -⟩ := Prod.mk.inj (Option.some.inj h)
      exact .inr ⟨.inl hmem, directory_addDentry_ret hadd⟩
  · obtain ⟨rfl, rfl⟩ := Prod.mk.inj (Option.some.inj h)
    exact .inl ⟨hlen, Bool.eq_false_iff.mpr hmem, rfl, rfl⟩

end Steps

/-! ### The calls -/

section Calls
variable {env : Env} {v v' : Volume} {dir : Option Bytes} {dentry : Option CString} {r : ℤ}

theorem noneFree_congr {count : Bytes → ℕ} (hgroups : v'.nBlockGroups = v.nBlockGroups)
    (hbgdt : v'.bgdt = v.bgdt) : NoneFree count v' ↔ NoneFree count v := by
  unfold NoneFree Volume.group
  rw [hgroups, hbgdt]

/-- **How a call ends**: it fails before anything is reserved; or it fails later, and the superblock
counts an inode less; or it succeeds. -/
inductive Ends (env : Env) (v : Volume) (dir : Option Bytes) (dentry : Option CString) (r : ℤ)
    (v' : Volume) : Prop
  | early (h : dir = none ∨ dentry = none ∨ NoneFree bgFreeInodesCount v) (hr : r = -1) (hv : v' = v)
  | late (hdir : dir ≠ none) (hdentry : dentry ≠ none) (hinode : ¬ NoneFree bgFreeInodesCount v)
      (h : ¬ Possible env v dir) (hr : r = -1)
      (hcount : sFreeInodesCount v'.super = sub32 (sFreeInodesCount v.super) 1)
  | done (h : Possible env v dir) (hr : r = 0)

theorem create_ends {fileType : ℕ} {newInode : ℕ → Bytes}
    (h : create env fileType newInode v dir dentry = some (r, v')) : Ends env v dir dentry r v' := by
  have hnull : create env fileType newInode v dir dentry = some (-1, v) →
      dir = none ∨ dentry = none → Ends env v dir dentry r v' := by
    intro heq hnone
    obtain ⟨rfl, rfl⟩ := Prod.mk.inj (Option.some.inj (h.symm.trans heq))
    exact .early (hnone.imp_right .inl) rfl rfl
  rcases dir with _ | d
  · exact hnull rfl (.inl rfl)
  rcases dentry with _ | name
  · exact hnull rfl (.inr rfl)
  obtain ⟨⟨freeInode, v₁⟩, hinode, h₁⟩ := Option.bind_eq_some_iff.mp h
  rcases reserveFreeInode_cases hinode with ⟨rfl, rfl, hnone⟩ | ⟨⟨n, rfl⟩, hsome, disk, rfl⟩
  · obtain ⟨rfl, rfl⟩ := Prod.mk.inj (Option.some.inj h₁)
    exact .early (.inr (.inr hnone)) rfl rfl
  -- from here on the inode is reserved
  have hcount : sFreeInodesCount (store v.super 16 4 (sub32 (sFreeInodesCount v.super) 1)) =
      sub32 (sFreeInodesCount v.super) 1 := load_store_of_lt (Nat.mod_lt _ (by decide))
  have hfree : NoneFree bgFreeBlocksCount { v with
      disk := disk, super := store v.super 16 4 (sub32 (sFreeInodesCount v.super) 1) } ↔
      NoneFree bgFreeBlocksCount v := noneFree_congr rfl rfl
  obtain ⟨⟨freeBlock, v₂⟩, hblock, h₂⟩ := Option.bind_eq_some_iff.mp h₁
  rcases reserveFreeBlock_cases hblock with ⟨rfl, rfl, hnone⟩ | ⟨⟨b, rfl⟩, hsome', disk', rfl⟩
  · obtain ⟨rfl, rfl⟩ := Prod.mk.inj (Option.some.inj h₂)
    exact .late (by simp) (by simp) hsome (fun hp => hp.1 (hfree.mp hnone)) rfl hcount
  have hblocks : ¬ NoneFree bgFreeBlocksCount v := fun hn => hsome' (hfree.mpr hn)
  obtain ⟨v₃, htable, h₃⟩ := Option.bind_eq_some_iff.mp h₂
  obtain ⟨⟨ret, v₄⟩, hadd, h₄⟩ := Option.bind_eq_some_iff.mp h₃
  obtain ⟨rfl, rfl⟩ := Prod.mk.inj (Option.some.inj h₄)
  rcases addDentry_cases hadd with ⟨hlen, hmem, rfl, rfl⟩ | ⟨hok, rfl⟩
  · refine .late (by simp) (by simp) hsome ?_ rfl ?_
    · rintro ⟨-, hmem' | hlen'⟩
      · exact absurd (hmem.symm.trans hmem') (by decide)
      · exact hlen (hlen' d rfl)
    · have hkeep : ∀ x b, sFreeInodesCount (store x 12 4 b) = sFreeInodesCount x :=
        fun x b => load_store_apart (by omega)
      rw [writeInodeTable_super htable]
      exact (hkeep _ _).trans hcount
  · refine .done ⟨hblocks, hok.imp_right fun hlen d' hd' => ?_⟩ rfl
    rw [← Option.some.inj hd']
    exact hlen

/-- **A call that fails leaves the file system as it was exactly if** it fails before it reserves an
inode, or does not fail at all. -/
theorem unchanged_iff {call : Call} {mode : ℕ} (h : call.run env mode v dir dentry = some (r, v')) :
    (r = -1 → Unchanged v v' dir) ↔ Harmless env v dir dentry := by
  have hends : Ends env v dir dentry r v' := by
    cases call <;> exact create_ends h
  cases hends with
  | early hearly hr hv =>
    subst hv
    exact iff_of_true (fun _ => Unchanged.refl _ dir)
      (hearly.imp_right fun h => h.imp_right .inl)
  | late hdir hdentry hinode hno hr hcount =>
    refine iff_of_false (fun hun => ?_) ?_
    · -- the superblock counts an inode less
      have hsame := (hun hr).freeInodes
      have hlt : sFreeInodesCount v.super < 256 ^ 4 := load_lt _ _ _
      rw [hcount, sub32] at hsame
      omega
    · rintro (h | h | h | h)
      · exact hdir h
      · exact hdentry h
      · exact hinode h
      · exact hno h
  | done hok hr =>
    exact iff_of_true (fun hfail => absurd (hr.symm.trans hfail) (by decide))
      (.inr (.inr (.inr hok)))

end Calls

/-- A volume of one group, with inodes and blocks left by the counts, and the blocks 3 to 5 for the
bitmaps and the inode table. -/
def smallVolume (freeBlocks freeInodes : ℕ) : Volume :=
  { disk := fun _ _ => 0,
    super := storeAll (fun _ => 0) [(0, 4, 64), (4, 4, 8192), (12, 4, freeBlocks), (16, 4, freeInodes),
      (32, 4, 8192), (40, 4, 64)],
    bgdt := storeAll (fun _ => 0) [(0, 4, 3), (4, 4, 4), (8, 4, 5), (12, 2, freeBlocks),
      (14, 2, freeInodes)],
    nBlockGroups := 1 }

/-- Enough memory, and a stack of zeros. -/
def plainEnv : Env := { memory := true, inode := fun _ => 0, dentry := fun _ => 0, newBlock := 0 }

/-- Without free inodes `mkdir` fails, and nothing has changed. -/
theorem unchanged_noInodes : ∃ v', ext2Mkdir plainEnv 0o755 (smallVolume 100 0) (some fun _ => 0)
    (some ⟨[97], by decide⟩) = some (-1, v') ∧ Unchanged (smallVolume 100 0) v' (some fun _ => 0) := by
  have hnone : NoneFree bgFreeInodesCount (smallVolume 100 0) := by
    intro g hg
    obtain rfl : g = 0 := by
      simp only [smallVolume] at hg
      omega
    decide +kernel
  have h : Call.mkdir.run plainEnv 0o755 (smallVolume 100 0) (some fun _ => 0)
    (some ⟨[97], by decide⟩) = some (-1, smallVolume 100 0) := rfl
  exact ⟨_, h, (unchanged_iff h).mpr (.inr (.inr (.inl hnone))) rfl⟩

/-- Without free blocks `create` fails, and an inode is lost. -/
theorem not_unchanged_noBlocks : ∃ v', ext2Create plainEnv 0o644 (smallVolume 0 10) (some fun _ => 0)
    (some ⟨[97], by decide⟩) = some (-1, v') ∧ sFreeInodesCount v'.super = 9 ∧
      ¬ Unchanged (smallVolume 0 10) v' (some fun _ => 0) := by
  have hcheck : ((ext2Create plainEnv 0o644 (smallVolume 0 10) (some fun _ => 0)
      (some ⟨[97], by decide⟩)).any fun r => decide (r.1 = -1 ∧ sFreeInodesCount r.2.super = 9)) =
      true := by decide +kernel
  obtain ⟨⟨r, v'⟩, hrun, h⟩ := (Option.any_eq_true _ _).mp hcheck
  obtain ⟨rfl, hcount⟩ := of_decide_eq_true h
  refine ⟨v', hrun, hcount, fun hun => ?_⟩
  have hten : sFreeInodesCount (smallVolume 0 10).super = 10 := by decide +kernel
  exact absurd (hcount.symm.trans (hun.freeInodes.trans hten)) (by decide)

end YegaKernel.Fs.Ext2.Creation
