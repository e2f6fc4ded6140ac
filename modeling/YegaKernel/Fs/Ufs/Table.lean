import YegaKernel.Fs.Ufs.Model

/-! # The inode table

UFS on the ideal store of blocks: after `mkufs` and any writes of inodes, every inode is read as it
was last written, or as it was formatted (`getDinode_after_writes`), and the blocks used are those
of the inode table.

`Holds mb n last base s` is the invariant: the superblock is in its buffer, each of the inodes below
`n` is on the disk as `last` says, and only blocks of the table were touched since the log was
`base`. -/

namespace YegaKernel.Fs.Ufs.Table

open Lib.Bytes Lib.Word
open Fs.Disk (Bytes)
open Fs.Buffer (Fault devNo)
open Fs.Ufs.Model Function

/-! ### The invariant -/

/-- The inode `i` on the disk. -/
def recordAt (s : Store) (i : ℕ) : Bytes := view (s.disk (i / 8 + 2)) (dinodeSize * (i % 8))

/-- The record of inode `i` is the one last written, or a fresh one. -/
def IsRecord (i : ℕ) (rec : Bytes) : Option Bytes → Prop
  | some inode => Agree dinodeSize rec inode
  | none => Fresh rec i (i / 8 + 2)

theorem IsRecord.congr {i : ℕ} {rec rec' : Bytes} : ∀ {last : Option Bytes}, Agree dinodeSize rec' rec →
    IsRecord i rec last → IsRecord i rec' last
  | some _, h, hrec => h.trans hrec
  | none, h, hrec => fun f hf => (h.load_eq (dinodeFields_inside _ _ _ f hf)).trans (hrec f hf)

/-- A block of the inode table. -/
def InTable (mb b : ℕ) : Prop := 2 ≤ b ∧ b ≤ 32 * mb + 1

/-- **The state of the inode table.** -/
structure Holds (mb n : ℕ) (last : ℕ → Option Bytes) (base : List ℕ) (s : Store) : Prop where
  total : sTotalInodes (s.buffer 1) = 256 * mb
  start : sBlkDilbStart (s.buffer 1) = 2
  stop : sBlkDilbEnd (s.buffer 1) = 32 * mb + 1
  record : ∀ i < n, IsRecord i (recordAt s i) (last i)
  touched : ∃ blocks, s.touched = blocks ++ base ∧ ∀ b ∈ blocks, InTable mb b

variable {mb n : ℕ} {last : ℕ → Option Bytes} {base : List ℕ} {s : Store}

theorem iBlk_eq (h : Holds mb n last base s) (hmb : mb < 4096) {i : ℕ} (hi : i < 256 * mb) :
    iBlk storeOps 1 s i = i / 8 + 2 := by
  have hstart : sBlkDilbStart (storeOps.data s 1) = 2 := h.start
  rw [iBlk, hstart, show inodesPerBlock = 8 from rfl, u32_of_lt (by omega)]

theorem inTable_block {i : ℕ} (hi : i < 256 * mb) : InTable mb (i / 8 + 2) := ⟨by omega, by omega⟩

/-! ### One call on the store -/

/-- A block of the store is read, changed and written. -/
def rewrite (s : Store) (b : ℕ) (f : Bytes → Bytes) : Store where
  disk := update s.disk b (f (s.disk b))
  buffer := update s.buffer b (f (s.disk b))
  touched := b :: b :: s.touched

theorem rewrite_ops (s : Store) (b : ℕ) (f : Bytes → Bytes) : (do
    let (c, s) ← storeOps.bread s b
    storeOps.bwrite (storeOps.setData s c (f (storeOps.data s c))) c) = .ok (rewrite s b f) := by
  simp only [storeOps, bind, Except.bind, rewrite, update_self, update_idem]

theorem formatBlock_eq (s : Store) (iCnt blk : ℕ) :
    formatBlock storeOps iCnt blk s = .ok (rewrite s blk (initInodes iCnt blk)) := rewrite_ops s blk _

theorem recordAt_rewrite (s : Store) (b i : ℕ) (f : Bytes → Bytes) : recordAt (rewrite s b f) i =
    if i / 8 + 2 = b then view (f (s.disk b)) (dinodeSize * (i % 8)) else recordAt s i := by
  simp only [recordAt, rewrite, update_apply]
  split_ifs <;> rfl

theorem Holds.rewrite (h : Holds mb n last base s) {b m : ℕ} (hb : InTable mb b)
    {last' : ℕ → Option Bytes} {f : Bytes → Bytes}
    (hrec : ∀ i < m, IsRecord i (recordAt (Table.rewrite s b f) i) (last' i)) :
    Holds mb m last' base (Table.rewrite s b f) := by
  have hsuper : (Table.rewrite s b f).buffer 1 = s.buffer 1 :=
    update_of_ne (by have := hb.1; omega) _ _
  obtain ⟨blocks, htouched, hblocks⟩ := h.touched
  refine ⟨hsuper ▸ h.total, hsuper ▸ h.start, hsuper ▸ h.stop, hrec, b :: b :: blocks,
    congrArg (b :: b :: ·) htouched, ?_⟩
  simp only [List.forall_mem_cons]
  exact ⟨hb, hb, hblocks⟩

/-! ### Formatting -/

theorem Holds.formatBlock {k : ℕ} (h : Holds mb (8 * k) (fun _ => none) base s) (hk : k < 32 * mb) :
    Holds mb (8 * (k + 1)) (fun _ => none) base
      (Table.rewrite s (k + 2) (initInodes (8 * k) (k + 2))) := by
  refine h.rewrite ⟨by omega, by omega⟩ fun i hi => ?_
  rw [recordAt_rewrite]
  split_ifs with hb
  · have hfresh := fresh_initInodes (8 * k) (k + 2) (s.disk (k + 2)) (Nat.mod_lt i (by decide))
    have hi : 8 * k + i % inodesPerBlock = i := by
      rw [show inodesPerBlock = 8 from rfl]
      omega
    rw [hi] at hfresh
    rw [IsRecord, hb]
    exact hfresh
  · exact h.record i (by omega)

theorem mkufsLoop_spec (hmb : mb < 4096) : ∀ {k : ℕ} {s : Store} (rounds : ℕ), k + rounds = 32 * mb →
    Holds mb (8 * k) (fun _ => none) base s →
    ∃ s', Holds mb (256 * mb) (fun _ => none) base s' ∧
      ∀ fuel, rounds < fuel → mkufsLoop storeOps 1 fuel (8 * k) s = .ok s'
  | k, s, 0, hk, h => by
    refine ⟨s, show 256 * mb = 8 * k by omega ▸ h, fun fuel hfuel => ?_⟩
    obtain ⟨fuel, rfl⟩ := Nat.exists_eq_add_of_lt hfuel
    rw [mkufsLoop, if_neg]
    have htotal : sTotalInodes (storeOps.data s 1) = 256 * mb := h.total
    omega
  | k, s, rounds + 1, hk, h => by
    obtain ⟨s', hs', hloop⟩ := mkufsLoop_spec hmb (k := k + 1) rounds (by omega)
      (h.formatBlock (by omega))
    refine ⟨s', hs', fun fuel hfuel => ?_⟩
    obtain ⟨fuel, rfl⟩ := Nat.exists_eq_add_one_of_ne_zero (show fuel ≠ 0 by omega)
    have htotal : sTotalInodes (storeOps.data s 1) = 256 * mb := h.total
    have hblk : u32 (8 * k / inodesPerBlock + sBlkDilbStart (storeOps.data s 1)) = k + 2 := by
      have hstart : sBlkDilbStart (storeOps.data s 1) = 2 := h.start
      rw [hstart, show inodesPerBlock = 8 from rfl, u32_of_lt (by omega)]
      omega
    rw [mkufsLoop, if_pos (by omega)]
    simp only [hblk, formatBlock_eq]
    exact hloop fuel (by omega)

theorem totalInodes_eq (hmb : mb < 4096) : totalInodes mb = 256 * mb := by
  rw [totalInodes, u32_of_lt (by omega)]
  omega

theorem inodeBlocks_eq (hmb : mb < 4096) : inodeBlocks mb = 32 * mb := by
  rw [inodeBlocks, totalInodes_eq hmb, show inodesPerBlock = 8 from rfl, u32_of_lt (by omega)]
  omega

theorem sTotalInodes_makeSuper (hmb : mb < 4096) (super : Bytes) :
    sTotalInodes (makeSuper mb super) = 256 * mb := by
  have hfield := load_makeSuper mb super (8, 4, totalInodes mb) (by simp [superFields])
  rw [sTotalInodes, hfield, ← totalInodes_eq hmb]
  exact Nat.mod_eq_of_lt (lt_of_le_of_lt (totalInodes_eq hmb).le (by norm_num; omega))

theorem sBlkDilbEnd_makeSuper (hmb : mb < 4096) (super : Bytes) :
    sBlkDilbEnd (makeSuper mb super) = 32 * mb + 1 := by
  have hend : sub32 (2 + inodeBlocks mb) 1 = 32 * mb + 1 := by
    rw [inodeBlocks_eq hmb, sub32_of_le (by omega) (by omega)]
    omega
  have hfield := load_makeSuper mb super (236, 4, sub32 (2 + inodeBlocks mb) 1) (by simp [superFields])
  rw [sBlkDilbEnd, hfield, hend]
  exact Nat.mod_eq_of_lt (by norm_num; omega)

/-- **After `mkufs` every inode is fresh.** The superblock is the first block read and the last one
written. -/
theorem mkufs_spec (hmb : mb < 4096) (disk buffer : ℕ → Bytes) : ∃ s blocks,
    (∀ fuel, 32 * mb < fuel → mkufs storeOps fuel mb ⟨disk, buffer, []⟩ = .ok (1, s)) ∧
    s.touched = 1 :: (blocks ++ [1]) ∧ (∀ b ∈ blocks, InTable mb b) ∧
    Holds mb (256 * mb) (fun _ => none) s.touched s := by
  have hsuper : (update (update buffer 1 (disk 1)) 1 (makeSuper mb (disk 1))) 1 =
    makeSuper mb (disk 1) := update_self ..
  have hstart : Holds mb (8 * 0) (fun _ => none) [1] ⟨disk, update
      (update buffer 1 (disk 1)) 1 (makeSuper mb (disk 1)), [1]⟩ :=
    ⟨hsuper ▸ sTotalInodes_makeSuper hmb _, hsuper ▸ sBlkDilbStart_makeSuper mb _,
      hsuper ▸ sBlkDilbEnd_makeSuper hmb _, fun i hi => absurd hi (by omega), [], rfl, by simp⟩
  obtain ⟨s, hs, hloop⟩ := mkufsLoop_spec hmb (32 * mb) (by omega) hstart
  obtain ⟨blocks, htouched, hblocks⟩ := hs.touched
  refine ⟨{ s with disk := update s.disk 1 (s.buffer 1), touched := 1 :: s.touched }, blocks,
    fun fuel hfuel => ?_, congrArg (1 :: ·) htouched, hblocks, hs.total, hs.start, hs.stop,
    fun i hi => ?_, [], rfl, by simp⟩
  · have hloop := hloop fuel hfuel
    simp only [mkufs, bind, Except.bind, storeOps, update_self] at hloop ⊢
    rw [hloop]
    rfl
  · exact hs.record i hi

/-! ### Writing and reading inodes -/

/-- The calls of `write_inode` for a list of inodes. -/
def writeAll {σ : Type} (ops : BufferOps σ) (bh : ℕ) (s : σ) (inodes : List Bytes) : Except Fault σ :=
  inodes.foldlM (writeInode ops bh) s

/-- The inode of the number `i` that is written last. -/
def lastWritten (inodes : List Bytes) (i : ℕ) : Option Bytes :=
  inodes.reverse.find? fun inode => iNo inode = i

theorem writeInode_eq (h : Holds mb n last base s) (hmb : mb < 4096) {inode : Bytes}
    (hi : iNo inode < 256 * mb) : writeInode storeOps 1 s inode = .ok (rewrite s (iNo inode / 8 + 2)
      fun data => copy data (dinodeSize * (iNo inode % 8)) dinodeSize inode) := by
  have hslot : iNo inode % inodesPerBlock % 2 ^ 16 = iNo inode % 8 := by
    rw [show inodesPerBlock = 8 from rfl]
    omega
  rw [writeInode, hslot, iBlk_eq h hmb hi]
  exact rewrite_ops s (iNo inode / 8 + 2) fun data =>
    copy data (dinodeSize * (iNo inode % 8)) dinodeSize inode

/-- **A write changes the inode written and no other**: the inodes have a block and a slot each. -/
theorem Holds.writeInode (h : Holds mb (256 * mb) last base s) {inode : Bytes}
    (hi : iNo inode < 256 * mb) : Holds mb (256 * mb) (update last (iNo inode) (some inode)) base
      (Table.rewrite s (iNo inode / 8 + 2)
        fun data => copy data (dinodeSize * (iNo inode % 8)) dinodeSize inode) := by
  refine h.rewrite (inTable_block hi) fun i hi' => ?_
  rw [recordAt_rewrite]
  by_cases hsame : i = iNo inode
  · rw [hsame, if_pos rfl, update_self]
    exact view_copy _ _ _ _
  · rw [update_of_ne hsame]
    have hold := h.record i hi'
    split_ifs with hb
    · refine IsRecord.congr (view_copy_apart ?_) (hb ▸ hold)
      -- the slots differ, because the blocks are the same
      simp only [dinodeSize]
      omega
    · exact hold

theorem writeAll_spec (hmb : mb < 4096) {inodes : List Bytes} (hin : ∀ x ∈ inodes, iNo x < 256 * mb)
    (h : Holds mb (256 * mb) (fun _ => none) base s) : ∃ s', writeAll storeOps 1 s inodes = .ok s' ∧
      Holds mb (256 * mb) (lastWritten inodes) base s' := by
  induction inodes using List.reverseRecOn with
  | nil => exact ⟨s, rfl, h⟩
  | append_singleton inodes inode ih =>
    obtain ⟨s', hwrites, h'⟩ := ih fun x hx => hin x (List.mem_append_left _ hx)
    have hi : iNo inode < 256 * mb := hin inode (by simp)
    have hlast : lastWritten (inodes ++ [inode]) =
        update (lastWritten inodes) (iNo inode) (some inode) := by
      funext i
      by_cases hsame : i = iNo inode
      · simp [lastWritten, hsame]
      · simp [lastWritten, update_of_ne hsame, Ne.symm hsame]
    refine ⟨_, ?_, hlast ▸ h'.writeInode hi⟩
    rw [writeAll, List.foldlM_append]
    rw [writeAll] at hwrites
    rw [hwrites]
    simp only [bind, Except.bind, List.foldlM_cons, writeInode_eq h' hmb hi]
    rfl

theorem getDinode_spec (hmb : mb < 4096) (h : Holds mb (256 * mb) last base s) {i : ℕ}
    (hi : i < 256 * mb) : ∃ s', getDinode storeOps 1 s i = .ok (recordAt s i, s') ∧
      s'.touched = iBlk storeOps 1 s i :: s.touched := by
  have hslot : i % inodesPerBlock % 2 ^ 16 = i % 8 := by
    rw [show inodesPerBlock = 8 from rfl]
    omega
  have hblk := iBlk_eq h hmb hi
  refine ⟨{ s with
    buffer := update s.buffer (i / 8 + 2) (s.disk (i / 8 + 2))
    touched := (i / 8 + 2) :: s.touched }, ?_, congrArg (· :: s.touched) hblk.symm⟩
  rw [getDinode, hslot, hblk]
  simp only [storeOps, bind, Except.bind, update_self]
  rfl

/-- **The inode table is a store of inodes.** For a file system of `mb` MiB, any list of inodes
whose numbers are below `s_total_inodes` can be written after `mkufs`; then every inode is read as
it was written last, or as `mkufs` has made it. Apart from the superblock, which `mkufs` reads first
and writes last, the blocks touched are those of the table. -/
theorem getDinode_after_writes (mb : ℕ) (hmb : 1 ≤ mb) (hmb' : mb < 4096) (disk buffer : ℕ → Bytes) :
    ∃ s₁ blocks, (∀ fuel, 32 * mb < fuel → mkufs storeOps fuel mb ⟨disk, buffer, []⟩ = .ok (1, s₁)) ∧
      let super := s₁.buffer 1
      let InDilb := fun b => sBlkDilbStart super ≤ b ∧ b ≤ sBlkDilbEnd super ∧ b < mb * 1024
      sTotalInodes super = 256 * mb ∧
      s₁.touched = 1 :: (blocks ++ [1]) ∧ (∀ b ∈ blocks, InDilb b) ∧
      ∀ inodes : List Bytes, (∀ x ∈ inodes, iNo x < sTotalInodes super) →
        ∃ s₂ blocks', writeAll storeOps 1 s₁ inodes = .ok s₂ ∧
          s₂.touched = blocks' ++ s₁.touched ∧ (∀ b ∈ blocks', InDilb b) ∧
          ∀ i < sTotalInodes super, ∃ rec s₃ b, getDinode storeOps 1 s₂ i = .ok (rec, s₃) ∧
            s₃.touched = b :: s₂.touched ∧ InDilb b ∧
            match lastWritten inodes i with
            | some inode => Agree dinodeSize rec inode
            | none => Fresh rec i b ∧ iNo rec = i ∧ iMode rec = 0 ∧ iBlkno rec = b := by
  obtain ⟨s₁, blocks, hmkufs, htouched, hblocks, h₁⟩ := mkufs_spec hmb' disk buffer
  have hin : ∀ b, InTable mb b →
      sBlkDilbStart (s₁.buffer 1) ≤ b ∧ b ≤ sBlkDilbEnd (s₁.buffer 1) ∧ b < mb * 1024 := by
    intro b hb
    rw [h₁.start, h₁.stop]
    exact ⟨hb.1, hb.2, lt_of_le_of_lt hb.2 (by omega)⟩
  refine ⟨s₁, blocks, hmkufs, h₁.total, htouched, fun b hb => hin b (hblocks b hb),
    fun inodes hinodes => ?_⟩
  rw [h₁.total] at hinodes ⊢
  obtain ⟨s₂, hwrites, h₂⟩ := writeAll_spec hmb' hinodes h₁
  obtain ⟨blocks', htouched', hblocks'⟩ := h₂.touched
  refine ⟨s₂, blocks', hwrites, htouched', fun b hb => hin b (hblocks' b hb), fun i hi => ?_⟩
  obtain ⟨s₃, hget, htouched''⟩ := getDinode_spec hmb' h₂ hi
  have hblk := iBlk_eq h₂ hmb' hi
  refine ⟨recordAt s₂ i, s₃, i / 8 + 2, hget, hblk ▸ htouched'', hin _ (inTable_block hi), ?_⟩
  have hrec := h₂.record i hi
  cases hlast : lastWritten inodes i with
  | some inode =>
    rw [hlast] at hrec
    exact hrec
  | none =>
    rw [hlast] at hrec
    have hfield : ∀ f ∈ dinodeFields devNo i (i / 8 + 2),
        load (recordAt s₂ i) f.1 f.2.1 = f.2.2 % 256 ^ f.2.1 := hrec
    refine ⟨hrec, ?_, ?_, ?_⟩
    · exact (hfield (100, 4, i) (by simp [dinodeFields])).trans (Nat.mod_eq_of_lt (by norm_num; omega))
    · exact hfield (0, 2, 0) (by simp [dinodeFields])
    · exact (hfield (104, 4, i / 8 + 2) (by simp [dinodeFields])).trans
        (Nat.mod_eq_of_lt (by norm_num; omega))

/-- An in-core inode of the number 7. -/
def sampleInode : Bytes := fun i => if i = 100 then 7 else if i = 0 then 1 else 0

theorem iNo_sampleInode : iNo sampleInode = 7 := by decide

/-- In a file system of 2 MiB inode 7 is written: it is read back, and inode 9 is as it was
formatted. -/
theorem getDinode_after_writes_sample : ∃ s₁ s₂ s₃ s₄ rec rec' b,
    mkufs storeOps 65 2 ⟨fun _ _ => 0, fun _ _ => 0, []⟩ = .ok (1, s₁) ∧
    writeAll storeOps 1 s₁ [sampleInode] = .ok s₂ ∧
    getDinode storeOps 1 s₂ 7 = .ok (rec, s₃) ∧ Agree dinodeSize rec sampleInode ∧
    getDinode storeOps 1 s₂ 9 = .ok (rec', s₄) ∧ s₄.touched = b :: s₂.touched ∧
    iNo rec' = 9 ∧ iMode rec' = 0 ∧ iBlkno rec' = b := by
  obtain ⟨s₁, -, hmkufs, htotal, -, -, hwrites⟩ :=
    getDinode_after_writes 2 (by decide) (by decide) (fun _ _ => 0) (fun _ _ => 0)
  obtain ⟨s₂, -, hwrite, -, -, hget⟩ := hwrites [sampleInode] (by
    rw [List.forall_mem_singleton, iNo_sampleInode, htotal]
    decide)
  obtain ⟨rec, s₃, _, hget₇, -, -, hrec⟩ := hget 7 (by rw [htotal]; decide)
  obtain ⟨rec', s₄, b, hget₉, htouched, -, hrec'⟩ := hget 9 (by rw [htotal]; decide)
  have h₇ : lastWritten [sampleInode] 7 = some sampleInode := by simp [lastWritten, iNo_sampleInode]
  have h₉ : lastWritten [sampleInode] 9 = none := by simp [lastWritten, iNo_sampleInode]
  rw [h₇] at hrec
  rw [h₉] at hrec'
  exact ⟨s₁, s₂, s₃, s₄, rec, rec', b, hmkufs 65 (by decide), hwrite, hget₇, hrec, hget₉, htouched,
    hrec'.2.1, hrec'.2.2.1, hrec'.2.2.2⟩

end YegaKernel.Fs.Ufs.Table
