import YegaKernel.Fs.Ext2.Directory

/-! # Entries that were added, and names that are found

A directory starts without blocks, and entries are added to it, with the handle read from the inode
table before each call. Of the `m` entries the first 168 are in the twelve direct blocks; from the
thirteenth block on `set_i_block` does not write the inode, so that the handle never knows of it.

* `Holds` : what is on the disk after some entries, block by block (`holds_add` is the step);
* `dentries_of_holds` : the slots `chdir` looks at are the first 168 entries, and then the slots of
  the last block that no entry was written to, with what the block held before. -/

namespace YegaKernel.Fs.Ext2.DirectoryRun

open Lib.Bytes Lib.Word Lib.Strings
open Fs.Disk (Bytes)
open Fs.Ext2.Layout Fs.Ext2.InodeTable Fs.Ext2.BlockMap
open Fs.Ext2.Directory Function

/-- The inode `n` as the inode table has it. -/
def storedInode (s : Volume) (n : ℕ) : Bytes := view (s.disk (inodeBlock s n)) (128 * inodeSlot s n)

/-- The handle of the directory `n`, read again. -/
def handle (s : Volume) (n : ℕ) : Handle := { inode := storedInode s n, inodeN := n }

/-- The entries are added one after the other. -/
def addAll (reserved : ℕ → ℕ) (n : ℕ) (ds : List Bytes) (s : Store) : Option Store :=
  ds.foldlM (fun s d => (addDentry reserved s (handle s.vol n) d).map Prod.snd) s

theorem getInode_eq_storedInode {s : Volume} {n : ℕ} (h : Geometry s) (hn : InRange s n)
    (hslot : inodeSlot s n = 0) (hblock : inodeBlock s n < 2 ^ 16) :
    getInode s n = some (storedInode s n) := by
  rw [getInode_eq h hn, Nat.mod_eq_of_lt hblock, storedInode, hslot]

/-- **Fresh blocks**: the first `m` blocks that are reserved are distinct, and the inode table and
the inode of the directory do not use them. -/
structure Fresh (s : Volume) (n : ℕ) (reserved : ℕ → ℕ) (m : ℕ) : Prop where
  lt : ∀ k < m, reserved k < 2 ^ 32
  inj : ∀ k < m, ∀ l < m, reserved k = reserved l → k = l
  table : ∀ k < m, reserved k ≠ inodeBlock s n
  indirect : ∀ k < m, reserved k ≠ iBlock (storedInode s n) 12

/-- The number of blocks of a directory with `m` entries. -/
def blocksOf (m : ℕ) : ℕ := min 12 ((m + 13) / 14)

/-- The entries of the block `k`. -/
def chunk (ds : List Bytes) (k : ℕ) : List Bytes := (ds.drop (14 * k)).take 14

/-- **The directory after the entries `ds` were added** to the volume `s₀`. -/
structure Holds (reserved : ℕ → ℕ) (s₀ : Volume) (n m : ℕ) (ds : List Bytes) (s : Store) : Prop where
  super : s.vol.super = s₀.super
  bgdt : s.vol.bgdt = s₀.bgdt
  groups : s.vol.nBlockGroups = s₀.nBlockGroups
  len : iBlockLen (storedInode s.vol n) = blocksOf ds.length
  indirect : iBlock (storedInode s.vol n) 12 = iBlock (storedInode s₀ n) 12
  map : ∀ k < blocksOf ds.length, iBlock (storedInode s.vol n) k = reserved k
  taken_eq : ds.length ≤ 168 → s.taken = blocksOf ds.length
  le_taken : blocksOf ds.length ≤ s.taken
  taken_le : s.taken ≤ ds.length
  block : ∀ k < blocksOf ds.length,
    BlockHolds (s₀.disk (reserved k)) (s.vol.disk (reserved k)) (chunk ds k)
  untouched : ∀ k, s.taken ≤ k → k < m → s.vol.disk (reserved k) = s₀.disk (reserved k)

/-! ### What the calls do to the disk -/

section Calls
variable {v : Volume} {n : ℕ} {reserved : ℕ → ℕ}

theorem inodeBlock_congr {s s' : Volume} (h : s.super = s'.super) (h' : s.bgdt = s'.bgdt) :
    inodeBlock s n = inodeBlock s' n := by
  rw [inodeBlock, inodeBlock, Volume.group, Volume.group, h, h']

theorem blocksOf_le (m : ℕ) : blocksOf m ≤ 12 := min_le_left _ _

/-- The inode with one more direct block. -/
def grownInode (x : Bytes) (b : ℕ) : Bytes :=
  store (store x 28 4 (iBlocks x + 2)) (40 + 4 * iBlockLen x) 4 b

theorem iBlockLen_grown {x : Bytes} (h : iBlockLen x ≤ 12) :
    iBlockLen (store x 28 4 (iBlocks x + 2)) = iBlockLen x + 1 := by
  have hload : iBlocks (store x 28 4 (iBlocks x + 2)) = (iBlocks x + 2) % 256 ^ 4 := load_store _ _ _ _
  rw [iBlockLen] at h
  rw [iBlockLen, iBlockLen, hload]
  omega

/-- A block for the directory, with the entry `d`: the inode is written, and then the block. -/
def grown (v : Volume) (n b : ℕ) (d : Bytes) : Volume :=
  { v with
    disk := update (update v.disk (inodeBlock v n)
      (copy (v.disk (inodeBlock v n)) (128 * inodeSlot v n) inodeSize (grownInode (storedInode v n) b)))
      b (copy (v.disk b) 0 dentrySize (store d 4 2 blkSize)) }

/-- A block behind the twelfth: a word is set in the block `i_block[12]`, and the block is
written. -/
def lost (v : Volume) (n b : ℕ) (d : Bytes) : Volume :=
  { v with
    disk := update (update v.disk (iBlock (storedInode v n) 12)
      (store (v.disk (iBlock (storedInode v n) 12)) 0 4 b))
      b (copy (v.disk b) 0 dentrySize (store d 4 2 blkSize)) }

theorem writeBlockAt_first (s : Volume) (b : ℕ) (d : Bytes) : writeBlockAt s b 0 d dentrySize =
    (0, { s with disk := update s.disk b (copy (s.disk b) 0 dentrySize d) }) :=
  if_neg (by decide)

theorem addDentryToNewBlock_direct {s : Store} (hgeo : Geometry s.vol) (hn : InRange s.vol n)
    (hlen : iBlockLen (storedInode s.vol n) < 12) (hb : reserved s.taken ≠ inodeBlock s.vol n)
    (d : Bytes) : addDentryToNewBlock reserved s (handle s.vol n) d =
      some (0, ⟨grown s.vol n (reserved s.taken) d, s.taken + 1⟩) := by
  have hindex : sub32 (iBlockLen (storedInode s.vol n) + 1) 1 = iBlockLen (storedInode s.vol n) :=
    sub32_of_le (by omega) (by omega)
  unfold addDentryToNewBlock addBlockToFile
  simp only [handle, iBlockLen_grown hlen.le, hindex, setIBlock_direct hlen, writeInodeTable_eq hgeo hn,
    Option.map_some, Option.bind_eq_bind, Option.bind_some, pure, writeBlockAt_first]
  rw [update_of_ne hb]
  rfl

theorem addDentryToNewBlock_lost {s : Store} (hlen : iBlockLen (storedInode s.vol n) = 12)
    (hb : reserved s.taken ≠ iBlock (storedInode s.vol n) 12) (d : Bytes) :
    addDentryToNewBlock reserved s (handle s.vol n) d =
      some (0, ⟨lost s.vol n (reserved s.taken) d, s.taken + 1⟩) := by
  have hgrown := iBlockLen_grown hlen.le
  rw [hlen] at hgrown
  have hblock : iBlock (store (storedInode s.vol n) 28 4 (iBlocks (storedInode s.vol n) + 2)) 12 =
      iBlock (storedInode s.vol n) 12 := load_store_apart (by omega)
  unfold addDentryToNewBlock addBlockToFile
  simp only [handle, hgrown, show sub32 (12 + 1) 1 = 12 from rfl,
    setIBlock_single (le_refl 12) (show 12 < 268 by omega), hblock, Option.bind_eq_bind, Option.bind_some,
    pure, writeBlockAt_first]
  rw [update_of_ne hb]
  rfl

theorem storedInode_grown {b : ℕ} (hb : b ≠ inodeBlock v n) (d : Bytes) :
    Agree inodeSize (storedInode (grown v n b d) n) (grownInode (storedInode v n) b) := by
  intro i hi
  have hblock : inodeBlock (grown v n b d) n = inodeBlock v n := rfl
  have hslot : inodeSlot (grown v n b d) n = inodeSlot v n := rfl
  rw [storedInode, hblock, hslot, grown, view]
  simp only
  rw [update_of_ne hb.symm, update_self, copy_of_mem hi]

theorem iBlock_grown {b : ℕ} (hb : b ≠ inodeBlock v n) (hlt : b < 2 ^ 32) (d : Bytes) {k : ℕ}
    (hk : k ≤ 12) : iBlock (storedInode (grown v n b d) n) k =
      if k = iBlockLen (storedInode v n) then b else iBlock (storedInode v n) k := by
  rw [iBlock, (storedInode_grown hb d).load_eq (by rw [inodeSize]; omega), grownInode]
  by_cases hkl : k = iBlockLen (storedInode v n)
  · rw [if_pos hkl, hkl, load_store_of_lt hlt]
  · rw [if_neg hkl, load_store_apart (by omega), load_store_apart (by omega), iBlock]

theorem iBlockLen_storedInode_grown {b : ℕ} (hb : b ≠ inodeBlock v n)
    (hlen : iBlockLen (storedInode v n) ≤ 12) (d : Bytes) :
    iBlockLen (storedInode (grown v n b d) n) = iBlockLen (storedInode v n) + 1 := by
  have hcount : iBlocks (storedInode (grown v n b d) n) =
      iBlocks (store (storedInode v n) 28 4 (iBlocks (storedInode v n) + 2)) := by
    rw [iBlocks, (storedInode_grown hb d).load_eq (by decide), grownInode,
      load_store_apart (by omega)]
    rfl
  have hgrown := iBlockLen_grown hlen
  rw [iBlockLen] at hgrown ⊢
  rw [hcount, hgrown]

theorem grown_disk_of_ne {b c : ℕ} (hb : c ≠ b) (htable : c ≠ inodeBlock v n) (d : Bytes) :
    (grown v n b d).disk c = v.disk c := by
  rw [grown]
  simp only
  rw [update_of_ne hb, update_of_ne htable]

theorem lost_disk_of_ne {b c : ℕ} (hb : c ≠ b) (hindirect : c ≠ iBlock (storedInode v n) 12)
    (d : Bytes) : (lost v n b d).disk c = v.disk c := by
  rw [lost]
  simp only
  rw [update_of_ne hb, update_of_ne hindirect]

theorem storedInode_lost {b : ℕ} (hb : b ≠ inodeBlock v n) (d : Bytes) {i : ℕ} (hi : 4 ≤ i) :
    storedInode (lost v n b d) n i = storedInode v n i := by
  have hblock : inodeBlock (lost v n b d) n = inodeBlock v n := rfl
  have hslot : inodeSlot (lost v n b d) n = inodeSlot v n := rfl
  rw [storedInode, hblock, hslot, lost, view]
  simp only
  rw [update_of_ne hb.symm]
  by_cases h : inodeBlock v n = iBlock (storedInode v n) 12
  · rw [h, update_self, store, copy_of_not_mem (by omega), ← h]
    rfl
  · rw [update_of_ne h]
    rfl

end Calls

/-! ### The entries of a block -/

section Chunks
variable {ds : List Bytes} {k : ℕ}

theorem length_chunk (ds : List Bytes) (k : ℕ) : (chunk ds k).length = min 14 (ds.length - 14 * k) := by
  rw [chunk, List.length_take, List.length_drop]

theorem chunk_append_full (h : 14 * (k + 1) ≤ ds.length) (d : Bytes) :
    chunk (ds ++ [d]) k = chunk ds k := by
  rw [chunk, chunk, List.drop_append_of_le_length (by omega),
    List.take_append_of_le_length (by rw [List.length_drop]; omega)]

theorem chunk_append_last (h : 14 * k ≤ ds.length) (h' : ds.length < 14 * (k + 1)) (d : Bytes) :
    chunk (ds ++ [d]) k = chunk ds k ++ [d] := by
  have hlen : (ds.drop (14 * k)).length < 14 := by
    rw [List.length_drop]
    omega
  rw [chunk, chunk, List.drop_append_of_le_length h, List.take_of_length_le hlen.le,
    List.take_of_length_le (by rw [List.length_append, List.length_singleton]; omega)]

theorem chunk_of_length_le (h : ds.length ≤ 14 * k) : chunk ds k = [] := by
  rw [chunk, List.drop_eq_nil_of_le h, List.take_nil]

end Chunks

/-! ### One more entry -/

section Step
variable {reserved : ℕ → ℕ} {s₀ : Volume} {n m : ℕ} {ds : List Bytes} {s : Store}

section
variable (h : Holds reserved s₀ n m ds s)
include h

theorem Holds.inodeBlock_eq : inodeBlock s.vol n = inodeBlock s₀ n :=
  inodeBlock_congr h.super h.bgdt

theorem Holds.geometry (hgeo : Geometry s₀) : Geometry s.vol where
  pos := by rw [h.super]; exact hgeo.pos
  le := by rw [h.super]; exact hgeo.le
  groups := by rw [h.groups]; exact hgeo.groups
  inodes := by rw [h.super, h.groups]; exact hgeo.inodes

theorem Holds.inRange (hn : InRange s₀ n) : InRange s.vol n := by
  rw [InRange, h.super]
  exact hn

theorem Holds.lastDentry_eq {K : ℕ} (hK : blocksOf ds.length = K + 1)
    (hlo : 14 * K < ds.length) : getFileBlock s.vol (handle s.vol n) K = s.vol.disk (reserved K) ∧
      lastDentry (getFileBlock s.vol (handle s.vol n) K) =
        some (72 * ((chunk ds K).length - 1), (chunk ds K).length) := by
  have hle := blocksOf_le ds.length
  have hlen := length_chunk ds K
  have hblock : getFileBlock s.vol (handle s.vol n) K = s.vol.disk (reserved K) := by
    rw [getFileBlock, handle, indirectBlock_direct (by omega), h.map K (by omega)]
  refine ⟨hblock, ?_⟩
  rw [hblock]
  exact (h.block K (by omega)).lastDentry_eq (by omega) (by omega)

theorem Holds.ne_table (hfresh : Fresh s₀ n reserved m) {k : ℕ}
    (hk : k < m) : reserved k ≠ inodeBlock s.vol n :=
  h.inodeBlock_eq ▸ hfresh.table k hk

theorem Holds.grow (hfresh : Fresh s₀ n reserved m)
    (hm : ds.length < m) {K : ℕ} (hK : K < 12) (hlen : ds.length = 14 * K) (d : Bytes) :
    Holds reserved s₀ n m (ds ++ [d]) ⟨grown s.vol n (reserved s.taken) d, s.taken + 1⟩ := by
  have hblocks : blocksOf ds.length = K := by
    rw [blocksOf]
    omega
  have hblocks' : blocksOf (ds ++ [d]).length = K + 1 := by
    rw [List.length_append, List.length_singleton, blocksOf]
    omega
  have htaken : s.taken = K := (h.taken_eq (by omega)).trans hblocks
  have hKm : K < m := by omega
  have hb := h.ne_table hfresh hKm
  have hKlen : iBlockLen (storedInode s.vol n) = K := h.len.trans hblocks
  have hword : ∀ k ≤ 12, iBlock (storedInode (grown s.vol n (reserved K) d) n) k =
      if k = K then reserved K else iBlock (storedInode s.vol n) k := by
    intro k hk
    rw [iBlock_grown hb (hfresh.lt K hKm) d hk, hKlen]
  have hdisk : ∀ k < m, k ≠ K →
      (grown s.vol n (reserved K) d).disk (reserved k) = s.vol.disk (reserved k) :=
    fun k hk hkK => grown_disk_of_ne (fun heq => hkK (hfresh.inj k hk K hKm heq))
      (h.ne_table hfresh hk) d
  rw [htaken]
  refine ⟨h.super, h.bgdt, h.groups, ?_, ?_, ?_, ?_, ?_, ?_, ?_, ?_⟩
  · rw [hblocks', iBlockLen_storedInode_grown hb (by omega), hKlen]
  · rw [hword 12 le_rfl, if_neg (by omega), h.indirect]
  · intro k hk
    rw [hword k (by omega)]
    split_ifs with hkK
    · rw [hkK]
    · exact h.map k (by omega)
  · intro _
    rw [hblocks']
  · rw [hblocks']
  · rw [List.length_append, List.length_singleton]
    simp only
    omega
  · intro k hk
    by_cases hkK : k = K
    · subst hkK
      rw [chunk_append_last (by omega) (by omega), chunk_of_length_le (by omega), grown]
      simp only [update_self]
      rw [h.untouched k (by omega) hKm]
      exact blockHolds_first _ d
    · rw [chunk_append_full (by omega)]
      rw [hdisk k (by omega) hkK]
      exact h.block k (by omega)
  · intro k hk hkm
    simp only at hk ⊢
    rw [hdisk k hkm (by omega)]
    exact h.untouched k (by omega) hkm

theorem Holds.fill (hfresh : Fresh s₀ n reserved m)
    (hm : ds.length < m) {K : ℕ} (hK : K < 12) (hlo : 14 * K < ds.length)
    (hhi : ds.length < 14 * (K + 1)) (d : Bytes) : Holds reserved s₀ n m (ds ++ [d]) { s with
      vol := { s.vol with
        disk := update s.vol.disk (reserved K)
          (appendDentry (s.vol.disk (reserved K)) (72 * ((chunk ds K).length - 1)) (chunk ds K).length
            d) } } := by
  have hblocks : blocksOf ds.length = K + 1 := by
    rw [blocksOf]
    omega
  have hblocks' : blocksOf (ds ++ [d]).length = K + 1 := by
    rw [List.length_append, List.length_singleton, blocksOf]
    omega
  have htaken : s.taken = K + 1 := (h.taken_eq (by omega)).trans hblocks
  have hb : reserved K ≠ inodeBlock s.vol n := h.ne_table hfresh (by omega)
  have hinode : storedInode { s.vol with
      disk := update s.vol.disk (reserved K)
        (appendDentry (s.vol.disk (reserved K)) (72 * ((chunk ds K).length - 1)) (chunk ds K).length d) }
      n = storedInode s.vol n :=
    congrArg (view · (128 * inodeSlot s.vol n)) (update_of_ne hb.symm _ _)
  refine ⟨h.super, h.bgdt, h.groups, ?_, ?_, ?_, ?_, ?_, ?_, ?_, ?_⟩
  · rw [hinode, h.len, hblocks, hblocks']
  · rw [hinode, h.indirect]
  · intro k hk
    rw [hinode]
    exact h.map k (by omega)
  · intro _
    rw [hblocks', htaken]
  · rw [hblocks', htaken]
  · rw [List.length_append, List.length_singleton, htaken]
    omega
  · intro k hk
    simp only
    by_cases hkK : k = K
    · subst hkK
      have hlen := length_chunk ds k
      rw [chunk_append_last (by omega) (by omega), update_self]
      exact (h.block k (by omega)).append (by omega) (by omega) d
    · have hne : reserved k ≠ reserved K := fun heq => hkK (hfresh.inj k (by omega) K (by omega) heq)
      rw [chunk_append_full (by omega), update_of_ne hne]
      exact h.block k (by omega)
  · intro k hk hkm
    have hne : reserved k ≠ reserved K := fun heq => by
      have := hfresh.inj k hkm K (by omega) heq
      simp only at hk
      omega
    simp only at hk ⊢
    rw [update_of_ne hne]
    exact h.untouched k hk hkm

theorem Holds.lose (hfresh : Fresh s₀ n reserved m)
    (hm : ds.length < m) (hlen : 168 ≤ ds.length) (d : Bytes) :
    Holds reserved s₀ n m (ds ++ [d]) ⟨lost s.vol n (reserved s.taken) d, s.taken + 1⟩ := by
  have hblocks : blocksOf ds.length = 12 := by
    rw [blocksOf]
    omega
  have hblocks' : blocksOf (ds ++ [d]).length = 12 := by
    rw [List.length_append, List.length_singleton, blocksOf]
    omega
  have hle := h.le_taken
  have hle' := h.taken_le
  have hb : reserved s.taken ≠ inodeBlock s.vol n := h.ne_table hfresh (by omega)
  have hword : ∀ off w, 4 ≤ off → load (storedInode (lost s.vol n (reserved s.taken) d) n) off w =
      load (storedInode s.vol n) off w :=
    fun off w hoff => load_congr fun i _ => storedInode_lost hb d (by omega)
  have hdisk : ∀ k < m, k ≠ s.taken →
      (lost s.vol n (reserved s.taken) d).disk (reserved k) = s.vol.disk (reserved k) := by
    intro k hk hne
    have hne' : reserved k ≠ reserved s.taken := fun heq => hne (hfresh.inj k hk _ (by omega) heq)
    exact lost_disk_of_ne hne' (h.indirect ▸ hfresh.indirect k hk) d
  refine ⟨h.super, h.bgdt, h.groups, ?_, ?_, ?_, ?_, ?_, ?_, ?_, ?_⟩
  · rw [iBlockLen, iBlocks, hword 28 4 (by omega), hblocks', ← hblocks]
    exact h.len
  · rw [iBlock, hword _ _ (by omega)]
    exact h.indirect
  · intro k hk
    rw [iBlock, hword _ _ (by omega)]
    exact h.map k (by omega)
  · intro hle
    rw [List.length_append, List.length_singleton] at hle
    omega
  · simp only
    omega
  · rw [List.length_append, List.length_singleton]
    simp only
    omega
  · intro k hk
    rw [chunk_append_full (by omega), hdisk k (by omega) (by omega)]
    exact h.block k (by omega)
  · intro k hk hkm
    simp only at hk ⊢
    rw [hdisk k hkm (by omega)]
    exact h.untouched k (by omega) hkm

theorem Holds.addDentry_full {K : ℕ} (hK : blocksOf ds.length = K + 1)
    (hfull : 14 * (K + 1) ≤ ds.length) (d : Bytes) : addDentry reserved s (handle s.vol n) d =
      addDentryToNewBlock reserved s (handle s.vol n) d := by
  have hchunk := length_chunk ds K
  have hlen : iBlockLen (handle s.vol n).inode = K + 1 := h.len.trans hK
  have hlast : lastDentry (getFileBlock s.vol (handle s.vol n) (iBlockLen (handle s.vol n).inode - 1)) =
      some (72 * ((chunk ds K).length - 1), (chunk ds K).length) := by
    rw [hlen, Nat.add_sub_cancel]
    exact (h.lastDentry_eq hK (by omega)).2
  exact Directory.addDentry_full (by omega) hlast (by rw [show dentriesPerBlk = 14 from rfl]; omega)

theorem Holds.addDentry_lost (hfresh : Fresh s₀ n reserved m)
    (hm : ds.length < m) (hlen : 168 ≤ ds.length) (d : Bytes) :
    addDentry reserved s (handle s.vol n) d =
      some (0, ⟨lost s.vol n (reserved s.taken) d, s.taken + 1⟩) := by
  have hblocks : blocksOf ds.length = 11 + 1 := by
    rw [blocksOf]
    omega
  have hle := h.taken_le
  rw [h.addDentry_full hblocks hlen]
  exact addDentryToNewBlock_lost (h.len.trans hblocks) (h.indirect ▸ hfresh.indirect _ (by omega)) d

end

/-- **One more entry**: the call comes to its end, and the directory has the entry. -/
theorem holds_add (hgeo : Geometry s₀) (hn : InRange s₀ n) (hfresh : Fresh s₀ n reserved m)
    (h : Holds reserved s₀ n m ds s) (hm : ds.length < m) (d : Bytes) :
    ∃ s', addDentry reserved s (handle s.vol n) d = some (0, s') ∧
      Holds reserved s₀ n m (ds ++ [d]) s' := by
  have hgeo' := h.geometry hgeo
  have hn' := h.inRange hn
  have hle := h.le_taken
  have hle' := h.taken_le
  have hb : reserved s.taken ≠ inodeBlock s.vol n := h.ne_table hfresh (by omega)
  have hlen : iBlockLen (handle s.vol n).inode = blocksOf ds.length := h.len
  by_cases hzero : ds.length = 0
  · -- the first block
    have hK : blocksOf ds.length = 0 := by
      omega
    refine ⟨_, ?_, h.grow hfresh hm (show 0 < 12 by decide) (by omega) d⟩
    rw [addDentry]
    rw [if_pos (hlen.trans hK)]
    exact addDentryToNewBlock_direct hgeo' hn' (by rw [h.len]; omega) hb d
  obtain ⟨K, hK⟩ : ∃ K, blocksOf ds.length = K + 1 := ⟨blocksOf ds.length - 1, by rw [blocksOf]; omega⟩
  have hK' : K + 1 = min 12 ((ds.length + 13) / 14) := hK.symm
  have hchunk := length_chunk ds K
  obtain ⟨hblock, hlast⟩ := h.lastDentry_eq hK (by omega)
  have hpos : iBlockLen (handle s.vol n).inode ≠ 0 := by omega
  have hprev : iBlockLen (handle s.vol n).inode - 1 = K := by omega
  have hlast' : lastDentry (getFileBlock s.vol (handle s.vol n) (iBlockLen (handle s.vol n).inode - 1)) =
      some (72 * ((chunk ds K).length - 1), (chunk ds K).length) := by
    rw [hprev]
    exact hlast
  by_cases hroom : ds.length < 14 * (K + 1)
  · refine ⟨_, ?_, h.fill hfresh hm (by omega) (by omega) hroom d⟩
    rw [addDentry_room hpos (by omega) hlast'
      (by rw [show dentriesPerBlk = 14 from rfl]; omega) (by rw [dentrySize, blkSize]; omega),
      hprev, hblock,
      show iBlock (handle s.vol n).inode K = reserved K from h.map K (by omega)]
  · by_cases hlost : 168 ≤ ds.length
    · exact ⟨_, h.addDentry_lost hfresh hm hlost d, h.lose hfresh hm hlost d⟩
    · rw [h.addDentry_full hK (by omega)]
      exact ⟨_, addDentryToNewBlock_direct hgeo' hn' (by rw [h.len]; omega) hb d,
        h.grow hfresh hm (show K + 1 < 12 by omega) (by omega) d⟩

theorem holds_nil (hempty : iBlockLen (storedInode s₀ n) = 0) : Holds reserved s₀ n m [] ⟨s₀, 0⟩ where
  super := rfl
  bgdt := rfl
  groups := rfl
  len := hempty
  indirect := rfl
  map := fun k hk => absurd hk (Nat.not_lt_zero k)
  taken_eq := fun _ => rfl
  le_taken := le_rfl
  taken_le := le_rfl
  block := fun k hk => absurd hk (Nat.not_lt_zero k)
  untouched := fun _ _ _ => rfl

theorem addAll_induct {P : List Bytes → Store → Prop} {s : Store} (hnil : P [] s)
    (hadd : ∀ ds s, P ds s → ds.length < m → ∀ d, ∃ s',
      addDentry reserved s (handle s.vol n) d = some (0, s') ∧ P (ds ++ [d]) s') :
    ds.length ≤ m → ∃ s', addAll reserved n ds s = some s' ∧ P ds s' := by
  induction ds using List.reverseRecOn with
  | nil => exact fun _ => ⟨s, rfl, hnil⟩
  | append_singleton ds d ih =>
    intro hlen
    rw [List.length_append, List.length_singleton] at hlen
    obtain ⟨s₁, hrun, hs₁⟩ := ih (by omega)
    obtain ⟨s', hstep, hs'⟩ := hadd ds s₁ hs₁ (by omega) d
    refine ⟨s', ?_, hs'⟩
    rw [addAll] at hrun ⊢
    rw [List.foldlM_append, hrun]
    simp only [List.foldlM_cons, List.foldlM_nil, Option.bind_eq_bind, Option.bind_some, hstep,
      Option.map_some, pure]

/-- **Every run of additions** comes to its end, and leaves the directory with all its entries. -/
theorem holds_addAll (hgeo : Geometry s₀) (hn : InRange s₀ n)
    (hempty : iBlockLen (storedInode s₀ n) = 0) (hfresh : Fresh s₀ n reserved m) :
    ds.length ≤ m → ∃ s, addAll reserved n ds ⟨s₀, 0⟩ = some s ∧ Holds reserved s₀ n m ds s :=
  addAll_induct (holds_nil hempty) fun _ _ hs hm d => holds_add hgeo hn hfresh hs hm d

end Step

/-! ### What a lookup sees -/

theorem forall₂_flatMap_range {α β : Type*} {R : α → β → Prop} {f : ℕ → List α} {g : ℕ → List β}
    {K : ℕ} (h : ∀ k < K, List.Forall₂ R (f k) (g k)) :
    List.Forall₂ R ((List.range K).flatMap f) ((List.range K).flatMap g) := by
  induction K with
  | zero => exact .nil
  | succ K ih =>
    simp only [List.range_succ, List.flatMap_append, List.flatMap_singleton]
    exact List.rel_append (ih fun k hk => h k (by omega)) (h K (by omega))

/-- The slots of the last block that no entry was written to, as the block was before. -/
def leftover (reserved : ℕ → ℕ) (s₀ : Volume) (m : ℕ) : List Bytes :=
  if m = 0 then []
  else (slots (s₀.disk (reserved (blocksOf m - 1)))).drop (min m 168 - 14 * (blocksOf m - 1))

section Lookup
variable {reserved : ℕ → ℕ} {s₀ : Volume} {n m : ℕ} {ds : List Bytes} {s : Store}

theorem flatMap_chunks (old : ℕ → Bytes) {K : ℕ} (hK : 14 * K ≤ ds.length) :
    (List.range K).flatMap (fun k => chunk ds k ++ (slots (old k)).drop (chunk ds k).length) =
      ds.take (14 * K) := by
  induction K with
  | zero => rfl
  | succ K ih =>
    have hlen : (slots (old K)).length ≤ (chunk ds K).length := by
      rw [length_chunk, slots, List.length_map, List.length_range, show dentriesPerBlk = 14 from rfl]
      omega
    rw [List.range_succ, List.flatMap_append, List.flatMap_singleton, ih (by omega),
      List.drop_eq_nil_of_le hlen, List.append_nil, Nat.mul_succ, List.take_add, chunk]

theorem flatMap_blocks (reserved : ℕ → ℕ) (s₀ : Volume) (ds : List Bytes) :
    (List.range (blocksOf ds.length)).flatMap (fun k =>
        chunk ds k ++ (slots (s₀.disk (reserved k))).drop (chunk ds k).length) =
      ds.take 168 ++ leftover reserved s₀ ds.length := by
  by_cases hzero : ds.length = 0
  · obtain rfl := List.length_eq_zero_iff.mp hzero
    rfl
  · obtain ⟨K, hK⟩ : ∃ K, blocksOf ds.length = K + 1 :=
      ⟨blocksOf ds.length - 1, by rw [blocksOf]; omega⟩
    have hK' : K + 1 = min 12 ((ds.length + 13) / 14) := hK.symm
    have hlen : (chunk ds K).length = min ds.length 168 - 14 * K := by
      rw [length_chunk]
      omega
    have htake : ds.take (14 * K) ++ chunk ds K = ds.take 168 := by
      rw [chunk, ← List.take_add]
      by_cases hfull : K + 1 = 12
      · rw [show 14 * K + 14 = 168 by omega]
      · rw [List.take_of_length_le (by omega), List.take_of_length_le (by omega)]
    rw [leftover, if_neg hzero, hK, Nat.add_sub_cancel, ← hlen, ← htake, List.range_succ,
      List.flatMap_append, List.flatMap_singleton, List.append_assoc,
      flatMap_chunks (fun k => s₀.disk (reserved k)) (by omega)]

/-- **The slots that a lookup looks at** are the first 168 entries, and the slots left over. -/
theorem dentries_of_holds (h : Holds reserved s₀ n m ds s) : List.Forall₂ SameEntry
      ((List.range (iBlockLen (handle s.vol n).inode)).flatMap fun i =>
        slots (getFileBlock s.vol (handle s.vol n) i))
      (ds.take 168 ++ leftover reserved s₀ ds.length) := by
  have hle := blocksOf_le ds.length
  rw [← flatMap_blocks, show iBlockLen (handle s.vol n).inode = blocksOf ds.length from h.len]
  refine forall₂_flatMap_range fun k hk => ?_
  have hblock : getFileBlock s.vol (handle s.vol n) k = s.vol.disk (reserved k) := by
    rw [getFileBlock, handle, indirectBlock_direct (by omega), h.map k hk]
  rw [hblock]
  exact (h.block k hk).slots_forall₂ (by rw [length_chunk]; omega)

/-- **The lookup is right**: it finds the name exactly if an entry with it was added, and returns
the inode of the first such entry. -/
def LookupRight (ds : List Bytes) (s : Volume) (n : ℕ) (name : CString) : Prop :=
  ∃ found, chdir s (handle s n) name = some found ∧
    found.map Prod.fst = (ds.find? (Named name ·)).map dInode

theorem lookupRight_iff_search (h : Holds reserved s₀ n m ds s) (name : CString) :
    LookupRight ds s.vol n name ↔
      (search name (ds.take 168 ++ leftover reserved s₀ ds.length)).map (Option.map dInode) =
        some ((ds.find? (Named name ·)).map dInode) := by
  rw [← search_congr name (dentries_of_holds h), LookupRight, chdir]
  cases search name ((List.range (iBlockLen (handle s.vol n).inode)).flatMap fun i =>
    slots (getFileBlock s.vol (handle s.vol n) i)) with
  | none => simp
  | some found => simp [Function.comp_def]

/-- One of the first 168 entries has the name; or none of the entries, and no slot left over. -/
def Findable (reserved : ℕ → ℕ) (s₀ : Volume) (ds : List Bytes) (name : CString) : Prop :=
  (∃ d ∈ ds.take 168, Named name d) ∨
    ((∀ d ∈ ds, ¬ Named name d) ∧
      ∀ d ∈ leftover reserved s₀ ds.length, strcmpEq (dName d) nameSize name.chars = some false)

theorem leftover_of_le (h : 168 ≤ m) : leftover reserved s₀ m = [] := by
  have hslots : ∀ b : Bytes, (slots b).length = 14 := fun b => by
    rfl
  have hblocks : blocksOf m = 12 := by
    rw [blocksOf]
    omega
  rw [leftover, if_neg (by omega), hblocks, List.drop_eq_nil_of_le (by rw [hslots]; omega)]

theorem lookupRight_iff_findable (h : Holds reserved s₀ n m ds s) (hds : ∀ d ∈ ds, Terminated d)
    (name : CString) : LookupRight ds s.vol n name ↔ Findable reserved s₀ ds name := by
  have hterm : ∀ d ∈ ds.take 168, Terminated d := fun d hd => hds d (List.mem_of_mem_take hd)
  have hsplit : ds.find? (Named name ·) =
      ((ds.take 168).find? (Named name ·)).or ((ds.drop 168).find? (Named name ·)) := by
    rw [← List.find?_append, List.take_append_drop]
  rw [lookupRight_iff_search h, search_append name hterm, hsplit, Findable]
  cases hfirst : (ds.take 168).find? (Named name ·) with
  | some d =>
    -- found among the first 168 entries
    have hd : Named name d := by simpa using List.find?_some hfirst
    exact iff_of_true rfl (.inl ⟨d, List.mem_of_find?_eq_some hfirst, hd⟩)
  | none =>
    have hnone : ∀ d ∈ ds.take 168, ¬ Named name d := by simpa using hfirst
    rw [Option.none_or]
    cases hlater : (ds.drop 168).find? (Named name ·) with
    | none =>
      -- no entry has the name, so that the slots left over decide
      have hnone' : ∀ d ∈ ds.drop 168, ¬ Named name d := by simpa using hlater
      have hall : ∀ d ∈ ds, ¬ Named name d := by
        intro d hd
        rw [← List.take_append_drop 168 ds, List.mem_append] at hd
        exact hd.elim (hnone d) (hnone' d)
      rw [Option.map_none, search_eq_none_iff]
      constructor
      · exact fun hleft => .inr ⟨hall, hleft⟩
      · rintro (⟨d, hd, hnamed⟩ | ⟨-, hleft⟩)
        · exact absurd hnamed (hnone d hd)
        · exact hleft
    | some d =>
      -- the entry is one of those that are lost
      have hd : Named name d := by simpa using List.find?_some hlater
      have hmem : d ∈ ds := List.mem_of_mem_drop (List.mem_of_find?_eq_some hlater)
      have hlen : 168 ≤ ds.length := by
        by_contra hlt
        rw [List.drop_eq_nil_of_le (by omega)] at hlater
        exact absurd hlater (by simp)
      rw [leftover_of_le hlen]
      refine iff_of_false (by simp [search]) ?_
      rintro (⟨e, he, hnamed⟩ | ⟨hall, -⟩)
      · exact hnone e he hnamed
      · exact hall d hmem hd

/-- **Lookup after insertion.** Entries are added to a directory without blocks: all calls come to
their end, and a name is then looked up rightly exactly if one of the first 168 entries has it, or
no entry has it and neither has a slot that is left over in the last block. -/
theorem lookup_right_iff (hgeo : Geometry s₀) (hn : InRange s₀ n)
    (hempty : iBlockLen (storedInode s₀ n) = 0) (hfresh : Fresh s₀ n reserved ds.length)
    (hds : ∀ d ∈ ds, Terminated d) (name : CString) :
    ∃ s, addAll reserved n ds ⟨s₀, 0⟩ = some s ∧
      (LookupRight ds s.vol n name ↔ Findable reserved s₀ ds name) := by
  obtain ⟨s, hrun, hs⟩ := holds_addAll hgeo hn hempty hfresh le_rfl
  exact ⟨s, hrun, lookupRight_iff_findable hs hds name⟩

end Lookup

/-- An entry for the inode, with a name of one letter. -/
def oneLetter (inode : ℕ) (c : UInt8) : Bytes := storeAll (fun _ => 0) [(0, 4, inode), (8, 1, c.toNat)]

/-- A volume with two inodes, whose block 100 was once the block of a directory with the entry
`b`. -/
def usedVolume : Volume :=
  { sparseVolume with disk := fun k =>
  if k = 100 then copy (fun _ => 0) 72 72 (oneLetter 7 98) else fun _ => 0 }

theorem geometry_usedVolume : Geometry usedVolume ∧ InRange usedVolume 1 :=
  ⟨⟨by decide +kernel, by decide +kernel, by decide, by decide +kernel⟩, by decide, by decide +kernel⟩

theorem fresh_usedVolume : Fresh usedVolume 1 (fun k => 100 + k) 1 where
  lt k hk := by omega
  inj k hk l hl h := by omega
  table k hk := by
    obtain rfl : k = 0 := by omega
    decide +kernel
  indirect k hk := by
    obtain rfl : k = 0 := by omega
    decide +kernel

/-- The entry `a` is found. -/
theorem lookup_right_a : ∃ s, addAll (fun k => 100 + k) 1 [oneLetter 5 97] ⟨usedVolume, 0⟩ = some s ∧
    LookupRight [oneLetter 5 97] s.vol 1 ⟨[97], by decide⟩ := by
  have hterm : Terminated (oneLetter 5 97) := ⟨1, by decide, by decide +kernel⟩
  obtain ⟨s, hrun, hiff⟩ := lookup_right_iff geometry_usedVolume.1 geometry_usedVolume.2
    (by decide +kernel) fresh_usedVolume (List.forall_mem_singleton.mpr hterm) ⟨[97], by decide⟩
  exact ⟨s, hrun, hiff.mpr (.inl ⟨_, List.mem_singleton_self _, by decide +kernel⟩)⟩

/-- After `a` was added, `b` is found, with the inode 7 of the entry that the block held before. -/
theorem finds_old_entry_b : ((addAll (fun k => 100 + k) 1 [oneLetter 5 97] ⟨usedVolume, 0⟩).bind fun s =>
      (chdir s.vol (handle s.vol 1) ⟨[98], by decide⟩).map (Option.map Prod.fst)) = some (some 7) ∧
    ¬ Named ⟨[98], by decide⟩ (oneLetter 5 97) := by
  decide +kernel

end YegaKernel.Fs.Ext2.DirectoryRun
