import YegaKernel.Fs.Ext2.DirectoryRun
import YegaKernel.Fs.Ext2.DentryWalk

/-! # The entries of a block stay a chain

A block is `Formed` with `m` entries if they follow each other every 72 bytes and the last one
reaches to the end of the block. An entry that `add_dentry` adds to such a block leaves it formed, with
one entry more and the others as they were; if the block is full, or there is none, the entry is alone
in a new block (`StepRight`). So whatever is added to a directory without blocks, every block has its
own entries, and the walk over it visits them in order and ends at 1024 (`chains_kept`).

The blocks behind the twelfth have one entry each: the directory never knows of them. -/

namespace YegaKernel.Fs.Ext2.DentryChain

open Lib.Bytes Lib.Word Function
open Fs.Disk (Bytes)
open Fs.Ext2.Layout Fs.Ext2.InodeTable Fs.Ext2.BlockMap
open Fs.Ext2.Directory Fs.Ext2.DirectoryRun Fs.Ext2.DentryWalk

/-! ### One block -/

/-- **A chain of `m` entries.** -/
def Formed (block : Bytes) (m : ℕ) : Prop :=
  ∀ j < m, dRecLen (view block (72 * j)) = if j + 1 = m then 1024 - 72 * j else 72

/-- The entry `d` was added behind the `m` entries of the block `old`, which are as they were but for
the length of the last one. -/
structure Added (old block : Bytes) (m : ℕ) (d : Bytes) : Prop where
  kept : ∀ i < 72 * m, i < 72 * (m - 1) + 4 ∨ 72 * (m - 1) + 6 ≤ i → block i = old i
  entry : SameEntry (view block (72 * m)) d
  formed : Formed block (m + 1)

/-- The walk over the block visits the entries `es`, one after the other, and ends at 1024. -/
structure Visits (block : Bytes) (es : List Bytes) : Prop where
  walks : Walks block 0 ((List.range es.length).map (72 * ·)) 1024
  entry : ∀ (j : ℕ) (h : j < es.length), SameEntry (view block (72 * j)) es[j]

section Block
variable {old block : Bytes} {m : ℕ}

theorem Formed.walks_from (h : Formed block m) (hm : m ≤ 14) :
    ∀ k j : ℕ, j + (k + 1) = m → Walks block (72 * j) ((List.range' j (k + 1)).map (72 * ·)) 1024 := by
  intro k
  induction k with
  | zero =>
    intro j hj
    have hrec := h j (by omega)
    rw [if_pos (by omega)] at hrec
    refine .entry (by rw [blkSize]; omega) ?_
    rw [hrec, show (72 * j + (1024 - 72 * j)) % 2 ^ 16 = 1024 by omega]
    exact .out le_rfl
  | succ k ih =>
    intro j hj
    have hrec := h j (by omega)
    rw [if_neg (by omega)] at hrec
    refine .entry (by rw [blkSize]; omega) ?_
    rw [hrec, show (72 * j + 72) % 2 ^ 16 = 72 * (j + 1) by omega]
    exact ih (j + 1) (by omega)

/-- **The walk over a chain** visits its entries. -/
theorem Formed.walks (h : Formed block m) (hpos : 1 ≤ m) (hm : m ≤ 14) :
    Walks block 0 ((List.range m).map (72 * ·)) 1024 := by
  have hwalks := h.walks_from hm (m - 1) 0 (by omega)
  rwa [Nat.sub_add_cancel hpos, ← List.range_eq_range'] at hwalks

theorem Formed.blockHolds (h : Formed block m) :
    BlockHolds block block ((List.range m).map fun j => view block (72 * j)) where
  entry j hj i _ _ := by simp
  recLen j hj := by
    rw [List.length_map, List.length_range] at hj ⊢
    exact h j hj
  rest _ _ := rfl

theorem formed_of_blockHolds {ds : List Bytes} (h : BlockHolds old block ds) : Formed block ds.length :=
  h.recLen

theorem visits_of_blockHolds {ds : List Bytes} (h : BlockHolds old block ds) (hpos : 1 ≤ ds.length)
    (hlen : ds.length ≤ 14) : Visits block ds :=
  ⟨(formed_of_blockHolds h).walks hpos hlen, h.entry⟩

theorem Formed.append (h : Formed block m) (hpos : 1 ≤ m) (hm : m < 14) (d : Bytes) :
    lastDentry block = some (72 * (m - 1), m) ∧
      Added block (appendDentry block (72 * (m - 1)) m d) m d := by
  have hlen : ((List.range m).map fun j => view block (72 * j)).length = m := by simp
  have hholds := h.blockHolds
  have hnew := hholds.append (by omega) (by omega) d
  have hlast := hholds.lastDentry_eq (by omega) (by omega)
  rw [hlen] at hlast hnew
  refine ⟨hlast, fun i hi hfield => ?_, ?_, ?_⟩
  · obtain ⟨r, rfl⟩ : ∃ r, m = r + 1 := ⟨m - 1, by omega⟩
    exact appendDentry_old block r d (by omega) (by simpa using hfield)
  · have hentry := hnew.entry m (by simp)
    rwa [List.getElem_append_right (by simp), List.getElem_singleton] at hentry
  · have hformed := formed_of_blockHolds hnew
    rwa [List.length_append, hlen, List.length_singleton] at hformed

theorem added_first (old d : Bytes) :
    Added old (copy old 0 dentrySize (store d 4 2 blkSize)) 0 d where
  kept i hi := absurd hi (by omega)
  entry := (blockHolds_first old d).entry 0 (by simp)
  formed := formed_of_blockHolds (blockHolds_first old d)

end Block

/-! ### One call -/

section Call
variable (reserved : ℕ → ℕ) (s : Store) (dir : Handle) (d : Bytes)

/-- The last block of the directory. -/
def lastBlock : ℕ := indirectBlock s.vol dir.inode (iBlockLen dir.inode - 1)

/-- What is read and written as the last block is one block: it has the same number after it was
changed. -/
def SameBlock : Prop := ∀ block,
  indirectBlock { s.vol with disk := update s.vol.disk (lastBlock s dir) block } dir.inode
    (iBlockLen dir.inode - 1) = lastBlock s dir

/-- **What a call does**: a chain with room gets the entry, and else a new block does. -/
structure StepRight : Prop where
  room : ∀ m, 1 ≤ m → m < 14 → iBlockLen dir.inode ≠ 0 → SameBlock s dir →
    Formed (s.vol.disk (lastBlock s dir)) m →
    ∃ s', addDentry reserved s dir d = some (0, s') ∧ s'.taken = s.taken ∧
      (∀ c ≠ lastBlock s dir, s'.vol.disk c = s.vol.disk c) ∧
      Added (s.vol.disk (lastBlock s dir)) (s'.vol.disk (lastBlock s dir)) m d
  full : Geometry s.vol → InRange s.vol dir.inodeN →
    iBlockLen dir.inode = 0 ∨ Formed (s.vol.disk (lastBlock s dir)) 14 →
    ∃ s' old, addDentry reserved s dir d = some (0, s') ∧ s'.taken = s.taken + 1 ∧
      Added old (s'.vol.disk (reserved s.taken)) 0 d

theorem stepRight : StepRight reserved s dir d where
  room m hpos hm hlen hsame hformed := by
    obtain ⟨hlast, hadded⟩ := hformed.append hpos hm d
    refine ⟨_, addDentry_same hlen rfl hsame hlast hm ?_, rfl, ?_, ?_⟩
    · rw [dentrySize, blkSize]
      omega
    · exact fun c hc => update_of_ne hc _ _
    · simp only
      rw [lastBlock, update_self]
      exact hadded
  full hgeo hn hcase := by
    obtain ⟨vol, old, hnew, hblock⟩ := addDentryToNewBlock_spec hgeo hn reserved d
    refine ⟨⟨vol, s.taken + 1⟩, old, ?_, rfl, hblock ▸ added_first old d⟩
    rw [← hnew]
    by_cases hlen : iBlockLen dir.inode = 0
    · rw [addDentry]
      simp only [if_pos hlen]
    · have hholds := (hcase.resolve_left hlen).blockHolds
      have hlast := hholds.lastDentry_eq (by simp) (by simp)
      exact addDentry_full hlen hlast (by simp [dentriesPerBlk, blkSize, dentrySize])

end Call

/-! ### Any number of calls -/

/-- The number of blocks that were reserved for `m` entries: twelve with fourteen entries each, and
then one for each entry. -/
def blockCount (m : ℕ) : ℕ := if m ≤ 168 then (m + 13) / 14 else m - 156

/-- The entries in the block that was reserved as number `k`. -/
def entriesOf (ds : List Bytes) (k : ℕ) : List Bytes :=
  if k < 12 then chunk ds k else (ds.drop (156 + k)).take 1

/-- **The directory and the blocks it lost**, after the entries `ds` were added. -/
structure Chained (reserved : ℕ → ℕ) (s₀ : Volume) (n m : ℕ) (ds : List Bytes) (s : Store) : Prop where
  holds : Holds reserved s₀ n m ds s
  taken : s.taken = blockCount ds.length
  alone : ∀ k, 12 ≤ k → k < s.taken →
    BlockHolds (s₀.disk (reserved k)) (s.vol.disk (reserved k)) (entriesOf ds k)

section Run
variable {reserved : ℕ → ℕ} {s₀ : Volume} {n m : ℕ} {ds : List Bytes} {s : Store}

theorem flatMap_entriesOf (ds : List Bytes) (K : ℕ) : (List.range K).flatMap (entriesOf ds) =
    ds.take (if K ≤ 12 then 14 * K else 156 + K) := by
  induction K with
  | zero => rfl
  | succ K ih =>
    rw [List.range_succ, List.flatMap_append, ih, List.flatMap_singleton, entriesOf]
    by_cases hK : K < 12
    · rw [if_pos hK.le, if_pos hK, if_pos (by omega), chunk, ← List.take_add, Nat.mul_succ]
    · rw [if_neg hK, if_neg (show ¬ K + 1 ≤ 12 by omega), ← Nat.add_assoc, List.take_add]
      congr 2
      split_ifs <;> omega

theorem flatMap_blockCount (ds : List Bytes) :
    (List.range (blockCount ds.length)).flatMap (entriesOf ds) = ds := by
  rw [flatMap_entriesOf]
  refine List.take_of_length_le ?_
  rw [blockCount]
  split_ifs <;> omega

theorem entriesOf_append_of_lt {k : ℕ} (hk : 12 ≤ k) (h : 156 + k < ds.length) (d : Bytes) :
    entriesOf (ds ++ [d]) k = entriesOf ds k := by
  rw [entriesOf, entriesOf, if_neg (by omega), if_neg (by omega), List.drop_append_of_le_length (by omega),
    List.take_append_of_le_length (by rw [List.length_drop]; omega)]

theorem entriesOf_append_last {k : ℕ} (hk : 12 ≤ k) (h : 156 + k = ds.length) (d : Bytes) :
    entriesOf (ds ++ [d]) k = [d] := by
  rw [entriesOf, if_neg (by omega), h, List.drop_left]
  rfl

/-- **The step**: the entry is in the directory, or alone in a block. -/
theorem chained_add (hgeo : Geometry s₀) (hn : InRange s₀ n) (hfresh : Fresh s₀ n reserved m)
    (h : Chained reserved s₀ n m ds s) (hm : ds.length < m) (d : Bytes) :
    ∃ s', addDentry reserved s (handle s.vol n) d = some (0, s') ∧
      Chained reserved s₀ n m (ds ++ [d]) s' := by
  have hlen : (ds ++ [d]).length = ds.length + 1 := by simp
  by_cases hlost : 168 ≤ ds.length
  · have htaken : s.taken = ds.length - 156 := by
      rw [h.taken, blockCount]
      split_ifs <;> omega
    refine ⟨_, h.holds.addDentry_lost hfresh hm hlost d, h.holds.lose hfresh hm hlost d, ?_, ?_⟩
    · rw [hlen, blockCount, if_neg (by omega)]
      simp only
      omega
    · intro k h12 hk
      simp only at hk ⊢
      by_cases hlast : k = s.taken
      · rw [hlast, entriesOf_append_last (by omega) (by omega), lost]
        simp only [update_self]
        rw [h.holds.untouched s.taken le_rfl (by omega)]
        exact blockHolds_first _ d
      · have hne : reserved k ≠ reserved s.taken := fun heq =>
          hlast (hfresh.inj k (by omega) s.taken (by omega) heq)
        rw [entriesOf_append_of_lt h12 (by omega), lost_disk_of_ne hne
          (h.holds.indirect ▸ hfresh.indirect k (by omega)) d]
        exact h.alone k h12 (by omega)
  · obtain ⟨s', hrun, hs'⟩ := holds_add hgeo hn hfresh h.holds hm d
    have htaken : s'.taken = (ds.length + 1 + 13) / 14 := by
      rw [hs'.taken_eq (by omega), hlen, blocksOf]
      omega
    refine ⟨s', hrun, hs', ?_, fun k h12 hk => absurd hk (by omega)⟩
    rw [htaken, hlen, blockCount, if_pos (by omega)]

theorem chained_addAll (hgeo : Geometry s₀) (hn : InRange s₀ n)
    (hempty : iBlockLen (storedInode s₀ n) = 0) (hfresh : Fresh s₀ n reserved m) :
    ds.length ≤ m → ∃ s, addAll reserved n ds ⟨s₀, 0⟩ = some s ∧ Chained reserved s₀ n m ds s :=
  addAll_induct ⟨holds_nil hempty, rfl, fun k _ hk => absurd hk (Nat.not_lt_zero k)⟩
    fun _ _ hs hm d => chained_add hgeo hn hfresh hs hm d

theorem Chained.visits (h : Chained reserved s₀ n m ds s) {k : ℕ} (hk : k < s.taken) :
    Visits (s.vol.disk (reserved k)) (entriesOf ds k) := by
  have htaken := h.taken
  rw [blockCount] at htaken
  by_cases h12 : k < 12
  · have hlen := length_chunk ds k
    have hblocks : k < blocksOf ds.length := by
      rw [blocksOf]
      split_ifs at htaken <;> omega
    have hblocks' : k < min 12 ((ds.length + 13) / 14) := hblocks
    rw [entriesOf, if_pos h12]
    exact visits_of_blockHolds (h.holds.block k hblocks) (by omega) (by omega)
  · have hlen : (entriesOf ds k).length = 1 := by
      rw [entriesOf, if_neg h12, List.length_take, List.length_drop]
      split_ifs at htaken <;> omega
    exact visits_of_blockHolds (h.alone k (by omega) hk) (by omega) (by omega)

/-- **The blocks of a directory stay chains.** A call keeps the form of the last block, or begins a new
one; and after any calls that add entries to a directory without blocks, each block that was reserved
has its own entries, which are all of them in order, and the walk over it visits just these and ends
at 1024. -/
theorem chains_kept (hgeo : Geometry s₀) (hn : InRange s₀ n)
    (hempty : iBlockLen (storedInode s₀ n) = 0) (hfresh : Fresh s₀ n reserved ds.length) :
    (∀ s dir d, StepRight reserved s dir d) ∧
      ∃ s, addAll reserved n ds ⟨s₀, 0⟩ = some s ∧
        ∃ es : ℕ → List Bytes, (List.range s.taken).flatMap es = ds ∧
          ∀ k < s.taken, Visits (s.vol.disk (reserved k)) (es k) := by
  obtain ⟨s, hrun, hs⟩ := chained_addAll hgeo hn hempty hfresh le_rfl
  refine ⟨stepRight reserved, s, hrun, entriesOf ds, ?_, fun k hk => hs.visits hk⟩
  rw [hs.taken, flatMap_blockCount]

end Run

theorem fresh_blocks : Fresh usedVolume 1 (fun k => 100 + k) 15 := by
  have htable : inodeBlock usedVolume 1 = 5 := by decide +kernel
  have hindirect : iBlock (storedInode usedVolume 1) 12 = 0 := by decide +kernel
  exact ⟨fun k hk => by omega, fun k hk l hl h => by omega, fun k hk => by omega, fun k hk => by omega⟩

/-- Fifteen entries fill a block and begin the next one. -/
theorem chains_kept_fifteen : ∃ s,
    addAll (fun k => 100 + k) 1 (List.replicate 15 (oneLetter 5 97)) ⟨usedVolume, 0⟩ = some s ∧
      ∃ es : ℕ → List Bytes,
        (List.range s.taken).flatMap es = List.replicate 15 (oneLetter 5 97) ∧
          ∀ k < s.taken, Visits (s.vol.disk (100 + k)) (es k) :=
  (chains_kept geometry_usedVolume.1 geometry_usedVolume.2 (by decide +kernel) fresh_blocks).2

end YegaKernel.Fs.Ext2.DentryChain
