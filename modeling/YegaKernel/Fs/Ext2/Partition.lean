import YegaKernel.Fs.Ext2.Sectors

/-! # The partition of a file system

The sectors that `mkfs` writes, against those of the `len` MiB from `mb_start` on. The second copy of the
group descriptors goes to the second group of blocks, also when there is only one: up to 8 MiB this is
behind the partition. From 9 MiB on every write is inside (`staysInside_iff`), unless it is meant for a
sector from `2 ^ 24` on: the driver then writes to another one, in front of the partition. -/

namespace YegaKernel.Fs.Ext2.Partition

open Lib.Word
open Fs.Disk (Bytes writeSector)
open Fs.Ext2.Layout Fs.Ext2.Sectors

variable {start len : ℕ} {table : Bytes}

/-- **`mkfs` stays inside its partition**: every sector the driver writes is one of the `len` MiB. -/
def StaysInside (start len : ℕ) (table : Bytes) : Prop :=
  ∀ w ∈ mkfsWrites start len table, ∀ s ∈ [writeSector w.lba, writeSector w.next],
    mbToLba start ≤ s ∧ s < mbToLba (start + len)

theorem staysInside_iff_blocks (start len : ℕ) (table : Bytes) : StaysInside start len table ↔
    ∀ b, Written len b → ∀ s ∈ [lbaOf start b % 2 ^ 24, u32 (lbaOf start b + 1) % 2 ^ 24],
      mbToLba start ≤ s ∧ s < mbToLba (start + len) := by
  simp only [← Disk.writeSector_eq]
  exact forall_mkfsWrites table (P := fun lba => ∀ s ∈ [writeSector lba, writeSector (u32 (lba + 1))],
    mbToLba start ≤ s ∧ s < mbToLba (start + len))

theorem mbToLba_add (start len : ℕ) : mbToLba (start + len) = u32 (mbToLba start + 2048 * len) := by
  simp only [mbToLba, u32]
  omega

/-- **`mkfs` stays inside its partition exactly if** the partition has more than 8 MiB and its last
group starts below sector `2 ^ 24`. -/
theorem staysInside_iff (hlen : 1 ≤ len ∧ len ≤ 256) (start : ℕ) (table : Bytes) :
    StaysInside start len table ↔ 8 < len ∧ start % 2 ^ 21 + (len - 1) / 8 * 8 < 2 ^ 13 := by
  have hstart := mbToLba_eq start
  rw [staysInside_iff_blocks, mbToLba_add]
  constructor
  · intro h
    obtain ⟨b, hb, hge, hle⟩ := written_last hlen.2
    have hfirst := h 2 (written_two len) _ List.mem_cons_self
    have hcopy := h 8194 (written_copy len) _ List.mem_cons_self
    have hlast := h b hb _ List.mem_cons_self
    simp only [lbaOf, hstart, u32] at hfirst hcopy hlast
    omega
  · rintro ⟨htwo, hend⟩ b hb s hs
    -- the last group has at least 1024 blocks
    have hle := hb.le hlen.2
    simp only [lbaOf, hstart, u32, List.mem_cons, List.not_mem_nil, or_false] at hs
    simp only [u32]
    omega

theorem staysInside_nine : StaysInside 1 9 fun _ => 0 :=
  (staysInside_iff (by decide) 1 fun _ => 0).mpr (by decide)

/-- A file system of 8 MiB at 1 MiB: its last sector is 18431, and sector 18436 is written. -/
theorem not_staysInside_eight : (∃ w ∈ mkfsWrites 1 8 fun _ => 0, w.lba = 18436) ∧
    mbToLba (1 + 8) = 18432 ∧ ¬ StaysInside 1 8 fun _ => 0 := by
  have hend : mbToLba (1 + 8) = 18432 := by decide
  have hwrite : ∃ w ∈ mkfsWrites 1 8 fun _ => 0, w.lba = 18436 := by
    rw [mkfsWrites_eq]
    refine ⟨_, List.mem_map_of_mem (List.mem_append_left _ (List.mem_append_right _
      (List.mem_cons_of_mem _ List.mem_cons_self))), ?_⟩
    decide
  refine ⟨hwrite, hend, fun h => ?_⟩
  obtain ⟨w, hw, hlba⟩ := hwrite
  have hlt := (h w hw _ List.mem_cons_self).2
  rw [hend, hlba] at hlt
  exact absurd hlt (by decide)

end YegaKernel.Fs.Ext2.Partition
