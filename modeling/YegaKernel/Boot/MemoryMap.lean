import YegaKernel.Lib.Word

/-! # The memory map of the boot loader

`find_available_memory` of `manager.c` walks over the entries of the multiboot memory map and keeps
up to ten blocks of usable memory, cut at the end of the kernel image. Base and length of an entry
have 64 bits, the block is computed with 32.

The map is a sequence of entries in memory, each behind the one before (`MapAt`). -/

namespace YegaKernel.Boot.MemoryMap

open Lib.Word

/-! ### The code -/

def maxMemoryBlocks : ℕ := 10

/-- `multiboot_mmap_entry_t`, with base and length of any size. -/
structure MmapEntry where
  size : ℕ
  addr : ℕ
  len : ℕ
  type : ℕ
  deriving DecidableEq

/-- The fields of `multiboot_info_t` that the memory manager reads. -/
structure MultibootInfo where
  flags : ℕ
  memLower : ℕ
  memUpper : ℕ
  mmapLength : ℕ
  mmapAddr : ℕ

/-- `memory_blocks_t`. -/
structure MemoryBlock where
  start : ℕ
  fin : ℕ
  deriving DecidableEq

def entryStart (e : MmapEntry) : ℕ := u32 e.addr

def entryEnd (e : MmapEntry) : ℕ := u32 (entryStart e + e.len)

/-- The block that the loop stores for an entry. -/
def freeBlockOf (kernelEnd : ℕ) (e : MmapEntry) : MemoryBlock :=
  if entryStart e ≤ kernelEnd ∧ kernelEnd < entryEnd e then ⟨kernelEnd, entryEnd e⟩
  else if kernelEnd < entryStart e then ⟨entryStart e, entryEnd e⟩
  else ⟨entryStart e, entryEnd e⟩

/-- The loop over the map, where `entryAt` reads an entry from memory. `none` where the fuel runs
out. -/
def parseMap (entryAt : ℕ → MmapEntry) (kernelEnd mmapEnd : ℕ) :
    ℕ → ℕ → List MemoryBlock → Option (List MemoryBlock)
  | 0, _, _ => none
  | fuel + 1, mmap, blocks =>
    if mmap < mmapEnd then
      let entry := entryAt mmap
      let blocks :=
        if entry.type = 1 ∧ blocks.length < maxMemoryBlocks then
          blocks ++ [freeBlockOf kernelEnd entry]
        else blocks
      parseMap entryAt kernelEnd mmapEnd fuel (u32 (mmap + u32 (entry.size + 4))) blocks
    else some blocks

/-- `find_available_memory`: the blocks stored in `free_memory_blocks`. -/
def findAvailableMemory (entryAt : ℕ → MmapEntry) (kernelEnd : ℕ) (mbi : MultibootInfo) (fuel : ℕ) :
    Option (List MemoryBlock) :=
  if mbi.flags &&& (1 <<< 6) = 0 then some []
  else parseMap entryAt kernelEnd (u32 (mbi.mmapAddr + mbi.mmapLength)) fuel mbi.mmapAddr []

/-! ### Maps in memory -/

/-- The number of bytes of a sequence of entries. -/
def mapBytes (es : List MmapEntry) : ℕ := (es.map fun e => e.size + 4).sum

/-- The entries stand in memory from `a` on. -/
def LaidAt (entryAt : ℕ → MmapEntry) : ℕ → List MmapEntry → Prop
  | _, [] => True
  | a, e :: es => entryAt a = e ∧ LaidAt entryAt (a + (e.size + 4)) es

/-- The boot loader passes the map `es`. -/
structure MapAt (entryAt : ℕ → MmapEntry) (mbi : MultibootInfo) (es : List MmapEntry) : Prop where
  flag : mbi.flags &&& (1 <<< 6) ≠ 0
  laid : LaidAt entryAt mbi.mmapAddr es
  length : mbi.mmapLength = mapBytes es
  fits : mbi.mmapAddr + mbi.mmapLength < 2 ^ 32

/-- The entries of usable memory. -/
def usable (es : List MmapEntry) : List MmapEntry := es.filter fun e => e.type = 1

/-- The entries a block is stored for. -/
def kept (es : List MmapEntry) : List MmapEntry := (usable es).take maxMemoryBlocks

theorem parseMap_spec (entryAt : ℕ → MmapEntry) (kernelEnd : ℕ) : ∀ (es : List MmapEntry)
    (a fuel : ℕ) (blocks : List MemoryBlock), LaidAt entryAt a es → a + mapBytes es < 2 ^ 32 →
      es.length < fuel →
      parseMap entryAt kernelEnd (a + mapBytes es) fuel a blocks =
        some (blocks ++ ((usable es).take (maxMemoryBlocks - blocks.length)).map
          (freeBlockOf kernelEnd))
  | [], a, fuel + 1, blocks, _, _, _ => by simp [parseMap, mapBytes, usable]
  | e :: es, a, fuel + 1, blocks, ⟨he, hl⟩, hb, hf => by
    have hbytes : mapBytes (e :: es) = e.size + 4 + mapBytes es := by simp [mapBytes]
    rw [hbytes, ← Nat.add_assoc] at hb ⊢
    rw [parseMap, if_pos (by omega), he]
    simp only
    rw [u32_of_lt (n := e.size + 4) (by omega), u32_of_lt (by omega),
      parseMap_spec entryAt kernelEnd es _ fuel _ hl (by omega) (by simpa using hf)]
    by_cases ht : e.type = 1
    · have hu : usable (e :: es) = e :: usable es := by simp [usable, ht]
      rw [hu]
      by_cases hlen : blocks.length < maxMemoryBlocks
      · rw [if_pos ⟨ht, hlen⟩, List.length_append, List.length_singleton,
          show maxMemoryBlocks - blocks.length = (maxMemoryBlocks - (blocks.length + 1)) + 1 by omega,
          List.take_succ_cons, List.map_cons, List.append_assoc, List.singleton_append]
      · rw [if_neg (by tauto), show maxMemoryBlocks - blocks.length = 0 by omega]
        simp
    · have hu : usable (e :: es) = usable es := by simp [usable, ht]
      rw [hu, if_neg (by tauto)]

theorem parseMap_mono (entryAt : ℕ → MmapEntry) (kernelEnd mmapEnd : ℕ) {r : List MemoryBlock} :
    ∀ (fuel a : ℕ) (blocks : List MemoryBlock) {fuel' : ℕ}, fuel ≤ fuel' →
      parseMap entryAt kernelEnd mmapEnd fuel a blocks = some r →
      parseMap entryAt kernelEnd mmapEnd fuel' a blocks = some r
  | 0, _, _, _, _, h => absurd h (by simp [parseMap])
  | fuel + 1, a, blocks, 0, hle, _ => absurd hle (by omega)
  | fuel + 1, a, blocks, fuel' + 1, hle, h => by
    rw [parseMap] at h ⊢
    split_ifs at h ⊢
    · exact parseMap_mono entryAt kernelEnd mmapEnd fuel _ _ (by omega) h
    · exact h

/-- **On a map the loop ends**, with one block for each of the first ten entries of usable
memory. -/
theorem findAvailableMemory_spec {entryAt : ℕ → MmapEntry} {mbi : MultibootInfo}
    {es : List MmapEntry} (h : MapAt entryAt mbi es) (kernelEnd : ℕ) {fuel : ℕ}
    (hf : es.length < fuel) :
    findAvailableMemory entryAt kernelEnd mbi fuel = some ((kept es).map (freeBlockOf kernelEnd)) := by
  have hfits := h.fits
  rw [h.length] at hfits
  rw [findAvailableMemory, if_neg h.flag, h.length, u32_of_lt hfits,
    parseMap_spec entryAt kernelEnd es _ fuel [] h.laid hfits hf]
  rfl

theorem findAvailableMemory_unique {entryAt : ℕ → MmapEntry} {mbi : MultibootInfo}
    {es : List MmapEntry} (h : MapAt entryAt mbi es) {kernelEnd fuel : ℕ} {blocks : List MemoryBlock}
    (hblocks : findAvailableMemory entryAt kernelEnd mbi fuel = some blocks) :
    blocks = (kept es).map (freeBlockOf kernelEnd) := by
  have hmore : findAvailableMemory entryAt kernelEnd mbi (max fuel (es.length + 1)) = some blocks := by
    rw [findAvailableMemory, if_neg h.flag] at hblocks ⊢
    exact parseMap_mono entryAt kernelEnd _ fuel _ _ (le_max_left _ _) hblocks
  rw [findAvailableMemory_spec h kernelEnd (lt_of_lt_of_le (Nat.lt_succ_self _) (le_max_right _ _)),
    Option.some.injEq] at hmore
  exact hmore.symm

/-! ### Soundness of the blocks -/

/-- A block of addresses that some entry of usable memory contains and that does not meet the kernel
image. -/
structure SoundBlock (kernelStart kernelEnd : ℕ) (es : List MmapEntry) (b : MemoryBlock) : Prop where
  contained : ∃ e ∈ usable es, e.addr ≤ b.start ∧ b.fin ≤ e.addr + e.len
  apart : ∀ x, b.start ≤ x → x < b.fin → ¬ (kernelStart ≤ x ∧ x < kernelEnd)

/-- **The memory map is read soundly**: the loop ends, and every block stored that is not empty is
sound. -/
def SoundMap (entryAt : ℕ → MmapEntry) (kernelStart kernelEnd : ℕ) (mbi : MultibootInfo)
    (es : List MmapEntry) : Prop :=
  ∃ fuel blocks, findAvailableMemory entryAt kernelEnd mbi fuel = some blocks ∧
    ∀ b ∈ blocks, b.start < b.fin → SoundBlock kernelStart kernelEnd es b

/-- The first address of an entry modulo `2 ^ 32`, behind the kernel image if the entry goes beyond
it. -/
def cutStart (kernelEnd : ℕ) (e : MmapEntry) : ℕ :=
  if kernelEnd < entryEnd e then max (entryStart e) kernelEnd else entryStart e

/-- What an entry has to satisfy modulo `2 ^ 32`: it does not end inside the kernel image, and it
starts below 4 GiB, unless nothing is left of it or another entry contains what is left. -/
def Harmless (kernelStart kernelEnd : ℕ) (es : List MmapEntry) (e : MmapEntry) : Prop :=
  (entryStart e < entryEnd e → entryEnd e ≤ kernelStart ∨ kernelEnd < entryEnd e) ∧
    (e.addr < 2 ^ 32 ∨ entryEnd e ≤ cutStart kernelEnd e ∨
      ∃ e' ∈ usable es, e'.addr ≤ cutStart kernelEnd e ∧ entryEnd e ≤ e'.addr + e'.len)

section Sound
variable {kernelStart kernelEnd : ℕ} {es : List MmapEntry} {e : MmapEntry}

theorem freeBlockOf_eq : freeBlockOf kernelEnd e = ⟨cutStart kernelEnd e, entryEnd e⟩ := by
  unfold freeBlockOf cutStart
  by_cases ht : kernelEnd < entryEnd e
  · by_cases hs : entryStart e ≤ kernelEnd
    · rw [if_pos ⟨hs, ht⟩, if_pos ht, max_eq_right hs]
    · rw [if_neg (by tauto), if_pos (by omega), if_pos ht, max_eq_left (by omega)]
  · rw [if_neg (by tauto), if_neg ht]
    split_ifs <;> rfl

theorem soundBlock_iff (he : e ∈ usable es) :
    ((freeBlockOf kernelEnd e).start < (freeBlockOf kernelEnd e).fin →
      SoundBlock kernelStart kernelEnd es (freeBlockOf kernelEnd e)) ↔
      Harmless kernelStart kernelEnd es e := by
  have hs : entryStart e ≤ cutStart kernelEnd e := by
    unfold cutStart
    split_ifs <;> omega
  have ht : entryEnd e ≤ entryStart e + e.len := Nat.mod_le _ _
  rw [freeBlockOf_eq]
  constructor
  · intro h
    constructor
    · intro hst
      by_contra hin
      obtain ⟨hlow, hhigh⟩ := not_or.mp hin
      have hcut : cutStart kernelEnd e = entryStart e := if_neg hhigh
      have hb := h (by rw [hcut]; exact hst)
      -- the larger of the two starts lies in the block and in the image
      have hlt : max (entryStart e) kernelStart < entryEnd e := max_lt hst (Nat.lt_of_not_le hlow)
      exact hb.apart (max (entryStart e) kernelStart) (by rw [hcut]; exact le_max_left _ _) hlt
        ⟨le_max_right _ _, lt_of_lt_of_le hlt (Nat.le_of_not_lt hhigh)⟩
    · by_cases hlt : cutStart kernelEnd e < entryEnd e
      · exact Or.inr (Or.inr (h hlt).contained)
      · exact Or.inr (Or.inl (Nat.le_of_not_lt hlt))
  · rintro ⟨hend, hsrc⟩ hlt
    refine ⟨?_, fun x hx hx' hk => ?_⟩
    · rcases hsrc with hlow | hempty | hother
      · have hstart : entryStart e = e.addr := Nat.mod_eq_of_lt hlow
        rw [hstart] at hs ht
        exact ⟨e, he, hs, ht⟩
      · exact absurd hempty (Nat.not_le_of_lt hlt)
      · exact hother
    · change cutStart kernelEnd e ≤ x at hx
      change x < entryEnd e at hx'
      rcases hend (by omega) with hlow | hhigh
      · omega
      · rw [cutStart, if_pos hhigh] at hx
        omega

end Sound

/-- **The map is read soundly exactly when** each of the first ten entries of usable memory is
harmless. -/
theorem soundMap_iff {entryAt : ℕ → MmapEntry} {mbi : MultibootInfo} {es : List MmapEntry}
    (h : MapAt entryAt mbi es) (kernelStart kernelEnd : ℕ) :
    SoundMap entryAt kernelStart kernelEnd mbi es ↔
      ∀ e ∈ kept es, Harmless kernelStart kernelEnd es e := by
  have hmem : ∀ e ∈ kept es, e ∈ usable es := fun e he => List.mem_of_mem_take he
  constructor
  · rintro ⟨fuel, blocks, hblocks, hsound⟩ e he
    rw [← soundBlock_iff (hmem e he)]
    refine hsound _ ?_
    rw [findAvailableMemory_unique h hblocks]
    exact List.mem_map_of_mem he
  · intro hall
    refine ⟨es.length + 1, _, findAvailableMemory_spec h kernelEnd (Nat.lt_succ_self _), ?_⟩
    intro b hb
    obtain ⟨e, he, rfl⟩ := List.mem_map.mp hb
    exact (soundBlock_iff (hmem e he)).mpr (hall e he)

/-! ### Two maps -/

/-- Reads entries of 24 bytes that stand in memory from `0x1000` on. -/
def readAt (es : List MmapEntry) (a : ℕ) : MmapEntry := es.getD ((a - 0x1000) / 24) ⟨0, 0, 0, 0⟩

/-- What the boot loader passes for the given number of entries at `0x1000`. -/
def infoOf (n : ℕ) : MultibootInfo := ⟨64, 639, 130048, 24 * n, 0x1000⟩

/-- 128 MiB of memory. -/
def lowMap : List MmapEntry :=
  [⟨20, 0, 0x9fc00, 1⟩, ⟨20, 0x9fc00, 0x400, 2⟩, ⟨20, 0x100000, 0x7f00000, 1⟩]

/-- The same with 1 GiB more from 4 GiB on. -/
def highMap : List MmapEntry := lowMap ++ [⟨20, 0x100000000, 0x40000000, 1⟩]

theorem mapAt_lowMap : MapAt (readAt lowMap) (infoOf 3) lowMap :=
  ⟨by decide, by simp [LaidAt, infoOf, readAt, lowMap], by decide, by decide⟩

theorem mapAt_highMap : MapAt (readAt highMap) (infoOf 4) highMap :=
  ⟨by decide, by simp [LaidAt, infoOf, readAt, highMap, lowMap], by decide, by decide⟩

/-- The general result at the map of 128 MiB. -/
theorem soundMap_lowMap : SoundMap (readAt lowMap) 0x200000 0x220000 (infoOf 3) lowMap := by
  refine (soundMap_iff mapAt_lowMap 0x200000 0x220000).mpr fun e he => ?_
  have hcases : e = ⟨20, 0, 0x9fc00, 1⟩ ∨ e = ⟨20, 0x100000, 0x7f00000, 1⟩ := by
    simpa [kept, usable, lowMap, maxMemoryBlocks] using he
  rcases hcases with rfl | rfl
  · exact ⟨fun _ => Or.inl (by decide), Or.inl (by decide)⟩
  · exact ⟨fun _ => Or.inr (by decide), Or.inl (by decide)⟩

/-- The memory from 4 GiB on is taken for memory from 0 on, most of which does not exist. -/
theorem not_soundMap_highMap : ¬ SoundMap (readAt highMap) 0x200000 0x220000 (infoOf 4) highMap := by
  rintro ⟨fuel, blocks, hblocks, hsound⟩
  have hmem : (⟨0x220000, 0x40000000⟩ : MemoryBlock) ∈ blocks := by
    rw [findAvailableMemory_unique mapAt_highMap hblocks]
    decide
  obtain ⟨e, he, hlo, hhi⟩ := (hsound _ hmem (by decide)).contained
  have hcases : e = ⟨20, 0, 0x9fc00, 1⟩ ∨ e = ⟨20, 0x100000, 0x7f00000, 1⟩ ∨
      e = ⟨20, 0x100000000, 0x40000000, 1⟩ := by
    simpa [usable, highMap, lowMap] using he
  rcases hcases with rfl | rfl | rfl
  · exact absurd hhi (by decide)
  · exact absurd hhi (by decide)
  · exact absurd hlo (by decide)

end YegaKernel.Boot.MemoryMap
