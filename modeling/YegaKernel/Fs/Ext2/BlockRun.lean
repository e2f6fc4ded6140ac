import YegaKernel.Fs.Ext2.Reserve

/-! # Reserving blocks over a whole run

A session is a file system with the blocks that `reserve_free_block` has returned and
`unset_block_bitmap` has not given back. A call hands out a free block, and marks it, exactly as
long as the first group has an unmarked block below 1024 (`right_iff_of_run`).

With these used up, the first clear bit is that of block 1024. `mark_block` takes the number modulo
the inodes in a group, which is 1024, and sets bit 0 instead: the block is handed out by every
further call, even if the file system ends before it. -/

namespace YegaKernel.Fs.Ext2.BlockRun

open Relation (ReflTransGen)
open Lib.Bytes Lib.Word Lib.Runs
open Fs.Disk (Bytes)
open Fs.Ext2.Layout Fs.Ext2.Balloc Fs.Ext2.Reserve

/-! ### Sessions -/

/-- A file system, and the blocks that are reserved. -/
structure Session where
  fs : Volume
  taken : List ℕ

inductive Action
  | reserve
  | unset (b : ℕ)

def step (σ : Session) : Action → Option Session
  | .reserve => do
    match ← reserveFreeBlock σ.fs with
    | (some n, s) => return ⟨s, n :: σ.taken⟩
    | (none, s) => return ⟨s, σ.taken⟩
  | .unset b => do return ⟨← unsetBlockBitmap σ.fs b, σ.taken.erase b⟩

/-- The bit of a block in the bitmap of its own group. -/
def blockUsed (s : Volume) (n : ℕ) : Bool :=
  bit (s.blockBitmap (n / sBlocksPerGroup s.super)) (n % sBlocksPerGroup s.super)

/-- **The block `n` is handed out**: it exists, it is unmarked before and marked after, and no other
bit of any bitmap changes. -/
structure Hands (s s' : Volume) (n : ℕ) : Prop where
  lt : n < sBlocksCount s.super
  free : blockUsed s n = false
  used : blockUsed s' n = true
  blocks : ∀ g < s.nBlockGroups, ∀ i < 8 * blkSize,
    ¬ (g = n / sBlocksPerGroup s.super ∧ i = n % sBlocksPerGroup s.super) →
      bit (s'.blockBitmap g) i = bit (s.blockBitmap g) i
  inodes : ∀ g < s.nBlockGroups, ∀ i < 8 * blkSize, bit (s'.inodeBitmap g) i = bit (s.inodeBitmap g) i

/-- What `reserve_free_block` ought to do: hand out a block that is not taken, or fail with every
block marked. -/
def Right (σ : Session) : Prop := ∃ r s', reserveFreeBlock σ.fs = some (r, s') ∧
  match r with
  | some n => Hands σ.fs s' n ∧ n ∉ σ.taken
  | none => ∀ n < sBlocksCount σ.fs.super, blockUsed σ.fs n = true

/-- A block below 1024 is unmarked. -/
def HasRoom (s : Volume) : Prop := ∃ n < 1024, bit (s.blockBitmap 0) n = false

/-- Blocks are reserved while there is room, and only reserved ones given back. -/
def Allowed (σ : Session) : Action → Prop
  | .reserve => HasRoom σ.fs
  | .unset b => b ∈ σ.taken

/-! ### The invariant -/

/-- Bits from 1024 on are never set, and those of the taken blocks are. -/
structure Sound (len : ℕ) (σ : Session) : Prop where
  mounted : Mounted len σ.fs
  above : ∀ i, 1024 ≤ i → i < 8192 → bit (σ.fs.disk 3) i = false
  taken : ∀ n ∈ σ.taken, n < 1024 ∧ bit (σ.fs.disk 3) n = true
  nodup : σ.taken.Nodup

variable {len : ℕ} {σ σ' : Session}

theorem hasRoom_iff (h : Sound len σ) (h1 : 1 ≤ len) (hlen : len ≤ 256) :
    HasRoom σ.fs ↔ ∃ n < 1024, bit (σ.fs.disk 3) n = false := by
  have hmap : σ.fs.blockBitmap 0 = σ.fs.disk 3 := h.mounted.blockBitmap_eq hlen (by omega)
  rw [HasRoom, hmap]

theorem firstFree_of_room {bitmap : Bytes} (h : ∃ n < 1024, bit bitmap n = false) :
    FirstClear bitmap 0 1024 (firstFreeBm bitmap 0) := by
  obtain ⟨n, hn, hclear⟩ := h
  rcases firstFreeBm_zero bitmap with hc | ⟨hall, -⟩
  · refine ⟨hc.le, ?_, hc.clear, hc.before⟩
    by_contra hge
    exact absurd (hc.before n n.zero_le (by omega)) (by rw [hclear]; decide)
  · exact absurd (hall n n.zero_le (by omega)) (by rw [hclear]; decide)

theorem firstFree_of_no_room (h : Sound len σ) (hno : ¬ ∃ n < 1024, bit (σ.fs.disk 3) n = false) :
    firstFreeBm (σ.fs.disk 3) 0 = 1024 := by
  have hset : AllSet (σ.fs.disk 3) 0 1024 := fun i _ hi => by
    by_contra hbit
    exact hno ⟨i, hi, by simpa using hbit⟩
  have h1024 := h.above 1024 le_rfl (by omega)
  rcases firstFreeBm_zero (σ.fs.disk 3) with hc | ⟨hall, -⟩
  · by_contra hne
    rcases Nat.lt_or_gt_of_ne hne with hlt | hgt
    · exact absurd (hset _ hc.le hlt) (by rw [hc.clear]; decide)
    · exact absurd (hc.before 1024 (by omega) hgt) (by rw [h1024]; decide)
  · exact absurd (hall 1024 (by omega) (by omega)) (by rw [h1024]; decide)

theorem bits_of_changes {s s' : Volume} {bm : Bytes} (hc : Changes s s' 3 bm) : s'.disk 3 = bm := by
  rw [hc 3 (not_synced_bitmap 0 (.inl rfl)), Function.update_self]

/-! ### One call -/

theorem hands_of_room (h : Sound len σ) (h1 : 1 ≤ len) (hlen : len ≤ 256) {s' : Volume}
    (hm' : Mounted len s') (hroom : ∃ n < 1024, bit (σ.fs.disk 3) n = false)
    (hc : Changes σ.fs s' 3 (setBit (σ.fs.disk 3) (firstFreeBm (σ.fs.disk 3) 0 % 1024))) :
    Hands σ.fs s' (firstFreeBm (σ.fs.disk 3) 0) := by
  have hfirst := firstFree_of_room hroom
  have hlt := hfirst.lt
  have hm := h.mounted
  have hdiv : firstFreeBm (σ.fs.disk 3) 0 / blocksPerGroup = 0 :=
    Nat.div_eq_of_lt (by rw [blocksPerGroup]; omega)
  have hmod : firstFreeBm (σ.fs.disk 3) 0 % blocksPerGroup = firstFreeBm (σ.fs.disk 3) 0 :=
    Nat.mod_eq_of_lt (by rw [blocksPerGroup]; omega)
  rw [Nat.mod_eq_of_lt hlt] at hc
  refine ⟨?_, ?_, ?_, fun g hg i _ hne => ?_, fun g hg i _ => ?_⟩
  · rw [hm.blocks]
    omega
  · rw [blockUsed, hm.bpg, hdiv, hmod, hm.blockBitmap_eq hlen (by omega)]
    exact hfirst.clear
  · rw [blockUsed, hm'.bpg, hdiv, hmod, hm'.blockBitmap_eq hlen (by omega),
      show beforeBitmaps 0 + 1 = 3 from rfl, bits_of_changes hc, bit_setBit, decide_eq_true rfl,
      Bool.or_true]
  · rw [hm.groups] at hg
    rw [hm.bpg, hdiv, hmod] at hne
    rw [hc.blockBitmap hm hm' hlen hg]
    split_ifs with hblk
    · obtain ⟨rfl, -⟩ := (beforeBitmaps_inj (g := 0) (.inl rfl) (.inl rfl)).mp hblk
      rw [bit_setBit, decide_eq_false (fun hi => hne ⟨rfl, hi⟩), Bool.or_false,
        hm.blockBitmap_eq hlen hg]
      rfl
    · rfl
  · rw [hm.groups] at hg
    have hblk : 3 ≠ beforeBitmaps g + 2 := fun heq =>
      absurd ((beforeBitmaps_inj (g := 0) (.inl rfl) (.inr rfl)).mp heq).2 (by decide)
    rw [hc.inodeBitmap hm hm' hlen hg, if_neg hblk]

/-- **A call is right exactly if there is room.** -/
theorem Sound.right_iff (h : Sound len σ) (h1 : 1 ≤ len) (hlen : len ≤ 256) :
    Right σ ↔ HasRoom σ.fs := by
  obtain ⟨s', hres, hm', hc⟩ := reserveFreeBlock_eq h.mounted h1 hlen
  rw [hasRoom_iff h h1 hlen]
  constructor
  · rintro ⟨r, s'', hres', hright⟩
    rw [hres] at hres'
    obtain ⟨rfl, rfl⟩ := Prod.mk.inj (Option.some.inj hres')
    by_contra hno
    have h1024 := firstFree_of_no_room h hno
    -- the bit that is set is bit 0, so that of block 1024 stays clear
    have hused := hright.1.used
    rw [h1024] at hc
    rw [h1024, blockUsed, hm'.bpg, show 1024 / blocksPerGroup = 0 from rfl,
      show 1024 % blocksPerGroup = 1024 from rfl, hm'.blockBitmap_eq hlen (by omega),
      show beforeBitmaps 0 + 1 = 3 from rfl, bits_of_changes hc, bit_setBit,
      h.above 1024 le_rfl (by omega)] at hused
    exact absurd hused (by decide)
  · intro hroom
    refine ⟨_, s', hres, hands_of_room h h1 hlen hm' hroom hc, fun hmem => ?_⟩
    exact absurd (h.taken _ hmem).2 (by rw [(firstFree_of_room hroom).clear]; decide)

/-! ### Runs -/

theorem reserve_sound (h : Sound len σ) (h1 : 1 ≤ len) (hlen : len ≤ 256) (hroom : HasRoom σ.fs)
    (hstep : step σ .reserve = some σ') : Sound len σ' := by
  obtain ⟨s', hres, hm', hc⟩ := reserveFreeBlock_eq h.mounted h1 hlen
  have hfirst := firstFree_of_room ((hasRoom_iff h h1 hlen).mp hroom)
  rw [Nat.mod_eq_of_lt hfirst.lt] at hc
  have hdisk := bits_of_changes hc
  rw [step, hres] at hstep
  obtain rfl := Option.some.inj hstep
  refine ⟨hm', fun i hi hi' => ?_, fun n hn => ?_, List.nodup_cons.mpr ⟨fun hmem => ?_, h.nodup⟩⟩
  · rw [hdisk, bit_setBit, h.above i hi hi', decide_eq_false (by have := hfirst.lt; omega)]
    rfl
  · rw [hdisk, bit_setBit]
    rcases List.mem_cons.mp hn with rfl | hn
    · exact ⟨hfirst.lt, by simp⟩
    · exact ⟨(h.taken n hn).1, by rw [(h.taken n hn).2, Bool.true_or]⟩
  · exact absurd (h.taken _ hmem).2 (by rw [hfirst.clear]; decide)

theorem unset_sound (h : Sound len σ) (h1 : 1 ≤ len) (hlen : len ≤ 256) {b : ℕ} (hb : b ∈ σ.taken)
    (hstep : step σ (.unset b) = some σ') : Sound len σ' := by
  obtain ⟨hlt, hbit⟩ := h.taken b hb
  have hmark : unsetBlockBitmap σ.fs b = _ :=
    markBlock_eq h.mounted h1 hlen (show b < blocksPerGroup by rw [blocksPerGroup]; omega) false
  rw [step, hmark, Nat.mod_eq_of_lt hlt] at hstep
  obtain rfl := Option.some.inj hstep
  refine ⟨h.mounted.setDisk _, fun i hi hi' => ?_, fun n hn => ?_, h.nodup.erase b⟩
  · simp only [Function.update_self, marked, Bool.false_eq_true, if_false]
    rw [bit_unsetBit, h.above i hi hi', decide_eq_false (by omega)]
    rfl
  · obtain ⟨hne, hn⟩ := h.nodup.mem_erase_iff.mp hn
    simp only [Function.update_self, marked, Bool.false_eq_true, if_false]
    rw [bit_unsetBit, (h.taken n hn).2, decide_eq_false hne]
    exact ⟨(h.taken n hn).1, rfl⟩

theorem step_sound (h1 : 1 ≤ len) (hlen : len ≤ 256) (h : Sound len σ)
    (hstep : Acts Allowed step σ σ') : Sound len σ' := by
  obtain ⟨a, hallowed, hstep⟩ := hstep
  cases a with
  | reserve => exact reserve_sound h h1 hlen hallowed hstep
  | unset b => exact unset_sound h h1 hlen hallowed hstep

theorem sound_formatted (h1 : 1 ≤ len) (hlen : len ≤ 256) {table : Bytes} {disk disk' : ℕ → Bytes}
    (hmkfs : mkfs len table disk = some disk') : Sound len ⟨formatted len disk', []⟩ := by
  have hmap : disk' 3 = freshBlockBitmap 0 :=
    (bitmaps_mkfs (g := 0) hmkfs (by rw [gNBlockGroups_eq hlen]; omega)).1
  refine ⟨mounted_formatted hlen disk', fun i hi _ => ?_, fun n hn => absurd hn List.not_mem_nil,
    List.nodup_nil⟩
  simp only [formatted]
  rw [hmap, bit_freshBlockBitmap]
  exact decide_eq_false (by simp only [Nat.zero_lt_two, if_true]; omega)

theorem filled_run (h1 : 1 ≤ len) (hlen : len ≤ 256) {table : Bytes} {disk disk' : ℕ → Bytes}
    (hmkfs : mkfs len table disk = some disk') : ∀ {k : ℕ}, k ≤ 892 →
    ∃ σ, ReflTransGen (Acts Allowed step) ⟨formatted len disk', []⟩ σ ∧ Sound len σ ∧
      ∀ i, bit (σ.fs.disk 3) i = decide (i < 132 + k)
  | 0, _ => by
    have hmap : disk' 3 = freshBlockBitmap 0 :=
      (bitmaps_mkfs (g := 0) hmkfs (by rw [gNBlockGroups_eq hlen]; omega)).1
    refine ⟨_, .refl, sound_formatted h1 hlen hmkfs, fun i => ?_⟩
    simp only [formatted]
    rw [hmap, bit_freshBlockBitmap]
    simp
  | k + 1, hk => by
    obtain ⟨σ, hrun, hsound, hbits⟩ := filled_run h1 hlen hmkfs (show k ≤ 892 by omega)
    have hroom : HasRoom σ.fs :=
      (hasRoom_iff hsound h1 hlen).mpr ⟨132 + k, by omega, by rw [hbits]; simp⟩
    have hfirst := firstFree_of_room ((hasRoom_iff hsound h1 hlen).mp hroom)
    have hnext : firstFreeBm (σ.fs.disk 3) 0 = 132 + k := by
      have hclear := hfirst.clear
      rw [hbits, decide_eq_false_iff_not] at hclear
      by_contra hne
      have hset := hfirst.before (132 + k) (by omega) (by omega)
      rw [hbits, decide_eq_true_iff] at hset
      omega
    obtain ⟨s', hres, hm', hc⟩ := reserveFreeBlock_eq hsound.mounted h1 hlen
    have hstep : step σ .reserve = some ⟨s', (132 + k) :: σ.taken⟩ := by
      rw [step, hres, hnext]
      rfl
    refine ⟨_, hrun.tail ⟨.reserve, hroom, hstep⟩, reserve_sound hsound h1 hlen hroom hstep, fun i => ?_⟩
    rw [bits_of_changes hc, hnext, Nat.mod_eq_of_lt (by omega), bit_setBit, hbits, ← Bool.decide_or]
    exact decide_eq_decide.mpr (by omega)

/-- **Over every run in which blocks are reserved while there is room, a reservation is right
exactly if there is room.** -/
theorem right_iff_of_run (h1 : 1 ≤ len) (hlen : len ≤ 256) {table : Bytes} {disk disk' : ℕ → Bytes}
    (hmkfs : mkfs len table disk = some disk')
    (hrun : ReflTransGen (Acts Allowed step) ⟨formatted len disk', []⟩ σ) : Right σ ↔ HasRoom σ.fs :=
  Sound.right_iff (invariant_of_run (I := Sound len) (fun _ _ h hs => step_sound h1 hlen h hs)
    (sound_formatted h1 hlen hmkfs) hrun) h1 hlen

/-- Two blocks of a file system of 16 MiB are reserved; the third call is right, too. -/
theorem right_third_block : ∃ disk' σ, mkfs 16 (fun _ => 0) (fun _ _ => 0) = some disk' ∧
    ReflTransGen (Acts Allowed step) ⟨formatted 16 disk', []⟩ σ ∧
    blockUsed σ.fs 133 = true ∧ Right σ := by
  obtain ⟨disk', hmkfs⟩ := mkfs_of_le (show 16 ≤ 256 by decide) (fun _ => 0) (fun _ _ => 0)
  obtain ⟨σ, hrun, hsound, hbits⟩ :=
    filled_run (k := 2) (by decide) (show 16 ≤ 256 by decide) hmkfs (by decide)
  have hmap : σ.fs.blockBitmap 0 = σ.fs.disk 3 := hsound.mounted.blockBitmap_eq (by decide) (by decide)
  refine ⟨disk', σ, hmkfs, hrun, ?_, ?_⟩
  · rw [blockUsed, hsound.mounted.bpg, show 133 / blocksPerGroup = 0 from rfl, hmap, hbits]
    rfl
  · exact (right_iff_of_run (by decide) (by decide) hmkfs hrun).mpr
      ⟨134, by decide, by rw [hmap, hbits]; rfl⟩

/-- On a file system of 2 MiB, after 892 reservations, the next two calls both return block 1024. -/
theorem block_1024_reserved_twice : ∃ disk' σ s₁ s₂,
    mkfs 2 (fun _ => 0) (fun _ _ => 0) = some disk' ∧
    ReflTransGen (Acts Allowed step) ⟨formatted 2 disk', []⟩ σ ∧ ¬ Right σ ∧
    reserveFreeBlock σ.fs = some (some 1024, s₁) ∧ reserveFreeBlock s₁ = some (some 1024, s₂) := by
  obtain ⟨disk', hmkfs⟩ := mkfs_of_le (show 2 ≤ 256 by decide) (fun _ => 0) (fun _ _ => 0)
  obtain ⟨σ, hrun, hsound, hbits⟩ :=
    filled_run (k := 892) (by decide) (show 2 ≤ 256 by decide) hmkfs le_rfl
  have hno : ¬ ∃ n < 1024, bit (σ.fs.disk 3) n = false := by
    rintro ⟨n, hn, hclear⟩
    rw [hbits, decide_eq_false_iff_not] at hclear
    omega
  obtain ⟨s₁, hres, hm, hc⟩ := reserveFreeBlock_eq hsound.mounted (by decide) (by decide)
  rw [firstFree_of_no_room hsound hno] at hres hc
  -- the call set bit 0, which was set, so the bitmap is the same for the next call
  have hbits' : ∀ i, bit (s₁.disk 3) i = decide (i < 132 + 892) := fun i => by
    rw [bits_of_changes hc, bit_setBit, hbits, ← Bool.decide_or]
    exact decide_eq_decide.mpr (by omega)
  have hsound₁ : Sound 2 ⟨s₁, []⟩ :=
    ⟨hm, fun i hi _ => by rw [hbits' i]; exact decide_eq_false (by omega),
    fun n hn => absurd hn List.not_mem_nil, List.nodup_nil⟩
  obtain ⟨s₂, hres₂, -, -⟩ := reserveFreeBlock_eq hm (by decide) (by decide)
  have hno₁ : ¬ ∃ n < 1024, bit (s₁.disk 3) n = false := by
    rintro ⟨n, hn, hclear⟩
    rw [hbits', decide_eq_false_iff_not] at hclear
    omega
  rw [firstFree_of_no_room hsound₁ hno₁] at hres₂
  refine ⟨disk', σ, s₁, s₂, hmkfs, hrun, fun hright => hno ?_, hres, hres₂⟩
  exact (hasRoom_iff hsound (by decide) (by decide)).mp
    ((hsound.right_iff (by decide) (by decide)).mp hright)

end YegaKernel.Fs.Ext2.BlockRun
