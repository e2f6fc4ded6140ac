import YegaKernel.Fs.Ext2.Reserve

/-! # Reserving inodes over a whole run

A session is a file system with the inodes that are reserved. `first_free_inode_num` returns the
number of a clear bit, counted from 0, and `reserve_inode` takes it for an inode number, counted
from 1, so that the bit before it is marked.

That bit was clear only in one case: the search has skipped byte 1, because one of its bits 8 to 10
is clear, and then stops at bit 16, while bit 15 is clear too (`InGap`). A call is right exactly in
this case (`inode_right_iff_of_run`); a second call finds bit 15 marked and returns inode 16
again. -/

namespace YegaKernel.Fs.Ext2.InodeRun

open Relation (ReflTransGen)
open Lib.Bytes Lib.Word Lib.Runs
open Fs.Disk (Bytes)
open Fs.Ext2.Layout Fs.Ext2.Balloc Fs.Ext2.Reserve

/-! ### Sessions -/

/-- A file system, and the inodes that are reserved. -/
structure Session where
  fs : Volume
  taken : Finset ℕ

inductive Action
  | reserveFree
  | reserve (n : ℕ)
  | unset (n : ℕ)

def step (σ : Session) : Action → Option Session
  | .reserveFree => do
    match ← reserveFreeInode σ.fs with
    | (some n, s) => return ⟨s, insert n σ.taken⟩
    | (none, s) => return ⟨s, σ.taken⟩
  | .reserve n => do return ⟨← reserveInode σ.fs n, insert n σ.taken⟩
  | .unset n => do return ⟨← unsetInodeBitmap σ.fs n, σ.taken.erase n⟩

/-- The bit of an inode in the bitmap of its group. -/
def inodeUsed (s : Volume) (n : ℕ) : Bool :=
  bit (s.inodeBitmap ((n - 1) / sInodesPerGroup s.super)) ((n - 1) % sInodesPerGroup s.super)

/-- **The inode `n` is handed out**: it is an inode for files, it is unmarked before and marked
after, and no other bit of any bitmap changes. -/
structure Hands (s s' : Volume) (n : ℕ) : Prop where
  ge : freeInoStart ≤ n
  le : n ≤ sInodesCount s.super
  free : inodeUsed s n = false
  used : inodeUsed s' n = true
  inodes : ∀ g < s.nBlockGroups, ∀ i < 8 * blkSize,
    ¬ (g = (n - 1) / sInodesPerGroup s.super ∧ i = (n - 1) % sInodesPerGroup s.super) →
      bit (s'.inodeBitmap g) i = bit (s.inodeBitmap g) i
  blocks : ∀ g < s.nBlockGroups, ∀ i < 8 * blkSize, bit (s'.blockBitmap g) i = bit (s.blockBitmap g) i

/-- What `reserve_free_inode` ought to do: hand out an inode that is not taken, or fail. -/
def Right (σ : Session) : Prop := ∃ r s', reserveFreeInode σ.fs = some (r, s') ∧
  ∀ n, r = some n → Hands σ.fs s' n ∧ n ∉ σ.taken

/-- One of the inodes 9, 10 and 11 is unmarked, and so are the inodes 16 and 17. -/
def InGap (s : Volume) : Prop :=
  (∃ i, 8 ≤ i ∧ i < 11 ∧ bit (s.inodeBitmap 0) i = false) ∧ bit (s.inodeBitmap 0) 15 = false ∧
    bit (s.inodeBitmap 0) 16 = false

/-- A free inode is asked for in the gap, existing ones are reserved, and reserved ones given
back. -/
def Allowed (σ : Session) : Action → Prop
  | .reserveFree => InGap σ.fs
  | .reserve n => 1 ≤ n ∧ n ≤ sInodesCount σ.fs.super
  | .unset n => n ∈ σ.taken

/-! ### The invariant -/

/-- No bit from 1024 on is set in the first bitmap, and those of the taken inodes are. -/
structure Sound (len : ℕ) (σ : Session) : Prop where
  mounted : Mounted len σ.fs
  above : ∀ i, 1024 ≤ i → i < 8192 → bit (σ.fs.inodeBitmap 0) i = false
  taken : ∀ n ∈ σ.taken, 1 ≤ n ∧ n ≤ 1024 * ((len + 7) / 8) ∧ inodeUsed σ.fs n = true

variable {len : ℕ} {σ σ' : Session} {s s' : Volume}

theorem inodeUsed_eq (h : Mounted len s) (n : ℕ) :
    inodeUsed s n = bit (s.inodeBitmap ((n - 1) / 1024)) ((n - 1) % 1024) := by
  rw [inodeUsed, h.ipg]
  rfl

/-- The bits of all inode bitmaps after a change at the bit of the inode `n`. -/
theorem bit_marked (h : Mounted len s) (h' : Mounted len s') (hlen : len ≤ 256) {n : ℕ} (val : Bool)
    (hc : Changes s s' (beforeBitmaps ((n - 1) / 1024) + 2)
      (marked (s.disk (beforeBitmaps ((n - 1) / 1024) + 2)) ((n - 1) % 1024) val))
    {g : ℕ} (hg : g < (len + 7) / 8) (i : ℕ) : bit (s'.inodeBitmap g) i =
      if g = (n - 1) / 1024 ∧ i = (n - 1) % 1024 then (val || !bit (s.inodeBitmap g) i)
      else bit (s.inodeBitmap g) i := by
  rw [hc.inodeBitmap h h' hlen hg]
  by_cases hgn : g = (n - 1) / 1024
  · rw [if_pos (by rw [hgn]), ← hgn, h.inodeBitmap_eq hlen hg]
    by_cases hi : i = (n - 1) % 1024
    · rw [if_pos ⟨rfl, hi⟩, marked]
      cases val <;> simp [bit_setBit, bit_unsetBit, hi]
    · rw [if_neg fun hand => hi hand.2, marked]
      cases val <;> simp [bit_setBit, bit_unsetBit, hi]
  · rw [if_neg fun heq => hgn ((beforeBitmaps_inj (.inr rfl) (.inr rfl)).mp heq).1.symm,
      if_neg fun hand => hgn hand.1]

theorem blockBitmap_marked (h : Mounted len s) (h' : Mounted len s') (hlen : len ≤ 256) {k : ℕ}
    {bm : Bytes} (hc : Changes s s' (beforeBitmaps k + 2) bm) {g : ℕ} (hg : g < (len + 7) / 8) :
    s'.blockBitmap g = s.blockBitmap g := by
  rw [hc.blockBitmap h h' hlen hg,
    if_neg fun heq => absurd ((beforeBitmaps_inj (.inr rfl) (.inl rfl)).mp heq).2 (by decide)]

/-! ### What the search finds -/

theorem firstFree_of_gap {bitmap : Bytes} (hskip : ∃ i, 8 ≤ i ∧ i < 11 ∧ bit bitmap i = false)
    (h16 : bit bitmap 16 = false) : firstFreeBm bitmap freeInoStart = 16 := by
  obtain ⟨i, hi1, hi2, hclear⟩ := hskip
  rcases firstFreeBm_inode bitmap with ⟨hc, hge⟩ | ⟨-, heq⟩
  · have hset := hc.before i hi1 (lt_of_lt_of_le hi2 hge)
    rw [hclear] at hset
    exact absurd hset (by decide)
  · rcases firstFreeFrom_spec bitmap (n := 1022) (j := 2) (show freeInoStart ≤ 8 * 2 by decide)
      (by decide) with hc | ⟨hall, -⟩
    · by_contra hne
      have hset := hc.before 16 le_rfl (by have := hc.le; omega)
      rw [h16] at hset
      exact absurd hset (by decide)
    · exact absurd (hall 16 le_rfl (by omega)) (by rw [h16]; decide)

theorem gap_of_firstFree {bitmap : Bytes} (hge : freeInoStart ≤ firstFreeBm bitmap freeInoStart)
    (hclear : bit bitmap (firstFreeBm bitmap freeInoStart - 1) = false) :
    (∃ i, 8 ≤ i ∧ i < 11 ∧ bit bitmap i = false) ∧ bit bitmap 15 = false ∧ bit bitmap 16 = false := by
  have hge' : 11 ≤ firstFreeBm bitmap freeInoStart := hge
  rcases firstFreeBm_inode bitmap with ⟨hc, -⟩ | ⟨hskip, heq⟩
  · have hset := hc.before (firstFreeBm bitmap freeInoStart - 1) (by omega) (by omega)
    rw [hclear] at hset
    exact absurd hset (by decide)
  · rcases firstFreeFrom_spec bitmap (n := 1022) (j := 2) (show freeInoStart ≤ 8 * 2 by decide)
      (by decide) with hc | ⟨-, h0⟩
    · rw [← heq] at hc
      have h16 : firstFreeBm bitmap freeInoStart = 16 := by
        by_contra hne
        have hset := hc.before (firstFreeBm bitmap freeInoStart - 1)
          (by have := hc.le; omega) (by omega)
        rw [hclear] at hset
        exact absurd hset (by decide)
      rw [h16] at hclear
      refine ⟨?_, hclear, h16 ▸ hc.clear⟩
      rcases hskip with hall | ⟨i, hi, hc'⟩
      · exact absurd (hall 15 (by omega) (by omega)) (by rw [hclear]; decide)
      · exact ⟨i, hc'.le, hi, hc'.clear⟩
    · omega

/-! ### One call -/

section
variable (h : Mounted len s)
include h

theorem hands_of_free (h' : Mounted len s') (hlen : len ≤ 256) {n : ℕ}
    (hn : freeInoStart ≤ n) (hn' : n ≤ 1024 * ((len + 7) / 8)) (hfree : inodeUsed s n = false)
    (hc : Changes s s' (beforeBitmaps ((n - 1) / 1024) + 2)
      (setBit (s.disk (beforeBitmaps ((n - 1) / 1024) + 2)) ((n - 1) % 1024))) : Hands s s' n := by
  have hbit := fun {g} => bit_marked h h' hlen true hc (g := g)
  have hge : 11 ≤ n := hn
  refine ⟨hn, by rw [h.inodes]; exact hn', hfree, ?_, fun g hg i _ hne => ?_, fun g hg i _ => ?_⟩
  · rw [inodeUsed_eq h', hbit (by omega), if_pos ⟨rfl, rfl⟩, Bool.true_or]
  · rw [h.groups] at hg
    rw [h.ipg, show inodesPerGroup = 1024 from rfl] at hne
    rw [hbit hg, if_neg hne]
  · rw [h.groups] at hg
    rw [blockBitmap_marked h h' hlen hc hg]

theorem reserveFreeInode_eq (h1 : 1 ≤ len) (hlen : len ≤ 256) {n : ℕ}
    (hn : firstFreeBm (s.disk 4) freeInoStart = n) :
    reserveFreeInode s = (reserveInode s n).map fun s' => (some n, s') := by
  rw [reserveFreeInode, firstFreeInodeNum_eq h h1 hlen, hn]
  simp only [Option.bind_eq_bind, Option.bind_some]
  cases reserveInode s n <;> rfl

theorem inGap_iff (h1 : 1 ≤ len) (hlen : len ≤ 256) :
    InGap s ↔ (∃ i, 8 ≤ i ∧ i < 11 ∧ bit (s.disk 4) i = false) ∧ bit (s.disk 4) 15 = false ∧
      bit (s.disk 4) 16 = false := by
  have hmap : s.inodeBitmap 0 = s.disk 4 := h.inodeBitmap_eq hlen (by omega)
  rw [InGap, hmap]

theorem reserve_in_gap (h1 : 1 ≤ len) (hlen : len ≤ 256) (hgap : InGap s) :
    ∃ s', reserveFreeInode s = some (some 16, s') ∧ Mounted len s' ∧ inodeUsed s 16 = false ∧
      Changes s s' (beforeBitmaps ((16 - 1) / 1024) + 2)
        (setBit (s.disk (beforeBitmaps ((16 - 1) / 1024) + 2)) ((16 - 1) % 1024)) := by
  obtain ⟨hskip, h15, h16⟩ := (inGap_iff h h1 hlen).mp hgap
  obtain ⟨s', hres, hm', hc⟩ := reserveInode_eq h hlen (n := 16) (by decide) (by omega)
  refine ⟨s', ?_, hm', ?_, hc⟩
  · rw [reserveFreeInode_eq h h1 hlen (firstFree_of_gap hskip h16), hres]
    rfl
  · rw [inodeUsed_eq h]
    exact hgap.2.1

end

/-- **A call is right exactly in the gap.** -/
theorem Sound.right_iff_gap (h : Sound len σ) (h1 : 1 ≤ len) (hlen : len ≤ 256) :
    Right σ ↔ InGap σ.fs := by
  constructor
  · rintro ⟨r, s', hres, hright⟩
    rw [reserveFreeInode_eq h.mounted h1 hlen rfl] at hres
    obtain ⟨s'', -, hpair⟩ := Option.map_eq_some_iff.mp hres
    obtain ⟨hr, -⟩ := Prod.mk.inj hpair
    have hhands := (hright _ hr.symm).1
    have hmap : σ.fs.inodeBitmap 0 = σ.fs.disk 4 := h.mounted.inodeBitmap_eq hlen (by omega)
    have hge : 11 ≤ firstFreeBm (σ.fs.disk 4) freeInoStart := hhands.ge
    -- the search does not go past bit 1024
    have hle : firstFreeBm (σ.fs.disk 4) freeInoStart ≤ 1024 := by
      have habove := h.above 1024 le_rfl (by omega)
      rw [hmap] at habove
      by_contra hgt
      rcases firstFreeBm_inode (σ.fs.disk 4) with ⟨hc, -⟩ | ⟨-, heq⟩
      · have := hc.lt
        omega
      · rcases firstFreeFrom_spec (σ.fs.disk 4) (n := 1022) (j := 2)
          (show freeInoStart ≤ 8 * 2 by decide) (by decide) with hc | ⟨-, h0⟩
        · exact absurd (hc.before 1024 (by omega) (by omega)) (by rw [habove]; decide)
        · omega
    have hfree := hhands.free
    rw [inodeUsed_eq h.mounted, Nat.div_eq_of_lt (by omega), Nat.mod_eq_of_lt (by omega), hmap] at hfree
    exact (inGap_iff h.mounted h1 hlen).mpr (gap_of_firstFree hhands.ge hfree)
  · intro hgap
    obtain ⟨s', hres, hm', hfree, hc⟩ := reserve_in_gap h.mounted h1 hlen hgap
    refine ⟨_, s', hres, fun n hn => ?_⟩
    obtain rfl := Option.some.inj hn
    refine ⟨hands_of_free h.mounted hm' hlen (by decide) (by omega) hfree hc, fun hmem => ?_⟩
    exact absurd (h.taken _ hmem).2.2 (by rw [hfree]; decide)

/-! ### Runs -/

theorem sound_of_set (h : Sound len σ) (hlen : len ≤ 256) (hm' : Mounted len s') {n : ℕ}
    (hn1 : 1 ≤ n) (hn : n ≤ 1024 * ((len + 7) / 8))
    (hc : Changes σ.fs s' (beforeBitmaps ((n - 1) / 1024) + 2)
      (setBit (σ.fs.disk (beforeBitmaps ((n - 1) / 1024) + 2)) ((n - 1) % 1024))) :
    Sound len ⟨s', insert n σ.taken⟩ := by
  have hbit := fun {g} => bit_marked h.mounted hm' hlen true hc (g := g)
  refine ⟨hm', fun i hi hi' => ?_, fun k hk => ?_⟩
  · rw [hbit (by omega), if_neg (by omega), h.above i hi hi']
  · rcases Finset.mem_insert.mp hk with rfl | hk
    · exact ⟨hn1, hn, by rw [inodeUsed_eq hm', hbit (by omega), if_pos ⟨rfl, rfl⟩, Bool.true_or]⟩
    · obtain ⟨hk1, hk2, hused⟩ := h.taken k hk
      rw [inodeUsed_eq h.mounted] at hused
      refine ⟨hk1, hk2, ?_⟩
      rw [inodeUsed_eq hm', hbit (by omega), hused]
      simp

theorem step_sound (h1 : 1 ≤ len) (hlen : len ≤ 256) (h : Sound len σ)
    (hstep : Acts Allowed step σ σ') : Sound len σ' := by
  obtain ⟨a, hallowed, hstep⟩ := hstep
  cases a with
  | reserveFree =>
    obtain ⟨s', hres, hm', -, hc⟩ := reserve_in_gap h.mounted h1 hlen hallowed
    rw [step, hres] at hstep
    obtain rfl := Option.some.inj hstep
    exact sound_of_set h hlen hm' (by decide) (by omega) hc
  | reserve n =>
    have hn : n ≤ 1024 * ((len + 7) / 8) := h.mounted.inodes ▸ hallowed.2
    obtain ⟨s', hres, hm', hc⟩ := reserveInode_eq h.mounted hlen hallowed.1 hn
    rw [step, hres] at hstep
    obtain rfl := Option.some.inj hstep
    exact sound_of_set h hlen hm' hallowed.1 hn hc
  | unset n =>
    obtain ⟨hn1, hn, hused⟩ := h.taken n hallowed
    have hmark : unsetInodeBitmap σ.fs n = _ := markInode_eq h.mounted hlen hn1 hn false
    rw [step, hmark] at hstep
    obtain rfl := Option.some.inj hstep
    have hm' := h.mounted.setDisk (Function.update σ.fs.disk (beforeBitmaps ((n - 1) / 1024) + 2)
      (marked (σ.fs.disk (beforeBitmaps ((n - 1) / 1024) + 2)) ((n - 1) % 1024) false))
    have hbit := fun {g} => bit_marked h.mounted hm' hlen false (fun _ _ => rfl) (g := g)
    refine ⟨hm', fun i hi hi' => ?_, fun k hk => ?_⟩
    · rw [hbit (by omega), if_neg (by omega), h.above i hi hi']
    · obtain ⟨hne, hk⟩ := Finset.mem_erase.mp hk
      obtain ⟨hk1, hk2, hk3⟩ := h.taken k hk
      rw [inodeUsed_eq h.mounted] at hk3
      refine ⟨hk1, hk2, ?_⟩
      rw [inodeUsed_eq hm', hbit (by omega), if_neg (by omega), hk3]

theorem sound_formatted (h1 : 1 ≤ len) (hlen : len ≤ 256) {table : Bytes} {disk disk' : ℕ → Bytes}
    (hmkfs : mkfs len table disk = some disk') : Sound len ⟨formatted len disk', ∅⟩ ∧
      ∀ i, 2 ≤ i → bit ((formatted len disk').inodeBitmap 0) i = false := by
  have hm := mounted_formatted hlen disk'
  have hmap : (formatted len disk').inodeBitmap 0 = freshInodeBitmap 0 :=
    (hm.inodeBitmap_eq hlen (by omega)).trans
      (bitmaps_mkfs (g := 0) hmkfs (by rw [gNBlockGroups_eq hlen]; omega)).2
  have hbits : ∀ i, 2 ≤ i → bit ((formatted len disk').inodeBitmap 0) i = false := by
    intro i hi
    rw [hmap, bit_freshInodeBitmap, if_pos rfl]
    exact decide_eq_false (by omega)
  exact ⟨⟨hm, fun i hi _ => hbits i (by omega), fun n hn => absurd hn (Finset.notMem_empty n)⟩, hbits⟩

/-- **Over every run in which free inodes are asked for in the gap, such a call is right exactly in
the gap.** -/
theorem inode_right_iff_of_run (h1 : 1 ≤ len) (hlen : len ≤ 256) {table : Bytes}
    {disk disk' : ℕ → Bytes} (hmkfs : mkfs len table disk = some disk')
    (hrun : ReflTransGen (Acts Allowed step) ⟨formatted len disk', ∅⟩ σ) : Right σ ↔ InGap σ.fs :=
  Sound.right_iff_gap (invariant_of_run (I := Sound len) (fun _ _ h hs => step_sound h1 hlen h hs)
    (sound_formatted h1 hlen hmkfs).1 hrun) h1 hlen

/-- On a file system of 16 MiB inode 1500 is reserved; a call for a free inode is right. -/
theorem inode_right_after_1500 : ∃ disk' σ, mkfs 16 (fun _ => 0) (fun _ _ => 0) = some disk' ∧
    ReflTransGen (Acts Allowed step) ⟨formatted 16 disk', ∅⟩ σ ∧ σ.taken = {1500} ∧ Right σ := by
  obtain ⟨disk', hmkfs⟩ := mkfs_of_le (show 16 ≤ 256 by decide) (fun _ => 0) (fun _ _ => 0)
  have hm := mounted_formatted (show 16 ≤ 256 by decide) disk'
  have hbits := (sound_formatted (by decide) (by decide) hmkfs).2
  obtain ⟨s', hres, hm', hc⟩ := reserveInode_eq hm (by decide) (n := 1500) (by decide) (by decide)
  have hrun : ReflTransGen (Acts Allowed step) ⟨formatted 16 disk', ∅⟩ ⟨s', {1500}⟩ := by
    refine .single ⟨.reserve 1500, ⟨by decide, hm.inodes ▸ (by decide)⟩, ?_⟩
    rw [step, hres]
    rfl
  have hbits' : ∀ i, 2 ≤ i → bit (s'.inodeBitmap 0) i = false := fun i hi => by
    rw [bit_marked hm hm' (by decide) true hc (by decide), if_neg (by omega), hbits i hi]
  exact ⟨disk', _, hmkfs, hrun, rfl, (inode_right_iff_of_run (by decide) (by decide) hmkfs hrun).mpr
    ⟨⟨8, le_rfl, by decide, hbits' 8 (by decide)⟩, hbits' 15 (by decide), hbits' 16 (by decide)⟩⟩

/-- On a fresh file system the first two calls both return inode 16. -/
theorem inode_16_reserved_twice : ∃ disk' σ s₂, mkfs 1 (fun _ => 0) (fun _ _ => 0) = some disk' ∧
    step ⟨formatted 1 disk', ∅⟩ .reserveFree = some σ ∧ σ.taken = {16} ∧
    reserveFreeInode σ.fs = some (some 16, s₂) ∧ ¬ Right σ := by
  obtain ⟨disk', hmkfs⟩ := mkfs_of_le (show 1 ≤ 256 by decide) (fun _ => 0) (fun _ _ => 0)
  obtain ⟨hsound, hbits⟩ := sound_formatted (show 1 ≤ 1 by decide) (by decide) hmkfs
  have hm := hsound.mounted
  have hgap : InGap (formatted 1 disk') :=
    ⟨⟨8, le_rfl, by decide, hbits 8 (by decide)⟩, hbits 15 (by decide), hbits 16 (by decide)⟩
  obtain ⟨s₁, hres, hm₁, -, hc⟩ := reserve_in_gap hm (by decide) (by decide) hgap
  have hstep : step ⟨formatted 1 disk', ∅⟩ .reserveFree = some ⟨s₁, {16}⟩ := by
    rw [step, hres]
    rfl
  have hsound₁ := step_sound (by decide) (by decide) hsound ⟨.reserveFree, hgap, hstep⟩
  have hbit := bit_marked hm hm₁ (by decide) true hc (g := 0) (by decide)
  have hmap : s₁.inodeBitmap 0 = s₁.disk 4 := hm₁.inodeBitmap_eq (by decide) (by decide)
  -- bit 15 is set now, but the search stops at bit 16 as before
  have h15 : bit (s₁.inodeBitmap 0) 15 = true := by
    rw [hbit, if_pos (by decide)]
    rfl
  have hclear : ∀ i, 2 ≤ i → i ≠ 15 → bit (s₁.disk 4) i = false := fun i hi hne => by
    rw [← hmap, hbit, if_neg (by omega), hbits i hi]
  have hfirst : firstFreeBm (s₁.disk 4) freeInoStart = 16 :=
    firstFree_of_gap ⟨8, le_rfl, by decide, hclear 8 (by decide) (by decide)⟩
      (hclear 16 (by decide) (by decide))
  obtain ⟨s₂, hres₂, -, -⟩ := reserveInode_eq hm₁ (by decide) (n := 16) (by decide) (by decide)
  refine ⟨disk', _, s₂, hmkfs, hstep, rfl, ?_, fun hright => ?_⟩
  · rw [reserveFreeInode_eq hm₁ (by decide) (by decide) hfirst, hres₂]
    rfl
  · have hgap₁ := (hsound₁.right_iff_gap (by decide) (by decide)).mp hright
    rw [hgap₁.2.1] at h15
    exact absurd h15 (by decide)

end YegaKernel.Fs.Ext2.InodeRun
