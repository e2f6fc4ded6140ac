import YegaKernel.Fs.Ext2.InodeTable

/-! # The block map of a file

`indirect_block` and `set_i_block` of `fs.c`: which block holds the data block `i` of a file. The
first twelve are in the inode, the next 256 in the indirect block `i_block[12]`, and the others in
256 blocks which the double indirect block `i_block[13]` lists.

* In the indirect block reader and writer both take the index for an offset in bytes, so that the
  words of neighbouring indices overlap.
* Of the double indirect blocks the writer sets a word in the second level, and the reader returns
  one of the first level, again at an offset in bytes.

`map_iff` says for which pairs of indices the map is one all the same. -/

namespace YegaKernel.Fs.Ext2.BlockMap

open Lib.Bytes Lib.Word
open Fs.Disk (Bytes)
open Fs.Ext2.Layout Fs.Ext2.InodeTable Function

def dirBlkLen : ℕ := 12

def indBlkLen : ℕ := blkSize / 4

/-- `dbl_ind_blk_len`, which counts 1024 second-level blocks. -/
def dblIndBlkLen : ℕ := blkSize * indBlkLen

/-- `i_block[k]` of an inode. -/
def iBlock (file : Bytes) (k : ℕ) : ℕ := load file (40 + 4 * k) 4

/-- A byte as the block number `bread` gets for it: a `char`, extended with its sign. -/
def charBlock (c : UInt8) : ℕ := if c.toNat < 128 then c.toNat else c.toNat + 2 ^ 32 - 256

def indirectBlock (s : Volume) (file : Bytes) (i : ℕ) : ℕ :=
  if i < dirBlkLen then iBlock file i
  else if i < dirBlkLen + indBlkLen then
    let bData := s.disk (iBlock file 12)
    let j := (i - dirBlkLen) % 2 ^ 16
    load bData j 4
  else if i < dirBlkLen + indBlkLen + dblIndBlkLen then
    let bData := s.disk (iBlock file 13)
    let j := i - dirBlkLen - indBlkLen
    let indBlkIndex := j / indBlkLen
    let blkIndex := j % indBlkLen
    -- the second block is read, but the result is taken from the first
    let _bh2 := s.disk (charBlock (bData indBlkIndex))
    load bData blkIndex 4
  else 0

/-- `set_i_block`, with the inode after it; an index behind the array of a block is a fault. -/
def setIBlock (s : Volume) (file : Bytes) (inodeN i blockn : ℕ) : Option (Bytes × Volume) :=
  if i < dirBlkLen then do
    let file := store file (40 + 4 * i) 4 blockn
    return (file, ← writeInodeTable s inodeN file)
  else if i < dirBlkLen + indBlkLen then
    let bData := s.disk (iBlock file 12)
    let j := (i - dirBlkLen) % 2 ^ 16
    let bData := store bData j 4 blockn
    some (file, { s with disk := update s.disk (iBlock file 12) bData })
  else if i < dirBlkLen + indBlkLen + dblIndBlkLen then
    let blocks := s.disk (iBlock file 13)
    let j := i - dirBlkLen - indBlkLen
    let indBlkIndex := j / indBlkLen
    let blkIndex := j % indBlkLen
    if indBlkIndex < indBlkLen then
      let updateLocation := load blocks (4 * indBlkIndex) 4
      let blocks := store (s.disk updateLocation) (4 * blkIndex) 4 blockn
      some (file, { s with disk := update s.disk updateLocation blocks })
    else none
  else some (file, s)

/-! ### What ought to hold -/

/-- The second-level block `k` of a file. -/
def secondLevel (s : Volume) (file : Bytes) (k : ℕ) : ℕ := load (s.disk (iBlock file 13)) (4 * k) 4

/-- **A file with all its blocks for the map**: they are allocated, so none is in the inode table,
and they are distinct. -/
structure Mapped (s : Volume) (file : Bytes) (n : ℕ) : Prop where
  geometry : Geometry s
  inRange : InRange s n
  levels : iBlock file 12 ≠ iBlock file 13
  second : ∀ k < indBlkLen, secondLevel s file k ≠ iBlock file 12 ∧ secondLevel s file k ≠ iBlock file 13
  distinct : ∀ k < indBlkLen, ∀ l < indBlkLen, k ≠ l → secondLevel s file k ≠ secondLevel s file l
  indirect : iBlock file 12 ≠ inodeBlock s n
  double : iBlock file 13 ≠ inodeBlock s n
  table : ∀ k < indBlkLen, secondLevel s file k ≠ inodeBlock s n

/-- The number of indices of the map. -/
def mapLen : ℕ := dirBlkLen + indBlkLen + indBlkLen * indBlkLen

/-- After index `i` is set to `b`, index `j` is `b` if it is `i`, and as before otherwise. -/
def Sets (s : Volume) (file : Bytes) (n i j b : ℕ) : Prop :=
  ∃ file' s', setIBlock s file n i b = some (file', s') ∧
    indirectBlock s' file' j = if j = i then b else indirectBlock s file j

/-- The indices do not disturb each other: two in the indirect block are the same or four apart, and
one of the double indirect blocks is not read after it is set. -/
def Undisturbed (i j : ℕ) : Prop :=
  (12 ≤ i ∧ i < 268 ∧ 12 ≤ j ∧ j < 268 → i = j ∨ i + 4 ≤ j ∨ j + 4 ≤ i) ∧ (268 ≤ i → j ≠ i)

/-! ### The three regions -/

section Regions
variable {s : Volume} {file : Bytes} {i : ℕ}

theorem indirectBlock_direct (h : i < 12) : indirectBlock s file i = iBlock file i := if_pos h

theorem indirectBlock_single (h1 : 12 ≤ i) (h2 : i < 268) :
    indirectBlock s file i = load (s.disk (iBlock file 12)) (i - 12) 4 := by
  rw [indirectBlock, if_neg (by rw [dirBlkLen]; omega), if_pos (by simpa [dirBlkLen, indBlkLen, blkSize])]
  simp only [dirBlkLen]
  rw [Nat.mod_eq_of_lt (by omega)]

theorem indirectBlock_double (h1 : 268 ≤ i) (h2 : i < mapLen) :
    indirectBlock s file i = load (s.disk (iBlock file 13)) ((i - 268) % 256) 4 := by
  have hlen : mapLen = 65804 := by decide
  have hind : indBlkLen = 256 := by decide
  have hdbl : dblIndBlkLen = 262144 := by decide
  rw [indirectBlock, if_neg (by rw [dirBlkLen]; omega), if_neg (by rw [dirBlkLen, hind]; omega),
    if_pos (by omega)]
  simp only [dirBlkLen, hind, Nat.sub_sub]

theorem setIBlock_direct (h : i < 12) (n b : ℕ) : setIBlock s file n i b =
    (writeInodeTable s n (store file (40 + 4 * i) 4 b)).map
      fun s' => (store file (40 + 4 * i) 4 b, s') := by
  rw [setIBlock, if_pos (show i < dirBlkLen from h)]
  simp only
  cases writeInodeTable s n (store file (40 + 4 * i) 4 b) <;> rfl

theorem setIBlock_single (h1 : 12 ≤ i) (h2 : i < 268) (n b : ℕ) : setIBlock s file n i b =
    some (file, { s with
      disk := update s.disk (iBlock file 12)
        (store (s.disk (iBlock file 12)) (i - 12) 4 b) }) := by
  rw [setIBlock, if_neg (by rw [dirBlkLen]; omega), if_pos (by simpa [dirBlkLen, indBlkLen, blkSize])]
  simp only [dirBlkLen]
  rw [Nat.mod_eq_of_lt (by omega)]

theorem setIBlock_double (h1 : 268 ≤ i) (h2 : i < mapLen) (n b : ℕ) : setIBlock s file n i b =
    some (file, { s with
      disk := update s.disk (secondLevel s file ((i - 268) / 256))
        (store (s.disk (secondLevel s file ((i - 268) / 256))) (4 * ((i - 268) % 256)) 4 b) }) := by
  have hlen : mapLen = 65804 := by decide
  have hind : indBlkLen = 256 := by decide
  have hdbl : dblIndBlkLen = 262144 := by decide
  rw [setIBlock, if_neg (by rw [dirBlkLen]; omega), if_neg (by rw [dirBlkLen, hind]; omega),
    if_pos (by omega)]
  simp only [dirBlkLen, hind, Nat.sub_sub]
  rw [if_pos (by omega)]
  rfl

end Regions

/-! ### The map -/

section Map
variable {s : Volume} {file : Bytes} {n i j : ℕ}

theorem indirectBlock_congr {s' : Volume} {file' : Bytes} (hj : j < mapLen)
    (hfile : iBlock file' j = iBlock file j ∨ 12 ≤ j)
    (h12 : iBlock file' 12 = iBlock file 12) (h13 : iBlock file' 13 = iBlock file 13)
    (hdisk12 : s'.disk (iBlock file 12) = s.disk (iBlock file 12) ∨ j < 12 ∨ 268 ≤ j)
    (hdisk13 : s'.disk (iBlock file 13) = s.disk (iBlock file 13) ∨ j < 268) :
    indirectBlock s' file' j = indirectBlock s file j := by
  by_cases h1 : j < 12
  · rw [indirectBlock_direct h1, indirectBlock_direct h1, hfile.resolve_right (by omega)]
  · by_cases h2 : j < 268
    · rw [indirectBlock_single (by omega) h2, indirectBlock_single (by omega) h2, h12,
        hdisk12.resolve_right (by omega)]
    · rw [indirectBlock_double (by omega) hj, indirectBlock_double (by omega) hj, h13,
        hdisk13.resolve_right (by omega)]

theorem sets_direct (h : Mapped s file n) (hi : i < 12) (hj : j < mapLen) {b : ℕ} (hb : b < 2 ^ 32) :
    Sets s file n i j b := by
  have hother : ∀ k, k ≠ i → iBlock (store file (40 + 4 * i) 4 b) k = iBlock file k := fun k hk =>
    load_store_apart (by omega)
  refine ⟨store file (40 + 4 * i) 4 b, written s n (store file (40 + 4 * i) 4 b), ?_, ?_⟩
  · rw [setIBlock_direct hi, writeInodeTable_eq h.geometry h.inRange]
    rfl
  · split_ifs with hji
    · subst hji
      rw [indirectBlock_direct hi]
      exact load_store_of_lt hb
    · exact indirectBlock_congr hj (.inl (hother j hji)) (hother 12 (by omega)) (hother 13 (by omega))
        (.inl (update_of_ne h.indirect _ _)) (.inl (update_of_ne h.double _ _))

theorem sets_single_iff (h : Mapped s file n) (hi1 : 12 ≤ i) (hi2 : i < 268) (hj : j < mapLen) :
    (∀ b < 2 ^ 32, Sets s file n i j b) ↔ (12 ≤ j ∧ j < 268 → i = j ∨ i + 4 ≤ j ∨ j + 4 ≤ i) := by
  have hset : ∀ b, setIBlock s file n i b = _ := setIBlock_single hi1 hi2 n
  by_cases hj' : 12 ≤ j ∧ j < 268
  · -- both words are in the indirect block
    have hread : ∀ b, indirectBlock { s with
        disk := update s.disk (iBlock file 12) (store (s.disk (iBlock file 12)) (i - 12) 4 b) }
        file j = load (store (s.disk (iBlock file 12)) (i - 12) 4 b) (j - 12) 4 := fun b => by
      rw [indirectBlock_single hj'.1 hj'.2]
      simp
    have hsets : ∀ b, Sets s file n i j b ↔
        load (store (s.disk (iBlock file 12)) (i - 12) 4 b) (j - 12) 4 =
          if j = i then b else load (s.disk (iBlock file 12)) (j - 12) 4 := fun b => by
      rw [← hread, ← indirectBlock_single hj'.1 hj'.2]
      constructor
      · rintro ⟨file', s', hs', heq⟩
        obtain ⟨rfl, rfl⟩ := Prod.mk.inj (Option.some.inj ((hset b).symm.trans hs'))
        exact heq
      · exact fun heq => ⟨_, _, hset b, heq⟩
    simp only [hsets, hj', true_and, true_imp_iff]
    constructor
    · intro hall
      by_contra hmeet
      obtain ⟨b, hb, hne⟩ := exists_load_store_ne (m := s.disk (iBlock file 12)) (w := 4)
        (show j - 12 < i - 12 + 4 by omega) (show i - 12 < j - 12 + 4 by omega)
      have heq := hall b hb
      rw [if_neg (by omega)] at heq
      exact hne heq
    · intro hcond b hb
      split_ifs with hji
      · rw [hji]
        exact load_store_of_lt hb
      · exact load_store_apart (by omega)
  · refine ⟨fun _ hboth => absurd hboth hj', fun _ b _ => ⟨_, _, hset b, ?_⟩⟩
    rw [if_neg (by omega)]
    exact indirectBlock_congr hj (.inl rfl) rfl rfl (.inr (by omega))
      (.inl (update_of_ne h.levels.symm _ _))

theorem sets_double_iff (h : Mapped s file n) (hi1 : 268 ≤ i) (hi2 : i < mapLen) (hj : j < mapLen) :
    (∀ b < 2 ^ 32, Sets s file n i j b) ↔ j ≠ i := by
  have hset : ∀ b, setIBlock s file n i b = _ := setIBlock_double hi1 hi2 n
  have hk : (i - 268) / 256 < indBlkLen := by
    rw [show mapLen = 65804 by decide] at hi2
    rw [show indBlkLen = 256 by decide]
    omega
  have hread : ∀ b, indirectBlock { s with
      disk := update s.disk (secondLevel s file ((i - 268) / 256))
        (store (s.disk (secondLevel s file ((i - 268) / 256))) (4 * ((i - 268) % 256)) 4 b) } file j =
      indirectBlock s file j := fun b =>
    indirectBlock_congr hj (.inl rfl) rfl rfl
      (.inl (update_of_ne (h.second _ hk).1.symm _ _))
      (.inl (update_of_ne (h.second _ hk).2.symm _ _))
  constructor
  · rintro hall rfl
    -- what is read does not depend on what is set
    have hval : ∀ b < 2 ^ 32, indirectBlock s file j = b := fun b hb => by
      obtain ⟨file', s', hs', heq⟩ := hall b hb
      obtain ⟨rfl, rfl⟩ := Prod.mk.inj (Option.some.inj ((hset b).symm.trans hs'))
      rw [hread, if_pos rfl] at heq
      exact heq
    exact absurd ((hval 0 (by decide)).symm.trans (hval 1 (by decide))) (by decide)
  · intro hne b _
    exact ⟨_, _, hset b, by rw [hread, if_neg hne]⟩

/-- **The block map is a map exactly for indices that do not disturb each other.** -/
theorem map_iff (h : Mapped s file n) (hi : i < mapLen) (hj : j < mapLen) :
    (∀ b < 2 ^ 32, Sets s file n i j b) ↔ Undisturbed i j := by
  unfold Undisturbed
  by_cases h1 : i < 12
  · exact ⟨fun _ => ⟨fun hboth => by omega, fun hge => by omega⟩, fun _ b hb => sets_direct h h1 hj hb⟩
  · by_cases h2 : i < 268
    · rw [sets_single_iff h (by omega) h2 hj]
      exact ⟨fun hc => ⟨fun hboth => hc hboth.2.2, fun hge => by omega⟩,
        fun hc hboth => hc.1 ⟨by omega, h2, hboth⟩⟩
    · rw [sets_double_iff h (by omega) hi hj]
      exact ⟨fun hne => ⟨fun hboth => by omega, fun _ => hne⟩, fun hc => hc.2 (by omega)⟩

end Map

/-! ### A file -/

/-- A block whose word `k` is `1000 + k`. -/
def listBlock : Bytes := fun o => UInt8.ofNat ((1000 + o / 4) / 256 ^ (o % 4))

theorem load_listBlock {k : ℕ} (hk : k < 256) : load listBlock (4 * k) 4 = 1000 + k := by
  have h := load_digits listBlock 4 (4 * k) (1000 + k) fun i hi => by
    rw [listBlock, show (4 * k + i) / 4 = k by omega, show (4 * k + i) % 4 = i by omega]
  rw [h, Nat.mod_eq_of_lt (by omega)]

/-- One group with its inode table in block 5; block 21 lists the second-level blocks. -/
def mapVolume : Volume :=
  { disk := fun b => if b = 21 then listBlock else fun _ => 0,
    super := storeAll (fun _ => 0) [(0, 4, 8), (40, 4, 8)],
    bgdt := store (fun _ => 0) 8 4 5, nBlockGroups := 1 }

/-- A file with the indirect block 20 and the double indirect block 21. -/
def mapFile : Bytes := storeAll (fun _ => 0) [(88, 4, 20), (92, 4, 21)]

theorem mapped_mapFile : Mapped mapVolume mapFile 3 := by
  have h12 : iBlock mapFile 12 = 20 := by decide +kernel
  have h13 : iBlock mapFile 13 = 21 := by decide +kernel
  have hblock : inodeBlock mapVolume 3 = 5 := by decide +kernel
  have hsecond : ∀ k < indBlkLen, secondLevel mapVolume mapFile k = 1000 + k := fun k hk => by
    exact load_listBlock hk
  refine ⟨⟨by decide +kernel, by decide +kernel, by decide, by decide +kernel⟩,
    ⟨by decide, by decide +kernel⟩, by decide, fun k hk => ?_, fun k hk l hl hkl => ?_,
    by decide, by decide, fun k hk => ?_⟩
  · rw [hsecond k hk, h12, h13]
    omega
  · rw [hsecond k hk, hsecond l hl]
    omega
  · rw [hsecond k hk, hblock]
    omega

/-- Index 100 of this file is set to 9, and index 104 stays. -/
theorem sets_index_100 : Mapped mapVolume mapFile 3 ∧ Sets mapVolume mapFile 3 100 104 9 := by
  have hsets := (map_iff mapped_mapFile (show 100 < mapLen by decide) (show 104 < mapLen by decide)).mpr
    ⟨fun _ => by omega, fun h => by omega⟩
  exact ⟨mapped_mapFile, hsets 9 (by decide)⟩

/-- Index 13 of this file is set to 9, and index 12 becomes 2304; index 268 is set to 9, and is read
as 1000, the first second-level block. -/
theorem not_sets_index_13_268 :
    ¬ Sets mapVolume mapFile 3 13 12 9 ∧ ¬ Sets mapVolume mapFile 3 268 268 9 := by
  have hone : indirectBlock mapVolume mapFile 12 = 0 := by decide +kernel
  have hafter : (setIBlock mapVolume mapFile 3 13 9).map (fun r =>
      indirectBlock r.2 r.1 12) = some 2304 := by
    decide +kernel
  have hdouble : (setIBlock mapVolume mapFile 3 268 9).map (fun r => indirectBlock r.2 r.1 268) =
      some 1000 := by decide +kernel
  constructor
  · rintro ⟨file', s', hs', heq⟩
    rw [hs', Option.map_some, heq, if_neg (by decide), hone] at hafter
    exact absurd hafter (by decide)
  · rintro ⟨file', s', hs', heq⟩
    rw [hs', Option.map_some, heq, if_pos rfl] at hdouble
    exact absurd hdouble (by decide)

end YegaKernel.Fs.Ext2.BlockMap
