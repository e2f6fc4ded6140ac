import YegaKernel.Lib.Strings
import YegaKernel.Fs.Ext2.BlockMap

/-! # Directories

`chdir`, `add_dentry` and what they call in `fs.c`, over the ideal store of blocks. The blocks that
`reserve_free_block` hands out are a parameter.

An entry has 72 bytes, and a block room for fourteen. `add_dentry` follows the lengths `rec_len`
from entry to entry of the last block, the last one of which reaches to the end of the block, and
puts the new entry behind it. `chdir` takes every slot of 72 bytes for an entry, written or not.

The second half of the file is about one block: `BlockHolds old block ds` says that it held the
bytes `old` and the entries `ds` were added since. -/

namespace YegaKernel.Fs.Ext2.Directory

open Lib.Bytes Lib.Word Lib.Strings
open Fs.Disk (Bytes)
open Fs.Ext2.Layout Fs.Ext2.InodeTable Fs.Ext2.BlockMap Function

/-- `sizeof(dentry_t)`. -/
def dentrySize : ℕ := 72

def dentriesPerBlk : ℕ := blkSize / dentrySize

/-- `sizeof(d.name)`. -/
def nameSize : ℕ := 64

/-! ### The fields of an entry -/

def dInode (d : Bytes) : ℕ := load d 0 4
def dRecLen (d : Bytes) : ℕ := load d 4 2
def dName (d : Bytes) : Bytes := view d 8

/-! ### Files -/

/-- `ext2_file_handle`. -/
structure Handle where
  inode : Bytes
  inodeN : ℕ

def iBlocks (file : Bytes) : ℕ := load file 28 4

def iBlockLen (i : Bytes) : ℕ := iBlocks i / 2 % 2 ^ 16

/-- The contents of the block that `get_file_block` returns. -/
def getFileBlock (s : Volume) (file : Handle) (i : ℕ) : Bytes := s.disk (indirectBlock s file.inode i)

def addBlockToFile (s : Volume) (file : Handle) (newBlock : ℕ) : Option (Handle × Volume) := do
  let inode := store file.inode 28 4 (iBlocks file.inode + 2)
  let blockLen := iBlockLen inode
  let (inode, s) ← setIBlock s inode file.inodeN (sub32 blockLen 1) newBlock
  return ({ file with inode := inode }, s)

def writeBlockAt (s : Volume) (block offset : ℕ) (chunk : Bytes) (len : ℕ) : ℤ × Volume :=
  if offset + len > blkSize then (-1, s)
  else (0, { s with disk := update s.disk block (copy (s.disk block) offset len chunk) })

/-! ### Adding an entry -/

/-- The file system, and how many blocks `reserve_free_block` has handed out. -/
structure Store where
  vol : Volume
  taken : ℕ

section Add
variable (reserved : ℕ → ℕ)

def addDentryToNewBlock (s : Store) (dir : Handle) (d : Bytes) : Option (ℤ × Store) := do
  let newBlock := reserved s.taken
  let (_, vol) ← addBlockToFile s.vol dir newBlock
  let d := store d 4 2 blkSize
  let (ret, vol) := writeBlockAt vol newBlock 0 d dentrySize
  return (ret, { vol := vol, taken := s.taken + 1 })

/-- The loop of `add_dentry` over the entries of a block, with the last entry it came to and their
number. It has no result if it leaves the block, or if it does not end: after as many rounds as
there are bytes it has come to one of them for the second time. -/
def walk (block : Bytes) : (fuel pos curr dentriesRead : ℕ) → Option (ℕ × ℕ)
  | 0, _, _, _ => none
  | fuel + 1, pos, curr, dentriesRead =>
    if pos < blkSize then
      if pos + 6 > blkSize then none
      else
        let recLen := dRecLen (view block pos)
        walk block fuel ((pos + recLen) % 2 ^ 16) pos ((dentriesRead + 1) % 2 ^ 8)
    else some (curr, dentriesRead)

/-- Where the loop ends for a block. -/
def lastDentry (block : Bytes) : Option (ℕ × ℕ) := walk block (blkSize + 1) 0 0 0

/-- The block with the new entry behind the entry `curr`, which was the last of `dentriesRead`. -/
def appendDentry (block : Bytes) (curr dentriesRead : ℕ) (d : Bytes) : Bytes :=
  let block := if dentriesRead > 0 then store block (curr + 4) 2 dentrySize else block
  let block := copy block (curr + dentrySize) dentrySize d
  store block (curr + dentrySize + 4) 2 (blkSize - dentriesRead * dentrySize)

/-- `add_dentry`; an entry that does not fit into the block behind `curr` is a fault. -/
def addDentry (s : Store) (dir : Handle) (d : Bytes) : Option (ℤ × Store) :=
  let blockLen := iBlockLen dir.inode
  if blockLen = 0 then addDentryToNewBlock reserved s dir d
  else do
    let block := getFileBlock s.vol dir (blockLen - 1)
    let (curr, dentriesRead) ← lastDentry block
    if dentriesRead ≥ dentriesPerBlk then addDentryToNewBlock reserved s dir d
    else if curr + 2 * dentrySize > blkSize then none
    else
      -- the block is changed where it is, before its number is looked up again
      let block := appendDentry block curr dentriesRead d
      let disk := update s.vol.disk (indirectBlock s.vol dir.inode (blockLen - 1)) block
      let vol := { s.vol with disk := disk }
      let fblockN := indirectBlock vol dir.inode (blockLen - 1)
      some (0, { s with vol := { vol with disk := update vol.disk fblockN block } })

end Add

section Add
variable {reserved : ℕ → ℕ} {s : Store} {dir : Handle} {d : Bytes} {curr dentriesRead : ℕ}

section
variable (hpos : iBlockLen dir.inode ≠ 0)
include hpos

theorem addDentry_full
    (h : lastDentry (getFileBlock s.vol dir (iBlockLen dir.inode - 1)) = some (curr, dentriesRead))
    (hfull : dentriesRead ≥ dentriesPerBlk) :
    addDentry reserved s dir d = addDentryToNewBlock reserved s dir d := by
  rw [addDentry]
  simp only [if_neg hpos, h, Option.bind_eq_bind, Option.bind_some, if_pos hfull]

theorem addDentry_same {b : ℕ} (hb : indirectBlock s.vol dir.inode (iBlockLen dir.inode - 1) = b)
    (hsame : ∀ block, indirectBlock { s.vol with disk := update s.vol.disk b block } dir.inode
      (iBlockLen dir.inode - 1) = b)
    (h : lastDentry (s.vol.disk b) = some (curr, dentriesRead))
    (hfull : dentriesRead < dentriesPerBlk) (hfit : curr + 2 * dentrySize ≤ blkSize) :
    addDentry reserved s dir d = some (0, { s with
      vol := { s.vol with
        disk := update s.vol.disk b (appendDentry (s.vol.disk b) curr dentriesRead d) } }) := by
  rw [addDentry]
  simp only [if_neg hpos, getFileBlock, hb, h, Option.bind_eq_bind, Option.bind_some,
    if_neg (Nat.not_le.mpr hfull), if_neg (Nat.not_lt.mpr hfit), hsame, update_idem]

theorem addDentry_room (hdirect : iBlockLen dir.inode ≤ 12)
    (h : lastDentry (getFileBlock s.vol dir (iBlockLen dir.inode - 1)) = some (curr, dentriesRead))
    (hfull : dentriesRead < dentriesPerBlk) (hfit : curr + 2 * dentrySize ≤ blkSize) :
    addDentry reserved s dir d = some (0, { s with
      vol := { s.vol with
        disk := update s.vol.disk (iBlock dir.inode (iBlockLen dir.inode - 1))
          (appendDentry (getFileBlock s.vol dir (iBlockLen dir.inode - 1)) curr dentriesRead d) } }) := by
  have hindex : ∀ v : Volume, indirectBlock v dir.inode (iBlockLen dir.inode - 1) =
      iBlock dir.inode (iBlockLen dir.inode - 1) := fun v => indirectBlock_direct (by omega)
  rw [getFileBlock, hindex] at h ⊢
  exact addDentry_same hpos (hindex s.vol) (fun _ => hindex _) h hfull hfit

end

end Add

/-! ### Looking up a name -/

/-- The slots of a block. -/
def slots (block : Bytes) : List Bytes :=
  (List.range dentriesPerBlk).map fun i => view block (dentrySize * i)

/-- The first entry with the name, if there is one; a name field without a zero at its end that
begins as the name does is a fault. -/
def search (name : CString) : List Bytes → Option (Option Bytes)
  | [] => some none
  | d :: ds => do if ← strcmpEq (dName d) nameSize name.chars then return some d else search name ds

/-- `chdir`: the number of the inode, and the inode that `get_inode` finds for it, if it finds one
in the tables. -/
def chdir (s : Volume) (currentDir : Handle) (name : CString) : Option (Option (ℕ × Option Bytes)) := do
  let nblocks := iBlockLen currentDir.inode
  let dentries := (List.range nblocks).flatMap fun i => slots (getFileBlock s currentDir i)
  let found ← search name dentries
  return found.map fun d => (dInode d, getInode s (dInode d))

/-! ### Entries -/

/-- Two entries are the same but for `rec_len`. -/
def SameEntry (d e : Bytes) : Prop := ∀ i < dentrySize, i < 4 ∨ 6 ≤ i → d i = e i

/-- The name of an entry is a string. -/
def Terminated (d : Bytes) : Prop := ∃ i < nameSize, dName d i = 0

/-- The entry has the name. -/
def Named (name : CString) (d : Bytes) : Prop := IsString (dName d) name.chars

instance (name : CString) : DecidablePred (Named name) := fun d =>
  inferInstanceAs (Decidable (IsString (dName d) name.chars))

theorem SameEntry.dInode_eq {d e : Bytes} (h : SameEntry d e) : dInode d = dInode e :=
  load_congr fun i hi => by simpa using h i (by rw [dentrySize]; omega) (.inl hi)

theorem SameEntry.dName_agree {d e : Bytes} (h : SameEntry d e) :
    Agree nameSize (dName d) (dName e) := by
  intro i hi
  rw [nameSize] at hi
  exact h (8 + i) (by rw [dentrySize]; omega) (.inr (by omega))

theorem search_congr (name : CString) {ds es : List Bytes} (h : List.Forall₂ SameEntry ds es) :
    (search name ds).map (Option.map dInode) = (search name es).map (Option.map dInode) := by
  induction h with
  | nil => rfl
  | @cons d e ds es hde _ ih =>
    rw [search, search, strcmpEq_congr hde.dName_agree]
    cases strcmpEq (dName e) nameSize name.chars with
    | none => rfl
    | some found =>
      cases found with
      | false => exact ih
      | true => exact congrArg (fun k => some (some k)) hde.dInode_eq

theorem search_append (name : CString) {ds : List Bytes} (hds : ∀ d ∈ ds, Terminated d)
    (es : List Bytes) : search name (ds ++ es) = match ds.find? (Named name ·) with
      | some d => some (some d) | none => search name es := by
  induction ds with
  | nil => rfl
  | cons d ds ih =>
    have hcmp := strcmpEq_of_terminated name.nonzero (hds d List.mem_cons_self)
    rw [List.cons_append, search, hcmp]
    by_cases hd : Named name d
    · rw [List.find?_cons_of_pos (by simpa using hd)]
      simp only [show IsString (dName d) name.chars from hd, decide_true]
      rfl
    · rw [List.find?_cons_of_neg (by simpa using hd)]
      simp only [show ¬ IsString (dName d) name.chars from hd, decide_false]
      exact ih fun e he => hds e (List.mem_cons_of_mem _ he)

theorem search_eq_none_iff (name : CString) (ds : List Bytes) :
    (search name ds).map (Option.map dInode) = some none ↔
      ∀ d ∈ ds, strcmpEq (dName d) nameSize name.chars = some false := by
  induction ds with
  | nil => simp [search]
  | cons d ds ih =>
    rw [List.forall_mem_cons, ← ih, search]
    cases strcmpEq (dName d) nameSize name.chars with
    | none => simp
    | some found => cases found <;> simp

/-! ### One block -/

/-- **A block with entries**: those added since it held the bytes `old`, as a chain to its end. -/
structure BlockHolds (old block : Bytes) (ds : List Bytes) : Prop where
  entry : ∀ (j : ℕ) (h : j < ds.length), SameEntry (view block (72 * j)) ds[j]
  recLen : ∀ j < ds.length,
    dRecLen (view block (72 * j)) = if j + 1 = ds.length then 1024 - 72 * j else 72
  rest : ∀ i, 72 * ds.length ≤ i → block i = old i

variable {old block : Bytes} {ds : List Bytes}

theorem BlockHolds.walk_from (h : BlockHolds old block ds) (hlen : ds.length ≤ 14) :
    ∀ (k j curr fuel : ℕ), j + (k + 1) = ds.length → k + 2 ≤ fuel →
      walk block fuel (72 * j) curr j = some (72 * (ds.length - 1), ds.length) := by
  intro k
  induction k with
  | zero =>
    intro j curr fuel hj hfuel
    obtain ⟨fuel, rfl⟩ : ∃ f, fuel = f + 1 + 1 := ⟨fuel - 2, by omega⟩
    have hrec := h.recLen j (by omega)
    rw [if_pos (by omega)] at hrec
    rw [walk, if_pos (by rw [blkSize]; omega), if_neg (by rw [blkSize]; omega)]
    simp only [hrec]
    rw [show (72 * j + (1024 - 72 * j)) % 2 ^ 16 = blkSize by rw [blkSize]; omega, walk,
      if_neg (lt_irrefl _)]
    congr 2 <;> omega
  | succ k ih =>
    intro j curr fuel hj hfuel
    obtain ⟨fuel, rfl⟩ : ∃ f, fuel = f + 1 := ⟨fuel - 1, by omega⟩
    have hrec := h.recLen j (by omega)
    rw [if_neg (by omega)] at hrec
    rw [walk, if_pos (by rw [blkSize]; omega), if_neg (by rw [blkSize]; omega)]
    simp only [hrec]
    rw [show (72 * j + 72) % 2 ^ 16 = 72 * (j + 1) by omega, show (j + 1) % 2 ^ 8 = j + 1 by omega]
    exact ih (j + 1) _ fuel (by omega) (by omega)

theorem BlockHolds.lastDentry_eq (h : BlockHolds old block ds) (hpos : 0 < ds.length)
    (hlen : ds.length ≤ 14) : lastDentry block = some (72 * (ds.length - 1), ds.length) :=
  h.walk_from hlen (ds.length - 1) 0 0 _ (by omega) (by rw [blkSize]; omega)

theorem blockHolds_first (old d : Bytes) :
    BlockHolds old (copy old 0 dentrySize (store d 4 2 blkSize)) [d] where
  entry j hj i hi hfield := by
    obtain rfl : j = 0 := by simpa using hj
    rw [view, Nat.mul_zero, agree_copy_zero _ _ _ _ (by omega), Nat.zero_add, store,
      copy_of_not_mem (by omega)]
    rfl
  recLen j hj := by
    obtain rfl : j = 0 := by simpa using hj
    rfl
  rest i hi := copy_of_not_mem (.inr (by simpa [dentrySize] using hi))

section Append
variable (block)

theorem appendDentry_new (r : ℕ) (d : Bytes) {i : ℕ} (hi : i < 72) (hfield : i < 4 ∨ 6 ≤ i) :
    appendDentry block (72 * r) (r + 1) d (72 * (r + 1) + i) = d i := by
  rw [appendDentry]
  simp only [dentrySize]
  rw [store, copy_of_not_mem (by omega), show 72 * (r + 1) + i = 72 * r + 72 + i by omega, copy_of_mem hi]

theorem appendDentry_old (r : ℕ) (d : Bytes) {i : ℕ} (h : i < 72 * (r + 1) ∨ 72 * (r + 2) ≤ i)
    (hfield : i < 72 * r + 4 ∨ 72 * r + 6 ≤ i) :
    appendDentry block (72 * r) (r + 1) d i = block i := by
  rw [appendDentry, if_pos (by omega)]
  simp only [dentrySize]
  rw [store, copy_of_not_mem (by omega), copy_of_not_mem (by omega), store, copy_of_not_mem (by omega)]

theorem appendDentry_recLen_new (r : ℕ) (d : Bytes) (hr : r < 13) :
    dRecLen (view (appendDentry block (72 * r) (r + 1) d) (72 * (r + 1))) = 1024 - 72 * (r + 1) := by
  rw [dRecLen, load_view, appendDentry]
  simp only [dentrySize, blkSize]
  rw [show 72 * (r + 1) + 4 = 72 * r + 72 + 4 by omega, load_store]
  omega

theorem appendDentry_recLen_last (r : ℕ) (d : Bytes) :
    dRecLen (view (appendDentry block (72 * r) (r + 1) d) (72 * r)) = 72 := by
  rw [dRecLen, load_view, appendDentry, if_pos (by omega)]
  simp only [dentrySize]
  rw [load_store_apart (by omega), load_copy_apart (by omega), load_store_of_lt (by decide)]

end Append

/-- **One more entry** in a block with room for it. -/
theorem BlockHolds.append (h : BlockHolds old block ds) (hpos : 0 < ds.length) (hlen : ds.length < 14)
    (d : Bytes) :
    BlockHolds old (appendDentry block (72 * (ds.length - 1)) ds.length d) (ds ++ [d]) := by
  obtain ⟨r, hr⟩ : ∃ r, ds.length = r + 1 := ⟨ds.length - 1, by omega⟩
  rw [show ds.length - 1 = r by omega, hr]
  refine ⟨fun j hj i hi hfield => ?_, fun j hj => ?_, fun i hi => ?_⟩
  · rw [List.length_append, List.length_singleton, hr] at hj
    rw [dentrySize] at hi
    by_cases hjr : j < ds.length
    · rw [List.getElem_append_left hjr, view, appendDentry_old block r d (by omega) (by omega)]
      exact h.entry j hjr i hi hfield
    · obtain rfl : j = r + 1 := by omega
      rw [List.getElem_append_right (by omega), view, appendDentry_new block r d hi hfield]
      simp
  · rw [List.length_append, List.length_singleton, hr] at hj ⊢
    by_cases hlast : j = r + 1
    · subst hlast
      rw [if_pos rfl, appendDentry_recLen_new block r d (by omega)]
    · rw [if_neg (by omega)]
      by_cases hj' : j = r
      · subst hj'
        exact appendDentry_recLen_last block j d
      · have hrec := h.recLen j (by omega)
        rw [if_neg (by omega)] at hrec
        refine Eq.trans (load_congr fun i hi => ?_) hrec
        exact appendDentry_old block r d (by omega) (by omega)
  · rw [List.length_append, List.length_singleton, hr] at hi
    rw [appendDentry_old block r d (by omega) (by omega)]
    exact h.rest i (by omega)

theorem BlockHolds.slots_forall₂ (h : BlockHolds old block ds) (hlen : ds.length ≤ 14) :
    List.Forall₂ SameEntry (slots block) (ds ++ (slots old).drop ds.length) := by
  have hslots : ∀ b : Bytes, (slots b).length = 14 := fun b => by
    rfl
  refine List.forall₂_iff_get.mpr ⟨by simp [hslots]; omega, fun j hj hj' => ?_⟩
  simp only [List.get_eq_getElem]
  by_cases hjd : j < ds.length
  · rw [List.getElem_append_left hjd]
    simpa [slots, dentrySize] using h.entry j hjd
  · rw [List.getElem_append_right (by omega), List.getElem_drop]
    simp only [slots, List.getElem_map, List.getElem_range, dentrySize]
    rw [show ds.length + (j - ds.length) = j by omega]
    exact fun i _ _ => h.rest _ (by omega)

end YegaKernel.Fs.Ext2.Directory
