import YegaKernel.Kernel.Strcmp
import YegaKernel.Fs.Ufs.Model

/-! # Searching a directory of UFS

`search_dir` of `ufs.c`. A directory is a file of entries of 20 bytes, the number of an inode and a name
of 16 bytes; a block has 51 of them.

The variable `offset` is not set back between blocks, so that the slots of the first block are the only
ones that are looked at; they are all looked at, whatever the size is. The comparison ends with the
name that is looked for, so that longer names match. And the blocks are read up to the one of the
position `i_size`, which does not belong to the directory if the size is a multiple of 1024.

* `searchDir_eq` : what the search returns, and which blocks it reads;
* `search_right_iff` : when this is what a lookup ought to do. -/

namespace YegaKernel.Fs.Ufs.SearchDir

open Lib.Bytes Lib.Word Lib.Strings Lib.Loops
open Fs.Disk (Bytes)
open Fs.Buffer (Fault)
open Fs.Ufs.Model

/-! ### The code -/

def uBlkSize : ℕ := 1024

def dirEntryBytes : ℕ := 20

def dirEntryInodeSize : ℕ := 4

/-- What `return -1` is for a `uint32_t`. -/
def minusOne : ℕ := 2 ^ 32 - 1

def iSize (dinode : Bytes) : ℕ := load dinode 4 4

/-- `i_blocks[k]`; behind the array, which has 15 elements, is `i_no`. -/
def iBlocks (dinode : Bytes) (k : ℕ) : ℕ := load dinode (40 + 4 * k) 4

/-- The loop of `strncmp`. -/
def strncmpLoop : ℕ → Bytes → Bytes → ℤ
  | 0, s1, s2 => (s1 0).toNat - (s2 0).toNat
  | n + 1, s1, s2 =>
    if s1 0 ≠ 0 ∧ s1 0 = s2 0 then
      if n = 0 then 0 else strncmpLoop n (view s1 1) (view s2 1)
    else (s1 0).toNat - (s2 0).toNat

def strncmp (s1 s2 : Bytes) (n : ℕ) : ℤ := if n = 0 then 0 else strncmpLoop n s1 s2

theorem strncmpLoop_eq_kernel (m : Bytes) : ∀ n p q : ℕ,
    Kernel.Strcmp.strncmpLoop (fun a => some (m a)) n p q =
      some (strncmpLoop n (view m p) (view m q))
  | 0, _, _ => rfl
  | n + 1, p, q => by
    have hrest := strncmpLoop_eq_kernel m n (p + 1) (q + 1)
    have hview : ∀ a, view (view m a) 1 = view m (a + 1) := fun a => by
      funext i
      rw [view, view, view, Nat.add_assoc]
    rw [Kernel.Strcmp.strncmpLoop, strncmpLoop, hview, hview]
    simp only [Option.bind_eq_bind, Option.bind_some, hrest]
    by_cases h : m p ≠ 0 ∧ m p = m q
    · have h' : view m p 0 ≠ 0 ∧ view m p 0 = view m q 0 := h
      rw [if_pos h, if_pos h']
      split_ifs <;> rfl
    · have h' : ¬ (view m p 0 ≠ 0 ∧ view m p 0 = view m q 0) := h
      rw [if_neg h, if_neg h']
      rfl

theorem strncmp_eq_kernel (m : Bytes) (p q n : ℕ) :
    Kernel.Strcmp.strncmp (fun a => some (m a)) p q n = some (strncmp (view m p) (view m q) n) := by
  unfold Kernel.Strcmp.strncmp strncmp
  rw [strncmpLoop_eq_kernel]
  split_ifs <;> rfl

/-- The inner loop of `search_dir`: the inode, if the entry is found, and the offset. -/
def searchSlots (data entry : Bytes) (entryLen : ℕ) : ℕ → ℕ → Except Fault (Option ℕ × ℕ)
  | 0, _ => .error .spinning
  | fuel + 1, offset =>
    if offset < uBlkSize then
      if strncmp (view data offset) entry entryLen = 0 then
        .ok (some (load data (offset - dirEntryInodeSize) 4), offset)
      else searchSlots data entry entryLen fuel (u32 (offset + dirEntryBytes))
    else .ok (none, offset)

section Code
variable {σ : Type} (ops : BufferOps σ)

/-- The loop of `search_dir` over the blocks. -/
def searchBlocks (dinode entry : Bytes) (entryLen block : ℕ) :
    ℕ → ℕ → ℕ → σ → Except Fault (ℕ × σ)
  | 0, _, _, _ => .error .spinning
  | fuel + 1, iCnt, offset, s =>
    if iCnt < block then do
      let (bh, s) ← ops.bread s (iBlocks dinode iCnt)
      -- a round of the inner loop goes on by 20 bytes, so that 1024 are enough
      match ← searchSlots (ops.data s bh) entry entryLen 1024 (u32 (offset + dirEntryInodeSize)) with
      | (some inum, _) => return (inum, ops.brelse s bh)
      | (none, offset) =>
        searchBlocks dinode entry entryLen block fuel (iCnt + 1) offset (ops.brelse s bh)
    else .ok (minusOne, s)

/-- **`search_dir`** in the directory whose inode is `dinode`. -/
def searchDir (fuel : ℕ) (dinode entry : Bytes) (entryLen : ℕ) (s : σ) : Except Fault (ℕ × σ) :=
  searchBlocks ops dinode entry entryLen (iSize dinode / uBlkSize + 1) fuel 0 0 s

end Code

/-- A disk of blocks with a buffer for each, which are locked from `bread` to `brelse`, and the blocks
that were read. -/
structure Blocks where
  disk : ℕ → Bytes
  locked : List ℕ
  read : List ℕ

/-- The buffers of such a disk; `bread` waits for a buffer that is locked. -/
def blockOps : BufferOps Blocks where
  bread s b :=
    if b ∈ s.locked then .error .spinning
    else .ok (b, { s with locked := b :: s.locked, read := b :: s.read })
  data s b := s.disk b
  setData s b data := { s with disk := Function.update s.disk b data }
  bwrite s b := .ok { s with locked := s.locked.erase b }
  brelse s b := { s with locked := s.locked.erase b }

/-! ### Entries -/

/-- A name as memory. -/
def chars (name : List UInt8) : Bytes := fun j => name.getD j 0

/-- The field begins with the name. -/
def Begins (field : Bytes) (name : List UInt8) : Prop :=
  ∀ (j : ℕ) (h : j < name.length), field j = name[j]

instance (field : Bytes) (name : List UInt8) : Decidable (Begins field name) := by
  unfold Begins
  infer_instance

variable {c : UInt8} {name : List UInt8}

theorem begins_cons {field : Bytes} :
    Begins field (c :: name) ↔ field 0 = c ∧ Begins (view field 1) name := by
  constructor
  · intro h
    refine ⟨h 0 (by simp), fun j hj => ?_⟩
    have hj' := h (j + 1) (by simpa using hj)
    rw [view, Nat.add_comm, hj', List.getElem_cons_succ]
  · rintro ⟨h0, h⟩ j hj
    rcases j with _ | j
    · exact h0
    · have hj' := h j (by simpa using hj)
      rw [view, Nat.add_comm] at hj'
      rw [hj', List.getElem_cons_succ]

theorem view_chars_cons (c : UInt8) (name : List UInt8) : view (chars (c :: name)) 1 = chars name := by
  funext j
  rw [view, chars, chars, Nat.add_comm, List.getD_cons_succ]

theorem strncmpLoop_cons (hc : c ≠ 0) (n : ℕ) (field : Bytes) (name : List UInt8) :
    strncmpLoop (n + 1) field (chars (c :: name)) = 0 ↔
      field 0 = c ∧ (n = 0 ∨ strncmpLoop n (view field 1) (chars name) = 0) := by
  have hhead : chars (c :: name) 0 = c := rfl
  rw [strncmpLoop, view_chars_cons, hhead]
  by_cases h : field 0 = c
  · rw [if_pos ⟨fun h0 => hc (h.symm.trans h0), h⟩, and_iff_right h]
    by_cases hn : n = 0
    · rw [if_pos hn]
      exact iff_of_true rfl (.inl hn)
    · rw [if_neg hn]
      exact (or_iff_right hn).symm
  · rw [if_neg fun hcond => h hcond.2]
    refine iff_of_false (fun hzero => h (UInt8.toNat_inj.mp ?_)) fun hbegin => h hbegin.1
    omega

theorem strncmpLoop_eq_zero_iff (hname : 0 ∉ c :: name) (field : Bytes) :
    strncmpLoop (name.length + 1) field (chars (c :: name)) = 0 ↔ Begins field (c :: name) := by
  induction name generalizing c field with
  | nil =>
    have hc : c ≠ 0 := fun h0 => hname (by simp [h0])
    rw [List.length_nil, strncmpLoop_cons hc, begins_cons]
    exact and_congr_right fun _ => iff_of_true (.inl rfl) fun j hj => absurd hj (Nat.not_lt_zero j)
  | cons d name ih =>
    rw [List.mem_cons, not_or] at hname
    rw [strncmpLoop_cons (Ne.symm hname.1), begins_cons, ← ih hname.2, List.length_cons,
      or_iff_right (Nat.succ_ne_zero _)]

/-- **The comparison** is with as much of the field as the name has. -/
theorem strncmp_eq_zero_iff (hname : 0 ∉ name) (field : Bytes) :
    strncmp field (chars name) name.length = 0 ↔ Begins field name := by
  rcases name with _ | ⟨c, name⟩
  · exact iff_of_true rfl fun j hj => absurd hj (Nat.not_lt_zero j)
  · rw [strncmp, if_neg (by simp)]
    exact strncmpLoop_eq_zero_iff hname field

/-- The first slot of a block whose name begins with `name`. -/
def firstSlot (data : Bytes) (name : List UInt8) : Option ℕ :=
  (List.range 51).find? fun k => Begins (view data (20 * k + 4)) name

theorem searchSlots_from (hname : 0 ∉ name) (data : Bytes) :
    ∀ (m k fuel : ℕ), k + m = 51 → m < fuel →
      searchSlots data (chars name) name.length fuel (20 * k + 4) =
        match (List.range' k m).find? fun k => Begins (view data (20 * k + 4)) name with
        | some k => .ok (some (load data (20 * k) 4), 20 * k + 4) | none => .ok (none, 1024) := by
  intro m
  induction m with
  | zero =>
    intro k fuel hk hfuel
    obtain ⟨fuel, rfl⟩ : ∃ f, fuel = f + 1 := ⟨fuel - 1, by omega⟩
    obtain rfl : k = 51 := by omega
    rfl
  | succ m ih =>
    intro k fuel hk hfuel
    obtain ⟨fuel, rfl⟩ : ∃ f, fuel = f + 1 := ⟨fuel - 1, by omega⟩
    rw [searchSlots, if_pos (by rw [uBlkSize]; omega), List.range'_succ]
    by_cases h : Begins (view data (20 * k + 4)) name
    · rw [if_pos ((strncmp_eq_zero_iff hname _).mpr h), List.find?_cons_of_pos (by simpa using h)]
      rfl
    · rw [if_neg fun hzero => h ((strncmp_eq_zero_iff hname _).mp hzero),
        List.find?_cons_of_neg (by simpa using h), ← ih (k + 1) fuel (by omega) (by omega),
        u32_of_lt (by rw [dirEntryBytes]; omega), dirEntryBytes,
        show 20 * k + 4 + 20 = 20 * (k + 1) + 4 by omega]

/-! ### What the search does -/

/-- The blocks of the directory up to the one of the position `i_size`. -/
def blocksTo (dinode : Bytes) : List ℕ :=
  (List.range (iSize dinode / uBlkSize + 1)).map (iBlocks dinode)

section Search
variable {s : Blocks} {dinode : Bytes} {name : List UInt8}

theorem brelse_bread (s : Blocks) (b : ℕ) (read : List ℕ) :
    blockOps.brelse { s with locked := b :: s.locked, read := read } b = { s with read := read } := by
  simp only [blockOps, List.erase_cons_head]

theorem searchBlocks_rest (dinode entry : Bytes) (entryLen : ℕ) {block : ℕ} :
    ∀ {m iCnt fuel offset : ℕ} {s : Blocks}, iCnt + m = block → m < fuel → 1024 ≤ offset →
      offset + 4 * m < 2 ^ 32 → s.locked = [] →
      searchBlocks blockOps dinode entry entryLen block fuel iCnt offset s = .ok (minusOne, { s with
          read := ((List.range' iCnt m).map (iBlocks dinode)).reverse ++ s.read }) := by
  intro m
  induction m with
  | zero =>
    intro iCnt fuel offset s hcnt hfuel _ _ _
    obtain ⟨fuel, rfl⟩ : ∃ f, fuel = f + 1 := ⟨fuel - 1, by omega⟩
    rw [searchBlocks, if_neg (by omega)]
    rfl
  | succ m ih =>
    intro iCnt fuel offset s hcnt hfuel hoff hlt hs
    obtain ⟨fuel, rfl⟩ : ∃ f, fuel = f + 1 := ⟨fuel - 1, by omega⟩
    have hread : blockOps.bread s (iBlocks dinode iCnt) = .ok (iBlocks dinode iCnt,
        { s with locked := iBlocks dinode iCnt :: s.locked, read := iBlocks dinode iCnt :: s.read }) :=
      if_neg (by simp [hs])
    have hslots : ∀ data, searchSlots data entry entryLen 1024 (offset + 4) = .ok (none, offset + 4) :=
      fun data => if_neg (by rw [uBlkSize]; omega)
    rw [searchBlocks, if_pos (by omega), hread, dirEntryInodeSize, u32_of_lt (by omega)]
    simp only [bind, Except.bind, hslots, brelse_bread]
    rw [ih (by omega) (by omega) (by omega) (by omega) (by exact hs), List.range'_succ, List.map_cons,
      List.reverse_cons, List.append_assoc, List.singleton_append]

/-- **What `search_dir` does**: it returns the inode of the first slot of the first block whose name
begins with the one looked for, or -1 when it has read all blocks up to the position `i_size`. -/
theorem searchDir_eq (hname : 0 ∉ name) (hs : s.locked = []) {fuel : ℕ}
    (hfuel : iSize dinode / uBlkSize + 1 < fuel) :
    searchDir blockOps fuel dinode (chars name) name.length s =
      match firstSlot (s.disk (iBlocks dinode 0)) name with
      | some k => .ok (load (s.disk (iBlocks dinode 0)) (20 * k) 4,
          { s with read := iBlocks dinode 0 :: s.read })
      | none => .ok (minusOne, { s with read := (blocksTo dinode).reverse ++ s.read }) := by
  have hsize : iSize dinode < 2 ^ 32 := load_lt dinode 4 4
  rw [uBlkSize] at hfuel
  obtain ⟨fuel, rfl⟩ : ∃ f, fuel = f + 1 := ⟨fuel - 1, by omega⟩
  have hread : blockOps.bread s (iBlocks dinode 0) = .ok (iBlocks dinode 0,
      { s with locked := iBlocks dinode 0 :: s.locked, read := iBlocks dinode 0 :: s.read }) :=
    if_neg (by simp [hs])
  have hslots := searchSlots_from hname (s.disk (iBlocks dinode 0)) 51 0 1024 rfl (by decide)
  rw [← List.range_eq_range', ← firstSlot] at hslots
  have hdata : ∀ locked read, blockOps.data { s with locked := locked, read := read }
      (iBlocks dinode 0) = s.disk (iBlocks dinode 0) := fun _ _ => rfl
  have hstart : u32 (0 + dirEntryInodeSize) = 20 * 0 + 4 := rfl
  rw [searchDir, searchBlocks, if_pos (Nat.succ_pos _), hread]
  simp only [bind, Except.bind, hdata, hstart, hslots]
  rcases firstSlot (s.disk (iBlocks dinode 0)) name with _ | k
  · rw [blocksTo, uBlkSize]
    have hrest := @searchBlocks_rest dinode (chars name) name.length (iSize dinode / 1024 + 1)
      (iSize dinode / 1024) 1 fuel 1024 { s with read := iBlocks dinode 0 :: s.read }
      (Nat.add_comm _ _) (by omega) le_rfl (by omega) hs
    simp only [brelse_bread]
    rw [hrest, List.range_eq_range', List.range'_succ, List.map_cons, List.reverse_cons,
      List.append_assoc, List.singleton_append]
  · simp only [brelse_bread]
    rfl

end Search

/-! ### What it ought to do -/

/-- An entry: the number of its inode, and the field with its name. -/
def slotAt (data : Bytes) (k : ℕ) : ℕ × Bytes := (load data (20 * k) 4, view data (20 * k + 4))

/-- **The entries of a directory** in order: those that lie within `i_size`. -/
def entries (disk : ℕ → Bytes) (dinode : Bytes) : List (ℕ × Bytes) :=
  (List.range 15).flatMap fun b => ((List.range 51).filter fun k =>
    1024 * b + 20 * k + 20 ≤ iSize dinode).map fun k => slotAt (disk (iBlocks dinode b)) k

/-- The whole name in the field is `name`. -/
def WholeName (name : List UInt8) (field : Bytes) : Prop :=
  Begins field name ∧ (name.length = 16 ∨ field name.length = 0)

instance (name : List UInt8) (field : Bytes) : Decidable (WholeName name field) := by
  unfold WholeName
  infer_instance

/-- The inode of the first entry with the name, if there is one. -/
def lookup (disk : ℕ → Bytes) (dinode : Bytes) (name : List UInt8) : Option ℕ :=
  ((entries disk dinode).find? fun e => WholeName name e.2).map Prod.fst

/-- The blocks of the directory. -/
def Own (dinode : Bytes) (b : ℕ) : Prop := ∃ k, 1024 * k < iSize dinode ∧ b = iBlocks dinode k

/-- **The search is right**: it ends, returns the inode of the first entry with the name, returns -1
exactly if there is none, reads no blocks but those of the directory, and leaves no buffer locked. -/
def Right (disk : ℕ → Bytes) (dinode : Bytes) (name : List UInt8) : Prop :=
  ∃ inum s', (∃ n, ∀ fuel ≥ n,
      searchDir blockOps fuel dinode (chars name) name.length ⟨disk, [], []⟩ = .ok (inum, s')) ∧
    (∀ i, lookup disk dinode name = some i → inum = i) ∧
    (inum = minusOne ↔ lookup disk dinode name = none) ∧
    (∀ b ∈ s'.read, Own dinode b) ∧ s'.locked = []

/-- **The condition on the directory.** The first slot of the first block that begins with the name has
the inode of the first entry with the name; or no slot of the first block begins with it, no entry has
it, and the block of the position `i_size` is one of the directory; or the name is not there, and the
slot that begins with it has the number -1. -/
inductive Suits (disk : ℕ → Bytes) (dinode : Bytes) (name : List UInt8) : Prop
  | found {k : ℕ} (hslot : firstSlot (disk (iBlocks dinode 0)) name = some k)
      (hentry : lookup disk dinode name = some (slotAt (disk (iBlocks dinode 0)) k).1)
      (hnumber : (slotAt (disk (iBlocks dinode 0)) k).1 ≠ minusOne)
  | absent (hslot : firstSlot (disk (iBlocks dinode 0)) name = none)
      (hentry : lookup disk dinode name = none) (hown : Own dinode (iBlocks dinode (iSize dinode / 1024)))
  | unnumbered {k : ℕ} (hslot : firstSlot (disk (iBlocks dinode 0)) name = some k)
      (hentry : lookup disk dinode name = none) (hsize : 0 < iSize dinode)
      (hnumber : (slotAt (disk (iBlocks dinode 0)) k).1 = minusOne)

section Right
variable {disk : ℕ → Bytes} {dinode : Bytes} {name : List UInt8}

theorem right_iff_of_search {inum : ℕ} {s' : Blocks} {n : ℕ}
    (hrun : ∀ fuel ≥ n, searchDir blockOps fuel dinode (chars name) name.length ⟨disk, [], []⟩ =
      .ok (inum, s')) :
    Right disk dinode name ↔ (∀ i, lookup disk dinode name = some i → inum = i) ∧
      (inum = minusOne ↔ lookup disk dinode name = none) ∧ (∀ b ∈ s'.read, Own dinode b) ∧
        s'.locked = [] := by
  constructor
  · rintro ⟨inum₁, s₁, ⟨n₁, hrun₁⟩, hright⟩
    have heq := (hrun₁ (max n n₁) (le_max_right _ _)).symm.trans (hrun _ (le_max_left _ _))
    obtain ⟨rfl, rfl⟩ := Prod.mk.inj (Except.ok.inj heq)
    exact hright
  · exact fun hright => ⟨inum, s', ⟨n, hrun⟩, hright⟩

theorem own_first (hsize : 0 < iSize dinode) : Own dinode (iBlocks dinode 0) := ⟨0, hsize, rfl⟩

theorem Own.pos {b : ℕ} (h : Own dinode b) : 0 < iSize dinode := by
  obtain ⟨k, hk, -⟩ := h
  omega

theorem own_blocksTo : (∀ b ∈ blocksTo dinode, Own dinode b) ↔
    Own dinode (iBlocks dinode (iSize dinode / 1024)) := by
  constructor
  · intro h
    exact h _ (List.mem_map_of_mem (List.mem_range.mpr (Nat.lt_succ_self _)))
  · intro h b hb
    obtain ⟨k, hk, rfl⟩ := List.mem_map.mp hb
    rw [List.mem_range, uBlkSize] at hk
    by_cases hlast : k = iSize dinode / 1024
    · rw [hlast]
      exact h
    · exact ⟨k, by omega, rfl⟩

theorem pos_of_lookup {i : ℕ} (h : lookup disk dinode name = some i) : 0 < iSize dinode := by
  obtain ⟨e, he, -⟩ := Option.map_eq_some_iff.mp h
  obtain ⟨b, -, hb⟩ := List.mem_flatMap.mp (List.mem_of_find?_eq_some he)
  obtain ⟨k, hk, -⟩ := List.mem_map.mp hb
  have hsize := of_decide_eq_true (List.mem_filter.mp hk).2
  omega

theorem right_iff_suits (hname : 0 ∉ name) : Right disk dinode name ↔ Suits disk dinode name := by
  have hrun : ∀ fuel ≥ iSize dinode / uBlkSize + 2, _ := fun fuel hfuel =>
    searchDir_eq (s := ⟨disk, [], []⟩) hname rfl (show iSize dinode / uBlkSize + 1 < fuel from hfuel)
  simp only at hrun
  rcases hslot : firstSlot (disk (iBlocks dinode 0)) name with _ | k
  · rw [hslot] at hrun
    rw [right_iff_of_search hrun]
    simp only [List.append_nil, List.mem_reverse]
    rw [own_blocksTo]
    constructor
    · rintro ⟨-, hnone, hown, -⟩
      exact .absent hslot (hnone.mp trivial) hown
    · rintro (⟨hslot', -⟩ | ⟨-, hentry, hown⟩ | ⟨hslot', -⟩)
      · exact absurd (hslot.symm.trans hslot') (by simp)
      · exact ⟨fun i hi => absurd (hentry.symm.trans hi) (by simp), iff_of_true trivial hentry, hown,
          trivial⟩
      · exact absurd (hslot.symm.trans hslot') (by simp)
  · rw [hslot] at hrun
    rw [right_iff_of_search hrun]
    simp only [List.mem_singleton, forall_eq]
    constructor
    · rintro ⟨hfirst, hnone, hown, -⟩
      rcases hentry : lookup disk dinode name with _ | i
      · exact .unnumbered hslot hentry hown.pos (hnone.mpr hentry)
      · have hnumber := hfirst i hentry
        refine .found hslot (hentry.trans (congrArg some hnumber.symm)) fun h => ?_
        exact absurd (hentry.symm.trans (hnone.mp h)) (by simp)
    · rintro (⟨hslot', hentry, hnumber⟩ | ⟨hslot', -⟩ | ⟨hslot', hentry, hsize, hnumber⟩)
      · obtain rfl := Option.some.inj (hslot.symm.trans hslot')
        refine ⟨fun i hi => Option.some.inj (hentry.symm.trans hi), ?_, own_first (pos_of_lookup hentry),
          trivial⟩
        exact iff_of_false hnumber fun h => absurd (hentry.symm.trans h) (by simp)
      · exact absurd (hslot.symm.trans hslot') (by simp)
      · obtain rfl := Option.some.inj (hslot.symm.trans hslot')
        exact ⟨fun i hi => absurd (hentry.symm.trans hi) (by simp), iff_of_true hnumber hentry,
          own_first hsize, trivial⟩

/-- **`search_dir` finds exactly the named entry** of the directories that meet the condition, and of no
others. -/
theorem search_right_iff (disk : ℕ → Bytes) (dinode : Bytes) (name : CString) :
    Right disk dinode name.chars ↔ Suits disk dinode name.chars := right_iff_suits name.nonzero

end Right

/-- A disk with the entry `ab` of inode 5 in block 200 and the entry `b` of inode 6 in block 201. -/
def twoEntries (b : ℕ) : Bytes :=
  if b = 200 then storeAll (fun _ => 0) [(0, 4, 5), (4, 1, 97), (5, 1, 98)]
  else if b = 201 then storeAll (fun _ => 0) [(0, 4, 6), (4, 1, 98)]
  else fun _ => 0

/-- A directory with these two blocks, of which the second has one entry. -/
def twoBlocks : Bytes := storeAll (fun _ => 0) [(4, 4, 1044), (40, 4, 200), (44, 4, 201)]

/-- The name `a` is not there, but the search returns the inode of `ab`; and `b`, which is in the second
block, is not found. -/
theorem not_right_twoBlocks :
    ¬ Right twoEntries twoBlocks [97] ∧ ¬ Right twoEntries twoBlocks [98] := by
  have ha : firstSlot (twoEntries (iBlocks twoBlocks 0)) [97] = some 0 ∧
      lookup twoEntries twoBlocks [97] = none ∧
      (slotAt (twoEntries (iBlocks twoBlocks 0)) 0).1 = 5 := by decide +kernel
  have hb : firstSlot (twoEntries (iBlocks twoBlocks 0)) [98] = none ∧
      lookup twoEntries twoBlocks [98] = some 6 := by decide +kernel
  constructor
  · rw [right_iff_suits (by decide)]
    rintro (⟨hslot, hentry, -⟩ | ⟨hslot, -⟩ | ⟨hslot, -, -, hnumber⟩)
    · exact absurd (ha.2.1.symm.trans hentry) (by simp)
    · exact absurd (ha.1.symm.trans hslot) (by simp)
    · obtain rfl := Option.some.inj (ha.1.symm.trans hslot)
      exact absurd (ha.2.2.symm.trans hnumber) (by decide)
  · rw [right_iff_suits (by decide)]
    rintro (⟨hslot, -⟩ | ⟨-, hentry, -⟩ | ⟨hslot, -⟩)
    · exact absurd (hb.1.symm.trans hslot) (by simp)
    · exact absurd (hb.2.symm.trans hentry) (by simp)
    · exact absurd (hb.1.symm.trans hslot) (by simp)

end YegaKernel.Fs.Ufs.SearchDir
