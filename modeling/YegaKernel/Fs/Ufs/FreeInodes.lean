import YegaKernel.Fs.Ufs.Model

/-! # The list of free inodes

`fill_free_inode_list` goes through the blocks of the inode table and puts the numbers of free inodes
on the list of the superblock, until the list is full or the table ends (`fillFreeInodeList_spec`).

The record that `super` points to is apart from the buffers that are read; `s_next_free_inode` is the
word it is in memory, -1 as `2 ^ 32 - 1`. An index beyond the list is a fault. The local
`list_fill_size` is computed and never used. -/

namespace YegaKernel.Fs.Ufs.FreeInodes

open Lib.Bytes Lib.Loops Lib.Word
open Fs.Disk (Bytes)
open Fs.Buffer (Fault bufferSize devNo)
open Fs.Ufs.Model

/-! ### The code -/

/-- `s_free_inodes[i]`. -/
def sFreeInodes (super : Bytes) (i : ℕ) : ℕ := load super (16 + 4 * i) 4

def sNextFreeInode (super : Bytes) : ℕ := load super 216 4

def sRememberedInode (super : Bytes) : ℕ := load super 220 4

/-- A number is put on the list. -/
def listInode (super : Bytes) (iFreeCnt ino : ℕ) : Except Fault Bytes :=
  if iFreeCnt < freeInodeList then
    let super := store super (16 + 4 * iFreeCnt) 4 ino
    .ok (store super 216 4 (u32 (sNextFreeInode super + 1)))
  else .error .wildPointer

/-- The inner loop, over the last `dCnt` inodes of a block; the flag says that the list is full. -/
def scanInodes (data : Bytes) : ℕ → Bytes → ℕ → Except Fault (Bytes × ℕ × Bool)
  | 0, super, iFreeCnt => .ok (super, iFreeCnt, false)
  | dCnt + 1, super, iFreeCnt => do
    let dinode := view data (dinodeSize * (inodesPerBlock - (dCnt + 1)))
    let (super, iFreeCnt) ← if iMode dinode = 0
      then (listInode super iFreeCnt (iNo dinode)).map fun super => (super, iFreeCnt + 1)
      else .ok (super, iFreeCnt)
    if iFreeCnt = freeInodeList then
      .ok (store super 220 4 (u32 (iNo dinode + 1)), iFreeCnt, true)
    else scanInodes data dCnt super iFreeCnt

section Functions
variable {σ : Type} (ops : BufferOps σ)

/-- The outer loop, at the block `dilbStart`. -/
def fillLoop (dilbEnd : ℕ) : ℕ → ℕ → Bytes → ℕ → σ → Except Fault (Bytes × σ)
  | 0, _, _, _, _ => .error .spinning
  | fuel + 1, dilbStart, super, iFreeCnt, s =>
    if dilbStart ≤ dilbEnd then do
      let (bh, s) ← ops.bread s dilbStart
      let (super, iFreeCnt, bFlag) ← scanInodes (ops.data s bh) inodesPerBlock super iFreeCnt
      let s := ops.brelse s bh
      if bFlag then .ok (super, s)
      else fillLoop dilbEnd fuel (u32 (dilbStart + 1)) super iFreeCnt s
    else .ok (super, s)

/-- **`fill_free_inode_list`**: the superblock and the buffers afterwards. -/
def fillFreeInodeList (fuel : ℕ) (super : Bytes) (s : σ) : Except Fault (Bytes × σ) :=
  fillLoop ops (sBlkDilbEnd super) fuel (sBlkDilbStart super) super 0 s

end Functions

/-! ### The list -/

/-- The numbers `f` are on the list, and nothing else has changed. -/
structure Listed (super super' : Bytes) (f : List ℕ) : Prop where
  entries : (List.range f.length).map (sFreeInodes super') = f
  next : sNextFreeInode super' = sub32 f.length 1
  frame : ∀ i, i < 16 ∨ 16 + 4 * f.length ≤ i → i < 216 ∨ 220 ≤ i → super' i = super i

variable {super super' : Bytes} {f : List ℕ}

theorem Listed.nil (h : sNextFreeInode super = 2 ^ 32 - 1) : Listed super super [] :=
  ⟨rfl, h, fun _ _ _ => rfl⟩

theorem Listed.listInode (h : Listed super super' f) (hlen : f.length < freeInodeList) {v : ℕ}
    (hv : v < 2 ^ 32) : ∃ super'', listInode super' f.length v = .ok super'' ∧
      Listed super super'' (f ++ [v]) := by
  unfold freeInodeList at hlen
  have hnext : sNextFreeInode (store super' (16 + 4 * f.length) 4 v) = sub32 f.length 1 :=
    (load_store_apart (by omega)).trans h.next
  unfold FreeInodes.listInode
  simp only [freeInodeList, if_pos hlen, hnext]
  refine ⟨_, rfl, ?_, ?_, fun i h1 h2 => ?_⟩
  · rw [List.length_append, List.length_singleton, List.range_succ, List.map_append, List.map_singleton]
    congr 1
    · conv_rhs => rw [← h.entries]
      refine List.map_congr_left fun i hi => ?_
      have hlt := List.mem_range.mp hi
      exact (load_store_apart (by omega)).trans (load_store_apart (by omega))
    · have hentry : sFreeInodes (store (store super' (16 + 4 * f.length) 4 v) 216 4
          (u32 (sub32 f.length 1 + 1))) f.length = v :=
        (load_store_apart (by omega)).trans (load_store_of_lt hv)
      rw [hentry]
  · rw [List.length_append, List.length_singleton, sNextFreeInode, load_store]
    unfold u32 sub32
    omega
  · rw [List.length_append, List.length_singleton] at h1
    exact (copy_of_not_mem (by omega)).trans ((copy_of_not_mem (by omega)).trans
      (h.frame i (by omega) h2))

/-! ### The table

`table n` is block `n` as it is on the disk, and `start` the first block of the table. -/

section Table
variable (table : ℕ → Bytes) (start : ℕ)

/-- The inode in place `q` of the table. -/
def dinodeAt (q : ℕ) : Bytes :=
  view (table (start + q / inodesPerBlock)) (dinodeSize * (q % inodesPerBlock))

/-- The places of the free inodes among the first `n` of the table, in table order. -/
def freeBelow (n : ℕ) : List ℕ := (List.range n).filter fun q => iMode (dinodeAt table start q) = 0

theorem freeBelow_add (n m : ℕ) :
    ∃ rest, freeBelow table start (n + m) = freeBelow table start n ++ rest :=
  ⟨_, by rw [freeBelow, List.range_add, List.filter_append]; rfl⟩

theorem pairwise_freeBelow (n : ℕ) : (freeBelow table start n).Pairwise (· < ·) :=
  List.pairwise_lt_range.filter _

variable {table start} {n m : ℕ}

theorem freeBelow_succ_free (h : iMode (dinodeAt table start n) = 0) :
    freeBelow table start (n + 1) = freeBelow table start n ++ [n] := by
  rw [freeBelow, List.range_succ, List.filter_append, List.filter_singleton, decide_eq_true h]
  rfl

theorem freeBelow_succ_used (h : iMode (dinodeAt table start n) ≠ 0) :
    freeBelow table start (n + 1) = freeBelow table start n := by
  rw [freeBelow, List.range_succ, List.filter_append, List.filter_singleton, decide_eq_false h]
  exact List.append_nil _

theorem take_freeBelow (h : (freeBelow table start n).length = freeInodeList) (hle : n ≤ m) :
    (freeBelow table start m).take freeInodeList = freeBelow table start n := by
  obtain ⟨d, rfl⟩ := Nat.exists_eq_add_of_le hle
  obtain ⟨rest, hrest⟩ := freeBelow_add table start n d
  rw [hrest, ← h, List.take_left]

end Table

/-! ### The loops -/

/-- The list is full with the inode in place `q`, and the next place is remembered. -/
def Full (table : ℕ → Bytes) (start : ℕ) (super super' : Bytes) (q : ℕ) : Prop :=
  ∃ f before, freeBelow table start (q + 1) = f ++ [q] ∧ f.length + 1 = freeInodeList ∧
    Listed super before (f ++ [q]) ∧ super' = store before 220 4 (u32 (q + 1))

/-- The inodes of a buffer are those of block `m` of the table, each with its own number. -/
structure IsBlock (table : ℕ → Bytes) (start m : ℕ) (data : Bytes) : Prop where
  mode : ∀ j < inodesPerBlock, iMode (view data (dinodeSize * j)) =
    iMode (dinodeAt table start (inodesPerBlock * m + j))
  number : ∀ j < inodesPerBlock, iNo (view data (dinodeSize * j)) = inodesPerBlock * m + j

theorem iNo_lt (data : Bytes) : iNo data < 2 ^ 32 := load_lt data _ _

section Loops
variable {table : ℕ → Bytes} {start m : ℕ} {data : Bytes}

/-- **The inner loop** reaches the end of the block, or fills the list inside it. -/
theorem scanInodes_spec (hblock : IsBlock table start m data) : ∀ (dCnt : ℕ) (super' : Bytes),
    dCnt ≤ inodesPerBlock →
    (freeBelow table start (inodesPerBlock * (m + 1) - dCnt)).length < freeInodeList →
    Listed super super' (freeBelow table start (inodesPerBlock * (m + 1) - dCnt)) →
    ∃ super'' cnt full,
      scanInodes data dCnt super'
        (freeBelow table start (inodesPerBlock * (m + 1) - dCnt)).length = .ok (super'', cnt, full) ∧
      (full = false ∧ cnt = (freeBelow table start (inodesPerBlock * (m + 1))).length ∧
        cnt < freeInodeList ∧ Listed super super'' (freeBelow table start (inodesPerBlock * (m + 1))) ∨
      full = true ∧ ∃ q < inodesPerBlock * (m + 1), Full table start super super'' q)
  | 0, super', _, hlt, hl => ⟨super', _, false, rfl, .inl ⟨rfl, rfl, hlt, hl⟩⟩
  | dCnt + 1, super', hd, hlt, hl => by
    have hper : inodesPerBlock = 8 := rfl
    have hj : inodesPerBlock - (dCnt + 1) < inodesPerBlock := by omega
    have hplace : inodesPerBlock * m + (inodesPerBlock - (dCnt + 1)) =
        inodesPerBlock * (m + 1) - (dCnt + 1) := by
      rw [hper] at hd ⊢
      omega
    have hsucc : inodesPerBlock * (m + 1) - dCnt = inodesPerBlock * (m + 1) - (dCnt + 1) + 1 := by
      rw [hper] at hd ⊢
      omega
    have hmode := hblock.mode _ hj
    have hno := hblock.number _ hj
    rw [hplace] at hmode hno
    have ih := fun super' => scanInodes_spec hblock dCnt super' (by omega)
    rw [hsucc] at ih
    generalize inodesPerBlock * (m + 1) - (dCnt + 1) = q at *
    have hv : q < 2 ^ 32 := hno ▸ iNo_lt _
    rw [scanInodes, hmode, hno]
    by_cases hfree : iMode (dinodeAt table start q) = 0
    · obtain ⟨super₁, hok, hl₁⟩ := hl.listInode hlt hv
      have hf := freeBelow_succ_free hfree
      have hlen : (freeBelow table start (q + 1)).length = (freeBelow table start q).length + 1 := by
        rw [hf, List.length_append, List.length_singleton]
      rw [if_pos hfree, hok]
      by_cases hfull : (freeBelow table start q).length + 1 = freeInodeList
      · refine ⟨_, _, true, if_pos hfull, .inr ⟨rfl, q, ?_, _, super₁, hf, hfull, hl₁, rfl⟩⟩
        omega
      · obtain ⟨super₂, cnt, full, hscan, hcases⟩ := ih super₁ (by omega) (hf ▸ hl₁)
        exact ⟨super₂, cnt, full, (if_neg hfull).trans (hlen ▸ hscan), hcases⟩
    · have hf := freeBelow_succ_used hfree
      rw [hf] at ih
      obtain ⟨super₂, cnt, full, hscan, hcases⟩ := ih super' hlt hl
      rw [if_neg hfree]
      exact ⟨super₂, cnt, full, (if_neg (Nat.ne_of_lt hlt)).trans hscan, hcases⟩

end Loops

/-! ### The buffers -/

section Buffers
variable {σ : Type} (ops : BufferOps σ)

/-- **`bread` returns the blocks of the table**, in every state of the buffers that is reached from one
with `I` by reading and releasing. -/
structure Serves (table : ℕ → Bytes) (start stop : ℕ) (I : σ → Prop) : Prop where
  bread : ∀ s n, I s → start ≤ n → n ≤ stop → ∃ bh s', ops.bread s n = .ok (bh, s') ∧
    Agree bufferSize (ops.data s' bh) (table n) ∧ I (ops.brelse s' bh)

/-- A block is read and its buffer released. -/
def readAndRelease (s : σ) (n : ℕ) : σ :=
  match ops.bread s n with
  | .ok (bh, s') => ops.brelse s' bh
  | .error _ => s

variable {ops} {table : ℕ → Bytes} {start stop : ℕ} {I : σ → Prop}

theorem dinodeAt_block (table : ℕ → Bytes) (start m : ℕ) {j : ℕ} (hj : j < inodesPerBlock) :
    dinodeAt table start (inodesPerBlock * m + j) = view (table (start + m)) (dinodeSize * j) := by
  rw [dinodeAt, Nat.mul_add_div (by decide), Nat.div_eq_of_lt hj, Nat.add_zero, Nat.mul_add_mod,
    Nat.mod_eq_of_lt hj]

theorem isBlock_of_agree {m : ℕ} {data : Bytes} (h : Agree bufferSize data (table (start + m)))
    (hno : ∀ j < inodesPerBlock, iNo (dinodeAt table start (inodesPerBlock * m + j)) =
      inodesPerBlock * m + j) : IsBlock table start m data := by
  have hword : ∀ j < inodesPerBlock, ∀ off w, off + w ≤ dinodeSize →
      load (view data (dinodeSize * j)) off w =
        load (dinodeAt table start (inodesPerBlock * m + j)) off w := by
    intro j hj off w hle
    have hper : inodesPerBlock = 8 := rfl
    rw [dinodeAt_block table start m hj, load_view, load_view]
    refine h.load_eq ?_
    unfold bufferSize
    unfold dinodeSize at hle ⊢
    omega
  exact ⟨fun j hj => hword j hj _ _ (by decide), fun j hj => (hword j hj _ _ (by decide)).trans (hno j hj)⟩

/-- **The outer loop**, from block `m` of the table on. -/
theorem fillLoop_spec (hserves : Serves ops table start stop I) (hstop : stop + 1 < 2 ^ 32)
    (hno : ∀ q < inodesPerBlock * (stop + 1 - start), iNo (dinodeAt table start q) = q) :
    ∀ (fuel m : ℕ) (super' : Bytes) (s : σ), I s → m ≤ stop + 1 - start → stop + 1 - start - m < fuel →
    (freeBelow table start (inodesPerBlock * m)).length < freeInodeList →
    Listed super super' (freeBelow table start (inodesPerBlock * m)) →
    ∃ super'' r,
      fillLoop ops stop fuel (start + m) super' (freeBelow table start (inodesPerBlock * m)).length s =
        .ok (super'', (List.range' (start + m) r).foldl (readAndRelease ops) s) ∧
      ((freeBelow table start (inodesPerBlock * (stop + 1 - start))).length < freeInodeList ∧
        Listed super super'' (freeBelow table start (inodesPerBlock * (stop + 1 - start))) ∨
      ∃ q < inodesPerBlock * (stop + 1 - start), Full table start super super'' q)
  | 0, _, _, _, _, _, hfuel, _, _ => absurd hfuel (Nat.not_lt_zero _)
  | fuel + 1, m, super', s, hI, hm, hfuel, hlt, hl => by
    rw [fillLoop]
    by_cases hmore : start + m ≤ stop
    · obtain ⟨bh, s', hbread, hagree, hI'⟩ := hserves.bread s _ hI (by omega) hmore
      have hmul : inodesPerBlock * (m + 1) ≤ inodesPerBlock * (stop + 1 - start) :=
        Nat.mul_le_mul_left _ (by omega)
      have hblock : IsBlock table start m (ops.data s' bh) :=
        isBlock_of_agree hagree fun j hj => hno _ (by rw [Nat.mul_add] at hmul; omega)
      have hread : readAndRelease ops s (start + m) = ops.brelse s' bh := by
        rw [readAndRelease, hbread]
      have hfirst : inodesPerBlock * (m + 1) - inodesPerBlock = inodesPerBlock * m := by
        rw [Nat.mul_add, Nat.mul_one, Nat.add_sub_cancel]
      have hscan := @scanInodes_spec super _ _ _ _ hblock inodesPerBlock super' le_rfl
      rw [hfirst] at hscan
      obtain ⟨super₁, cnt, full, hscan, ⟨rfl, rfl, hlt₁, hl₁⟩ | ⟨rfl, q, hq, hfull⟩⟩ := hscan hlt hl
      · obtain ⟨super₂, r, hloop, hcases⟩ := fillLoop_spec hserves hstop hno fuel (m + 1) super₁
          (ops.brelse s' bh) hI' (by omega) (by omega) hlt₁ hl₁
        refine ⟨super₂, r + 1, ?_, hcases⟩
        have hnext : u32 (start + m + 1) = start + (m + 1) := Nat.mod_eq_of_lt (by omega)
        rw [if_pos hmore, List.range'_succ, List.foldl_cons, hread, hbread]
        simp only [bind, Except.bind, hscan, hnext]
        exact hloop
      · refine ⟨super₁, 1, ?_, .inr ⟨q, by omega, hfull⟩⟩
        rw [if_pos hmore, List.range'_one, List.foldl_cons, List.foldl_nil, hread, hbread]
        simp only [bind, Except.bind, hscan, if_true]
    · obtain rfl : m = stop + 1 - start := by omega
      exact ⟨super', 0, if_neg hmore, .inl ⟨hlt, hl⟩⟩

end Buffers

/-! ### The function -/

/-- **The first `k` free inodes are on the list**, `k` at most the size of the list: `free` are the free
inodes of the table in order. -/
structure Filled (super super' : Bytes) (free : List ℕ) (k : ℕ) : Prop where
  entries : (List.range k).map (sFreeInodes super') = free.take k
  increasing : ((List.range k).map (sFreeInodes super')).Pairwise (· < ·)
  next : sNextFreeInode super' = sub32 k 1
  remembered : k = freeInodeList → sRememberedInode super' = u32 (sFreeInodes super' (k - 1) + 1)
  /-- Nothing else is written: no entry from `k` on, and the place to go on only for a full list. -/
  frame : ∀ i, i < 16 ∨ 16 + 4 * k ≤ i → i < 216 ∨ 220 ≤ i →
    (i < 220 ∨ 224 ≤ i ∨ k < freeInodeList) → super' i = super i

theorem Listed.filled {free : List ℕ} (h : Listed super super' free) (hinc : free.Pairwise (· < ·))
    (hlt : free.length < freeInodeList) : Filled super super' free free.length := by
  refine ⟨h.entries.trans (List.take_length).symm, h.entries.symm ▸ hinc, h.next,
    fun heq => absurd heq (Nat.ne_of_lt hlt), fun i h1 h2 _ => h.frame i h1 h2⟩

theorem Full.filled {table : ℕ → Bytes} {start q n : ℕ} (h : Full table start super super' q)
    (hq : q < n) : freeInodeList ≤ (freeBelow table start n).length ∧
      Filled super super' (freeBelow table start n) freeInodeList := by
  obtain ⟨f, before, hf, hlen, hl, rfl⟩ := h
  have hfull : (f ++ [q]).length = freeInodeList := by
    rw [List.length_append, List.length_singleton, hlen]
  have htake := take_freeBelow (m := n) (hf ▸ hfull) hq
  have hentries := hl.entries
  rw [hfull] at hentries
  -- the store at `s_remembered_inode` is behind the list
  have hsame : ∀ i < freeInodeList,
      sFreeInodes (store before 220 4 (u32 (q + 1))) i = sFreeInodes before i := by
    intro i hi
    unfold freeInodeList at hi
    exact load_store_apart (by omega)
  have hmap : (List.range freeInodeList).map (sFreeInodes (store before 220 4 (u32 (q + 1)))) =
      f ++ [q] :=
    (List.map_congr_left fun i hi => hsame i (List.mem_range.mp hi)).trans hentries
  have hlast : sFreeInodes before (freeInodeList - 1) = q := by
    rw [show freeInodeList = freeInodeList - 1 + 1 from rfl, List.range_succ, List.map_append,
      List.map_singleton] at hentries
    exact List.singleton_inj.mp (List.append_inj' hentries rfl).2
  refine ⟨?_, hmap.trans (hf ▸ htake).symm, ?_, ?_, fun _ => ?_, fun i h1 h2 h3 => ?_⟩
  · rw [← hfull, ← hf, ← take_freeBelow (m := n) (hf ▸ hfull) hq]
    exact List.length_take_le' _ _
  · rw [hmap, ← hf]
    exact pairwise_freeBelow table start (q + 1)
  · exact (load_store_apart (by omega)).trans (hfull ▸ hl.next)
  · rw [hsame _ (by decide), hlast]
    exact load_store_of_lt (Nat.mod_lt _ (by decide))
  · exact (copy_of_not_mem (by omega)).trans (hl.frame i (by omega) h2)

/-- The number of inodes in the table of the file system. -/
def tableInodes (super : Bytes) : ℕ := inodesPerBlock * (sBlkDilbEnd super + 1 - sBlkDilbStart super)

/-- **`fill_free_inode_list` collects the first free inodes.** The blocks of the table are read in order
and each buffer is released; `r` is the number of the blocks that are read. -/
theorem fillFreeInodeList_spec {σ : Type} (ops : BufferOps σ) (table : ℕ → Bytes) (I : σ → Prop)
    (super : Bytes) (s : σ) (fuel : ℕ)
    (hserves : Serves ops table (sBlkDilbStart super) (sBlkDilbEnd super) I) (hI : I s)
    (hno : ∀ q < tableInodes super, iNo (dinodeAt table (sBlkDilbStart super) q) = q)
    (hnext : sNextFreeInode super = 2 ^ 32 - 1) (hstop : sBlkDilbEnd super + 1 < 2 ^ 32)
    (hfuel : sBlkDilbEnd super + 1 - sBlkDilbStart super < fuel) :
    ∃ super' r, fillFreeInodeList ops fuel super s =
        .ok (super', (List.range' (sBlkDilbStart super) r).foldl (readAndRelease ops) s) ∧
      Filled super super' (freeBelow table (sBlkDilbStart super) (tableInodes super))
        (min freeInodeList (freeBelow table (sBlkDilbStart super) (tableInodes super)).length) := by
  obtain ⟨super', r, hloop, hcases⟩ := fillLoop_spec hserves hstop hno fuel 0 super s hI
    (Nat.zero_le _) hfuel (show 0 < freeInodeList by decide) (Listed.nil hnext)
  refine ⟨super', r, hloop, ?_⟩
  rcases hcases with ⟨hlt, hl⟩ | ⟨q, hq, hfull⟩
  · rw [tableInodes, Nat.min_eq_right (Nat.le_of_lt hlt)]
    exact hl.filled (pairwise_freeBelow _ _ _) hlt
  · obtain ⟨hle, hfilled⟩ := hfull.filled hq
    rw [tableInodes, Nat.min_eq_left hle]
    exact hfilled

/-- The superblock of a file system of 1 MiB, with an empty list. -/
def emptyList : Bytes := store (makeSuper 1 fun _ => 0) 216 4 (2 ^ 32 - 1)

/-- The table as `mkufs` writes it. -/
def formatted (n : ℕ) : Bytes := initInodes (inodesPerBlock * (n - 2)) n fun _ => 0

theorem serves_formatted : Serves storeOps formatted 2 33 fun s => s.disk = formatted where
  bread s n hI _ _ := by
    refine ⟨n, _, rfl, ?_, hI⟩
    simp only [storeOps, Function.update_self, hI]
    exact Agree.refl _ _

theorem iNo_formatted {q : ℕ} (hq : q < 256) : iNo (dinodeAt formatted 2 q) = q := by
  have hfresh := fresh_initInodes (inodesPerBlock * (2 + q / inodesPerBlock - 2)) (2 + q / inodesPerBlock)
    (fun _ => 0) (Nat.mod_lt q (by decide : 0 < inodesPerBlock))
  rw [Nat.add_sub_cancel_left, Nat.div_add_mod] at hfresh
  have hno := hfresh (100, 4, q) (by simp [dinodeFields])
  rw [dinodeAt, formatted, Nat.add_sub_cancel_left]
  exact hno.trans (Nat.mod_eq_of_lt (by norm_num; omega))

/-- All 256 inodes of the table are free, and the first 50 are on the list. -/
theorem fillFreeInodeList_formatted : ∃ super' r,
    fillFreeInodeList storeOps 33 emptyList ⟨formatted, fun _ _ => 0, []⟩ =
      .ok (super', (List.range' (sBlkDilbStart emptyList) r).foldl (readAndRelease storeOps)
        ⟨formatted, fun _ _ => 0, []⟩) ∧
    Filled emptyList super' (freeBelow formatted (sBlkDilbStart emptyList) (tableInodes emptyList))
      (min freeInodeList
        (freeBelow formatted (sBlkDilbStart emptyList) (tableInodes emptyList)).length) := by
  have hstart : sBlkDilbStart emptyList = 2 := by decide +kernel
  have hend : sBlkDilbEnd emptyList = 33 := by decide +kernel
  have htable : tableInodes emptyList = 256 := by rw [tableInodes, hstart, hend]; rfl
  refine fillFreeInodeList_spec storeOps formatted (fun s => s.disk = formatted) emptyList
    ⟨formatted, fun _ _ => 0, []⟩ 33 ?_ rfl (fun q hq => ?_) (by decide +kernel) ?_ ?_
  · rw [hstart, hend]
    exact serves_formatted
  · rw [hstart]
    exact iNo_formatted (htable ▸ hq)
  · rw [hend]
    decide
  · rw [hstart, hend]
    decide

end YegaKernel.Fs.Ufs.FreeInodes
