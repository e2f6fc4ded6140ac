import YegaKernel.Fs.BufferSpec

/-! # Delayed and synchronous writes

A buffer is written in two ways: `getblk` flushes a buffer marked `BH_delay` with `disk_write_blk`,
that is to the sectors `2 n` and `2 n + 1`, and `bwrite` writes it with `disk_write`, to the sectors
`n` and `n + 1`. `bread` reads the sector `n` into the first half of a buffer. The three agree for
the block 0, and for no other block of the first `2 ^ 29` (`writesAgree_iff`). -/

namespace YegaKernel.Fs.DelayedWrite

open Lib.Links Lib.Word
open Fs.Disk Fs.Buffer Fs.BufferSpec Function

/-! ### What is claimed -/

/-- The buffer `b` holds the contents `d` of the block `n`. -/
structure Holds (s : Cache) (b n : ℕ) (d : Bytes) : Prop where
  blocknr : (s.heads b).bBlocknr = n
  data : (s.heads b).bData = some d

/-- The disk after one of the two writes of the buffer. -/
def Written (s : Cache) (b : ℕ) (d : Bytes) (disk : Sectors) : Prop :=
  disk = (writeDelayed s b d).disk ∨ ∃ s', bwrite s b = .ok s' ∧ disk = s'.disk

/-- `getblk` gets the buffer `c` for the block `n` without a write to the disk. The buffer is not
dirty, so `bread` reads the block into it, over its contents `old`. -/
structure Gets (fuel : ℕ) (t : Cache) (n c : ℕ) (old : Bytes) (t' : Cache) : Prop where
  getblk : getblk fuel t devNo n = .ok (c, t')
  disk : t'.disk = t.disk
  clean : isFlag (t'.heads c).flags bhDirty = false
  holds : Holds t' c n old

/-- **The two writes of a buffer agree**, whatever is on the disk: they leave the same disk, and
`bread` of the block into another buffer, with the contents `old`, reads back what was written. -/
structure WritesAgree (n : ℕ) (d old : Bytes) : Prop where
  same : ∀ s b s', Holds s b n d → bwrite s b = .ok s' → (writeDelayed s b d).disk = s'.disk
  reads : ∀ s b disk, Holds s b n d → Written s b d disk →
    ∀ fuel t c t', t.disk = disk → c ≠ b → Gets fuel t n c old t' →
      ∃ u data, bread fuel t devNo n = .ok (c, u) ∧ (u.heads c).bData = some data ∧
        ∀ i < bufferSize, data i = d i

/-! ### The sectors written -/

/-- The two halves of a buffer in the sectors `x` and `y`. -/
def putHalves (disk : Sectors) (x y : ℕ) (d : Bytes) : Sectors :=
  update (update disk x (wholeSector d)) y (wholeSector fun i => d (ataSectorSize + i))

theorem putHalves_of_ne {disk : Sectors} {x y z : ℕ} {d : Bytes} (hx : z ≠ x) (hy : z ≠ y) :
    putHalves disk x y d z = disk z := by
  rw [putHalves, update_of_ne hy, update_of_ne hx]

theorem putHalves_first {disk : Sectors} {x y : ℕ} {d : Bytes} (hxy : x ≠ y) :
    putHalves disk x y d x = wholeSector d := by
  rw [putHalves, update_of_ne hxy, update_self]

theorem putHalves_second (disk : Sectors) (x y : ℕ) (d : Bytes) :
    putHalves disk x y d y = wholeSector fun i => d (ataSectorSize + i) := update_self _ _ _

variable {s s' : Cache} {b n : ℕ} {d old : Bytes}

theorem writeDelayed_disk (h : Holds s b n d) : (writeDelayed s b d).disk =
    putHalves s.disk (2 * n % 2 ^ 24) (2 * n % 2 ^ 24 + 1) d := by
  have hfirst : writeSector (u32 (n * sectorsPerBlock + 0)) = 2 * n % 2 ^ 24 := by
    rw [writeSector_eq]; unfold u32 sectorsPerBlock; omega
  have hsecond : writeSector (u32 (n * sectorsPerBlock + 1)) = 2 * n % 2 ^ 24 + 1 := by
    rw [writeSector_eq]; unfold u32 sectorsPerBlock; omega
  change diskWriteBlk s.disk (s.heads b).bBlocknr d = _
  rw [h.blocknr, diskWriteBlk, show List.range sectorsPerBlock = [0, 1] by decide]
  simp only [List.foldl_cons, List.foldl_nil]
  rw [diskWrite_sector, diskWrite_sector, hfirst, hsecond]
  simp only [Nat.mul_zero, Nat.zero_add, Nat.mul_one]
  rfl

theorem bwrite_disk (h : Holds s b n d) : ∃ s', bwrite s b = .ok s' ∧
    s'.disk = putHalves s.disk (n % 2 ^ 24) ((n + 1) % 2 ^ 24) d := by
  have hfirst : writeSector n = n % 2 ^ 24 := writeSector_eq n
  have hsecond : writeSector (u32 (n + 1)) = (n + 1) % 2 ^ 24 := by
    rw [writeSector_eq]; unfold u32; omega
  unfold bwrite
  rw [h.data, h.blocknr]
  refine ⟨_, rfl, ?_⟩
  rw [brelse_disk]
  change diskWrite s.disk n d 1024 = _
  rw [diskWrite_block, hfirst, hsecond]
  rfl

theorem bread_of_gets {fuel c : ℕ} {t t' : Cache} (h : Gets fuel t n c old t') :
    ∃ u, bread fuel t devNo n = .ok (c, u) ∧ (u.heads c).bData = some (diskRead t.disk n old) := by
  unfold bread
  rw [h.getblk]
  simp only [bind, Except.bind, h.clean, h.holds.data, h.holds.blocknr, h.disk]
  refine ⟨_, rfl, ?_⟩
  simp [Cache.updHead]

/-! ### The condition is needed -/

/-- A cache whose buffers all hold `d` as the contents of the block `n`. -/
def holdingCache (n : ℕ) (d : Bytes) (disk : Sectors) : Cache :=
  ⟨fun _ => ⟨0, 0, some d, devNo, n⟩, fun _ => ⟨.null, .null⟩, disk⟩

/-- A cache in which the buffer `c` is free and on the hash chain of the block `n`. -/
def chainedCache (n c : ℕ) (old : Bytes) (disk : Sectors) : Cache :=
  ⟨fun _ => ⟨0, 0, some old, devNo, n⟩,
    fun l => if l = .hash (n % devNo) then ⟨.hashOf c, .hashOf c⟩ else ⟨.free, .free⟩, disk⟩

theorem gets_chainedCache (n c : ℕ) (old : Bytes) (disk : Sectors) :
    ∃ t', Gets 1 (chainedCache n c old disk) n c old t' := by
  have hlt : n % devNo < devNo := Nat.mod_lt _ (by decide)
  have hnext : LinkStore.next (chainedCache n c old disk) (Link.hash (n % devNo)) = .hashOf c := by
    change (if Link.hash (n % devNo) = .hash (n % devNo) then _ else _ : ListHead).next = _
    rw [if_pos rfl]
  have hsearch : searchHash 1 (chainedCache n c old disk) devNo n = .ok (some c) := by
    unfold searchHash
    rw [show hashFn n devNo = .ok (n % devNo) from rfl]
    simp only [bind, Except.bind, hashHead, if_pos hlt]
    rw [hnext, searchFrom, if_neg (by simp)]
    exact if_pos ⟨rfl, rfl⟩
  refine ⟨takeBuffer (chainedCache n c old disk) c, ?_, rfl, ?_, ?_, ?_⟩
  · rw [getblk, getblkLoop_hit hsearch]
    have hunlocked : isFlag 0#16 bhLock = false := by decide
    exact if_neg (by rw [Bool.not_eq_true]; exact hunlocked)
  · have hclean : isFlag (0#16 ||| bhLock) bhDirty = false := by decide
    rw [takeBuffer_heads, if_pos rfl]
    exact hclean
  · rw [takeBuffer_heads, if_pos rfl]
    rfl
  · rw [takeBuffer_heads, if_pos rfl]
    rfl

theorem holds_holdingCache (n : ℕ) (d : Bytes) (disk : Sectors) : Holds (holdingCache n d disk) 0 n d :=
  ⟨rfl, rfl⟩

theorem WritesAgree.diskRead_eq (h : WritesAgree n d old) (disk : Sectors) {disk' : Sectors}
    (hw : Written (holdingCache n d disk) 0 d disk') {i : ℕ} (hi : i < bufferSize) :
    diskRead disk' n old i = d i := by
  obtain ⟨t', hgets⟩ := gets_chainedCache n 1 old disk'
  obtain ⟨u, data, hread, hdata, heq⟩ :=
    h.reads _ 0 disk' (holds_holdingCache n d disk) hw 1 _ 1 t' rfl (by decide) hgets
  obtain ⟨u', hread', hdata'⟩ := bread_of_gets hgets
  obtain rfl : u' = u := by
    have hok := hread'.symm.trans hread
    simpa using hok
  obtain rfl := Option.some.inj (hdata'.symm.trans hdata)
  exact heq i hi

theorem WritesAgree.sector_flushed (h : WritesAgree n d old) :
    n % 2 ^ 29 = 2 * n % 2 ^ 24 ∨ n % 2 ^ 29 = 2 * n % 2 ^ 24 + 1 := by
  obtain ⟨disk, hdisk⟩ := exists_disk (d 0)
  by_contra hnot
  rw [not_or] at hnot
  have hread := h.diskRead_eq disk (i := 0) (Or.inl rfl) (by decide)
  rw [writeDelayed_disk (holds_holdingCache n d disk), diskRead_apply, if_pos (by decide), readSector_eq,
    putHalves_of_ne hnot.1 hnot.2] at hread
  exact hdisk _ hread

theorem WritesAgree.last_sector (h : WritesAgree n d old) : n % 2 ^ 24 ≠ 2 ^ 24 - 1 := by
  intro hn
  obtain ⟨disk, hdisk⟩ := exists_disk (d 512)
  have hholds := holds_holdingCache n d disk
  obtain ⟨s', hs', hd'⟩ := bwrite_disk hholds
  have hsame := congrFun (congrFun (h.same _ 0 s' hholds hs') 0) 0
  -- the second half goes to the sector 0, which the flush leaves alone
  rw [writeDelayed_disk hholds, hd', putHalves_of_ne (by omega) (by omega),
    show (n + 1) % 2 ^ 24 = 0 by omega, putHalves_second] at hsame
  exact hdisk 0 hsame

/-- **Delayed and synchronous writes agree** for the blocks whose number is a multiple of `2 ^ 29`, and
only if the second half of the other buffer holds the right bytes already. -/
theorem writesAgree_iff (n : ℕ) (d old : Bytes) : WritesAgree n d old ↔
    n % 2 ^ 29 = 0 ∧ ∀ i, ataSectorSize ≤ i → i < bufferSize → old i = d i := by
  constructor
  · intro h
    have hn : n % 2 ^ 29 = 0 := by
      have hlast := h.last_sector
      rcases h.sector_flushed with heq | heq <;> omega
    refine ⟨hn, fun i hlo hhi => ?_⟩
    -- `bread` leaves the second half of the buffer alone
    have hread := h.diskRead_eq (fun _ _ => 0) (Or.inl rfl) hhi
    rwa [diskRead_apply, if_neg (by omega)] at hread
  · rintro ⟨hn, htail⟩
    have hdisks : ∀ {s : Cache} {b : ℕ} {disk : Sectors}, Holds s b n d → Written s b d disk →
        disk = putHalves s.disk 0 1 d := by
      intro s b disk hholds hw
      rcases hw with rfl | ⟨s', hs', rfl⟩
      · rw [writeDelayed_disk hholds, show 2 * n % 2 ^ 24 = 0 by omega]
      · obtain ⟨s'', hs'', hd''⟩ := bwrite_disk hholds
        obtain rfl : s'' = s' := by simpa using hs''.symm.trans hs'
        rw [hd'', show n % 2 ^ 24 = 0 by omega, show (n + 1) % 2 ^ 24 = 1 by omega]
    refine ⟨fun s b s' hholds hs' => ?_, fun s b disk hholds hw fuel t c t' ht _ hgets => ?_⟩
    · rw [hdisks hholds (Or.inl rfl), hdisks hholds (Or.inr ⟨s', hs', rfl⟩)]
    · obtain ⟨u, hread, hdata⟩ := bread_of_gets hgets
      refine ⟨u, _, hread, hdata, fun i hi => ?_⟩
      rw [diskRead_apply]
      split_ifs with hlt
      · rw [ht, hdisks hholds hw, readSector_eq, hn, putHalves_first (by decide)]
        exact if_pos hlt
      · exact htail i (by omega) hi

/-- For the block 1 they do not agree, although the other buffer holds the same bytes: the flush
writes the sectors 2 and 3, `bwrite` the sectors 1 and 2, and `bread` reads the sector 1. -/
theorem not_writesAgree_block_1 : ¬ WritesAgree 1 (fun _ => 7) fun _ => 7 :=
  fun h => absurd h.sector_flushed (by decide)

end YegaKernel.Fs.DelayedWrite
