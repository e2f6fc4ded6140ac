import YegaKernel.Fs.BufferPoolRun
import YegaKernel.Fs.Ext2.Directory

/-! # The buffers that the ext2 helpers lock

`get_inode`, `indirect_block`, `get_file_block`, `set_i_block`, `write_block_at`,
`write_inode_table`, `chdir` and `ls` once more, now over the pool of buffers: each block they read
is in a buffer that `bread` locks, and only `bwrite` and `brelse` unlock it.

The helpers that write call `bwrite`. Those that read return the data, or what they found in it, and
leave the buffer locked; `chdir` and `ls` also pass its storage to `kfree`. `released_iff` says
which calls leave all buffers as they should be, and `bread_spins` what happens to the others'
blocks. -/

namespace YegaKernel.Fs.Ext2.Locks

open Lib.Bytes Lib.Word Lib.Strings Lib.Loops Function
open Fs.Disk (Bytes)
open Fs.Buffer (Fault devNo bhLock bhDirty bhDelay isFlag)
open Fs.BufferSpec (isFlag_or_bit isFlag_clear_bit)
open Fs.BufferPool
open Fs.Ext2.Layout
open Fs.Ext2.BlockMap (dirBlkLen indBlkLen dblIndBlkLen iBlock charBlock)
open Fs.Ext2.Directory (Handle iBlockLen dInode search slots)

/-- **The mounted file system**: the globals of `fs.c`, the buffers, and the buffers whose storage
was passed to `kfree`. -/
structure Kernel where
  super : Bytes
  bgdt : Bytes
  pool : Pool
  freed : List ℕ

/-- `EXT2_ROOT_INO`. -/
def rootIno : ℕ := 2

section Helpers
variable (n fuel : ℕ)

/-- `bread`, with the data of the buffer. -/
def bread (s : Kernel) (blocknr : ℕ) : Except Fault (ℕ × Bytes × Kernel) := do
  let (b, p) ← BufferPool.bread n fuel s.pool devNo blocknr
  match (p.heads b).bData with
  | some data => return (b, data, { s with pool := p })
  | none => .error .nullPointer

/-- `bwrite` of a buffer with new data. -/
def bwrite (s : Kernel) (b : ℕ) (data : Bytes) : Except Fault Kernel := do
  let p ← BufferPool.bwrite (s.pool.updHead b fun bh => { bh with bData := some data }) b
  return { s with pool := p }

/-- `bgdt[g]`. -/
def desc (s : Kernel) (g : ℕ) : Except Fault Bytes :=
  if g < bgdtLen then .ok (view s.bgdt (bgdescSize * g)) else .error .wildPointer

def getInode (s : Kernel) (inodeN : ℕ) : Except Fault (Bytes × Kernel) :=
  let index := sub32 inodeN 1
  if sInodesPerGroup s.super = 0 then .error .divideByZero
  else do
    let bgdtN := index / sInodesPerGroup s.super % 2 ^ 16
    let inodeOffset := index % sInodesPerGroup s.super
    let d ← desc s bgdtN
    let inodesPerBlk := blkSize / inodeSize
    let inodeBlkN := (bgInodeTable d + inodeOffset / inodesPerBlk) % 2 ^ 16
    let inodeBlkOffset := inodeOffset % inodesPerBlk % 2 ^ 16
    let (_, data, s) ← bread n fuel s inodeBlkN
    return (view data inodeBlkOffset, s)

def indirectBlock (s : Kernel) (file : Bytes) (i : ℕ) : Except Fault (ℕ × Kernel) :=
  if i < dirBlkLen then .ok (iBlock file i, s)
  else if i < dirBlkLen + indBlkLen then do
    let (_, data, s) ← bread n fuel s (iBlock file 12)
    return (load data ((i - dirBlkLen) % 2 ^ 16) 4, s)
  else if i < dirBlkLen + indBlkLen + dblIndBlkLen then do
    let (_, data, s) ← bread n fuel s (iBlock file 13)
    let j := i - dirBlkLen - indBlkLen
    let (_, _, s) ← bread n fuel s (charBlock (data (j / indBlkLen)))
    return (load data (j % indBlkLen) 4, s)
  else .ok (0, s)

/-- `get_file_block`, with the buffer whose data it returns. -/
def getFileBlock (s : Kernel) (file : Handle) (i : ℕ) : Except Fault (ℕ × Bytes × Kernel) := do
  let (blockN, s) ← indirectBlock n fuel s file.inode i
  bread n fuel s blockN

def writeInodeTable (s : Kernel) (inodeN : ℕ) (newInode : Bytes) : Except Fault Kernel :=
  let index := sub32 inodeN 1
  if sInodesPerGroup s.super = 0 then .error .divideByZero
  else do
    let blockGroupN := index / sInodesPerGroup s.super % 2 ^ 16
    let bgOffset := index % sInodesPerGroup s.super % 2 ^ 16
    let blockOffset := bgOffset * inodeSize / blkSize % 2 ^ 16
    let inBlockOffset := bgOffset * inodeSize % blkSize % 2 ^ 16
    let d ← desc s blockGroupN
    let (b, data, s) ← bread n fuel s (u32 (bgInodeTable d + blockOffset))
    bwrite s b (copy data inBlockOffset inodeSize newInode)

def setIBlock (s : Kernel) (file : Bytes) (inodeN i blockn : ℕ) : Except Fault Kernel :=
  if i < dirBlkLen then writeInodeTable n fuel s inodeN (store file (40 + 4 * i) 4 blockn)
  else if i < dirBlkLen + indBlkLen then do
    let (b, data, s) ← bread n fuel s (iBlock file 12)
    bwrite s b (store data ((i - dirBlkLen) % 2 ^ 16) 4 blockn)
  else if i < dirBlkLen + indBlkLen + dblIndBlkLen then
    -- this level goes to the disk directly
    let blocks := s.pool.disk (iBlock file 13)
    let j := i - dirBlkLen - indBlkLen
    if j / indBlkLen < indBlkLen then
      let updateLocation := load blocks (4 * (j / indBlkLen)) 4
      let blocks := store (s.pool.disk updateLocation) (4 * (j % indBlkLen)) 4 blockn
      .ok { s with pool := { s.pool with disk := update s.pool.disk updateLocation blocks } }
    else .error .wildPointer
  else .ok s

/-- `write_block_at`; what does not fit into the block is not written. -/
def writeBlockAt (s : Kernel) (block offset : ℕ) (chunk : Bytes) (len : ℕ) : Except Fault Kernel :=
  if offset + len > blkSize then .ok s
  else do
    let (b, data, s) ← bread n fuel s block
    bwrite s b (copy data offset len chunk)

/-- The loop of `chdir` over the blocks of the directory, from block `i` on. -/
def chdirFrom (dir : Handle) (name : CString) :
    (left i : ℕ) → Kernel → Except Fault (Option Handle × Kernel)
  | 0, _, s => .ok (none, s)
  | left + 1, i, s => do
    let (b, data, s) ← getFileBlock n fuel s dir i
    match search name (slots data) with
    | none => .error .wildPointer
    | some (some d) =>
      let (inode, s) ← getInode n fuel s (dInode d)
      return (some { inode := inode, inodeN := dInode d }, s)
    | some none => chdirFrom dir name left (i + 1) { s with freed := b :: s.freed }

def chdir (s : Kernel) (currentDir : Handle) (name : CString) : Except Fault (Option Handle × Kernel) :=
  chdirFrom n fuel currentDir name (iBlockLen currentDir.inode) 0 s

def getRootDir (s : Kernel) : Except Fault (Handle × Kernel) := do
  let (inode, s) ← getInode n fuel s rootIno
  return ({ inode := inode, inodeN := rootIno }, s)

/-- `chdir` from directory to directory; a name that is not found leaves the handle
uninitialised. -/
def chdirAll : List CString → Handle → Kernel → Except Fault (Handle × Kernel)
  | [], dir, s => .ok (dir, s)
  | name :: names, dir, s => do
    match ← chdir n fuel s dir name with
    | (some next, s) => chdirAll names next s
    | (none, _) => .error .wildPointer

/-- The loop of `ls`, from block `i` on. -/
def lsFrom (dir : Handle) : (left i : ℕ) → Kernel → Except Fault Kernel
  | 0, _, s => .ok s
  | left + 1, i, s => do
    let (b, _, s) ← getFileBlock n fuel s dir i
    lsFrom dir left (i + 1) { s with freed := b :: s.freed }

/-- `ls` of an absolute path, given by its components. -/
def ls (s : Kernel) (path : List CString) : Except Fault Kernel := do
  let (root, s) ← getRootDir n fuel s
  let (leafDir, s) ← chdirAll n fuel path root s
  lsFrom n fuel leafDir (iBlockLen leafDir.inode) 0 s

end Helpers

/-! ### Calls, and which of them release what they lock -/

/-- A call of one of the helpers. -/
inductive Call
  | getInode (inodeN : ℕ)
  | indirectBlock (file : Bytes) (i : ℕ)
  | getFileBlock (file : Handle) (i : ℕ)
  | setIBlock (file : Bytes) (inodeN i blockn : ℕ)
  | writeBlockAt (block offset : ℕ) (chunk : Bytes) (len : ℕ)
  | writeInodeTable (inodeN : ℕ) (newInode : Bytes)
  | chdir (dir : Handle) (name : CString)
  | ls (path : List CString)

/-- The state after the call. -/
def exec (n fuel : ℕ) (s : Kernel) : Call → Except Fault Kernel
  | .getInode inodeN => do return (← getInode n fuel s inodeN).2
  | .indirectBlock file i => do return (← indirectBlock n fuel s file i).2
  | .getFileBlock file i => do return (← getFileBlock n fuel s file i).2.2
  | .setIBlock file inodeN i blockn => setIBlock n fuel s file inodeN i blockn
  | .writeBlockAt block offset chunk len => writeBlockAt n fuel s block offset chunk len
  | .writeInodeTable inodeN newInode => writeInodeTable n fuel s inodeN newInode
  | .chdir dir name => do return (← chdir n fuel s dir name).2
  | .ls path => ls n fuel s path

/-- **The calls that release what they lock**: those that write, those that read no block because
the number is in the inode itself or beyond the map, and `chdir` from a directory without blocks. -/
def Releases : Call → Prop
  | .getInode _ => False
  | .indirectBlock _ i => i < dirBlkLen ∨ dirBlkLen + indBlkLen + dblIndBlkLen ≤ i
  | .getFileBlock .. => False
  | .setIBlock .. => True
  | .writeBlockAt .. => True
  | .writeInodeTable .. => True
  | .chdir dir _ => iBlockLen dir.inode = 0
  | .ls _ => False

def Locked (p : Pool) (b : ℕ) : Prop := isFlag (p.heads b).flags bhLock = true

/-- **All is released**: no buffer is locked, and all have the storage that they were given. -/
def Released (n : ℕ) (s : Kernel) : Prop := (∀ b < n, ¬ Locked s.pool b) ∧ s.freed = []

/-- The free buffers are among the `n` buffers, and have storage. -/
def Sane (n : ℕ) (p : Pool) : Prop := ∀ b ∈ p.free, b < n ∧ (p.heads b).bData.isSome

/-- **A pool at rest**: no buffer is locked, and all are free. -/
structure Quiet (n : ℕ) (p : Pool) : Prop where
  unlocked : ∀ b < n, ¬ Locked p b
  mem_free : ∀ b, b ∈ p.free ↔ b < n
  nodup : p.free.Nodup
  data : ∀ b < n, (p.heads b).bData.isSome

theorem Quiet.sane {n : ℕ} {p : Pool} (h : Quiet n p) : Sane n p := fun b hb =>
  ⟨(h.mem_free b).mp hb, h.data b ((h.mem_free b).mp hb)⟩

/-! ### What `bread` and `bwrite` do to the locks -/

section Buffers
variable {n fuel m b : ℕ} {s s' : Kernel} {data : Bytes}

/-- What `bread` leaves: the buffer is locked and off the free list, the others are as before. -/
structure Took (n : ℕ) (s s' : Kernel) (b : ℕ) : Prop where
  lt : b < n
  locked : Locked s'.pool b
  others : ∀ c ≠ b, s'.pool.heads c = s.pool.heads c
  data : (s'.pool.heads b).bData.isSome
  free : s'.pool.free = s.pool.free.erase b
  freed : s'.freed = s.freed

theorem locked_setFlag (p : Pool) (b : ℕ) : Locked (setFlag p b bhLock) b := by
  rw [Locked, setFlag, updHead_heads, if_pos rfl]
  exact (isFlag_or_bit _ (by decide)).trans (by simp)

theorem took_getblk {p p' : Pool} (hsane : Sane n p) (h : getblk n fuel p devNo m = .ok (b, p')) :
    b < n ∧ Locked p' b ∧ (∀ c ≠ b, p'.heads c = p.heads c) ∧ p'.free = p.free.erase b := by
  rcases getblk_cases (fun c hc => (hsane c hc).2) h with
    ⟨hl, -, rfl⟩ | ⟨-, rest, old, hfree, -, rfl⟩
  · refine ⟨(lookup_some hl).1, locked_setFlag _ b, fun c hc => ?_, rfl⟩
    rw [take_heads, if_neg hc]
  · refine ⟨(hsane b (by rw [hfree]; exact List.mem_cons_self)).1, locked_setFlag _ b, fun c hc => ?_, ?_⟩
    · rw [recycle, setFlag, updHead_heads, if_neg hc, updHead_heads, if_neg hc]
      exact (flush_heads p b old c).trans (if_neg hc)
    · rw [hfree, List.erase_cons_head]
      rfl

theorem took_bread (hsane : Sane n s.pool) (h : bread n fuel s m = .ok (b, data, s')) :
    Took n s s' b := by
  obtain ⟨⟨c, p⟩, hread, h⟩ := bind_eq_ok.mp h
  obtain ⟨p₁, hget, hp⟩ := bread_cases hread
  obtain ⟨hlt, hlock, hothers, hfree⟩ := took_getblk hsane hget
  rcases hdata : (p.heads c).bData with _ | d
  · simp [hdata] at h
  · simp only [hdata, pure, Except.pure, Except.ok.injEq, Prod.mk.injEq] at h
    obtain ⟨rfl, -, rfl⟩ := h
    have hsome : (p.heads c).bData.isSome := by rw [hdata]; rfl
    rcases hp with ⟨-, rfl⟩ | ⟨-, rfl⟩
    · exact ⟨hlt, hlock, hothers, hsome, hfree, rfl⟩
    · refine ⟨hlt, ?_, fun e he => ?_, hsome, hfree, rfl⟩
      · rw [Locked, updHead_heads, if_pos rfl]
        exact hlock
      · rw [updHead_heads, if_neg he]
        exact hothers e he

theorem Took.sane (h : Took n s s' b) (hsane : Sane n s.pool) : Sane n s'.pool := by
  intro c hc
  rw [h.free] at hc
  obtain ⟨hlt, hdata⟩ := hsane c (List.mem_of_mem_erase hc)
  refine ⟨hlt, ?_⟩
  by_cases hcb : c = b
  · rw [hcb]
    exact h.data
  · rw [h.others c hcb]
    exact hdata

theorem Quiet.brelse {p q : Pool} (hq : Quiet n q) (hb : b < n) (hfree : p.free = q.free.erase b)
    (hothers : ∀ c ≠ b, p.heads c = q.heads c) (hdata : (p.heads b).bData.isSome) :
    Quiet n (BufferPool.brelse p b) := by
  have hperm : (BufferPool.brelse p b).free.Perm q.free := by
    refine (free_brelse p b).trans ?_
    rw [hfree]
    exact (List.perm_cons_erase ((hq.mem_free b).mpr hb)).symm
  have hheads : ∀ c ≠ b, (BufferPool.brelse p b).heads c = q.heads c := fun c hc => by
    rw [heads_brelse, if_neg hc, hothers c hc]
  refine ⟨fun c hc => ?_, fun c => hperm.mem_iff.trans (hq.mem_free c), hperm.nodup_iff.mpr hq.nodup,
    fun c hc => ?_⟩
  · by_cases hcb : c = b
    · rw [Locked, hcb, heads_brelse, if_pos rfl, Bool.not_eq_true]
      exact (isFlag_clear_bit _ (by decide)).trans (by simp)
    · rw [Locked, hheads c hcb]
      exact hq.unlocked c hc
  · by_cases hcb : c = b
    · rw [hcb, heads_brelse, if_pos rfl]
      exact hdata
    · rw [hheads c hcb]
      exact hq.data c hc

/-- **Read, change and write** leave a pool at rest. -/
theorem quiet_bwrite (hq : Quiet n s.pool) {s₁ : Kernel} (h : Took n s s₁ b)
    (hw : bwrite s₁ b data = .ok s') : Quiet n s'.pool ∧ s'.freed = s.freed := by
  unfold bwrite BufferPool.bwrite at hw
  simp only [updHead_heads, if_pos, Bind.bind, Except.bind, pure, Except.pure, Except.ok.injEq] at hw
  obtain rfl := hw
  refine ⟨hq.brelse h.lt h.free (fun c hc => ?_) ?_, h.freed⟩
  · rw [updHead_heads, if_neg hc, h.others c hc]
  · rw [updHead_heads, if_pos rfl]
    rfl

theorem bread_of_getblk {p : Pool} (h : getblk n fuel s.pool devNo m = .ok (b, p))
    (hdata : (p.heads b).bData.isSome) : ∃ r, bread n fuel s m = .ok r := by
  obtain ⟨data, hdata⟩ := Option.isSome_iff_exists.mp hdata
  simp only [bread, BufferPool.bread, h, hdata, Bind.bind, Except.bind, pure, Except.pure]
  by_cases hdirty : isFlag (p.heads b).flags bhDirty = true
  · simp [hdirty, hdata]
  · simp [hdirty, updHead_heads]

/-- **With the pool at rest `bread` returns.** -/
theorem Quiet.bread_returns (h : Quiet n s.pool) (hn : 0 < n) (m : ℕ) (hfuel : 1 < fuel) :
    ∃ r, bread n fuel s m = .ok r := by
  rcases hl : lookup n s.pool devNo m with _ | b
  · obtain ⟨b, rest, hfree⟩ : ∃ b rest, s.pool.free = b :: rest := by
      cases hp : s.pool.free with
      | nil => exact absurd ((h.mem_free 0).mpr hn) (by rw [hp]; exact List.not_mem_nil)
      | cons b rest => exact ⟨b, rest, rfl⟩
    have hb : b < n := (h.mem_free b).mp (by rw [hfree]; exact List.mem_cons_self)
    obtain ⟨data, hdata⟩ := Option.isSome_iff_exists.mp (h.data b hb)
    refine bread_of_getblk (getblk_miss hl hfree hdata hfuel) ?_
    rw [recycle, setFlag, updHead_heads, if_pos rfl, updHead_heads, if_pos rfl]
    simp only [flush_heads, if_pos, hdata]
    rfl
  · have hb := (lookup_some hl).1
    refine bread_of_getblk (getblk_hit hl (Bool.eq_false_iff.mpr (h.unlocked b hb)) (by omega)) ?_
    rw [take_heads, if_pos rfl]
    exact h.data b hb

theorem bread_spins (hl : lookup n s.pool devNo m = some b) (hlock : Locked s.pool b) (fuel : ℕ) :
    bread n fuel s m = .error .spinning := by
  have hget : ∀ fuel, getblk n fuel s.pool devNo m = .error .spinning := by
    intro fuel
    induction fuel with
    | zero => rfl
    | succ fuel ih =>
      rw [getblk, getblkLoop]
      simp only [hl]
      rw [if_pos (show isFlag (s.pool.heads b).flags bhLock = true from hlock)]
      exact ih
  simp only [bread, BufferPool.bread, hget fuel, Bind.bind, Except.bind]

/-- The buffer that `bread` returns is the one found for its block from then on. -/
theorem lookup_bread (hsane : Sane n s.pool) (h : bread n fuel s m = .ok (b, data, s')) :
    lookup n s'.pool devNo m = some b := by
  have htook := took_bread hsane h
  obtain ⟨⟨c, p⟩, hread, h⟩ := bind_eq_ok.mp h
  obtain ⟨p₁, hget, hp⟩ := bread_cases hread
  have hkey : (p.heads c).bBlocknr = (p₁.heads c).bBlocknr ∧ (p.heads c).bDev = (p₁.heads c).bDev := by
    rcases hp with ⟨-, rfl⟩ | ⟨-, rfl⟩
    · exact ⟨rfl, rfl⟩
    · rw [updHead_heads, if_pos rfl]
      exact ⟨rfl, rfl⟩
  have hstate : c = b ∧ p = s'.pool := by
    rcases hdata : (p.heads c).bData with _ | d
    · simp [hdata] at h
    · simp only [hdata, pure, Except.pure, Except.ok.injEq, Prod.mk.injEq] at h
      exact ⟨h.1, congrArg Kernel.pool h.2.2⟩
  obtain ⟨rfl, hpool⟩ := hstate
  rw [← hpool]
  rcases getblk_cases (fun c hc => (hsane c hc).2) hget with
    ⟨hl, -, rfl⟩ | ⟨hl, rest, old, hfree, -, rfl⟩
  · -- the buffer was there, and the keys are as before
    rw [← hl]
    refine lookup_congr fun e => ?_
    by_cases hec : e = c
    · rw [hec, hkey.1, hkey.2, take_heads, if_pos rfl]
      exact ⟨rfl, rfl⟩
    · rw [hpool, htook.others e hec]
      exact ⟨rfl, rfl⟩
  · -- it is the only buffer with the key
    rw [BufferPoolRun.recycle_heads, if_pos rfl] at hkey
    rcases hl' : lookup n p devNo m with _ | e
    · exact absurd hkey (lookup_eq_none.mp hl' c htook.lt)
    · obtain ⟨he, hblock, hdev⟩ := lookup_some hl'
      by_cases hec : e = c
      · rw [hec]
      · rw [hpool, htook.others e hec] at hblock hdev
        exact absurd ⟨hblock, hdev⟩ (lookup_eq_none.mp hl e he)

/-- **A block that was read and not released** cannot be read again. -/
theorem bread_again_spins (hsane : Sane n s.pool) (h : bread n fuel s m = .ok (b, data, s'))
    (fuel' : ℕ) : bread n fuel' s' m = .error .spinning :=
  bread_spins (lookup_bread hsane h) (took_bread hsane h).locked fuel'

end Buffers

/-! ### The calls that leave a buffer locked -/

/-- Locks stay, and the free buffers are still in order. -/
structure Keeps (n : ℕ) (s s' : Kernel) : Prop where
  sane : Sane n s'.pool
  locked : ∀ b, Locked s.pool b → Locked s'.pool b

/-- Besides, a buffer is locked in the end. -/
structure Leaks (n : ℕ) (s s' : Kernel) : Prop extends Keeps n s s' where
  leak : ∃ b < n, Locked s'.pool b

section Leaks
variable {n fuel i : ℕ} {s s' s'' : Kernel}

theorem Keeps.refl (h : Sane n s.pool) : Keeps n s s := ⟨h, fun _ hb => hb⟩

theorem Leaks.keeps_trans (h : Leaks n s s') (h' : Keeps n s' s'') : Leaks n s s'' := by
  obtain ⟨b, hb, hlock⟩ := h.leak
  exact ⟨⟨h'.sane, fun c hc => h'.locked c (h.locked c hc)⟩, b, hb, h'.locked b hlock⟩

theorem Took.leaks {b : ℕ} (h : Took n s s' b) (hsane : Sane n s.pool) : Leaks n s s' := by
  refine ⟨⟨h.sane hsane, fun c hc => ?_⟩, b, h.lt, h.locked⟩
  by_cases hcb : c = b
  · exact hcb ▸ h.locked
  · rw [Locked, h.others c hcb]
    exact hc

section
variable (hsane : Sane n s.pool)
include hsane

theorem leaks_getInode {inodeN : ℕ} {x : Bytes}
    (h : getInode n fuel s inodeN = .ok (x, s')) : Leaks n s s' := by
  unfold getInode at h
  split_ifs at h
  obtain ⟨d, -, h⟩ := bind_eq_ok.mp h
  obtain ⟨⟨b, data, s₁⟩, hread, h⟩ := bind_eq_ok.mp h
  obtain ⟨-, rfl⟩ := Prod.mk.inj (Except.ok.inj h)
  exact (took_bread hsane hread).leaks hsane

/-- **`get_inode` twice**: the second call for an inode does not come to its end. -/
theorem getInode_again_spins {inodeN : ℕ} {x : Bytes}
    (h : getInode n fuel s inodeN = .ok (x, s')) (fuel' : ℕ) :
    getInode n fuel' s' inodeN = .error .spinning := by
  unfold getInode at h ⊢
  dsimp only at h ⊢
  split_ifs at h with hzero
  obtain ⟨d, hd, h⟩ := bind_eq_ok.mp h
  obtain ⟨⟨b, data, s₁⟩, hread, h⟩ := bind_eq_ok.mp h
  obtain ⟨-, rfl⟩ := Prod.mk.inj (Except.ok.inj h)
  have hglobals : s₁.super = s.super ∧ s₁.bgdt = s.bgdt := by
    obtain ⟨⟨c, p⟩, -, hread⟩ := bind_eq_ok.mp hread
    dsimp only at hread
    split at hread
    · obtain ⟨-, -, rfl⟩ := Prod.mk.inj (Except.ok.inj hread) |>.imp id Prod.mk.inj
      exact ⟨rfl, rfl⟩
    · exact absurd hread (by simp)
  have hd' : desc s₁ (sub32 inodeN 1 / sInodesPerGroup s.super % 2 ^ 16) = .ok d := by
    rw [desc, hglobals.2]
    exact hd
  rw [hglobals.1, if_neg hzero, hd']
  simp only [Bind.bind, Except.bind, bread_again_spins hsane hread fuel']

theorem indirectBlock_cases {file : Bytes} {blockN : ℕ}
    (h : indirectBlock n fuel s file i = .ok (blockN, s')) :
    (Releases (.indirectBlock file i) ∧ s' = s) ∨
      (¬ Releases (.indirectBlock file i) ∧ Leaks n s s') := by
  unfold indirectBlock at h
  simp only [Releases]
  split_ifs at h with h1 h2 h3
  · exact .inl ⟨.inl h1, (Prod.mk.inj (Except.ok.inj h)).2.symm⟩
  · obtain ⟨⟨b, data, s₁⟩, hread, h⟩ := bind_eq_ok.mp h
    obtain ⟨-, rfl⟩ := Prod.mk.inj (Except.ok.inj h)
    exact .inr ⟨by omega, (took_bread hsane hread).leaks hsane⟩
  · obtain ⟨⟨b, data, s₁⟩, hread, h⟩ := bind_eq_ok.mp h
    obtain ⟨⟨b₂, data₂, s₂⟩, hread₂, h⟩ := bind_eq_ok.mp h
    obtain ⟨-, rfl⟩ := Prod.mk.inj (Except.ok.inj h)
    have hfirst := (took_bread hsane hread).leaks hsane
    exact .inr ⟨by omega, hfirst.keeps_trans ((took_bread hfirst.sane hread₂).leaks hfirst.sane).toKeeps⟩
  · exact .inl ⟨.inr (by omega), (Prod.mk.inj (Except.ok.inj h)).2.symm⟩

theorem leaks_getFileBlock {file : Handle} {b : ℕ} {data : Bytes}
    (h : getFileBlock n fuel s file i = .ok (b, data, s')) : Leaks n s s' := by
  obtain ⟨⟨blockN, s₁⟩, hblock, hread⟩ := bind_eq_ok.mp h
  rcases indirectBlock_cases hsane hblock with ⟨-, rfl⟩ | ⟨-, hleaks⟩
  · exact (took_bread hsane hread).leaks hsane
  · exact hleaks.keeps_trans ((took_bread hleaks.sane hread).leaks hleaks.sane).toKeeps

end

theorem Leaks.freed (h : Leaks n s s') (l : List ℕ) : Leaks n s { s' with freed := l } :=
  ⟨⟨h.sane, h.locked⟩, h.leak⟩

section
variable (hsane : Sane n s.pool)
include hsane

theorem chdirFrom_cases {dir : Handle} {name : CString} {left : ℕ} {found : Option Handle} (h : chdirFrom n fuel dir name left i s = .ok (found, s')) :
    (left = 0 ∧ s' = s) ∨ (left ≠ 0 ∧ Leaks n s s') := by
  induction left generalizing i s with
  | zero => exact .inl ⟨rfl, (Prod.mk.inj (Except.ok.inj h)).2.symm⟩
  | succ left ih =>
    refine .inr ⟨Nat.succ_ne_zero left, ?_⟩
    obtain ⟨⟨b, data, s₁⟩, hblock, h⟩ := bind_eq_ok.mp h
    have hfirst := leaks_getFileBlock hsane hblock
    dsimp only at h
    split at h
    · exact absurd h (by simp)
    · obtain ⟨⟨inode, s₂⟩, hinode, h⟩ := bind_eq_ok.mp h
      obtain ⟨-, rfl⟩ := Prod.mk.inj (Except.ok.inj h)
      exact hfirst.keeps_trans (leaks_getInode hfirst.sane hinode).toKeeps
    · rcases ih (hfirst.freed (b :: s₁.freed)).sane h with ⟨-, rfl⟩ | ⟨-, hrest⟩
      · exact hfirst.freed _
      · exact (hfirst.freed _).keeps_trans hrest.toKeeps

theorem keeps_chdirAll {names : List CString} {dir dir' : Handle}
    (h : chdirAll n fuel names dir s = .ok (dir', s')) : Keeps n s s' := by
  induction names generalizing dir s with
  | nil =>
    obtain ⟨-, rfl⟩ := Prod.mk.inj (Except.ok.inj h)
    exact Keeps.refl hsane
  | cons name names ih =>
    obtain ⟨⟨found, s₁⟩, hchdir, hrest⟩ := bind_eq_ok.mp h
    cases found with
    | none => exact absurd hrest (by simp)
    | some next =>
      rcases chdirFrom_cases hsane hchdir with ⟨-, rfl⟩ | ⟨-, hfirst⟩
      · exact ih hsane hrest
      · exact (hfirst.keeps_trans (ih hfirst.sane hrest)).toKeeps

theorem keeps_lsFrom {dir : Handle} {left : ℕ}
    (h : lsFrom n fuel dir left i s = .ok s') : Keeps n s s' := by
  induction left generalizing i s with
  | zero =>
    obtain rfl := Except.ok.inj h
    exact Keeps.refl hsane
  | succ left ih =>
    obtain ⟨⟨b, data, s₁⟩, hblock, h⟩ := bind_eq_ok.mp h
    have hfirst := leaks_getFileBlock hsane hblock
    exact ((hfirst.freed _).keeps_trans (ih (hfirst.freed (b :: s₁.freed)).sane h)).toKeeps

theorem leaks_ls {path : List CString} (h : ls n fuel s path = .ok s') : Leaks n s s' := by
  obtain ⟨⟨root, s₁⟩, hroot, hrest⟩ := bind_eq_ok.mp h
  obtain ⟨⟨leafDir, s₂⟩, hdirs, hblocks⟩ := bind_eq_ok.mp hrest
  obtain ⟨⟨inode, s₀⟩, hinode, hpure⟩ := bind_eq_ok.mp hroot
  have heq : s₀ = s₁ := (Prod.mk.inj (Except.ok.inj hpure)).2
  have hfirst : Leaks n s s₁ := heq ▸ leaks_getInode hsane hinode
  have hwalk := hfirst.keeps_trans (keeps_chdirAll hfirst.sane hdirs)
  exact hwalk.keeps_trans (keeps_lsFrom hwalk.sane hblocks)

end

end Leaks

/-! ### The calls that write -/

section Writes
variable {n fuel : ℕ} {s s' : Kernel}

/-- The pool is at rest again, and no storage was freed. -/
def Rests (n : ℕ) (s s' : Kernel) : Prop := Quiet n s'.pool ∧ s'.freed = s.freed

theorem rests_writeInodeTable (hq : Quiet n s.pool) {inodeN : ℕ} {x : Bytes}
    (h : writeInodeTable n fuel s inodeN x = .ok s') : Rests n s s' := by
  unfold writeInodeTable at h
  split_ifs at h
  obtain ⟨d, -, h⟩ := bind_eq_ok.mp h
  obtain ⟨⟨b, data, s₁⟩, hread, hwrite⟩ := bind_eq_ok.mp h
  exact quiet_bwrite hq (took_bread hq.sane hread) hwrite

theorem rests_setIBlock (hq : Quiet n s.pool) {file : Bytes} {inodeN i blockn : ℕ}
    (h : setIBlock n fuel s file inodeN i blockn = .ok s') : Rests n s s' := by
  unfold setIBlock at h
  dsimp only at h
  split_ifs at h
  · exact rests_writeInodeTable hq h
  · obtain ⟨⟨b, data, s₁⟩, hread, hwrite⟩ := bind_eq_ok.mp h
    exact quiet_bwrite hq (took_bread hq.sane hread) hwrite
  · obtain rfl := Except.ok.inj h
    exact ⟨⟨hq.unlocked, hq.mem_free, hq.nodup, hq.data⟩, rfl⟩
  · obtain rfl := Except.ok.inj h
    exact ⟨hq, rfl⟩

theorem rests_writeBlockAt (hq : Quiet n s.pool) {block offset len : ℕ} {chunk : Bytes}
    (h : writeBlockAt n fuel s block offset chunk len = .ok s') : Rests n s s' := by
  unfold writeBlockAt at h
  split_ifs at h
  · obtain rfl := Except.ok.inj h
    exact ⟨hq, rfl⟩
  · obtain ⟨⟨b, data, s₁⟩, hread, hwrite⟩ := bind_eq_ok.mp h
    exact quiet_bwrite hq (took_bread hq.sane hread) hwrite

end Writes

/-! ### All calls -/

section Calls
variable {n fuel : ℕ} {s s' : Kernel}

theorem exec_cases (hq : Quiet n s.pool) (c : Call) (h : exec n fuel s c = .ok s') :
    (Releases c ∧ Rests n s s') ∨ (¬ Releases c ∧ Leaks n s s') := by
  have hsame : Rests n s s := ⟨hq, rfl⟩
  cases c with
  | getInode inodeN =>
    obtain ⟨⟨x, s₁⟩, hcall, h⟩ := bind_eq_ok.mp h
    obtain rfl := Except.ok.inj h
    exact .inr ⟨not_false, leaks_getInode hq.sane hcall⟩
  | indirectBlock file i =>
    obtain ⟨⟨x, s₁⟩, hcall, h⟩ := bind_eq_ok.mp h
    obtain rfl := Except.ok.inj h
    rcases indirectBlock_cases hq.sane hcall with ⟨hr, heq⟩ | hleak
    · exact .inl ⟨hr, by rw [show s₁ = s from heq]; exact hsame⟩
    · exact .inr hleak
  | getFileBlock file i =>
    obtain ⟨⟨b, data, s₁⟩, hcall, h⟩ := bind_eq_ok.mp h
    obtain rfl := Except.ok.inj h
    exact .inr ⟨not_false, leaks_getFileBlock hq.sane hcall⟩
  | setIBlock file inodeN i blockn => exact .inl ⟨trivial, rests_setIBlock hq h⟩
  | writeBlockAt block offset chunk len => exact .inl ⟨trivial, rests_writeBlockAt hq h⟩
  | writeInodeTable inodeN x => exact .inl ⟨trivial, rests_writeInodeTable hq h⟩
  | chdir dir name =>
    obtain ⟨⟨found, s₁⟩, hcall, h⟩ := bind_eq_ok.mp h
    obtain rfl := Except.ok.inj h
    rcases chdirFrom_cases hq.sane hcall with ⟨hzero, heq⟩ | hleak
    · exact .inl ⟨hzero, by rw [show s₁ = s from heq]; exact hsame⟩
    · exact .inr hleak
  | ls path => exact .inr ⟨not_false, leaks_ls hq.sane h⟩

end Calls

/-! ### The helpers over the ideal store

When no buffer waits to be written, the buffers show the disk as it is, and the helpers do what
their models over the ideal store of blocks do. -/

section Ideal
variable {n fuel k : ℕ} {s s' : Kernel}

/-- The file system as an ideal store, with `k` groups. -/
def Kernel.volume (s : Kernel) (k : ℕ) : Volume :=
  { disk := s.pool.disk, super := s.super, bgdt := s.bgdt, nBlockGroups := k }

/-- No buffer is marked. -/
def Clean (n : ℕ) (p : Pool) : Prop := ∀ b < n, ¬ BufferPoolRun.Marked p b

theorem bread_clean (hsane : Sane n s.pool) (hclean : Clean n s.pool) {m b : ℕ} {data : Bytes}
    (h : bread n fuel s m = .ok (b, data, s')) :
    data = s.pool.disk m ∧ s'.volume k = s.volume k ∧ (s'.pool.heads b).bBlocknr = m ∧
      Clean n s'.pool := by
  have htook := took_bread hsane h
  obtain ⟨⟨c, p⟩, hread, h⟩ := bind_eq_ok.mp h
  obtain ⟨p₁, hget, hp⟩ := bread_cases hread
  have hp₁ : p₁.disk = s.pool.disk ∧ (p₁.heads c).bBlocknr = m ∧
      (p₁.heads c).flags = (s.pool.heads c).flags ||| bhLock := by
    rcases getblk_cases (fun c hc => (hsane c hc).2) hget with
      ⟨hl, -, rfl⟩ | ⟨-, rest, old, hfree, -, rfl⟩
    · refine ⟨rfl, ?_, ?_⟩ <;> rw [take_heads, if_pos rfl]
      exact (lookup_some hl).2.1
    · have hc : c < n := (hsane c (by rw [hfree]; exact List.mem_cons_self)).1
      have hdelay : isFlag (s.pool.heads c).flags bhDelay = false := by
        have := hclean c hc
        rw [BufferPoolRun.Marked, not_or] at this
        exact Bool.eq_false_iff.mpr this.2
      have hflush : flush s.pool c old = s.pool := by
        rw [flush, hdelay]
        rfl
      rw [hflush]
      refine ⟨rfl, ?_, ?_⟩ <;>
        rw [recycle, setFlag, updHead_heads, if_pos rfl, updHead_heads, if_pos rfl]
  obtain ⟨hdisk, hblock, hflags⟩ := hp₁
  obtain ⟨hlt, -, -, -⟩ := took_getblk hsane hget
  have hmarked : ∀ f, f = (s.pool.heads c).flags ||| bhLock →
      isFlag f bhDirty = false ∧ isFlag f bhDelay = false := by
    rintro f rfl
    have hnot := hclean c hlt
    rw [BufferPoolRun.Marked, not_or] at hnot
    obtain ⟨-, hdirty, hdelay⟩ := BufferPoolRun.isFlag_lock (s.pool.heads c).flags
    rw [hdirty, hdelay]
    exact ⟨Bool.eq_false_iff.mpr hnot.1, Bool.eq_false_iff.mpr hnot.2⟩
  rcases hp with ⟨hdirty, -⟩ | ⟨-, rfl⟩
  · exact absurd hdirty (by rw [(hmarked _ hflags).1]; decide)
  · simp only [updHead_heads, if_pos, pure, Except.pure, Except.ok.injEq, Prod.mk.injEq] at h
    obtain ⟨rfl, rfl, rfl⟩ := h
    refine ⟨by rw [hblock, hdisk], ?_, ?_, fun e he => ?_⟩
    · rw [Kernel.volume, Kernel.volume, ← hdisk]
      rfl
    · rw [updHead_heads, if_pos rfl]
      exact hblock
    · by_cases hec : e = c
      · rw [BufferPoolRun.Marked, hec, updHead_heads, if_pos rfl]
        simp [(hmarked _ hflags).1, (hmarked _ hflags).2]
      · rw [BufferPoolRun.marked_congr (htook.others e hec)]
        exact hclean e he

theorem bwrite_volume {b : ℕ} {data : Bytes} (h : bwrite s b data = .ok s') : s'.volume k =
    { s.volume k with disk := update s.pool.disk (s.pool.heads b).bBlocknr data } := by
  unfold bwrite BufferPool.bwrite at h
  simp only [updHead_heads, if_pos, Bind.bind, Except.bind, pure, Except.pure, Except.ok.injEq] at h
  obtain rfl := h
  rw [Kernel.volume]
  simp only [disk_brelse]
  rfl

theorem bread_bwrite_volume (hsane : Sane n s.pool) (hclean : Clean n s.pool) {m b : ℕ}
    {data data' : Bytes} {s₁ : Kernel} (hread : bread n fuel s m = .ok (b, data, s₁))
    (hwrite : bwrite s₁ b data' = .ok s') : data = s.pool.disk m ∧
      s'.volume k = { s.volume k with disk := update s.pool.disk m data' } := by
  obtain ⟨hdata, hvol, hblock, -⟩ := bread_clean (k := k) hsane hclean hread
  have hdisk : s₁.pool.disk = s.pool.disk := congrArg Volume.disk hvol
  refine ⟨hdata, ?_⟩
  rw [bwrite_volume hwrite, hvol, hblock, hdisk]

theorem desc_volume {g : ℕ} {d : Bytes} (h : desc s g = .ok d) : (s.volume k).desc g = some d := by
  unfold desc at h
  split_ifs at h with hg
  rw [Volume.desc, if_pos hg, ← Except.ok.inj h]
  rfl

/-- **`get_inode`** reads what its model reads. -/
theorem getInode_volume (hsane : Sane n s.pool) (hclean : Clean n s.pool) {inodeN : ℕ} {x : Bytes}
    (h : getInode n fuel s inodeN = .ok (x, s')) :
    InodeTable.getInode (s.volume k) inodeN = some x := by
  unfold getInode at h
  split_ifs at h with hzero
  obtain ⟨d, hd, h⟩ := bind_eq_ok.mp h
  obtain ⟨⟨b, data, s₁⟩, hread, h⟩ := bind_eq_ok.mp h
  obtain ⟨hx, -⟩ := Prod.mk.inj (Except.ok.inj h)
  obtain ⟨hdata, -⟩ := bread_clean (k := k) hsane hclean hread
  rw [InodeTable.getInode, if_neg (show ¬ sInodesPerGroup (s.volume k).super = 0 from hzero)]
  have hd' : (s.volume k).desc (sub32 inodeN 1 / sInodesPerGroup (s.volume k).super % 2 ^ 16) = some d :=
    desc_volume hd
  simp only [hd', Option.bind_eq_bind, Option.bind_some]
  rw [← hx, hdata]
  rfl

/-- **`indirect_block`** finds the block that its model finds. -/
theorem indirectBlock_volume (hsane : Sane n s.pool) (hclean : Clean n s.pool) {file : Bytes}
    {i blockN : ℕ} (h : indirectBlock n fuel s file i = .ok (blockN, s')) :
    BlockMap.indirectBlock (s.volume k) file i = blockN := by
  unfold indirectBlock at h
  rw [BlockMap.indirectBlock]
  split_ifs at h ⊢ with h1 h2 h3
  · exact (Prod.mk.inj (Except.ok.inj h)).1
  · obtain ⟨⟨b, data, s₁⟩, hread, h⟩ := bind_eq_ok.mp h
    obtain ⟨hdata, -⟩ := bread_clean (k := k) hsane hclean hread
    rw [← (Prod.mk.inj (Except.ok.inj h)).1, hdata]
    rfl
  · obtain ⟨⟨b, data, s₁⟩, hread, h⟩ := bind_eq_ok.mp h
    obtain ⟨⟨b₂, data₂, s₂⟩, hread₂, h⟩ := bind_eq_ok.mp h
    obtain ⟨hdata, -⟩ := bread_clean (k := k) hsane hclean hread
    rw [← (Prod.mk.inj (Except.ok.inj h)).1, hdata]
    rfl
  · exact (Prod.mk.inj (Except.ok.inj h)).1

/-- **`write_inode_table`** writes what its model writes. -/
theorem writeInodeTable_volume (hsane : Sane n s.pool) (hclean : Clean n s.pool) {inodeN : ℕ}
    {x : Bytes} (h : writeInodeTable n fuel s inodeN x = .ok s') :
    InodeTable.writeInodeTable (s.volume k) inodeN x = some (s'.volume k) := by
  unfold writeInodeTable at h
  split_ifs at h with hzero
  obtain ⟨d, hd, h⟩ := bind_eq_ok.mp h
  obtain ⟨⟨b, data, s₁⟩, hread, hwrite⟩ := bind_eq_ok.mp h
  obtain ⟨hdata, hvol⟩ := bread_bwrite_volume (k := k) hsane hclean hread hwrite
  rw [InodeTable.writeInodeTable, if_neg (show ¬ sInodesPerGroup (s.volume k).super = 0 from hzero)]
  have hd' : (s.volume k).desc (sub32 inodeN 1 / sInodesPerGroup (s.volume k).super % 2 ^ 16) = some d :=
    desc_volume hd
  simp only [hd', Option.bind_eq_bind, Option.bind_some]
  rw [hvol, hdata]
  rfl

end Ideal

/-! ### A fresh file system -/

/-- A file system with two groups of one inode each, in the blocks 5 and 6, and a new pool. -/
def freshKernel : Kernel :=
  { super := InodeTable.sparseVolume.super, bgdt := InodeTable.sparseVolume.bgdt,
    pool := BufferPoolRun.freshPool 8, freed := [] }

theorem quiet_freshKernel : Quiet 8 freshKernel.pool :=
  ⟨fun b _ => show ¬ isFlag 0 bhLock = true by decide,
  fun b => by simp [freshKernel, BufferPoolRun.freshPool],
    List.nodup_reverse.mpr List.nodup_range, fun _ _ => rfl⟩

end YegaKernel.Fs.Ext2.Locks
