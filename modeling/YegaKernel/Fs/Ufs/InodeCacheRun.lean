import YegaKernel.Lib.Runs
import YegaKernel.Fs.BufferRun
import YegaKernel.Fs.Ufs.InodeCache

/-! # Runs of the inode cache

Clients get inodes by `iget` and give them back by `iput`. `InodeInvariant` is what the lists and
the counts should look like at any time.

The lists of the inode cache are those of the buffer cache, with inode numbers for block numbers.
Seen as a buffer cache (`asBuffers`), a hit of `iget` is a hit of `getblk` and `iput` is `brelse`,
so that the lists are kept in order by the lemmas about those. A miss is different: `iget` uses the
pointer that `search_hash` returned, which is NULL then. It is right exactly for the inodes that are
cached, and when no inode is free (`iget_right_iff_of_run`). -/

namespace YegaKernel.Fs.Ufs.InodeCacheRun

open Lib.Links Lib.Bytes Lib.Word Lib.Runs
    Lib.Loops
open Fs.Disk (Bytes)
open Fs.Buffer (Cache Fault Link devNo hashFn hashHead bhLock bhDirty bhOld isFlag)
open Fs.BufferSpec
open Fs.BufferRun (Listed cacheInvariant_of_consistent)
open Fs.Ufs.Model Fs.Ufs.InodeCache Function

variable {n i j fuel : ℕ} {c : ICache} {held : List ℕ}

/-! ### The invariant -/

/-- The lists of the cache hold the inodes below `n`, as they should. -/
structure InodesListed (n : ℕ) (c : ICache) (chains : ℕ → List ℕ) (free : List ℕ) : Prop where
  chain_ring : ∀ k < devNo, Ring c (.hash k) ((chains k).map .hashOf)
  free_ring : Ring c .free (free.map .freeOf)
  chain_lt : ∀ k < devNo, ∀ i ∈ chains k, i < n
  free_lt : ∀ i ∈ free, i < n
  on_chain : ∀ i < n, ∃ k < devNo, hashFn (iNo (c.inode i).dinode) (iDev (c.inode i).dinode) = .ok k ∧
    ∀ l < devNo, (chains l).count i = if l = k then 1 else 0
  key : ∀ i < n, ∀ j < n, iDev (c.inode i).dinode = iDev (c.inode j).dinode →
    iNo (c.inode i).dinode = iNo (c.inode j).dinode → i = j
  on_free : ∀ i < n, free.count i = if (c.inode i).iCount = 0 then 1 else 0

/-- **The invariant of the inode cache**: the lists are well formed; every inode is on the hash
chain that `search_hash` inspects for its number, once, and on no other; it is on the free list,
once, exactly if its count is 0; and no two inodes have the same device and number. -/
def InodeInvariant (n : ℕ) (c : ICache) : Prop := ∃ chains free, InodesListed n c chains free

/-! ### The inode cache as a buffer cache -/

/-- The inode cache seen as a buffer cache; the buffers have no data. -/
def asBuffers (c : ICache) : Cache where
  heads i :=
    { flags := if isLocked c i then bhLock else 0, bCount := 0, bData := some fun _ => 0
      bDev := iDev (c.inode i).dinode, bBlocknr := iNo (c.inode i).dinode }
  links := c.links
  disk := fun _ _ => 0

theorem asBuffers_congr {c' : ICache} (hlinks : c'.links = c.links)
    (hno : ∀ i, iNo (c'.inode i).dinode = iNo (c.inode i).dinode)
    (hdev : ∀ i, iDev (c'.inode i).dinode = iDev (c.inode i).dinode)
    (hlock : ∀ i, isLocked c' i = isLocked c i) : asBuffers c' = asBuffers c := by
  simp only [asBuffers, hlinks, hno, hdev, hlock]

theorem searchFrom_asBuffers {head : Link} {dev inum : ℕ} : ∀ (fuel : ℕ) (run : Link),
    searchFrom c head dev inum fuel run = Buffer.searchFrom (asBuffers c) head dev inum fuel run
  | 0, _ => rfl
  | fuel + 1, run => by
    unfold searchFrom Buffer.searchFrom
    cases run with
    | hashOf i =>
      simp only [searchFrom_asBuffers fuel]
      rfl
    | _ => rfl

theorem searchHash_asBuffers (fuel dev inum : ℕ) :
    searchHash fuel c dev inum = Buffer.searchHash fuel (asBuffers c) dev inum := by
  simp only [searchHash, Buffer.searchHash, searchFrom_asBuffers]
  rfl

theorem locked_asBuffers : Locked (asBuffers c) i ↔ isLocked c i = true := by
  have hlock : isFlag bhLock bhLock = true := by decide
  have hfree : isFlag 0#16 bhLock = false := by decide
  rcases h : isLocked c i <;> simp [Locked, asBuffers, h, hlock, hfree]

/-! ### What the operations do to it -/

theorem iNo_setFlags (v : ℕ) : iNo ((setFlags c i v).inode j).dinode = iNo (c.inode j).dinode := by
  by_cases hj : j = i
  · subst hj
    simp only [setFlags, ICache.upd, update_self]
    exact load_store_apart (by decide)
  · simp [setFlags, ICache.upd, hj]

theorem iDev_setFlags (v : ℕ) : iDev ((setFlags c i v).inode j).dinode = iDev (c.inode j).dinode := by
  by_cases hj : j = i
  · subst hj
    simp only [setFlags, ICache.upd, update_self]
    exact load_store_apart (by decide)
  · simp [setFlags, ICache.upd, hj]

theorem isLocked_setFlags (v : ℕ) : isLocked (setFlags c i v) j =
    if j = i then decide (v % 2 = 1) else isLocked c j := by
  split_ifs with hj
  · subst hj
    have hflags : iFlags ((setFlags c j v).inode j).dinode = v % 256 ^ 4 := by
      simp only [setFlags, ICache.upd, update_self]
      exact load_store _ _ _ _
    rw [isLocked, hflags, Nat.and_one_is_mod]
    congr 2
    omega
  · simp [isLocked, setFlags, ICache.upd, hj]

theorem asBuffers_setFlags (v : ℕ) : asBuffers (setFlags c i v) = (asBuffers c).updHead i fun bh =>
    { bh with flags := if v % 2 = 1 then bhLock else 0 } := by
  have hheads : (asBuffers (setFlags c i v)).heads = ((asBuffers c).updHead i fun bh =>
      { bh with flags := if v % 2 = 1 then bhLock else 0 }).heads := by
    funext j
    simp only [asBuffers, iNo_setFlags, iDev_setFlags, isLocked_setFlags, Cache.updHead]
    by_cases hj : j = i <;> simp [hj]
  exact congrArg (fun heads => { asBuffers c with heads := heads }) hheads

theorem asBuffers_lockedInode : asBuffers (lockedInode c i) = Buffer.lockedBuffer (asBuffers c) i := by
  have hodd : (iFlags (c.inode i).dinode ||| 1) % 2 = 1 := Nat.or_mod_two_eq_one.mpr (.inr rfl)
  rw [lockedInode, asBuffers_setFlags, Buffer.lockedBuffer, Buffer.setFlag, if_pos hodd]
  simp only [Cache.updHead, asBuffers]
  rcases isLocked c i <;> simp

theorem asBuffers_unlockedInode :
    asBuffers (unlockedInode c i) = Buffer.unlockedBuffer (asBuffers c) i := by
  have heven : ¬ (iFlags (c.inode i).dinode &&& (2 ^ 32 - 1 - 1)) % 2 = 1 := by
    simp
  rw [unlockedInode, asBuffers_setFlags, Buffer.unlockedBuffer, Buffer.clearFlag, if_neg heven]
  simp only [Cache.updHead, asBuffers]
  rcases isLocked c i <;> simp

theorem asBuffers_setCount (v : ℕ) : asBuffers (setCount c i v) = asBuffers c := by
  have hinode : ∀ j, ((setCount c i v).inode j).dinode = (c.inode j).dinode := by
    intro j
    by_cases hj : j = i <;> simp [setCount, ICache.upd, hj]
  refine asBuffers_congr rfl (fun j => ?_) (fun j => ?_) fun j => ?_
  all_goals simp only [isLocked, hinode]

/-- **A hit of `iget` is a hit of `getblk`.** -/
theorem asBuffers_takeInode (h : (c.inode i).iCount = 0) :
    asBuffers (takeInode c i) = takeBuffer (asBuffers c) i := by
  simp only [takeInode, h, if_true]
  rw [asBuffers_lockedInode, asBuffers_setCount]
  rfl

/-- The cache after an `iput`. -/
def putInode (c : ICache) (i : ℕ) : ICache :=
  let c := lockedInode c i
  let c := setCount c i (sub32 (c.inode i).iCount 1)
  unlockedInode (listAddTail c .free (.freeOf i)) i

/-- **`iput` is `brelse`.** -/
theorem asBuffers_putInode (h : isLocked c i = true) :
    asBuffers (putInode c i) = Buffer.brelse (asBuffers c) i := by
  have hflags : ((asBuffers c).heads i).flags = bhLock := by simp [asBuffers, h]
  have hlock : Buffer.lockedBuffer (asBuffers c) i = asBuffers c := by
    simp only [Buffer.lockedBuffer, Buffer.setFlag, Cache.updHead, hflags, BitVec.or_self]
    rw [← hflags]
    exact congrArg (fun heads => { asBuffers c with heads := heads }) (update_eq_self i _)
  have hclean : (!isFlag bhLock bhDirty && !isFlag bhLock bhOld) = true := by decide
  have hadd : ∀ c', asBuffers (listAddTail c' .free (.freeOf i)) =
      listAddTail (asBuffers c') .free (.freeOf i) := fun _ => rfl
  simp only [putInode, Buffer.brelse, hflags, hclean, if_true]
  rw [asBuffers_unlockedInode, hadd, asBuffers_setCount, asBuffers_lockedInode, hlock]

/-! ### What is kept -/

/-- **The inode cache is in order**: as a buffer cache it is, and the clients hold the inodes that
are in use, once each. -/
structure Good (n : ℕ) (c : ICache) (held : List ℕ) : Prop where
  consistent : ∃ B, Consistent n (asBuffers c) B held
  count : ∀ i < n, (c.inode i).iCount = if i ∈ held then 1 else 0

section
variable (h : Good n c held)
include h

theorem Good.locked_iff (hi : i < n) : isLocked c i = true ↔ i ∈ held := by
  obtain ⟨B, hB⟩ := h.consistent
  rw [hB.mem_held, locked_asBuffers]
  simp [hi]

theorem inodeInvariant_of_good : InodeInvariant n c := by
  obtain ⟨B, hB⟩ := h.consistent
  obtain ⟨chains, free, hl⟩ := cacheInvariant_of_consistent hB
  refine ⟨chains, free, fun k hk => ⟨(hl.chain_ring k hk).apart, (hl.chain_ring k hk).chain⟩,
    ⟨hl.free_ring.apart, hl.free_ring.chain⟩, hl.chain_lt, hl.free_lt, hl.on_chain, hl.key,
    fun i hi => ?_⟩
  rw [hl.on_free i hi, h.count i hi]
  by_cases hheld : i ∈ held
  · rw [if_pos (locked_asBuffers.mpr ((h.locked_iff hi).mpr hheld)), if_pos hheld]
    rfl
  · rw [if_neg fun hlock => hheld ((h.locked_iff hi).mp (locked_asBuffers.mp hlock)), if_neg hheld]
    rfl

theorem Good.lt (hi : i ∈ held) : i < n := by
  obtain ⟨B, hB⟩ := h.consistent
  exact ((hB.mem_held i).mp hi).1

theorem Good.free_nonempty (hi : i < n) (hheld : i ∉ held) : listIsEmpty c Link.free = false := by
  obtain ⟨B, hB⟩ := h.consistent
  have hfree : i ∈ B .free := (hB.mem_free i).mpr
    ⟨hi, fun hl => hheld ((h.locked_iff hi).mp (locked_asBuffers.mp hl))⟩
  rcases hB.free_cases with ⟨hnil, -⟩ | ⟨_, _, -, he, -⟩
  · simp [hnil] at hfree
  · exact he

end

theorem iCount_setFlags (v : ℕ) : ((setFlags c i v).inode j).iCount = (c.inode j).iCount := by
  by_cases hj : j = i <;> simp [setFlags, ICache.upd, hj]

theorem iCount_setCount (v : ℕ) :
    ((setCount c i v).inode j).iCount = if j = i then v else (c.inode j).iCount := by
  by_cases hj : j = i <;> simp [setCount, ICache.upd, hj]

theorem iCount_takeInode : ((takeInode c i).inode j).iCount =
    if j = i then u32 ((c.inode i).iCount + 1) else (c.inode j).iCount := by
  unfold takeInode
  rw [lockedInode, iCount_setFlags, iCount_setCount]
  split_ifs <;> rfl

theorem iCount_putInode : ((putInode c i).inode j).iCount =
    if j = i then sub32 (c.inode i).iCount 1 else (c.inode j).iCount := by
  have hlock : ∀ k, ((lockedInode c i).inode k).iCount = (c.inode k).iCount := fun k =>
    iCount_setFlags _
  unfold putInode
  rw [unlockedInode, iCount_setFlags]
  exact (iCount_setCount _).trans (by rw [hlock, hlock])

/-- **A free inode is taken.** -/
theorem Good.take (h : Good n c held) (hi : i < n) (hheld : i ∉ held) :
    Good n (takeInode c i) (i :: held) := by
  obtain ⟨B, hB⟩ := h.consistent
  have hcount : (c.inode i).iCount = 0 := by rw [h.count i hi, if_neg hheld]
  have hfree : i ∈ B .free := (hB.mem_free i).mpr
    ⟨hi, fun hl => hheld ((h.locked_iff hi).mp (locked_asBuffers.mp hl))⟩
  refine ⟨⟨_, asBuffers_takeInode hcount ▸ hB.take hfree⟩, fun j hj => ?_⟩
  rw [iCount_takeInode]
  by_cases hji : j = i
  · rw [if_pos hji, hcount, if_pos (by simp [hji])]
    rfl
  · rw [if_neg hji, h.count j hj]
    simp [hji]

/-- **An inode is given back.** -/
theorem Good.put (h : Good n c held) (hi : i ∈ held) : Good n (putInode c i) (held.erase i) := by
  obtain ⟨B, hB⟩ := h.consistent
  obtain ⟨l, hl⟩ := hB.brelse hi
  refine ⟨⟨_, asBuffers_putInode ((h.locked_iff (h.lt hi)).mpr hi) ▸ hl⟩, fun j hj => ?_⟩
  rw [iCount_putInode]
  by_cases hji : j = i
  · rw [if_pos hji, h.count i (h.lt hi), if_pos hi, hji, if_neg hB.held_nodup.not_mem_erase]
    rfl
  · rw [if_neg hji, h.count j hj]
    exact if_congr (List.mem_erase_of_ne hji).symm rfl rfl

/-! ### `iget` and `iput` -/

section Calls
variable {σ : Type} {ops : BufferOps σ} {super : Option ℕ} {s : σ} {inum : ℕ}

/-- The inode is in core. -/
def Cached (n : ℕ) (c : ICache) (inum : ℕ) : Prop :=
  ∃ i < n, iNo (c.inode i).dinode = inum ∧ iDev (c.inode i).dinode = devNo

/-- **What `iget` does** for an inode that is not in use: it takes it if it is cached, and returns
NULL if it is not and no inode is free. If it is not and an inode is free, it uses a NULL
pointer. -/
theorem Good.iget (h : Good n c held) (hlegal : ∀ i ∈ held, iNo (c.inode i).dinode ≠ inum)
    (ops : BufferOps σ) (super : Option ℕ) (s : σ) (fuel : ℕ) :
    (iget ops super fuel c s devNo inum = .error .spinning ∧ fuel ≤ n) ∨
    (∃ i < n, iNo (c.inode i).dinode = inum ∧ iDev (c.inode i).dinode = devNo ∧ i ∉ held ∧
      iget ops super fuel c s devNo inum = .ok (some i, takeInode c i, s)) ∨
    (¬ Cached n c inum ∧ listIsEmpty c Link.free = true ∧
      iget ops super fuel c s devNo inum = .ok (none, c, s)) ∨
    (¬ Cached n c inum ∧ listIsEmpty c Link.free = false ∧
      iget ops super fuel c s devNo inum = .error .nullPointer) := by
  obtain ⟨B, hB⟩ := h.consistent
  unfold InodeCache.iget
  rcases fuel with _ | fuel
  · exact .inl ⟨rfl, Nat.zero_le n⟩
  rw [igetLoop, searchHash_asBuffers]
  rcases hB.searchHash (fuel + 1) inum with ⟨i, hi, hno, hs⟩ | ⟨hnone, hs⟩ | ⟨hs, hle⟩
  · have hheld : i ∉ held := fun hm => hlegal i hm hno
    have hlock : isLocked c i = false := by
      rw [Bool.eq_false_iff]
      exact fun hl => hheld ((h.locked_iff hi).mp hl)
    refine .inr (.inl ⟨i, hi, hno, hB.dev i hi, hheld, ?_⟩)
    simp [hs, hlock, Bind.bind, Except.bind, pure, Except.pure]
  · have hnot : ¬ Cached n c inum := fun ⟨i, hi, hno, _⟩ => hnone i hi hno
    rcases he : listIsEmpty c Link.free with _ | _
    · refine .inr (.inr (.inr ⟨hnot, rfl, ?_⟩))
      simp [hs, loadInode, deref, Bind.bind, Except.bind]
    · refine .inr (.inr (.inl ⟨hnot, rfl, ?_⟩))
      simp [hs, Bind.bind, Except.bind, pure, Except.pure]
  · refine .inl ⟨?_, hle⟩
    rw [hs]
    rfl

theorem iput_cases {c' : ICache} {s' : σ} (h : iput ops super c s i = .ok (c', s')) :
    c' = putInode c i := by
  unfold InodeCache.iput at h
  dsimp only at h
  split_ifs at h
  · obtain ⟨_, -, h⟩ := bind_eq_ok.mp h
    obtain ⟨_, -, h⟩ := bind_eq_ok.mp h
    exact (Prod.mk.inj (Except.ok.inj h)).1.symm
  · exact (Prod.mk.inj (Except.ok.inj h)).1.symm

/-! ### Initialisation -/

/-- The cache after `k` rounds of the loop in `create_inode_cache`. -/
structure Filled (k : ℕ) (c : ICache) (B : Queue → List ℕ) : Prop where
  buffers : BufferSpec.Filled BufferRun.zeroData k (asBuffers c) B
  count : ∀ i < k, (c.inode i).iCount = 0

theorem inodeFields_apart (dev inum : ℕ) : (inodeFields dev inum).Pairwise FieldsApart :=
  of_decide_eq_true rfl

theorem inodeInit_inode (hi : i < 2 ^ 32) : iNo ((inodeInit c i devNo i).inode i).dinode = i ∧
      iDev ((inodeInit c i devNo i).inode i).dinode = devNo ∧
      isLocked (inodeInit c i devNo i) i = false ∧ ((inodeInit c i devNo i).inode i).iCount = 0 := by
  have hself : (inodeInit c i devNo i).inode i = { c.inode i with
      dinode := storeAll (c.inode i).dinode (inodeFields devNo i), iCount := 0 } :=
    update_self ..
  have hfield := load_storeAll (m := (c.inode i).dinode) (inodeFields_apart devNo i)
  rw [isLocked, hself]
  refine ⟨?_, ?_, ?_, rfl⟩
  · exact (hfield (100, 4, i) (by simp [inodeFields])).trans (Nat.mod_eq_of_lt hi)
  · exact hfield (36, 4, devNo) (by simp [inodeFields])
  · have hflags : iFlags (storeAll (c.inode i).dinode (inodeFields devNo i)) = 0 :=
      hfield (32, 4, 0) (by simp [inodeFields])
    rw [hflags]
    rfl

theorem inodeInit_other {dev inum : ℕ} (hj : j ≠ i) :
    (inodeInit c i dev inum).inode j = c.inode j := update_of_ne hj _ _

/-- **One round** of the loop adds one inode. -/
theorem Filled.addInode {k : ℕ} {B : Queue → List ℕ} (h : Filled k c B) (hk : k < 2 ^ 32) :
    ∃ B', Filled (k + 1) (addInode c k) B' := by
  obtain ⟨hno, hdev, hlock, hcount⟩ := inodeInit_inode (c := c) hk
  obtain ⟨-, hchain⟩ := h.buffers.not_mem
  have hlists : Lists (asBuffers (inodeInit c k devNo k)) B := by
    have hnull := h.buffers.lists.transport fun q _ x hx =>
      sameLinks_initListNull Link.null _ (apart_chain ⟨0, by decide⟩ hchain q trivial x hx)
    exact lists_congr hnull rfl
  have hheads : ∀ j < k + 1, (asBuffers (inodeInit c k devNo k)).heads j =
      freshHead BufferRun.zeroData j := by
    intro j hj
    by_cases hjk : j = k
    · subst hjk
      simp only [asBuffers, hno, hdev, hlock, freshHead, BufferRun.zeroData]
      rfl
    · have hold := h.buffers.heads j (by omega)
      simp only [asBuffers, isLocked, inodeInit_other hjk] at hold ⊢
      exact hold
  obtain ⟨B', hB'⟩ := h.buffers.link hlists hheads
  refine ⟨B', hB', fun j hj => ?_⟩
  by_cases hjk : j = k
  · subst hjk
    exact hcount
  · exact (congrArg Inode.iCount (inodeInit_other hjk)).trans (h.count j (by omega))

theorem filled_rounds (c : ICache) : ∀ k < 2 ^ 32,
    ∃ B, Filled k ((List.range k).foldl addInode (initHeads c)) B
  | 0, _ => ⟨fun _ => [], ⟨lists_initHeads (asBuffers c), by simp, by simp, by simp⟩, by simp⟩
  | k + 1, hk => by
    obtain ⟨B, hB⟩ := filled_rounds c k (by omega)
    rw [List.range_succ, List.foldl_append]
    exact hB.addInode (by omega)

theorem good_addInodes (c : ICache) (got : ℕ) : Good (min got inodes) (addInodes c got) [] ∧
    ∀ i < min got inodes, iNo ((addInodes c got).inode i).dinode = i := by
  obtain ⟨B, hB⟩ := filled_rounds c (min got inodes) (by unfold inodes; omega)
  refine ⟨⟨⟨B, hB.buffers.consistent fun _ _ => rfl⟩, fun i hi => ?_⟩, fun i hi => ?_⟩
  · exact hB.count i hi
  · exact congrArg Buffer.BufferHead.bBlocknr (hB.buffers.heads i hi)

/-! ### Runs -/

/-- The inode cache, the buffers under it, and the inodes that the clients hold. -/
structure Session (σ : Type) where
  cache : ICache
  store : σ
  held : List ℕ

inductive Act
  | iget (inum : ℕ)
  | iput (i : ℕ)

def act (ops : BufferOps σ) (super : Option ℕ) (fuel : ℕ) : Act → Session σ → Except Fault (Session σ)
  | .iget inum, t => do
    let (inode, c, s) ← InodeCache.iget ops super fuel t.cache t.store devNo inum
    return { cache := c, store := s, held := inode.toList ++ t.held }
  | .iput i, t => do
    let (c, s) ← InodeCache.iput ops super t.cache t.store i
    return { cache := c, store := s, held := t.held.erase i }

/-- Clients ask for no inode that is in use, and give back only inodes that they hold. -/
def Legal (t : Session σ) : Act → Prop
  | .iget inum => ∀ i ∈ t.held, iNo (t.cache.inode i).dinode ≠ inum
  | .iput i => i ∈ t.held

/-- A call that comes back. -/
def Step (ops : BufferOps σ) (super : Option ℕ) (t t' : Session σ) : Prop :=
  ∃ fuel a, Legal t a ∧ act ops super fuel a t = .ok t'

/-- The inode is in core, or no inode is free. -/
def Servable (n : ℕ) (c : ICache) (inum : ℕ) : Prop :=
  Cached n c inum ∨ listIsEmpty c Link.free = true

/-- The inode `i`, which was free, has been read from the disk; its flags apart, which have the
lock. -/
def Loaded (ops : BufferOps σ) (super : Option ℕ) (t : Session σ) (inum i : ℕ) (c : ICache) : Prop :=
  (t.cache.inode i).iCount = 0 ∧ ∃ bh dinode s, super = some bh ∧
    getDinode ops bh t.store inum = .ok (dinode, s) ∧
    ∀ off < dinodeSize, off < 32 ∨ 36 ≤ off → (c.inode i).dinode off = dinode off

/-- **What `iget` should do**: return the inode, of one reference more than before, which it has
read from the disk if it was not in core; or NULL if it was not and no inode was free. -/
def IgetRight (n : ℕ) (ops : BufferOps σ) (super : Option ℕ) (fuel : ℕ) (t : Session σ) (inum : ℕ) :
    Prop :=
  ∃ inode c s, InodeCache.iget ops super fuel t.cache t.store devNo inum = .ok (inode, c, s) ∧
    match inode with
    | some i => i < n ∧ iNo (c.inode i).dinode = inum ∧ iDev (c.inode i).dinode = devNo ∧
        (c.inode i).iCount = (t.cache.inode i).iCount + 1 ∧
        (¬ Cached n t.cache inum → Loaded ops super t inum i c)
    | none => ¬ Cached n t.cache inum ∧ listIsEmpty t.cache Link.free = true

variable {t t' : Session σ}

theorem numbers_takeInode (h : (c.inode i).iCount = 0) (j : ℕ) :
    iNo ((takeInode c i).inode j).dinode = iNo (c.inode j).dinode ∧
      iDev ((takeInode c i).inode j).dinode = iDev (c.inode j).dinode := by
  have hsame := sameBlocks_takeBuffer (asBuffers c) i j
  rw [← asBuffers_takeInode h] at hsame
  exact ⟨hsame.2.1, hsame.1⟩

/-- **One step** keeps the cache in order: a call of `iget` that cannot be served does not come
back. -/
theorem Good.step (h : Good n t.cache t.held) (hstep : Step ops super t t') :
    Good n t'.cache t'.held := by
  obtain ⟨fuel, a, hlegal, hact⟩ := hstep
  cases a with
  | iget inum =>
    obtain ⟨⟨inode, c, s⟩, hget, hact⟩ := bind_eq_ok.mp hact
    obtain rfl := Except.ok.inj hact
    rcases h.iget hlegal ops super _ fuel with ⟨herr, -⟩ | ⟨i, hi, -, -, hheld, hok⟩ | ⟨-, -,
      hok⟩ | ⟨-, -, herr⟩
    · exact absurd (hget.symm.trans herr) (by simp)
    · obtain ⟨rfl, hrest⟩ := Prod.mk.inj (Except.ok.inj (hget.symm.trans hok))
      obtain ⟨rfl, rfl⟩ := Prod.mk.inj hrest
      exact h.take hi hheld
    · obtain ⟨rfl, hrest⟩ := Prod.mk.inj (Except.ok.inj (hget.symm.trans hok))
      obtain ⟨rfl, rfl⟩ := Prod.mk.inj hrest
      exact h
    · exact absurd (hget.symm.trans herr) (by simp)
  | iput i =>
    obtain ⟨⟨c, s⟩, hput, hact⟩ := bind_eq_ok.mp hact
    obtain rfl := Except.ok.inj hact
    obtain rfl := iput_cases hput
    exact h.put hlegal

/-- **`iget` is right exactly when it can serve the request.** -/
theorem Good.igetRight_iff (h : Good n t.cache t.held) (hlegal : Legal t (.iget inum)) (hn : n < fuel) :
    IgetRight n ops super fuel t inum ↔ Servable n t.cache inum := by
  rcases h.iget hlegal ops super t.store fuel with
    ⟨-, hle⟩ | ⟨i, hi, hno, hdev, hheld, hok⟩ | ⟨hnot, hempty, hok⟩ | ⟨hnot, hempty, herr⟩
  · omega
  · have hcached : Cached n t.cache inum := ⟨i, hi, hno, hdev⟩
    have hcount : (t.cache.inode i).iCount = 0 := by rw [h.count i hi, if_neg hheld]
    refine ⟨fun _ => .inl hcached, fun _ => ⟨some i, _, t.store, hok, hi, ?_, ?_, ?_, ?_⟩⟩
    · exact (numbers_takeInode hcount i).1.trans hno
    · exact (numbers_takeInode hcount i).2.trans hdev
    · rw [iCount_takeInode, if_pos rfl, hcount]
      rfl
    · exact fun hnot => absurd hcached hnot
  · exact ⟨fun _ => .inr hempty, fun _ => ⟨none, _, t.store, hok, hnot, hempty⟩⟩
  · constructor
    · rintro ⟨inode, c, s, hok, -⟩
      exact absurd (herr.symm.trans hok) (by simp)
    · rintro (hcached | hempty')
      · exact absurd hcached hnot
      · exact absurd (hempty.symm.trans hempty') (by simp)

theorem good_createInodeCache {c' : ICache} {s' : σ} {got : ℕ} {first : Option ℕ}
    (h : createInodeCache ops super fuel c s got = .ok (first, c', s')) :
    Good (min got inodes) c' first.toList := by
  have hgood : Good (min got inodes) (addInodes c got) [] := (good_addInodes c got).1
  have hstep : Step ops super ⟨addInodes c got, s, []⟩ ⟨c', s', first.toList ++ []⟩ := by
    refine ⟨fuel, .iget 16, by simp [Legal], ?_⟩
    rw [createInodeCache] at h
    simp only [act, h, Bind.bind, Except.bind, pure, Except.pure]
  have hgood' := Good.step (t := ⟨addInodes c got, s, []⟩) hgood hstep
  rwa [List.append_nil] at hgood'

/-- **The inode cache.** In every run from the cache that `create_inode_cache` leaves, in which
clients ask for no inode that is in use and give back only inodes that they hold: the invariant
holds in every state reached; `i_count` is decremented by one when an inode is given back; and a
call of `iget` does what it should exactly if the inode is in core or no inode is free. -/
theorem iget_right_iff_of_run {σ : Type} {ops : BufferOps σ} {super : Option ℕ} {fuel got : ℕ}
    {c c' : ICache} {s s' : σ} {first : Option ℕ}
    (hcreate : createInodeCache ops super fuel c s got = .ok (first, c', s')) {t : Session σ}
    (hrun : Relation.ReflTransGen (Step ops super) ⟨c', s', first.toList⟩ t) :
    InodeInvariant (min got inodes) t.cache ∧
    (∀ i ∈ t.held, ∀ c'' s'', InodeCache.iput ops super t.cache t.store i = .ok (c'', s'') →
      (c''.inode i).iCount + 1 = (t.cache.inode i).iCount) ∧
    ∀ inum, Legal t (.iget inum) → ∀ fuel, inodes < fuel →
      (IgetRight (min got inodes) ops super fuel t inum ↔ Servable (min got inodes) t.cache inum) := by
  have hgood : Good (min got inodes) t.cache t.held :=
    invariant_of_run (I := fun t => Good (min got inodes) t.cache t.held)
      (fun _ _ h hstep => h.step hstep) (good_createInodeCache hcreate) hrun
  refine ⟨inodeInvariant_of_good hgood, fun i hi c'' s'' hput => ?_, fun inum hlegal fuel hfuel => ?_⟩
  · rw [iput_cases hput, iCount_putInode, if_pos rfl, hgood.count i (hgood.lt hi), if_pos hi]
    rfl
  · exact hgood.igetRight_iff hlegal (lt_of_le_of_lt (Nat.min_le_right _ _) hfuel)

end Calls

/-! ### The inodes from 0 on, and one behind them -/

/-- Memory of zeros. -/
def zeroICache : ICache :=
  { inode := fun _ => { dinode := fun _ => 0, iState := 0, iCount := 0 }
    links := fun _ => { next := .null, prev := .null } }

def zeroStore : Store := ⟨fun _ _ => 0, fun _ _ => 0, []⟩

/-- The cache after its initialisation: inode 16 is in use. -/
def freshICache : ICache := takeInode (addInodes zeroICache inodes) 16

theorem createInodeCache_zero : createInodeCache storeOps (some 1) 31 zeroICache zeroStore inodes =
    .ok (some 16, freshICache, zeroStore) := by
  obtain ⟨hgood, hno⟩ := good_addInodes zeroICache inodes
  obtain ⟨B, hB⟩ := hgood.consistent
  have hcached : Cached (min inodes inodes) (addInodes zeroICache inodes) 16 :=
    ⟨16, by decide, hno 16 (by decide), hB.dev 16 (by decide)⟩
  rcases hgood.iget (by simp) storeOps (some 1) zeroStore 31 with
    ⟨-, hle⟩ | ⟨i, hi, hi16, -, -, hok⟩ | ⟨hnot, -⟩ | ⟨hnot, -⟩
  · exact absurd hle (by decide)
  · obtain rfl : i = 16 := (hno i hi).symm.trans hi16
    exact hok
  · exact absurd hcached hnot
  · exact absurd hcached hnot

theorem good_freshICache : Good inodes freshICache [16] ∧
    ∀ i < inodes, iNo (freshICache.inode i).dinode = i := by
  obtain ⟨hgood, hno⟩ := good_addInodes zeroICache inodes
  have hcount : ((addInodes zeroICache inodes).inode 16).iCount = 0 := hgood.count 16 (by decide)
  exact ⟨hgood.take (by decide) (by simp),
    fun i hi => (numbers_takeInode hcount i).1.trans (hno i hi)⟩

/-- Inode 7 is in core. -/
theorem iget_right_inode_7 : createInodeCache storeOps (some 1) 31 zeroICache zeroStore inodes =
      .ok (some 16, freshICache, zeroStore) ∧
    IgetRight inodes storeOps (some 1) 31 ⟨freshICache, zeroStore, [16]⟩ 7 := by
  obtain ⟨hgood, hno⟩ := good_freshICache
  obtain ⟨B, hB⟩ := hgood.consistent
  refine ⟨createInodeCache_zero, ((iget_right_iff_of_run createInodeCache_zero .refl).2.2 7 ?_ 31
    (by decide)).mpr (.inl ⟨7, by decide, hno 7 (by decide), hB.dev 7 (by decide)⟩)⟩
  intro i hi
  obtain rfl := List.mem_singleton.mp hi
  rw [hno 16 (by decide)]
  decide

/-- Inode 30 is not in core and inodes are free: `iget` uses a NULL pointer. -/
theorem iget_faults_inode_30 : createInodeCache storeOps (some 1) 31 zeroICache zeroStore inodes =
      .ok (some 16, freshICache, zeroStore) ∧
    listIsEmpty freshICache Link.free = false ∧
    iget storeOps (some 1) 31 freshICache zeroStore devNo 30 = .error .nullPointer ∧
    ¬ IgetRight inodes storeOps (some 1) 31 ⟨freshICache, zeroStore, [16]⟩ 30 := by
  obtain ⟨hgood, hno⟩ := good_freshICache
  have hnot : ∀ i < inodes, iNo (freshICache.inode i).dinode ≠ 30 := by
    intro i hi
    rw [hno i hi]
    exact Nat.ne_of_lt hi
  have hlegal : ∀ i ∈ [16], iNo (freshICache.inode i).dinode ≠ 30 := fun i hi =>
    hnot i (hgood.lt hi)
  have hfree : listIsEmpty freshICache Link.free = false :=
    hgood.free_nonempty (i := 0) (by decide) (by decide)
  refine ⟨createInodeCache_zero, hfree, ?_, ?_⟩
  · rcases hgood.iget hlegal storeOps (some 1) zeroStore 31 with
      ⟨-, hle⟩ | ⟨i, hi, h30, -⟩ | ⟨-, hempty, -⟩ | ⟨-, -, herr⟩
    · exact absurd hle (by decide)
    · exact absurd h30 (hnot i hi)
    · exact absurd (hfree.symm.trans hempty) (by simp)
    · exact herr
  · rw [Good.igetRight_iff (t := ⟨freshICache, zeroStore, [16]⟩) hgood hlegal (by decide)]
    rintro (⟨i, hi, h30, -⟩ | hempty)
    · exact hnot i hi h30
    · exact absurd (hfree.symm.trans hempty) (by simp)

end YegaKernel.Fs.Ufs.InodeCacheRun
