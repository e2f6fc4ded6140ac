import YegaKernel.Lib.Families
import YegaKernel.Fs.Buffer
import Mathlib.Data.List.Perm.Subperm

/-! # What the buffer cache represents

`Consistent n s B held`: the first `n` buffer heads are those of the cache; the lists hold the
sequences `B` (the free list and the hash chains), every buffer is on the chain of its block number,
on the free list unless it is locked, and locked exactly if a client holds it.

Each operation has one lemma that says what becomes of the represented sequences. `getblk` keeps the
cache consistent as long as it finds the block (`Consistent.take`), and when it has to recycle a
buffer only for the block number `DEV_NO` (`Consistent.recycle`), the one number for which
`hash_fn(dev_no, blocknr)` and `hash_fn(blocknr, dev_no)` are the same chain. -/

namespace YegaKernel.Fs.BufferSpec

open Lib.Links Lib.Families Fs.Disk Fs.Buffer Function

/-! ### The five lists -/

/-- The lists in `buffer_cache`. -/
inductive Queue
  | free
  | chain (i : Fin devNo)
  deriving DecidableEq

def Queue.head : Queue → Link
  | .free => .free
  | .chain i => .hash i

def Queue.node : Queue → ℕ → Link
  | .free => .freeOf
  | .chain _ => .hashOf

/-- The chain on which `search_hash` looks for a block. -/
def chainOf (blocknr : ℕ) : Queue := .chain ⟨blocknr % devNo, Nat.mod_lt _ (by decide)⟩

theorem chainOf_inj {m k : ℕ} : chainOf m = chainOf k ↔ m % devNo = k % devNo := by
  simp [chainOf]

theorem chain_eq (j : Fin devNo) : Queue.chain j = chainOf j := by
  simp [chainOf, Nat.mod_eq_of_lt j.isLt]

variable {s : Cache} {B : Queue → List ℕ} {b m : ℕ}

/-- The free list and the hash chains represent the sequences `B`. -/
abbrev Lists (s : Cache) (B : Queue → List ℕ) : Prop :=
  Rings s (fun _ => True) Queue.head Queue.node B

variable {s' : Cache}

theorem lists_congr (h : Lists s B) (hs : s'.links = s.links) : Lists s' B :=
  h.transport fun _ _ n _ => by
    simp only [SameLinks, LinkStore.next, LinkStore.prev, hs, and_self]

theorem apart_free (hb : b ∉ B .free) (q : Queue) (_ : True) :
    ∀ n ∈ q.head :: (B q).map q.node, LinkStore.Apart Cache (Queue.free.node b) n := by
  intro n hn
  rintro rfl
  rcases q with _ | i <;> simp [Queue.head, Queue.node] at hn
  exact hb hn

theorem apart_chain (i : Fin devNo) (hb : ∀ j, b ∉ B (.chain j)) (q : Queue) (_ : True) :
    ∀ n ∈ q.head :: (B q).map q.node, LinkStore.Apart Cache ((Queue.chain i).node b) n := by
  intro n hn
  rintro rfl
  rcases q with _ | j <;> simp [Queue.head, Queue.node] at hn
  exact hb j hn

/-! ### Consistent caches -/

/-- The buffer is locked. -/
def Locked (s : Cache) (b : ℕ) : Prop := isFlag (s.heads b).flags bhLock = true

instance (s : Cache) (b : ℕ) : Decidable (Locked s b) := inferInstanceAs (Decidable (_ = _))

theorem locked_congr (h : s'.heads = s.heads) (c : ℕ) : Locked s' c ↔ Locked s c := by
  unfold Locked
  rw [h]

/-- **The cache is in order**: it has the buffers below `n`, of which the clients hold `held`. -/
structure Consistent (n : ℕ) (s : Cache) (B : Queue → List ℕ) (held : List ℕ) : Prop where
  lists : Lists s B
  dev : ∀ b < n, (s.heads b).bDev = devNo
  key : ∀ b < n, ∀ c < n, (s.heads b).bBlocknr = (s.heads c).bBlocknr → b = c
  data : ∀ b < n, (s.heads b).bData.isSome
  mem_chain : ∀ m b, b ∈ B (chainOf m) ↔ b < n ∧ chainOf (s.heads b).bBlocknr = chainOf m
  mem_free : ∀ b, b ∈ B .free ↔ b < n ∧ ¬ Locked s b
  mem_held : ∀ b, b ∈ held ↔ b < n ∧ Locked s b
  held_nodup : held.Nodup

variable {n : ℕ} {held : List ℕ}

/-- Apart from flags, the heads of the two caches agree. -/
def SameBlocks (s s' : Cache) : Prop := ∀ c, (s'.heads c).bDev = (s.heads c).bDev ∧
  (s'.heads c).bBlocknr = (s.heads c).bBlocknr ∧ (s'.heads c).bData = (s.heads c).bData

theorem sameBlocks_of_heads (h : s'.heads = s.heads) : SameBlocks s s' := by
  intro c
  rw [h]
  exact ⟨rfl, rfl, rfl⟩

theorem SameBlocks.trans {s s'' : Cache} (h : SameBlocks s s') (h' : SameBlocks s' s'') :
    SameBlocks s s'' := fun c =>
  ⟨(h' c).1.trans (h c).1, (h' c).2.1.trans (h c).2.1, (h' c).2.2.trans (h c).2.2⟩

theorem Consistent.regroup {l held' : List ℕ} (h : Consistent n s B held)
    (hsame : SameBlocks s s') (hlists : Lists s' (update B .free l))
    (hfree : ∀ b, b ∈ l ↔ b < n ∧ ¬ Locked s' b) (hheld : ∀ b, b ∈ held' ↔ b < n ∧ Locked s' b)
    (hnodup : held'.Nodup) : Consistent n s' (update B .free l) held' where
  lists := hlists
  dev b hb := (hsame b).1.trans (h.dev b hb)
  key b hb c hc hbc := h.key b hb c hc (by rwa [(hsame b).2.1, (hsame c).2.1] at hbc)
  data b hb := by rw [(hsame b).2.2]; exact h.data b hb
  mem_chain m b := by
    rw [update_of_ne (by simp [chainOf]), (hsame b).2.1]
    exact h.mem_chain m b
  mem_free := hfree
  mem_held := hheld
  held_nodup := hnodup

/-! ### Flags -/

theorem sameBlocks_setFlag (s : Cache) (b : ℕ) (flag : BitVec 16) :
    SameBlocks s (setFlag s b flag) := by
  intro c
  by_cases hc : c = b
  · subst hc
    simp [setFlag, Cache.updHead]
  · simp [setFlag, Cache.updHead, update_of_ne hc]

theorem sameBlocks_clearFlag (s : Cache) (b : ℕ) (flag : BitVec 16) :
    SameBlocks s (clearFlag s b flag) := by
  intro c
  by_cases hc : c = b
  · subst hc
    simp [clearFlag, Cache.updHead]
  · simp [clearFlag, Cache.updHead, update_of_ne hc]

theorem getLsbD_bit {i k : ℕ} (hi : i < 16) : (1#16 <<< k).getLsbD i = decide (i = k) := by
  by_cases hik : i = k
  · simp [hik, hik ▸ hi]
  · simp only [hik, decide_false]
    by_cases hlt : i < k
    · simp [hlt]
    · simp [show i - k ≠ 0 by omega]

theorem isFlag_bit (f : BitVec 16) {k : ℕ} (hk : k < 16) : isFlag f (1#16 <<< k) = f.getLsbD k := by
  rw [Bool.eq_iff_iff]
  unfold isFlag
  rw [decide_eq_true_eq]
  constructor
  · intro h
    have hb := congrArg (fun v : BitVec 16 => v.getLsbD k) h
    simpa [BitVec.getLsbD_and, getLsbD_bit hk] using hb
  · intro h
    refine BitVec.eq_of_getLsbD_eq fun i hi => ?_
    rw [BitVec.getLsbD_and, getLsbD_bit hi]
    by_cases hik : i = k
    · simp [hik, h]
    · simp [hik]

theorem isFlag_or_bit (f : BitVec 16) {j k : ℕ} (hk : k < 16) : isFlag (f ||| 1#16 <<< j) (1#16 <<< k) =
    (isFlag f (1#16 <<< k) || decide (k = j)) := by
  rw [isFlag_bit _ hk, isFlag_bit _ hk, BitVec.getLsbD_or, getLsbD_bit hk]

theorem isFlag_clear_bit (f : BitVec 16) {j k : ℕ} (hk : k < 16) :
    isFlag (f &&& ~~~(1#16 <<< j)) (1#16 <<< k) = (isFlag f (1#16 <<< k) && !decide (k = j)) := by
  rw [isFlag_bit _ hk, isFlag_bit _ hk, BitVec.getLsbD_and, BitVec.getLsbD_not, getLsbD_bit hk]
  simp [hk]

theorem isFlag_iff (f : BitVec 16) : isFlag f bhLock = true ↔ f.getLsbD 0 = true := by
  rw [bhLock, isFlag_bit f (by decide)]

theorem locked_lockedBuffer (s : Cache) (b c : ℕ) :
    Locked (lockedBuffer s b) c ↔ c = b ∨ Locked s c := by
  unfold Locked
  rw [isFlag_iff, isFlag_iff]
  by_cases hc : c = b
  · subst hc
    simp [lockedBuffer, setFlag, Cache.updHead, bhLock]
  · simp [lockedBuffer, setFlag, Cache.updHead, hc]

theorem locked_clearFlag (s : Cache) (b c : ℕ) (flag : BitVec 16) :
    Locked (clearFlag s b flag) c ↔ Locked s c ∧ (c = b → flag.getLsbD 0 = false) := by
  unfold Locked
  rw [isFlag_iff, isFlag_iff]
  by_cases hc : c = b
  · subst hc
    simp [clearFlag, Cache.updHead]
  · simp [clearFlag, Cache.updHead, hc]

theorem locked_unlockedBuffer (s : Cache) (b c : ℕ) :
    Locked (unlockedBuffer s b) c ↔ Locked s c ∧ c ≠ b := by
  have hbit : ¬ bhLock.getLsbD 0 = false := by decide
  rw [unlockedBuffer, locked_clearFlag]
  exact and_congr_right fun _ => ⟨fun h hc => hbit (h hc), fun h hc => absurd hc h⟩

/-! ### A buffer is taken, and given back -/

theorem Consistent.hold (h : Consistent n s B held) (hb : b < n ∧ ¬ Locked s b)
    (hlock : ∀ c, Locked s' c ↔ c = b ∨ Locked s c) :
    (∀ c, c ∈ b :: held ↔ c < n ∧ Locked s' c) ∧ (b :: held).Nodup := by
  refine ⟨fun c => ?_, List.nodup_cons.mpr ⟨fun hm => hb.2 ((h.mem_held b).mp hm).2, h.held_nodup⟩⟩
  rw [List.mem_cons, h.mem_held, hlock]
  constructor
  · rintro (rfl | hc)
    · exact ⟨hb.1, Or.inl rfl⟩
    · exact ⟨hc.1, Or.inr hc.2⟩
  · rintro ⟨hc, rfl | hl⟩
    · exact Or.inl rfl
    · exact Or.inr ⟨hc, hl⟩

/-- The steps of `getblk` for a block that is cached in an unlocked buffer. -/
def takeBuffer (s : Cache) (b : ℕ) : Cache := lockedBuffer (listDel .null s (.freeOf b)) b

theorem takeBuffer_heads (s : Cache) (b c : ℕ) : (takeBuffer s b).heads c = if c = b then
    { s.heads b with flags := (s.heads b).flags ||| bhLock } else s.heads c := by
  by_cases hc : c = b <;> simp [takeBuffer, lockedBuffer, setFlag, Cache.updHead, hc]

theorem sameBlocks_takeBuffer (s : Cache) (b : ℕ) : SameBlocks s (takeBuffer s b) :=
  (sameBlocks_of_heads (listDel_heads s (.freeOf b))).trans (sameBlocks_setFlag _ b bhLock)

/-- **A buffer comes off the free list** and is held by its client. -/
theorem Consistent.take (h : Consistent n s B held) (hb : b ∈ B .free) :
    Consistent n (takeBuffer s b) (update B .free ((B .free).erase b)) (b :: held) := by
  have hbn := (h.mem_free b).mp hb
  have hlock : ∀ c, Locked (takeBuffer s b) c ↔ c = b ∨ Locked s c := by
    intro c
    rw [takeBuffer, locked_lockedBuffer, locked_congr (listDel_heads s _)]
  refine h.regroup (sameBlocks_takeBuffer s b) ?_ (fun c => ?_) (fun c => ?_) ?_
  · exact lists_congr (h.lists.listDel .null trivial hb) rfl
  · rw [(h.lists.nodup (i := .free) trivial).mem_erase_iff, h.mem_free, hlock]
    tauto
  · exact (h.hold hbn hlock).1 c
  · exact (h.hold hbn hlock).2

theorem brelse_heads (s : Cache) (b c : ℕ) : (brelse s b).heads c = if c = b then
    { s.heads b with flags := (s.heads b).flags &&& ~~~bhLock } else s.heads c := by
  unfold brelse
  split_ifs <;> by_cases hc : c = b <;> simp_all [unlockedBuffer, clearFlag, Cache.updHead]

theorem brelse_disk (s : Cache) (b : ℕ) : (brelse s b).disk = s.disk := by
  unfold brelse
  split_ifs <;> rfl

theorem sameBlocks_brelse (s : Cache) (b : ℕ) : SameBlocks s (brelse s b) := by
  unfold brelse unlockedBuffer
  split_ifs
  · exact (sameBlocks_of_heads (listAddTail_heads s _ _)).trans (sameBlocks_clearFlag _ b bhLock)
  · exact (sameBlocks_of_heads (listAdd_heads s _ _)).trans (sameBlocks_clearFlag _ b bhLock)

/-- **A held buffer goes back to the free list**: to its end, or to its front if it is dirty or
old. -/
theorem Consistent.brelse_free (h : Consistent n s B held) (hb : b ∈ held) :
    Consistent n (brelse s b) (update B .free
      (if !isFlag (s.heads b).flags bhDirty && !isFlag (s.heads b).flags bhOld
        then B .free ++ [b] else b :: B .free)) (held.erase b) := by
  have hbn := (h.mem_held b).mp hb
  have hbf : b ∉ B .free := fun hm => ((h.mem_free b).mp hm).2 hbn.2
  have hlock : ∀ c, Locked (Buffer.brelse s b) c ↔ Locked s c ∧ c ≠ b := by
    intro c
    unfold Buffer.brelse
    split_ifs
    · rw [locked_unlockedBuffer, locked_congr (listAddTail_heads s _ _)]
    · rw [locked_unlockedBuffer, locked_congr (listAdd_heads s _ _)]
  have hmem : ∀ l, (∀ c, c ∈ l ↔ c = b ∨ c ∈ B .free) → Lists (Buffer.brelse s b)
      (update B .free l) → Consistent n (Buffer.brelse s b) (update B .free l)
        (held.erase b) := by
    intro l hl hlists
    refine h.regroup (sameBlocks_brelse s b) hlists (fun c => ?_) (fun c => ?_) ?_
    · rw [hl, h.mem_free, hlock]
      constructor
      · rintro (rfl | hc)
        · exact ⟨hbn.1, fun hc => hc.2 rfl⟩
        · exact ⟨hc.1, fun hc' => hc.2 hc'.1⟩
      · rintro ⟨hc, hcl⟩
        by_cases hcb : c = b
        · exact Or.inl hcb
        · exact Or.inr ⟨hc, fun hl => hcl ⟨hl, hcb⟩⟩
    · rw [h.held_nodup.mem_erase_iff, h.mem_held, hlock]
      tauto
    · exact h.held_nodup.erase b
  split_ifs with hd
  · refine hmem _ (by simp [or_comm]) (lists_congr (h.lists.listAddTail trivial (apart_free hbf)) ?_)
    simp [Buffer.brelse, hd, unlockedBuffer, clearFlag, Cache.updHead, Queue.head, Queue.node]
  · refine hmem _ (by simp) (lists_congr (h.lists.listAdd trivial (apart_free hbf)) ?_)
    simp [Buffer.brelse, hd, unlockedBuffer, clearFlag, Cache.updHead, Queue.head, Queue.node]

theorem Consistent.brelse (h : Consistent n s B held) (hb : b ∈ held) :
    ∃ l, Consistent n (brelse s b) (update B .free l) (held.erase b) :=
  ⟨_, h.brelse_free hb⟩

/-! ### Changes behind the lists -/

theorem Consistent.setDisk (h : Consistent n s B held) (disk : Sectors) :
    Consistent n { s with disk := disk } B held :=
  ⟨lists_congr h.lists rfl, h.dev, h.key, h.data, h.mem_chain, h.mem_free, h.mem_held, h.held_nodup⟩

theorem Consistent.updHead (h : Consistent n s B held) {f : BufferHead → BufferHead}
    (hdev : (f (s.heads b)).bDev = (s.heads b).bDev)
    (hblk : (f (s.heads b)).bBlocknr = (s.heads b).bBlocknr) (hdata : (f (s.heads b)).bData.isSome)
    (hflags : isFlag (f (s.heads b)).flags bhLock = isFlag (s.heads b).flags bhLock) :
    Consistent n (s.updHead b f) B held := by
  have hheads : ∀ c, (s.updHead b f).heads c = if c = b then f (s.heads b) else s.heads c := by
    intro c
    by_cases hc : c = b <;> simp [Cache.updHead, hc]
  have hlock : ∀ c, Locked (s.updHead b f) c ↔ Locked s c := by
    intro c
    unfold Locked
    rw [hheads]
    by_cases hc : c = b <;> simp [hc, hflags]
  have hkey : ∀ c, ((s.updHead b f).heads c).bBlocknr = (s.heads c).bBlocknr := by
    intro c
    rw [hheads]
    by_cases hc : c = b <;> simp [hc, hblk]
  refine ⟨lists_congr h.lists rfl, fun c hc => ?_, fun c hc d hd => ?_, fun c hc => ?_, fun m c => ?_,
    fun c => ?_, fun c => ?_, h.held_nodup⟩
  · rw [hheads]
    split_ifs with hcb
    · rw [hdev]
      exact h.dev b (hcb ▸ hc)
    · exact h.dev c hc
  · rw [hkey, hkey]
    exact h.key c hc d hd
  · rw [hheads]
    split_ifs
    · exact hdata
    · exact h.data c hc
  · rw [hkey]
    exact h.mem_chain m c
  · rw [hlock]
    exact h.mem_free c
  · rw [hlock]
    exact h.mem_held c

theorem sameBlocks_writeDelayed (s : Cache) (b : ℕ) (data : Bytes) :
    SameBlocks s (writeDelayed (listDel .null s (.freeOf b)) b data) := by
  have h1 : SameBlocks s (listDel .null s (.freeOf b)) := sameBlocks_of_heads (listDel_heads s _)
  have h2 := sameBlocks_clearFlag { listDel Link.null s (.freeOf b) with
    disk := diskWriteBlk s.disk (s.heads b).bBlocknr data } b bhDelay
  exact (h1.trans h2).trans (sameBlocks_of_heads rfl)

theorem Consistent.writeDelayed (h : Consistent n s B held) (hb : b ∈ B .free) (data : Bytes) :
    Consistent n (writeDelayed (listDel .null s (.freeOf b)) b data)
      (update B .free (b :: (B .free).erase b)) held := by
  have hnodup := h.lists.nodup (i := .free) trivial
  have hlock : ∀ c, Locked (Buffer.writeDelayed (listDel .null s (.freeOf b)) b data) c ↔
      Locked s c := by
    intro c
    rw [Buffer.writeDelayed, locked_congr (listAdd_heads _ _ _), locked_clearFlag]
    have hbit : bhDelay.getLsbD 0 = false := by decide
    simp only [hbit, implies_true, and_true]
    exact locked_congr (listDel_heads s (.freeOf b)) c
  have hmem : ∀ c, c ∈ b :: (B .free).erase b ↔ c ∈ B .free := by
    intro c
    rw [List.mem_cons, hnodup.mem_erase_iff]
    constructor
    · rintro (rfl | hc)
      · exact hb
      · exact hc.2
    · intro hc
      by_cases hcb : c = b
      · exact Or.inl hcb
      · exact Or.inr ⟨hcb, hc⟩
  refine h.regroup ?_ ?_ (fun c => ?_) (fun c => ?_) h.held_nodup
  · exact sameBlocks_writeDelayed s b data
  · have hdel := h.lists.listDel .null trivial hb
    have hwritten : Lists (clearFlag { listDel Link.null s (.freeOf b) with
        disk := diskWriteBlk s.disk (s.heads b).bBlocknr data } b bhDelay) _ := lists_congr hdel rfl
    have hadd := Rings.listAdd (i := Queue.free) (b := b) hwritten trivial (apart_free (by
      exact hnodup.not_mem_erase))
    rwa [update_self, update_idem] at hadd
  · rw [hmem, h.mem_free, hlock]
  · rw [h.mem_held, hlock]

/-! ### Recycling -/

theorem hashHead_swapped_iff (m : ℕ) :
    (hashFn devNo m >>= hashHead) = .ok (chainOf m).head ↔ m = devNo := by
  constructor
  · intro h
    rcases Nat.lt_or_ge m 5 with hm | hm
    · interval_cases m <;> first | rfl | exact absurd h (by decide)
    · have hmod : devNo % m = devNo := Nat.mod_eq_of_lt hm
      have hne : m ≠ 0 := by omega
      simp [hashFn, hne, hmod, hashHead, chainOf, Queue.head, Bind.bind, Except.bind] at h
  · rintro rfl
    decide

/-- The steps of scenario 2, when the chain is the right one. -/
def rekey (s : Cache) (b m : ℕ) : Cache :=
  let s := listDel .null s (.hashOf b)
  let s := s.updHead b fun bh => { bh with bDev := devNo, bBlocknr := m }
  lockedBuffer (listAdd s (chainOf m).head (.hashOf b)) b

theorem recycle_eq (s : Cache) (b : ℕ) : recycle s b devNo devNo = .ok (b, rekey s b devNo) := rfl

theorem rekey_heads (s : Cache) (b m c : ℕ) : (rekey s b m).heads c = if c = b then
    { s.heads b with bDev := devNo, bBlocknr := m, flags := (s.heads b).flags ||| bhLock }
      else s.heads c := by
  by_cases hc : c = b <;> simp [rekey, lockedBuffer, setFlag, Cache.updHead, hc]

theorem locked_rekey (s : Cache) (b m c : ℕ) : Locked (rekey s b m) c ↔ c = b ∨ Locked s c := by
  unfold rekey
  rw [locked_lockedBuffer, locked_congr (listAdd_heads _ _ _)]
  by_cases hc : c = b
  · simp [hc]
  · simp [hc, Locked, Cache.updHead]

/-- The lists when a free buffer goes from the chain of its block to that of the block `m`. -/
theorem Consistent.lists_recycled (h : Consistent n s B held) (hb : b ∈ B .free) (m : ℕ) :
    ∃ B', Lists (rekey (listDel .null s (.freeOf b)) b m) B' ∧ (∀ m' c, c ∈ B' (chainOf m') ↔
        c ∈ B (chainOf m') ∧ c ≠ b ∨ c = b ∧ chainOf m' = chainOf m) ∧
      ∀ c, c ∈ B' .free ↔ c ≠ b ∧ c ∈ B .free := by
  have hbn := (h.mem_free b).mp hb
  have h1 := h.lists.listDel .null trivial hb
  set B1 := update B .free ((B .free).erase b) with hB1
  have hB1c : ∀ m, B1 (chainOf m) = B (chainOf m) := fun m =>
    update_of_ne (by simp [chainOf]) _ _
  -- off the chain of the block it held before
  have hbk : b ∈ B1 (chainOf (s.heads b).bBlocknr) := by
    exact (h.mem_chain _ b).mpr ⟨hbn.1, rfl⟩
  have h2 := h1.listDel .null trivial hbk
  set B2 := update B1 (chainOf (s.heads b).bBlocknr)
    ((B1 (chainOf (s.heads b).bBlocknr)).erase b) with hB2
  have hB2c : ∀ m c, c ∈ B2 (chainOf m) ↔ c ∈ B (chainOf m) ∧ c ≠ b := by
    intro m c
    by_cases hmk : chainOf m = chainOf (s.heads b).bBlocknr
    · rw [hmk, hB2, update_self, (h1.nodup trivial).mem_erase_iff, hB1c, and_comm]
    · rw [hB2, update_of_ne hmk, hB1c, iff_self_and]
      rintro hc rfl
      exact hmk ((h.mem_chain m c).mp hc).2.symm
  -- and onto the chain of its new one
  have h3 : Lists (rekey (listDel .null s (.freeOf b)) b m)
      (update B2 (chainOf m) (b :: B2 (chainOf m))) := by
    have h2' : Lists (Cache.updHead (listDel .null (listDel .null s (.freeOf b)) (.hashOf b)) b
        fun bh => { bh with bDev := devNo, bBlocknr := m }) B2 := lists_congr h2 rfl
    refine lists_congr (h2'.listAdd (i := chainOf m) trivial (apart_chain _ fun j hj => ?_))
      (updHead_links _ b _)
    rw [chain_eq] at hj
    exact ((hB2c _ b).mp hj).2 rfl
  refine ⟨_, h3, fun m' c => ?_, fun c => ?_⟩
  · by_cases hmm : chainOf m' = chainOf m
    · rw [hmm, update_self, List.mem_cons, hB2c]
      tauto
    · rw [update_of_ne hmm, hB2c]
      tauto
  · rw [update_of_ne (by simp [chainOf]), hB2, update_of_ne (by simp [chainOf]), hB1,
      update_self, (h.lists.nodup (i := .free) trivial).mem_erase_iff]

/-- **A free buffer becomes that of a block that was not cached**, on the block's chain. -/
theorem Consistent.recycled (h : Consistent n s B held) (hb : b ∈ B .free)
    (hm : ∀ c < n, (s.heads c).bBlocknr ≠ m) :
    ∃ B', Consistent n (rekey (listDel .null s (.freeOf b)) b m) B' (b :: held) := by
  have hbn := (h.mem_free b).mp hb
  obtain ⟨B', hlists, hchain, hfree⟩ := h.lists_recycled hb m
  have hheads := rekey_heads (listDel .null s (.freeOf b)) b m
  have hlock : ∀ c, Locked (rekey (listDel .null s (.freeOf b)) b m) c ↔ c = b ∨ Locked s c := by
    intro c
    rw [locked_rekey, locked_congr (listDel_heads _ _)]
  refine ⟨B', hlists, fun c hc => ?_, fun c hc d hd => ?_, fun c hc => ?_, fun m' c => ?_, fun c => ?_,
    (h.hold hbn hlock).1, (h.hold hbn hlock).2⟩
  · rw [hheads]
    split_ifs
    · rfl
    · exact h.dev c hc
  · rw [hheads, hheads]
    split_ifs with hcb hdb hdb
    · exact fun _ => hcb.trans hdb.symm
    · exact fun hk => absurd hk.symm (hm d hd)
    · exact fun hk => absurd hk (hm c hc)
    · exact h.key c hc d hd
  · rw [hheads]
    split_ifs
    · exact h.data b hbn.1
    · exact h.data c hc
  · rw [hchain, hheads, h.mem_chain]
    by_cases hcb : c = b
    · subst hcb
      simp [hbn.1, eq_comm]
    · simp [hcb]
  · rw [hfree, h.mem_free, hlock]
    tauto

/-! ### Searching -/

theorem searchFrom_eq {head : Link} (hhead : ∀ b, head ≠ .hashOf b) (dev : ℕ) :
    ∀ (l : List ℕ) (fuel : ℕ) (run : Link) (rest : List Link),
      l.map .hashOf ++ [head] = run :: rest → (run :: rest).IsChain (Linked s) →
      searchFrom s head dev m fuel run =
          .ok (l.find? fun b => (s.heads b).bBlocknr = m ∧ (s.heads b).bDev = dev) ∨
        (searchFrom s head dev m fuel run = .error .spinning ∧ fuel ≤ l.length)
  | l, 0, run, rest, _, _ => Or.inr ⟨rfl, Nat.zero_le _⟩
  | [], fuel + 1, run, rest, hrun, _ => by
    simp only [List.map_nil, List.nil_append, List.cons.injEq] at hrun
    rw [← hrun.1]
    exact Or.inl (by simp [searchFrom])
  | b :: l, fuel + 1, run, rest, hrun, hchain => by
    simp only [List.map_cons, List.cons_append, List.cons.injEq] at hrun
    obtain ⟨rfl, hrest⟩ := hrun
    rw [searchFrom, if_neg (Ne.symm (hhead b))]
    by_cases hb : (s.heads b).bBlocknr = m ∧ (s.heads b).bDev = dev
    · rw [if_pos hb, List.find?_cons_of_pos (by simpa using hb)]
      exact Or.inl rfl
    · rw [if_neg hb, List.find?_cons_of_neg (by simpa using hb)]
      obtain ⟨-, z, post, hz⟩ := exists_ends head [] (l.map Link.hashOf)
      rw [← hrest, hz, List.isChain_cons_cons] at hchain
      rw [hchain.1.1]
      rcases searchFrom_eq hhead dev l fuel z post hz hchain.2 with hok | ⟨herr, hle⟩
      · exact Or.inl hok
      · exact Or.inr ⟨herr, by simpa using hle⟩

theorem Consistent.length_chain_le (h : Consistent n s B held) (m : ℕ) :
    (B (chainOf m)).length ≤ n := by
  have hsub : B (chainOf m) ⊆ List.range n := fun b hb => by
    rw [List.mem_range]
    exact ((h.mem_chain m b).mp hb).1
  simpa using (List.subperm_of_subset (h.lists.nodup trivial) hsub).length_le

/-- **`search_hash` finds the buffer of a block**, and only that. -/
theorem Consistent.searchHash (h : Consistent n s B held) (fuel m : ℕ) :
    (∃ b < n, (s.heads b).bBlocknr = m ∧ searchHash fuel s devNo m = .ok (some b)) ∨
      ((∀ b < n, (s.heads b).bBlocknr ≠ m) ∧ searchHash fuel s devNo m = .ok none) ∨
      (searchHash fuel s devNo m = .error .spinning ∧ fuel ≤ n) := by
  have hring := h.lists.ring (chainOf m) trivial
  obtain ⟨-, z, post, hz⟩ := exists_ends (chainOf m).head [] ((B (chainOf m)).map Link.hashOf)
  have hlink := hring.linked_head hz
  have heq : Buffer.searchHash fuel s devNo m =
      searchFrom s (chainOf m).head devNo m fuel z := by
    have hlt : m % devNo < devNo := Nat.mod_lt _ (by decide)
    have hne : devNo ≠ 0 := by decide
    rw [← hlink.1]
    simp [Buffer.searchHash, hashFn, hashHead, hne, hlt, Bind.bind, Except.bind, chainOf, Queue.head]
  have hchain : (z :: post).IsChain (Linked s) := by
    have hc := hring.chain
    rw [List.cons_append, show (chainOf m).node = Link.hashOf from rfl, hz] at hc
    exact hc.tail
  rw [heq]
  rcases searchFrom_eq (fun b => by simp [chainOf, Queue.head]) devNo (m := m) _ fuel z post hz hchain
    with hok | ⟨herr, hle⟩
  · rw [hok]
    rcases hf : (B (chainOf m)).find? (fun b => (s.heads b).bBlocknr = m ∧ (s.heads b).bDev = devNo)
      with _ | b
    · refine Or.inr (Or.inl ⟨fun b hb hbm => ?_, rfl⟩)
      rw [List.find?_eq_none] at hf
      exact hf b ((h.mem_chain m b).mpr ⟨hb, by rw [hbm]⟩) (by simp [hbm, h.dev b hb])
    · have hbm : (s.heads b).bBlocknr = m ∧ (s.heads b).bDev = devNo := by
        simpa using List.find?_some hf
      exact Or.inl ⟨b, ((h.mem_chain m b).mp (List.mem_of_find?_eq_some hf)).1, hbm.1, rfl⟩
  · exact Or.inr (Or.inr ⟨herr, hle.trans (h.length_chain_le m)⟩)

/-! ### `getblk` -/

section Rounds
variable {walk fuel dev : ℕ}

theorem getblkLoop_hit (hs : searchHash walk s dev m = .ok (some b)) :
    getblkLoop walk (fuel + 1) s dev m = if isFlag (s.heads b).flags bhLock
      then getblkLoop walk fuel s dev m else .ok (b, takeBuffer s b) := by
  rw [getblkLoop, hs]
  rfl

section
variable (hs : searchHash walk s dev m = .ok none)
include hs

theorem getblkLoop_empty (he : listIsEmpty s Link.free = true) :
    getblkLoop walk (fuel + 1) s dev m = getblkLoop walk fuel s dev m := by
  rw [getblkLoop, hs]
  simp [Bind.bind, Except.bind, he]

theorem getblkLoop_delayed {data : Bytes}
    (he : listIsEmpty s Link.free = false) (hnext : LinkStore.next s Link.free = .freeOf b)
    (hd : isFlag (s.heads b).flags bhDelay = true) (hdata : (s.heads b).bData = some data) :
    getblkLoop walk (fuel + 1) s dev m =
      getblkLoop walk fuel (writeDelayed (listDel .null s (.freeOf b)) b data) dev m := by
  rw [getblkLoop, hs]
  simp [Bind.bind, Except.bind, he, hnext, hd, hdata]

theorem getblkLoop_recycle
    (he : listIsEmpty s Link.free = false) (hnext : LinkStore.next s Link.free = .freeOf b)
    (hd : isFlag (s.heads b).flags bhDelay = false) :
    getblkLoop walk (fuel + 1) s dev m = recycle (listDel .null s (.freeOf b)) b dev m := by
  rw [getblkLoop, hs]
  simp [Bind.bind, Except.bind, he, hnext, hd]

end

theorem searchFrom_some {head : Link} : ∀ {fuel : ℕ} {run : Link},
    searchFrom s head dev m fuel run = .ok (some b) →
    (s.heads b).bBlocknr = m ∧ (s.heads b).bDev = dev
  | 0, _, h => by simp [searchFrom] at h
  | fuel + 1, run, h => by
    unfold searchFrom at h
    split_ifs at h
    · cases h
    · cases run with
      | hashOf c =>
        dsimp only at h
        split_ifs at h with hc
        · rwa [← Option.some.inj (Except.ok.inj h)]
        · exact searchFrom_some h
      | _ => cases h

theorem searchHash_some (h : searchHash walk s dev m = .ok (some b)) :
    (s.heads b).bBlocknr = m ∧ (s.heads b).bDev = dev := by
  unfold searchHash at h
  rcases hi : hashFn m dev with e | i
  · simp [hi, Bind.bind, Except.bind] at h
  · rcases hh : hashHead i with e | head
    · simp [hi, hh, Bind.bind, Except.bind] at h
    · simp only [hi, hh, Bind.bind, Except.bind] at h
      exact searchFrom_some h

theorem recycle_cases {c : ℕ} {s' : Cache} (h : recycle s b dev m = .ok (c, s')) :
    c = b ∧ ∃ head, (hashFn dev m >>= hashHead) = .ok head ∧ s' = lockedBuffer (listAdd
      ((listDel .null s (.hashOf b)).updHead b fun bh => { bh with bDev := dev, bBlocknr := m })
        head (.hashOf b)) b := by
  unfold recycle at h
  rcases hi : hashFn dev m with e | i
  · simp [hi, Bind.bind, Except.bind] at h
  · rcases hh : hashHead i with e | head
    · simp [hi, hh, Bind.bind, Except.bind] at h
    · simp only [hi, hh, Bind.bind, Except.bind, pure, Except.pure, Except.ok.injEq,
        Prod.mk.injEq] at h
      exact ⟨h.1.symm, head, hh, h.2.symm⟩

theorem recycle_of_head {head : Link} (h : (hashFn dev m >>= hashHead) = .ok head) :
    recycle s b dev m = .ok (b, lockedBuffer (listAdd
      ((listDel .null s (.hashOf b)).updHead b fun bh => { bh with bDev := dev, bBlocknr := m })
        head (.hashOf b)) b) := by
  unfold recycle
  rcases hi : hashFn dev m with e | i
  · simp [hi, Bind.bind, Except.bind] at h
  · rw [hi] at h
    simp only [Bind.bind, Except.bind] at h ⊢
    rw [h]
    rfl

/-- **The rule for the loop of `getblk`**: what holds at the start and is kept by a delayed write
holds when a buffer is found, or recycled. -/
theorem getblkLoop_rule {P : Cache → Prop} (hdelay : ∀ s b data, P s →
      searchHash walk s dev m = .ok none → LinkStore.next s Link.free = .freeOf b →
      P (writeDelayed (listDel .null s (.freeOf b)) b data)) :
    ∀ {fuel : ℕ} {s : Cache}, P s → ∀ {b : ℕ} {s' : Cache}, getblkLoop walk fuel s dev m = .ok (b, s') →
      ∃ s₁, P s₁ ∧ ((searchHash walk s₁ dev m = .ok (some b) ∧ ¬ Locked s₁ b ∧ s' = takeBuffer s₁ b) ∨
        (searchHash walk s₁ dev m = .ok none ∧ LinkStore.next s₁ Link.free = .freeOf b ∧
          recycle (listDel .null s₁ (.freeOf b)) b dev m = .ok (b, s')))
  | 0, s, _, b, s', h => by simp [getblkLoop] at h
  | fuel + 1, s, hP, b, s', h => by
    rcases hs : searchHash walk s dev m with e | _ | c
    · simp [getblkLoop, hs, Bind.bind, Except.bind] at h
    · rcases he : listIsEmpty s Link.free with _ | _
      · rcases hnext : LinkStore.next s Link.free with _ | _ | _ | _ | c
        all_goals try simp [getblkLoop, hs, he, hnext, Bind.bind, Except.bind] at h; done
        rcases hd : isFlag (s.heads c).flags bhDelay with _ | _
        · rw [getblkLoop_recycle hs he hnext hd] at h
          obtain rfl := (recycle_cases h).1
          exact ⟨s, hP, .inr ⟨hs, hnext, h⟩⟩
        · rcases hdata : (s.heads c).bData with _ | data
          · simp [getblkLoop, hs, he, hnext, hd, hdata, Bind.bind, Except.bind] at h
          · rw [getblkLoop_delayed hs he hnext hd hdata] at h
            exact getblkLoop_rule hdelay (hdelay s c data hP hs hnext) h
      · rw [getblkLoop_empty hs he] at h
        exact getblkLoop_rule hdelay hP h
    · rw [getblkLoop_hit hs] at h
      split_ifs at h with hl
      · exact getblkLoop_rule hdelay hP h
      · obtain ⟨rfl, rfl⟩ := Prod.mk.inj (Except.ok.inj h)
        exact ⟨s, hP, .inl ⟨hs, hl, rfl⟩⟩

end Rounds

theorem Consistent.free_cases (h : Consistent n s B held) :
    (B .free = [] ∧ listIsEmpty s Link.free = true) ∨ ∃ b l, B .free = b :: l ∧
      listIsEmpty s Link.free = false ∧ LinkStore.next s Link.free = .freeOf b := by
  have hring := h.lists.ring .free trivial
  rcases hB : B .free with _ | ⟨b, l⟩ <;> rw [hB] at hring
  · exact Or.inl ⟨rfl, hring.listIsEmpty_iff.mpr rfl⟩
  · refine Or.inr ⟨b, l, rfl, ?_, (hring.linked_head (List.cons_append ..)).1⟩
    rw [Bool.eq_false_iff]
    intro he
    exact List.cons_ne_nil _ _ (hring.listIsEmpty_iff.mp he)

theorem Consistent.delayed_front (h : Consistent n s B held) {l : List ℕ} (hB : B .free = b :: l)
    (data : Bytes) : Consistent n (Buffer.writeDelayed (listDel .null s (.freeOf b)) b data) B held ∧
      SameBlocks s (Buffer.writeDelayed (listDel .null s (.freeOf b)) b data) ∧
      isFlag ((Buffer.writeDelayed (listDel .null s (.freeOf b)) b data).heads b).flags bhDelay =
        false := by
  refine ⟨?_, ?_, ?_⟩
  · have hc := h.writeDelayed (b := b) (by simp [hB]) data
    rwa [hB, List.erase_cons_head, ← hB, update_eq_self] at hc
  · exact sameBlocks_writeDelayed s b data
  · simp only [Buffer.writeDelayed, clearFlag, Cache.updHead, listAdd_heads, update_self]
    unfold isFlag
    rw [BitVec.and_assoc, show ~~~bhDelay &&& bhDelay = 0#16 by decide]
    simp [bhDelay]

/-- **What `getblk` can do**: it goes on for ever; it finds the block in a free buffer and takes it;
or the block is not cached, and it recycles the first free buffer that needs no delayed write. -/
theorem Consistent.getblkLoop (walk : ℕ) : ∀ (fuel : ℕ) {s : Cache} {B : Queue → List ℕ},
    Consistent n s B held →
    getblkLoop walk fuel s devNo m = .error .spinning ∨
    (∃ b ∈ B .free, (s.heads b).bBlocknr = m ∧
      getblkLoop walk fuel s devNo m = .ok (b, takeBuffer s b)) ∨
    ((∀ c < n, (s.heads c).bBlocknr ≠ m) ∧ ∃ s', Consistent n s' B held ∧ SameBlocks s s' ∧
      ∃ b ∈ B .free, getblkLoop walk fuel s devNo m =
        recycle (listDel .null s' (.freeOf b)) b devNo m)
  | 0, s, B, _ => Or.inl rfl
  | fuel + 1, s, B, h => by
    rcases h.searchHash walk m with ⟨b, hb, hbm, hs⟩ | ⟨hm, hs⟩ | ⟨hs, -⟩
    · rw [getblkLoop_hit hs]
      split_ifs with hl
      · exact h.getblkLoop walk fuel
      · exact Or.inr (Or.inl ⟨b, (h.mem_free b).mpr ⟨hb, hl⟩, hbm, rfl⟩)
    · rcases h.free_cases with ⟨-, he⟩ | ⟨b, l, hB, he, hnext⟩
      · rw [getblkLoop_empty hs he]
        exact h.getblkLoop walk fuel
      · have hbf : b ∈ B .free := by simp [hB]
        rcases hd : isFlag (s.heads b).flags bhDelay with _ | _
        · rw [getblkLoop_recycle hs he hnext hd]
          exact Or.inr (Or.inr ⟨hm, s, h, sameBlocks_of_heads rfl, b, hbf, rfl⟩)
        · obtain ⟨data, hdata⟩ := Option.isSome_iff_exists.mp (h.data b ((h.mem_free b).mp hbf).1)
          rw [getblkLoop_delayed hs he hnext hd hdata]
          obtain ⟨hc, hsame, -⟩ := h.delayed_front hB data
          rcases hc.getblkLoop walk fuel with hspin | ⟨c, hc', hcm, -⟩ | ⟨-, s', hs', hsame', hrec⟩
          · exact Or.inl hspin
          · exact absurd ((hsame c).2.1.symm.trans hcm) (hm c ((h.mem_free c).mp hc').1)
          · exact Or.inr (Or.inr ⟨hm, s', hs', hsame.trans hsame', hrec⟩)
    · left
      rw [Buffer.getblkLoop, hs]
      rfl

theorem recycle_ne_spinning (s : Cache) (b dev m : ℕ) : recycle s b dev m ≠ .error .spinning := by
  unfold recycle hashFn hashHead
  simp only [Bind.bind, Except.bind, pure, Except.pure]
  by_cases h0 : m = 0
  · simp [h0]
  · by_cases h1 : dev % m < devNo
    · simp [h0, h1]
    · by_cases h2 : dev % m = devNo <;> simp [h0, h1, h2]

/-- **`getblk` comes back** when the buffer of the block is free, or any buffer if the block is not
cached: after one round, or after two with a delayed write. -/
theorem Consistent.getblk_returns (h : Consistent n s B held) {fuel : ℕ} (hn : n < fuel)
    (hhit : ∀ b < n, (s.heads b).bBlocknr = m → b ∈ B .free)
    (hmiss : (∀ b < n, (s.heads b).bBlocknr ≠ m) → B .free ≠ []) :
    getblk fuel s devNo m ≠ .error .spinning := by
  unfold getblk
  obtain ⟨k, hk⟩ : ∃ k, fuel = k + 1 := ⟨fuel - 1, by omega⟩
  rcases h.searchHash fuel m with ⟨b, hb, hbm, hs⟩ | ⟨hm, hs⟩ | ⟨-, hle⟩
  · have hfree : ¬ isFlag (s.heads b).flags bhLock = true := ((h.mem_free b).mp (hhit b hb hbm)).2
    nth_rewrite 2 [hk]
    rw [getblkLoop_hit hs, if_neg hfree]
    simp
  · rcases h.free_cases with ⟨hB, -⟩ | ⟨b, l, hB, he, hnext⟩
    · exact absurd hB (hmiss hm)
    · have hbn := ((h.mem_free b).mp (by simp [hB])).1
      nth_rewrite 2 [hk]
      rcases hd : isFlag (s.heads b).flags bhDelay with _ | _
      · rw [getblkLoop_recycle hs he hnext hd]
        exact recycle_ne_spinning _ _ _ _
      · -- the second round recycles the buffer that was written
        obtain ⟨data, hdata⟩ := Option.isSome_iff_exists.mp (h.data b hbn)
        obtain ⟨hc, hsame, hd'⟩ := h.delayed_front hB data
        obtain ⟨j, hj⟩ : ∃ j, k = j + 1 := ⟨k - 1, by omega⟩
        rw [getblkLoop_delayed hs he hnext hd hdata, hj]
        rcases hc.searchHash fuel m with ⟨c, hc', hcm, -⟩ | ⟨-, hs'⟩ | ⟨-, hle⟩
        · exact absurd ((hsame c).2.1.symm.trans hcm) (hm c hc')
        · rcases hc.free_cases with ⟨hB', -⟩ | ⟨b', l', hB', he', hnext'⟩
          · simp [hB] at hB'
          · obtain ⟨rfl, rfl⟩ := List.cons.inj (hB.symm.trans hB')
            rw [getblkLoop_recycle hs' he' hnext' hd']
            exact recycle_ne_spinning _ _ _ _
        · omega
  · omega

/-- **A cached block** is found in its buffer, if that is free. -/
theorem Consistent.getblk_hit (h : Consistent n s B held) {fuel : ℕ} (hn : n < fuel)
    (hb : b ∈ B .free) (hbm : (s.heads b).bBlocknr = m) :
    getblk fuel s devNo m = .ok (b, takeBuffer s b) := by
  have hbn := ((h.mem_free b).mp hb).1
  have huniq : ∀ c < n, (s.heads c).bBlocknr = m → c = b := fun c hc hcm =>
    h.key c hc b hbn (hcm.trans hbm.symm)
  rcases h.getblkLoop fuel fuel (m := m) with hspin | ⟨c, hc, hcm, heq⟩ | ⟨hm, -⟩
  · refine absurd hspin (h.getblk_returns hn (fun c hc hcm => ?_) fun hm => absurd hbm (hm b hbn))
    rwa [huniq c hc hcm]
  · rw [huniq c ((h.mem_free c).mp hc).1 hcm] at heq
    exact heq
  · exact absurd hbm (hm b hbn)

/-! ### Initialisation -/

theorem lists_initHeads (s : Cache) : Lists (initHeads s) fun _ => [] := by
  refine ⟨fun q _ => ring_nil ?_, fun q r _ _ hqr a ha b hb => ?_⟩
  · rcases q with _ | i
    · exact ⟨rfl, rfl⟩
    · fin_cases i <;> exact ⟨rfl, rfl⟩
  · simp only [List.map_nil, List.mem_singleton] at ha hb
    subst ha hb
    change q.head ≠ r.head
    rcases q with _ | i <;> rcases r with _ | j <;> simp [Queue.head, Fin.val_inj] at hqr ⊢
    exact hqr

/-- The head that `binit` makes for the block `b`. -/
def freshHead (data : ℕ → Option Bytes) (b : ℕ) : BufferHead :=
  { flags := 0, bCount := 0, bData := data b, bDev := devNo, bBlocknr := b }

/-- The cache after `k` rounds of the loop in `create_buffer_cache`. -/
structure Filled (data : ℕ → Option Bytes) (k : ℕ) (s : Cache) (B : Queue → List ℕ) : Prop where
  lists : Lists s B
  heads : ∀ b < k, s.heads b = freshHead data b
  mem_chain : ∀ m b, b ∈ B (chainOf m) ↔ b < k ∧ chainOf b = chainOf m
  mem_free : ∀ b, b ∈ B .free ↔ b < k

section Fill
variable {data : ℕ → Option Bytes} {k : ℕ}

theorem binit_heads (s : Cache) (hdata : (data k).isSome) (c : ℕ) :
    (binit s k (data k) devNo k).heads c = if c = k then freshHead data k else s.heads c := by
  obtain ⟨bytes, hbytes⟩ := Option.isSome_iff_exists.mp hdata
  by_cases hc : c = k <;>
    simp [binit, hbytes, hc, Cache.updHead, initListNull, LinkStore.setNext, LinkStore.setPrev,
      freshHead]

section
variable (h : Filled data k s B)
include h

theorem Filled.not_mem : k ∉ B .free ∧ ∀ j, k ∉ B (.chain j) := by
  refine ⟨fun hk => absurd ((h.mem_free k).mp hk) (lt_irrefl k), fun j hk => ?_⟩
  rw [chain_eq] at hk
  exact absurd ((h.mem_chain _ k).mp hk).1 (lt_irrefl k)

theorem lists_binit (hdata : (data k).isSome) : Lists (binit s k (data k) devNo k) B := by
  obtain ⟨bytes, hbytes⟩ := Option.isSome_iff_exists.mp hdata
  obtain ⟨hfree, hchain⟩ := h.not_mem
  have hupd : Lists ((s.updHead k fun bh => { bh with flags := 0, bData := data k }).updHead k
      fun bh => { bh with bDev := devNo, bBlocknr := k, bCount := 0 }) B := lists_congr h.lists rfl
  have hnull := hupd.transport fun q _ n hn =>
    (sameLinks_initListNull Link.null _ (apart_chain ⟨0, by decide⟩ hchain q trivial n hn)).trans
      (sameLinks_initListNull Link.null _ (apart_free hfree q trivial n hn))
  unfold binit
  rw [if_neg (by simp [hbytes])]
  exact hnull

/-- **A fresh head is linked in**, on its chain and on the free list. -/
theorem Filled.link {s₁ : Cache} (hlists : Lists s₁ B)
    (hheads : ∀ b < k + 1, s₁.heads b = freshHead data b) : ∃ B', Filled data (k + 1)
      (listAdd (listAdd s₁ (.hash (k % devNo)) (.hashOf k)) .free (.freeOf k)) B' := by
  obtain ⟨hfree, hchain⟩ := h.not_mem
  have h1 := hlists.listAdd (i := chainOf k) trivial (apart_chain _ hchain)
  have h2 := h1.listAdd (i := Queue.free) (b := k) trivial (apart_free (by
    rwa [update_of_ne (by simp [chainOf])]))
  rw [update_of_ne (by simp [chainOf])] at h2
  refine ⟨_, h2, hheads, fun m b => ?_, fun b => ?_⟩
  · rw [update_of_ne (by simp [chainOf]), update_apply]
    split_ifs with hmk
    · rw [List.mem_cons, ← hmk, h.mem_chain]
      constructor
      · rintro (rfl | hb)
        · exact ⟨by omega, hmk.symm⟩
        · exact ⟨by omega, hb.2⟩
      · rintro ⟨hb, hbm⟩
        by_cases hbk : b = k
        · exact Or.inl hbk
        · exact Or.inr ⟨by omega, hbm⟩
    · rw [h.mem_chain]
      constructor
      · exact fun hb => ⟨by omega, hb.2⟩
      · rintro ⟨hb, hbm⟩
        have hbk : b ≠ k := by
          rintro rfl
          exact hmk hbm.symm
        exact ⟨by omega, hbm⟩
  · rw [update_self, List.mem_cons, h.mem_free]
    omega

/-- **One round** of the loop adds one buffer. -/
theorem Filled.addBuffer (hdata : (data k).isSome) :
    ∃ B', Filled data (k + 1) (addBuffer data s k) B' := by
  refine h.link (lists_binit h hdata) fun b hb => ?_
  rw [binit_heads s hdata]
  split_ifs with hbk
  · rw [hbk]
  · exact h.heads b (by omega)

end

theorem filled_rounds (s : Cache) : ∀ k, (∀ b < k, (data b).isSome) →
    ∃ B, Filled data k ((List.range k).foldl (addBuffer data) (initHeads s)) B
  | 0, _ => ⟨fun _ => [], lists_initHeads s, by simp, by simp, by simp⟩
  | k + 1, hdata => by
    obtain ⟨B, hB⟩ := filled_rounds s k fun b hb => hdata b (by omega)
    rw [List.range_succ, List.foldl_append]
    exact hB.addBuffer (hdata k (by omega))

theorem Filled.consistent (h : Filled data k s B) (hdata : ∀ b < k, (data b).isSome) :
    Consistent k s B [] := by
  have hlock : ∀ b < k, ¬ Locked s b := by
    intro b hb
    unfold Locked
    rw [h.heads b hb]
    exact show ¬ isFlag 0 bhLock = true by decide
  refine ⟨h.lists, fun b hb => ?_, fun b hb c hc hbc => ?_, fun b hb => ?_, fun m b => ?_, fun b => ?_,
    fun b => ?_, List.nodup_nil⟩
  · rw [h.heads b hb, freshHead]
  · rw [h.heads b hb, h.heads c hc] at hbc
    exact hbc
  · rw [h.heads b hb]
    exact hdata b hb
  · rw [h.mem_chain]
    refine and_congr_right fun hb => ?_
    rw [h.heads b hb, freshHead]
  · rw [h.mem_free]
    exact ⟨fun hb => ⟨hb, hlock b hb⟩, fun hb => hb.1⟩
  · simp only [List.not_mem_nil, false_iff]
    exact fun hb => hlock b hb.1 hb.2

end Fill

/-- **The initialisation gives a cache in order**, with the blocks from 0 on, none of them held. -/
theorem consistent_createBufferCache (s : Cache) (got : ℕ) (data : ℕ → Option Bytes)
    (hdata : ∀ b < min got buffers, (data b).isSome) :
    (∀ b < min got buffers, (createBufferCache s got data).heads b = freshHead data b) ∧
      ∃ B, Consistent (min got buffers) (createBufferCache s got data) B [] := by
  obtain ⟨B, hB⟩ := filled_rounds s _ hdata
  exact ⟨hB.heads, B, hB.consistent hdata⟩

end YegaKernel.Fs.BufferSpec
