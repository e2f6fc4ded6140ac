import YegaKernel.Fs.BufferSpec
import Mathlib.Logic.Relation

/-! # Runs of the buffer cache

Clients get buffers by `getblk` and `bread`, fill the ones they hold, and give them back by `bwrite`
and `brelse`. `CacheInvariant` is what the two kinds of lists should look like after every call.

`getblk` puts a recycled buffer on the chain `hash_fn(dev_no, blocknr)`, but looks for blocks on
`hash_fn(blocknr, dev_no)`. A run that only asks for blocks that are cached, or for the block
`DEV_NO`, keeps the invariant (`cacheInvariant_of_safe_run`); every other request that is answered
breaks it (`not_cacheInvariant_of_miss`), and block 0 is a division by zero. -/

namespace YegaKernel.Fs.BufferRun

open Lib.Links Lib.Families Relation
open Fs.Disk Fs.Buffer Fs.BufferSpec

/-! ### The invariant -/

/-- The lists of the cache hold the buffers below `n`, as they should. -/
structure Listed (n : ℕ) (s : Cache) (chains : ℕ → List ℕ) (free : List ℕ) : Prop where
  chain_ring : ∀ i < devNo, Ring s (.hash i) ((chains i).map .hashOf)
  free_ring : Ring s .free (free.map .freeOf)
  chain_lt : ∀ i < devNo, ∀ b ∈ chains i, b < n
  free_lt : ∀ b ∈ free, b < n
  on_chain : ∀ b < n, ∃ i < devNo, hashFn (s.heads b).bBlocknr (s.heads b).bDev = .ok i ∧
    ∀ j < devNo, (chains j).count b = if j = i then 1 else 0
  key : ∀ b < n, ∀ c < n, (s.heads b).bDev = (s.heads c).bDev →
    (s.heads b).bBlocknr = (s.heads c).bBlocknr → b = c
  on_free : ∀ b < n, free.count b = if Locked s b then 0 else 1

/-- **The structural invariant**: the lists are well formed; every buffer is on its own hash chain,
once, and on no other; it is on the free list once if it is not locked; and no two buffers are of
one block. -/
def CacheInvariant (n : ℕ) (s : Cache) : Prop := ∃ chains free, Listed n s chains free

variable {n m b : ℕ} {s : Cache} {B : Queue → List ℕ} {held : List ℕ}

theorem hashFn_devNo (m : ℕ) : hashFn m devNo = .ok (m % devNo) := rfl

theorem cacheInvariant_of_consistent (h : Consistent n s B held) : CacheInvariant n s := by
  refine ⟨fun i => B (chainOf i), B .free, fun i hi => ?_, h.lists.ring .free trivial,
    fun i hi b hb => ?_, fun b hb => ((h.mem_free b).mp hb).1, fun b hb => ?_, fun b hb c hc _ =>
    h.key b hb c hc, fun b hb => ?_⟩
  · have hring := h.lists.ring (chainOf i) trivial
    rwa [show (chainOf i).head = .hash i by simp [chainOf, Queue.head, Nat.mod_eq_of_lt hi]] at hring
  · exact ((h.mem_chain i b).mp hb).1
  · refine ⟨(s.heads b).bBlocknr % devNo, Nat.mod_lt _ (by decide), ?_, fun j hj => ?_⟩
    · rw [h.dev b hb, hashFn_devNo]
    · rw [(h.lists.nodup trivial).count]
      refine if_congr ?_ rfl rfl
      rw [h.mem_chain, chainOf_inj, Nat.mod_eq_of_lt hj, eq_comm]
      exact and_iff_right hb
  · rw [(h.lists.nodup (i := .free) trivial).count]
    by_cases hl : Locked s b
    · rw [if_pos hl, if_neg fun hm => ((h.mem_free b).mp hm).2 hl]
    · rw [if_neg hl, if_pos ((h.mem_free b).mpr ⟨hb, hl⟩)]

/-! ### `getblk` -/

/-- The block is in the cache. -/
def Cached (n : ℕ) (s : Cache) (m : ℕ) : Prop :=
  ∃ b < n, (s.heads b).bDev = devNo ∧ (s.heads b).bBlocknr = m

/-- **A request for a cached block, or for the block `DEV_NO`**, keeps the cache in order. -/
theorem getblk_safe (h : Consistent n s B held) (hsafe : m = devNo ∨ Cached n s m)
    (fuel : ℕ) : getblk fuel s devNo m = .error .spinning ∨ ∃ b s' B',
      getblk fuel s devNo m = .ok (b, s') ∧ Consistent n s' B' (b :: held) ∧
        (s'.heads b).bBlocknr = m := by
  rcases h.getblkLoop fuel fuel (m := m) with hspin | ⟨b, hb, hbm, heq⟩ | ⟨hm, s', hs', hsame, b, hb, heq⟩
  · exact Or.inl hspin
  · refine Or.inr ⟨b, _, _, heq, h.take hb, ?_⟩
    rw [(sameBlocks_takeBuffer s b b).2.1, hbm]
  · have hdev : m = devNo := hsafe.resolve_right fun ⟨c, hc, _, hcm⟩ => hm c hc hcm
    subst hdev
    rw [recycle_eq] at heq
    obtain ⟨B', hB'⟩ := hs'.recycled (m := devNo) hb fun c hc => by
      rw [(hsame c).2.1]
      exact hm c hc
    refine Or.inr ⟨b, _, B', heq, hB', ?_⟩
    rw [rekey_heads, if_pos rfl]

theorem next_listAdd_head (s : Cache) (h y : Link) : LinkStore.next (listAdd s h y) h = y := by
  unfold listAdd genericAdd
  by_cases hf : LinkStore.next s h = h
  · rw [hf, LinkStore.next_setPrev_self, LinkStore.next_setNext_self]
  · rw [LinkStore.next_setPrev_apart _ _ (show LinkStore.Apart Cache _ _ from hf),
      LinkStore.next_setNext_self]

/-- What scenario 2 leaves when it does not fault: the buffer is of the block now, and first behind
the head `hash_fn(dev_no, blocknr)`. -/
theorem recycle_spec {c : ℕ} {s' : Cache} (h : recycle s b devNo m = .ok (c, s')) :
    c = b ∧ (s'.heads b).bDev = devNo ∧ (s'.heads b).bBlocknr = m ∧
      ∃ head, (hashFn devNo m >>= hashHead) = .ok head ∧ LinkStore.next s' head = .hashOf b := by
  unfold recycle at h
  rcases hi : hashFn devNo m with e | i
  · simp [hi, Bind.bind, Except.bind] at h
  · rcases hh : hashHead i with e | head
    · simp [hi, hh, Bind.bind, Except.bind] at h
    · simp only [hi, hh, Bind.bind, Except.bind, pure, Except.pure, Except.ok.injEq,
        Prod.mk.injEq] at h
      obtain ⟨rfl, rfl⟩ := h
      refine ⟨rfl, ?_, ?_, head, hh, next_listAdd_head _ _ _⟩ <;>
        simp [lockedBuffer, setFlag, Cache.updHead]

/-- **Any other request that is answered breaks the invariant.** -/
theorem not_cacheInvariant_of_miss (h : Consistent n s B held)
    (hmiss : ¬ Cached n s m) (hm : m ≠ devNo) {fuel : ℕ} {s' : Cache}
    (hget : getblk fuel s devNo m = .ok (b, s')) : ¬ CacheInvariant n s' := by
  unfold getblk at hget
  rcases h.getblkLoop fuel fuel (m := m) with hspin | ⟨c, hc, hcm, -⟩ | ⟨-, s1, hs1, -, c, hc, heq⟩
  · simp [hspin] at hget
  · have hcn := ((h.mem_free c).mp hc).1
    exact absurd ⟨c, hcn, h.dev c hcn, hcm⟩ hmiss
  · rw [heq] at hget
    obtain ⟨rfl, hdev, hblk, head, hhead, hnext⟩ := recycle_spec hget
    have hbn := ((h.mem_free b).mp hc).1
    rintro ⟨chains, free, hl⟩
    have hne := (hashHead_swapped_iff m).not.mpr hm
    rw [hhead] at hne
    unfold hashFn hashHead at hhead
    by_cases h0 : m = 0
    · simp [h0, Bind.bind, Except.bind] at hhead
    · simp only [h0, if_false, Bind.bind, Except.bind] at hhead
      split_ifs at hhead with h1 h2
      · -- a chain, but not the one of the block
        obtain rfl := Except.ok.inj hhead
        have hmem := (hl.chain_ring _ h1).next_mem
        rw [hnext] at hmem
        have hbc : b ∈ chains (devNo % m) := by simpa using hmem
        obtain ⟨i, -, hi, hcount⟩ := hl.on_chain b hbn
        rw [hblk, hdev, hashFn_devNo] at hi
        obtain rfl := Except.ok.inj hi
        have hpos := List.count_pos_iff.mpr hbc
        rw [hcount _ h1] at hpos
        split_ifs at hpos with heq'
        · exact hne (by simp [chainOf, Queue.head, heq'])
        · omega
      · -- the free list, which now has a node of the other kind
        obtain rfl := Except.ok.inj hhead
        have hmem := hl.free_ring.next_mem
        rw [hnext] at hmem
        simp at hmem

/-! ### Calls -/

/-- What a client can do. -/
inductive Call
  | getblk (blocknr : ℕ)
  | bread (blocknr : ℕ)
  | bwrite (b : ℕ)
  | brelse (b : ℕ)
  | fill (b : ℕ) (data : Bytes) (flags : BitVec 16)

/-- A client writes the data of a buffer, and its flags other than the lock. -/
def fillBuffer (s : Cache) (b : ℕ) (data : Bytes) (flags : BitVec 16) : Cache :=
  s.updHead b fun bh => { bh with
    bData := some data, flags := flags &&& ~~~bhLock ||| bh.flags &&& bhLock }

/-- A call, in a cache of which the clients hold some buffers. -/
def exec (fuel : ℕ) : Call → Cache × List ℕ → Except Fault (Cache × List ℕ)
  | .getblk m, (s, held) => do
    let (b, s) ← getblk fuel s devNo m
    return (s, b :: held)
  | .bread m, (s, held) => do
    let (b, s) ← bread fuel s devNo m
    return (s, b :: held)
  | .bwrite b, (s, held) => do
    let s ← bwrite s b
    return (s, held.erase b)
  | .brelse b, (s, held) => return (brelse s b, held.erase b)
  | .fill b data flags, (s, held) => return (fillBuffer s b data flags, held)

/-- The calls that keep the cache in order: clients use only buffers they hold, and ask for cached
blocks or for the block `DEV_NO`. -/
def Safe (n : ℕ) (st : Cache × List ℕ) : Call → Prop
  | .getblk m | .bread m => m = devNo ∨ Cached n st.1 m
  | .bwrite b | .brelse b | .fill b _ _ => b ∈ st.2

def SafeStep (n : ℕ) (st st' : Cache × List ℕ) : Prop :=
  ∃ fuel c, Safe n st c ∧ exec fuel c st = .ok st'

theorem isFlag_fill (flags old : BitVec 16) :
    isFlag (flags &&& ~~~bhLock ||| old &&& bhLock) bhLock = isFlag old bhLock := by
  rw [Bool.eq_iff_iff, isFlag_iff, isFlag_iff]
  simp [bhLock]

/-- `bread` is `getblk`, and one sector read into the buffer it gets unless that is dirty. -/
theorem bread_eq {fuel dev : ℕ} {s' : Cache} {data : Bytes} (hget : getblk fuel s dev m = .ok (b, s'))
    (hdata : (s'.heads b).bData = some data) :
    bread fuel s dev m = .ok (b, if isFlag (s'.heads b).flags bhDirty then s' else s'.updHead b
      fun bh => { bh with bData := some (diskRead s'.disk (s'.heads b).bBlocknr data) }) := by
  unfold bread
  simp only [hget, Bind.bind, Except.bind, hdata, pure, Except.pure]
  split_ifs <;> rfl

theorem bread_safe (h : Consistent n s B held) (hsafe : m = devNo ∨ Cached n s m)
    (fuel : ℕ) : bread fuel s devNo m = .error .spinning ∨ ∃ b s' B',
      bread fuel s devNo m = .ok (b, s') ∧ Consistent n s' B' (b :: held) := by
  rcases getblk_safe h hsafe fuel with hspin | ⟨b, s', B', hget, hc, -⟩
  · left
    unfold bread
    rw [hspin]
    rfl
  · have hbn := ((hc.mem_held b).mp List.mem_cons_self).1
    obtain ⟨data, hdata⟩ := Option.isSome_iff_exists.mp (hc.data b hbn)
    refine Or.inr ⟨b, _, B', bread_eq hget hdata, ?_⟩
    split_ifs
    · exact hc
    · exact hc.updHead rfl rfl rfl rfl

theorem bwrite_safe (h : Consistent n s B held) (hb : b ∈ held) :
    ∃ s' B', bwrite s b = .ok s' ∧ Consistent n s' B' (held.erase b) := by
  obtain ⟨data, hdata⟩ := Option.isSome_iff_exists.mp (h.data b ((h.mem_held b).mp hb).1)
  obtain ⟨l, hl⟩ :=
    (h.setDisk (diskWrite s.disk (s.heads b).bBlocknr data bufferSize)).brelse hb
  refine ⟨_, _, ?_, hl⟩
  unfold bwrite
  rw [hdata]

/-- **One call**: a safe call does not fault, and keeps the cache in order. -/
theorem exec_safe (h : Consistent n s B held) {c : Call} (hc : Safe n (s, held) c)
    (fuel : ℕ) : exec fuel c (s, held) = .error .spinning ∨
      ∃ st' B', exec fuel c (s, held) = .ok st' ∧ Consistent n st'.1 B' st'.2 := by
  cases c with
  | getblk m =>
    rcases getblk_safe h hc fuel with hspin | ⟨b, s', B', hget, hc', -⟩
    · simp [exec, hspin, Bind.bind, Except.bind]
    · exact Or.inr ⟨(s', b :: held), B', by simp [exec, hget, Bind.bind, Except.bind, pure, Except.pure],
        hc'⟩
  | bread m =>
    rcases bread_safe h hc fuel with hspin | ⟨b, s', B', hget, hc'⟩
    · simp [exec, hspin, Bind.bind, Except.bind]
    · exact Or.inr ⟨(s', b :: held), B', by simp [exec, hget, Bind.bind, Except.bind, pure, Except.pure],
        hc'⟩
  | bwrite b =>
    obtain ⟨s', B', hs, hc'⟩ := bwrite_safe h hc
    exact Or.inr ⟨(s', held.erase b), B', by simp [exec, hs, Bind.bind, Except.bind, pure, Except.pure],
      hc'⟩
  | brelse b =>
    obtain ⟨l, hl⟩ := h.brelse hc
    exact Or.inr ⟨(brelse s b, held.erase b), _, rfl, hl⟩
  | fill b data flags =>
    have hfill : Consistent n (fillBuffer s b data flags) B held :=
      h.updHead rfl rfl rfl (isFlag_fill flags (s.heads b).flags)
    exact Or.inr ⟨(fillBuffer s b data flags, held), B, rfl, hfill⟩

/-- **Every safe run** keeps the cache in order. -/
theorem run_safe {st st' : Cache × List ℕ} (h : Consistent n st.1 B st.2)
    (hrun : ReflTransGen (SafeStep n) st st') : ∃ B', Consistent n st'.1 B' st'.2 := by
  induction hrun with
  | refl => exact ⟨B, h⟩
  | tail _ hstep ih =>
    obtain ⟨B', hB'⟩ := ih
    obtain ⟨fuel, c, hc, hexec⟩ := hstep
    rcases exec_safe hB' hc fuel with hspin | ⟨st'', B'', hok, hB''⟩
    · exact absurd (hexec.symm.trans hspin) (by simp)
    · obtain rfl := Except.ok.inj (hok.symm.trans hexec)
      exact ⟨B'', hB''⟩

/-- **The structural invariant of the buffer cache.** In every run from the initialisation, with the
data of all buffers allocated, that asks only for cached blocks or for the block `DEV_NO`: the
invariant holds in the state reached; no call faults; and after `getblk` the block is found, in the
buffer it returned. -/
theorem cacheInvariant_of_safe_run {s : Cache} {got : ℕ} {data : ℕ → Option Bytes}
    (hdata : ∀ b < min got buffers, (data b).isSome) {st : Cache × List ℕ}
    (hrun : ReflTransGen (SafeStep (min got buffers)) (createBufferCache s got data, []) st) :
    CacheInvariant (min got buffers) st.1 ∧
      (∀ c fuel e, Safe (min got buffers) st c → exec fuel c st = .error e → e = .spinning) ∧
      ∀ m fuel b s', Safe (min got buffers) st (.getblk m) → getblk fuel st.1 devNo m = .ok (b, s') →
        searchHash (buffers + 1) s' devNo m = .ok (some b) := by
  obtain ⟨-, B₀, hB₀⟩ := consistent_createBufferCache s got data hdata
  obtain ⟨B, hB⟩ := run_safe hB₀ hrun
  refine ⟨cacheInvariant_of_consistent hB, fun c fuel e hc herr => ?_, fun m fuel b s' hm hget => ?_⟩
  · rcases exec_safe hB hc fuel with hspin | ⟨st', B', hok, -⟩
    · exact Except.error.inj (herr.symm.trans hspin)
    · exact absurd (herr.symm.trans hok) (by simp)
  · rcases getblk_safe hB hm fuel with hspin | ⟨b', s'', B', hok, hc, hbm⟩
    · exact absurd (hget.symm.trans hspin) (by simp)
    · obtain ⟨rfl, rfl⟩ := Prod.mk.inj (Except.ok.inj (hget.symm.trans hok))
      have hbn := ((hc.mem_held b).mp List.mem_cons_self).1
      rcases hc.searchHash (buffers + 1) m with ⟨c, hcn, hcm, hs⟩ | ⟨hnone, -⟩ | ⟨-, hle⟩
      · rw [hs, hc.key c hcn b hbn (hcm.trans hbm.symm)]
      · exact absurd hbm (hnone b hbn)
      · omega

/-! ### The blocks from 0 on, and one behind them -/

/-- Memory and a disk of zeros. -/
def zeroCache : Cache :=
  { heads := fun _ => { flags := 0, bCount := 0, bData := none, bDev := 0, bBlocknr := 0 }
    links := fun _ => { next := .null, prev := .null }
    disk := fun _ _ => 0 }

def zeroData : ℕ → Option Bytes := fun _ => some fun _ => 0

theorem zeroData_isSome : ∀ b < min buffers buffers, (zeroData b).isSome := fun _ _ => rfl

/-- The cache after its initialisation. -/
def freshCache : Cache := createBufferCache zeroCache buffers zeroData

theorem consistent_freshCache : (∀ b < buffers, freshCache.heads b = freshHead zeroData b) ∧
    ∃ B, Consistent buffers freshCache B [] :=
  consistent_createBufferCache zeroCache buffers zeroData zeroData_isSome

theorem getblk_freshCache : getblk (buffers + 1) freshCache devNo 16 =
    .ok (16, takeBuffer freshCache 16) := by
  obtain ⟨hheads, B, hB⟩ := consistent_freshCache
  have hhead := hheads 16 (by decide)
  refine hB.getblk_hit (Nat.lt_succ_self _) ((hB.mem_free 16).mpr ⟨by decide, ?_⟩) ?_
  · unfold Locked
    rw [hhead]
    exact show ¬ isFlag 0 bhLock = true by decide
  · rw [hhead]
    rfl

theorem cacheInvariant_block_16 : ∃ s, getblk (buffers + 1) freshCache devNo 16 = .ok (16, s) ∧
    CacheInvariant (min buffers buffers) s := by
  refine ⟨_, getblk_freshCache, ?_⟩
  have hcached : Cached buffers freshCache 16 := by
    refine ⟨16, by decide, ?_, ?_⟩ <;> rw [consistent_freshCache.1 16 (by decide)] <;> rfl
  have hstep : SafeStep buffers (freshCache, []) (takeBuffer freshCache 16, [16]) := by
    refine ⟨buffers + 1, .getblk 16, Or.inr hcached, ?_⟩
    simp [exec, getblk_freshCache, Bind.bind, Except.bind, pure, Except.pure]
  have hrun : ReflTransGen (SafeStep (min buffers buffers))
      (createBufferCache zeroCache buffers zeroData, []) (takeBuffer freshCache 16, [16]) :=
    .single hstep
  exact (cacheInvariant_of_safe_run zeroData_isSome hrun).1

/-- Block 100 is not cached. `getblk` recycles a buffer for it and links its `b_hash` into the free
list; the buffer is on no chain, and `search_hash` does not find the block. -/
theorem not_cacheInvariant_block_100 : ∃ b s, getblk (buffers + 1) freshCache devNo 100 = .ok (b, s) ∧
    ¬ CacheInvariant buffers s ∧ searchHash (buffers + 1) s devNo 100 = .ok none := by
  have hrun : (getblk 101 freshCache devNo 100 >>= fun r => searchHash 101 r.2 devNo 100) =
      .ok none := by decide +kernel
  rcases hget : getblk 101 freshCache devNo 100 with e | ⟨b, s⟩
  · simp [hget, Bind.bind, Except.bind] at hrun
  · obtain ⟨hheads, B, hB⟩ := consistent_freshCache
    rw [hget] at hrun
    refine ⟨b, s, hget, not_cacheInvariant_of_miss hB ?_ (by decide) hget, hrun⟩
    rintro ⟨c, hc, -, hcm⟩
    rw [hheads c hc] at hcm
    exact absurd hcm (Nat.ne_of_lt hc)

end YegaKernel.Fs.BufferRun
