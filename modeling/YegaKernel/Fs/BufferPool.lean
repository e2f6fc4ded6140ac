import YegaKernel.Fs.BufferRun

/-! # The buffer cache over an ideal disk

The functions of `fs/buffer.c`, with what is under them idealised: a buffer is found if there is one
of its block, whatever chain it is on; the free list is a sequence; and the disk has an independent
block of 1024 bytes for each block number, which `disk_read`, `disk_write` and `disk_write_blk` all
read and write as a whole. The buffer heads and their flags are those of the code.

`Sim` relates the pool to the lists in memory: `getblk` returns the same buffer in both, with the
same heads (`Sim.getblk`), and they stay related by hits and by `brelse`. -/

namespace YegaKernel.Fs.BufferPool

open Lib.Links Fs.Disk
open Fs.Buffer (BufferHead Cache Fault Link devNo bhLock bhDirty bhDelay bhOld isFlag)
open Fs.BufferSpec Function

/-- **A pool of buffers** and the disk behind it. -/
structure Pool where
  heads : ℕ → BufferHead
  free : List ℕ
  disk : ℕ → Bytes

def Pool.updHead (p : Pool) (b : ℕ) (f : BufferHead → BufferHead) : Pool :=
  { p with heads := update p.heads b (f (p.heads b)) }

theorem updHead_heads (p : Pool) (b c : ℕ) (f : BufferHead → BufferHead) :
    (p.updHead b f).heads c = if c = b then f (p.heads b) else p.heads c := update_apply ..

def setFlag (p : Pool) (b : ℕ) (flag : BitVec 16) : Pool :=
  p.updHead b fun bh => { bh with flags := bh.flags ||| flag }

def clearFlag (p : Pool) (b : ℕ) (flag : BitVec 16) : Pool :=
  p.updHead b fun bh => { bh with flags := bh.flags &&& ~~~flag }

/-! ### The functions -/

/-- `search_hash`: the buffer of the block, of the `n` that there are. -/
def lookup (n : ℕ) (p : Pool) (dev blocknr : ℕ) : Option ℕ :=
  (List.range n).find? fun b => (p.heads b).bBlocknr = blocknr ∧ (p.heads b).bDev = dev

/-- Scenario 1 of `getblk`. -/
def take (p : Pool) (b : ℕ) : Pool := setFlag { p with free := p.free.erase b } b bhLock

/-- Scenario 3 of `getblk`: the delayed write of the first free buffer, which stays there. -/
def writeDelayed (p : Pool) (b : ℕ) (data : Bytes) : Pool :=
  clearFlag { p with disk := update p.disk (p.heads b).bBlocknr data } b bhDelay

/-- Scenario 2 of `getblk`: the first free buffer becomes the buffer of the block. -/
def recycle (p : Pool) (b dev blocknr : ℕ) : Pool :=
  setFlag (p.updHead b fun bh => { bh with bDev := dev, bBlocknr := blocknr }) b bhLock

def getblkLoop (n : ℕ) : ℕ → Pool → ℕ → ℕ → Except Fault (ℕ × Pool)
  | 0, _, _, _ => .error .spinning
  | fuel + 1, p, dev, blocknr =>
    match lookup n p dev blocknr with
    | some b =>
      if isFlag (p.heads b).flags bhLock then getblkLoop n fuel p dev blocknr
      else .ok (b, take p b)
    | none =>
      match p.free with
      | [] => getblkLoop n fuel p dev blocknr
      | b :: rest =>
        if isFlag (p.heads b).flags bhDelay then
          match (p.heads b).bData with
          | some data => getblkLoop n fuel (writeDelayed p b data) dev blocknr
          | none => .error .nullPointer
        else .ok (b, recycle { p with free := rest } b dev blocknr)

def getblk (n fuel : ℕ) (p : Pool) (dev blocknr : ℕ) : Except Fault (ℕ × Pool) :=
  getblkLoop n fuel p dev blocknr

def brelse (p : Pool) (b : ℕ) : Pool :=
  let p :=
    if !isFlag (p.heads b).flags bhDirty && !isFlag (p.heads b).flags bhOld
    then { p with free := p.free ++ [b] } else { p with free := b :: p.free }
  clearFlag p b bhLock

/-- `bread`: the block, unless the buffer is dirty. -/
def bread (n fuel : ℕ) (p : Pool) (dev blocknr : ℕ) : Except Fault (ℕ × Pool) := do
  let (b, p) ← getblk n fuel p dev blocknr
  if isFlag (p.heads b).flags bhDirty then return (b, p)
  else match (p.heads b).bData with
    | some _ => return (b, p.updHead b fun bh => { bh with bData := some (p.disk bh.bBlocknr) })
    | none => .error .nullPointer

/-- `bwrite`: the whole buffer. -/
def bwrite (p : Pool) (b : ℕ) : Except Fault Pool :=
  match (p.heads b).bData with
  | some data => .ok (brelse { p with disk := update p.disk (p.heads b).bBlocknr data } b)
  | none => .error .nullPointer

/-! ### What the functions do -/

variable {n m dev b fuel : ℕ} {p : Pool}

theorem lookup_some (h : lookup n p dev m = some b) :
    b < n ∧ (p.heads b).bBlocknr = m ∧ (p.heads b).bDev = dev := by
  have hmem := List.mem_of_find?_eq_some h
  have hkey := List.find?_some h
  simp only [List.mem_range, decide_eq_true_eq] at hmem hkey
  exact ⟨hmem, hkey⟩

theorem lookup_eq_none : lookup n p dev m = none ↔
    ∀ b < n, ¬ ((p.heads b).bBlocknr = m ∧ (p.heads b).bDev = dev) := by
  simp only [lookup, List.find?_eq_none, List.mem_range, decide_eq_true_eq]

theorem lookup_congr {p' : Pool} (h : ∀ c, (p'.heads c).bBlocknr = (p.heads c).bBlocknr ∧
    (p'.heads c).bDev = (p.heads c).bDev) : lookup n p' dev m = lookup n p dev m := by
  simp only [lookup, h]

theorem take_heads (p : Pool) (b c : ℕ) : (take p b).heads c =
    if c = b then { p.heads b with flags := (p.heads b).flags ||| bhLock } else p.heads c := by
  rw [take, setFlag, updHead_heads]

theorem heads_brelse (p : Pool) (b c : ℕ) : (brelse p b).heads c =
    if c = b then { p.heads b with flags := (p.heads b).flags &&& ~~~bhLock } else p.heads c := by
  simp only [brelse, clearFlag, updHead_heads]
  split_ifs <;> rfl

theorem free_brelse (p : Pool) (b : ℕ) : (brelse p b).free.Perm (b :: p.free) := by
  simp only [brelse, clearFlag, Pool.updHead]
  split_ifs
  · exact List.perm_append_singleton b _
  · exact List.Perm.refl _

theorem disk_brelse (p : Pool) (b : ℕ) : (brelse p b).disk = p.disk := by
  simp only [brelse, clearFlag, Pool.updHead]
  split_ifs <;> rfl

theorem getblk_hit (h : lookup n p dev m = some b) (hl : isFlag (p.heads b).flags bhLock = false)
    (hfuel : 0 < fuel) : getblk n fuel p dev m = .ok (b, take p b) := by
  obtain ⟨fuel, rfl⟩ := Nat.exists_eq_add_one_of_ne_zero (Nat.ne_of_gt hfuel)
  simp [getblk, getblkLoop, h, hl]

/-- The pool after the delayed write of its first free buffer, if that is to be written. -/
def flush (p : Pool) (b : ℕ) (data : Bytes) : Pool :=
  if isFlag (p.heads b).flags bhDelay then writeDelayed p b data else p

theorem flush_heads (p : Pool) (b : ℕ) (data : Bytes) (c : ℕ) : (flush p b data).heads c =
    if c = b then { p.heads b with flags := if isFlag (p.heads b).flags bhDelay
      then (p.heads b).flags &&& ~~~bhDelay else (p.heads b).flags } else p.heads c := by
  unfold flush
  split_ifs with hd hc hc
  · rw [writeDelayed, clearFlag, updHead_heads, if_pos hc]
  · rw [writeDelayed, clearFlag, updHead_heads, if_neg hc]
  · rw [hc]
  · rfl

theorem isFlag_delay_clear (f : BitVec 16) : isFlag (f &&& ~~~bhDelay) bhDelay = false ∧
    isFlag (f &&& ~~~bhDelay) bhDirty = isFlag f bhDirty :=
  ⟨(isFlag_clear_bit f (by decide)).trans (by simp),
    (isFlag_clear_bit f (by decide)).trans (by simp [bhDirty])⟩

/-- **A miss of `getblk`** recycles the first free buffer, after its delayed write. -/
theorem getblk_miss {rest : List ℕ} {data : Bytes} (h : lookup n p dev m = none)
    (hfree : p.free = b :: rest) (hdata : (p.heads b).bData = some data) (hfuel : 1 < fuel) :
    getblk n fuel p dev m = .ok (b, recycle { flush p b data with free := rest } b dev m) := by
  obtain ⟨fuel, rfl⟩ : ∃ k, fuel = k + 2 := ⟨fuel - 2, by omega⟩
  rcases hd : isFlag (p.heads b).flags bhDelay with _ | _
  · have hflush : flush p b data = p := by simp [flush, hd]
    rw [getblk, getblkLoop, hflush]
    simp [h, hfree, hd]
  · have hflush : flush p b data = writeDelayed p b data := by simp [flush, hd]
    have hlookup : lookup n (writeDelayed p b data) dev m = none := by
      rw [← h]
      refine lookup_congr fun c => ?_
      rw [writeDelayed, clearFlag, updHead_heads]
      split_ifs with hc
      · rw [hc]
        exact ⟨rfl, rfl⟩
      · exact ⟨rfl, rfl⟩
    have hfree' : (writeDelayed p b data).free = b :: rest := hfree
    have hd' : isFlag ((writeDelayed p b data).heads b).flags bhDelay = false := by
      rw [writeDelayed, clearFlag, updHead_heads, if_pos rfl]
      exact (isFlag_delay_clear _).1
    rw [getblk, getblkLoop]
    simp only [h, hfree, hd, hdata, if_true]
    rw [getblkLoop, hflush]
    simp [hlookup, hfree', hd']

/-- **What `getblk` can do** when it comes back. -/
theorem getblk_cases {p' : Pool} (hdata : ∀ b ∈ p.free, (p.heads b).bData.isSome) :
    ∀ {fuel : ℕ}, getblk n fuel p dev m = .ok (b, p') →
      (lookup n p dev m = some b ∧ isFlag (p.heads b).flags bhLock = false ∧ p' = take p b) ∨
      (lookup n p dev m = none ∧ ∃ rest data, p.free = b :: rest ∧ (p.heads b).bData = some data ∧
        p' = recycle { flush p b data with free := rest } b dev m)
  | 0, h => by simp [getblk, getblkLoop] at h
  | fuel + 1, h => by
    rcases hl : lookup n p dev m with _ | c
    · rcases hfree : p.free with _ | ⟨c, rest⟩
      · have hagain : getblk n fuel p dev m = .ok (b, p') := by
          rw [getblk, getblkLoop] at h
          simpa [getblk, hl, hfree] using h
        obtain ⟨hl', -⟩ | ⟨-, rest, data, hcons, -⟩ := getblk_cases hdata hagain
        · exact absurd (hl.symm.trans hl') (by simp)
        · exact absurd (hfree.symm.trans hcons) (by simp)
      · obtain ⟨data, hd⟩ := Option.isSome_iff_exists.mp (hdata c (by simp [hfree]))
        refine .inr ⟨rfl, rest, data, ?_⟩
        rcases fuel with _ | fuel
        · rw [getblk, getblkLoop] at h
          rcases hdelay : isFlag (p.heads c).flags bhDelay with _ | _
          · have hflush : flush p c data = p := by simp [flush, hdelay]
            simp only [hl, hfree, hdelay, Bool.false_eq_true, if_false, Except.ok.injEq,
              Prod.mk.injEq] at h
            obtain ⟨rfl, rfl⟩ := h
            exact ⟨rfl, hd, by rw [hflush]⟩
          · simp [hl, hfree, hdelay, hd, getblkLoop] at h
        · rw [getblk_miss hl hfree hd (by omega)] at h
          obtain ⟨rfl, rfl⟩ := Prod.mk.inj (Except.ok.inj h)
          exact ⟨rfl, hd, rfl⟩
    · rw [getblk, getblkLoop] at h
      simp only [hl] at h
      split_ifs at h with hlock
      · exact hl ▸ getblk_cases hdata (show getblk n fuel p dev m = .ok (b, p') from h)
      · obtain ⟨rfl, rfl⟩ := Prod.mk.inj (Except.ok.inj h)
        exact .inl ⟨rfl, Bool.eq_false_iff.mpr hlock, rfl⟩

/-- `bread` is `getblk`, and the block read into the buffer unless that is dirty. -/
theorem bread_cases {p' : Pool} (h : bread n fuel p dev m = .ok (b, p')) : ∃ p₁,
    getblk n fuel p dev m = .ok (b, p₁) ∧ ((isFlag (p₁.heads b).flags bhDirty = true ∧ p' = p₁) ∨
        (isFlag (p₁.heads b).flags bhDirty = false ∧
          p' = p₁.updHead b fun bh => { bh with bData := some (p₁.disk bh.bBlocknr) })) := by
  unfold bread at h
  rcases hget : getblk n fuel p dev m with e | ⟨c, p₁⟩
  · simp [hget, Bind.bind, Except.bind] at h
  · simp only [hget, Bind.bind, Except.bind, pure, Except.pure] at h
    split_ifs at h with hdirty
    · obtain ⟨rfl, rfl⟩ := Prod.mk.inj (Except.ok.inj h)
      exact ⟨p₁, rfl, .inl ⟨hdirty, rfl⟩⟩
    · rcases hdata : (p₁.heads c).bData with _ | data
      · simp [hdata] at h
      · simp only [hdata] at h
        obtain ⟨rfl, rfl⟩ := Prod.mk.inj (Except.ok.inj h)
        exact ⟨p₁, rfl, .inr ⟨Bool.eq_false_iff.mpr hdirty, rfl⟩⟩

theorem bread_returns {p₁ : Pool} (h : getblk n fuel p dev m = .ok (b, p₁))
    (hdata : (p₁.heads b).bData.isSome) : ∃ p', bread n fuel p dev m = .ok (b, p') := by
  obtain ⟨data, hdata⟩ := Option.isSome_iff_exists.mp hdata
  simp only [bread, h, hdata, Bind.bind, Except.bind, pure, Except.pure]
  split_ifs
  · exact ⟨_, rfl⟩
  · exact ⟨_, rfl⟩

/-! ### The pool and the lists in memory -/

section Sim
variable {s s' : Cache} {held : List ℕ} {walk : ℕ}

/-- **The pool is what the cache represents**: the heads are the same, and so is the free list. -/
structure Sim (n : ℕ) (s : Cache) (p : Pool) (held : List ℕ) : Prop where
  heads : p.heads = s.heads
  lists : ∃ B, Consistent n s B held ∧ p.free = B .free

theorem Sim.searchHash (h : Sim n s p held) (walk m : ℕ) :
    Buffer.searchHash walk s devNo m = .ok (lookup n p devNo m) ∨
      Buffer.searchHash walk s devNo m = .error .spinning := by
  obtain ⟨B, hB, -⟩ := h.lists
  rcases hB.searchHash walk m with ⟨b, hb, hbm, hs⟩ | ⟨hm, hs⟩ | ⟨hs, -⟩
  · left
    rcases hl : lookup n p devNo m with _ | c
    · rw [lookup_eq_none, h.heads] at hl
      exact absurd ⟨hbm, hB.dev b hb⟩ (hl b hb)
    · obtain ⟨hc, hcm, -⟩ := lookup_some hl
      rw [h.heads] at hcm
      rw [hs, hB.key b hb c hc (hbm.trans hcm.symm)]
  · left
    rw [hs, lookup_eq_none.mpr fun b hb hbm => hm b hb (by rw [← h.heads]; exact hbm.1)]
  · exact .inr hs

theorem Sim.take (h : Sim n s p held) (hb : b < n) (hl : ¬ Locked s b) :
    Sim n (takeBuffer s b) (take p b) (b :: held) := by
  obtain ⟨B, hB, hfree⟩ := h.lists
  refine ⟨?_, _, hB.take ((hB.mem_free b).mpr ⟨hb, hl⟩), ?_⟩
  · funext c
    rw [takeBuffer_heads, take_heads]
    simp only [h.heads]
  · rw [update_self, ← hfree]
    rfl

theorem Sim.writeDelayed (h : Sim n s p held) {rest : List ℕ} (hfree : p.free = b :: rest)
    (data : Bytes) : Sim n (Buffer.writeDelayed (listDel .null s (.freeOf b)) b data)
    (writeDelayed p b data) held := by
  obtain ⟨B, hB, hB'⟩ := h.lists
  refine ⟨?_, B, (hB.delayed_front (hB'.symm.trans hfree) data).1, hB'⟩
  funext c
  rw [BufferPool.writeDelayed, clearFlag, updHead_heads]
  simp only [Buffer.writeDelayed, Buffer.clearFlag, Cache.updHead, Buffer.listAdd_heads,
    Buffer.listDel_heads, h.heads, update_apply]

/-- **`getblk` of the cache is `getblk` of the pool**: they return the same buffer and leave the
same heads; a hit leaves the same lists, too. -/
theorem Sim.getblkLoop (walk : ℕ) : ∀ {fuel : ℕ} {s : Cache} {p : Pool}, Sim n s p held →
    Buffer.getblkLoop walk fuel s devNo m = .ok (b, s') →
    ∃ p', getblkLoop n fuel p devNo m = .ok (b, p') ∧ p'.heads = s'.heads ∧
      (lookup n p devNo m ≠ none → Sim n s' p' (b :: held))
  | 0, s, p, _, hget => by simp [Buffer.getblkLoop] at hget
  | fuel + 1, s, p, h, hget => by
    obtain ⟨B, hB, hB'⟩ := h.lists
    rcases h.searchHash walk m with hs | hs
    · rcases hl : lookup n p devNo m with _ | c <;> rw [hl] at hs
      · rcases hB.free_cases with ⟨hnil, he⟩ | ⟨c, rest, hcons, he, hnext⟩
        · rw [getblkLoop_empty hs he] at hget
          obtain ⟨p', hget', hheads, hsim⟩ := h.getblkLoop walk hget
          refine ⟨p', ?_, hheads, fun hne => absurd rfl hne⟩
          rw [BufferPool.getblkLoop]
          simp [hl, hB', hnil, hget']
        · have hfree : p.free = c :: rest := hB'.trans hcons
          have hc := ((hB.mem_free c).mp (by simp [hcons])).1
          obtain ⟨data, hdata⟩ := Option.isSome_iff_exists.mp (hB.data c hc)
          rcases hd : isFlag (s.heads c).flags bhDelay with _ | _
          · rw [getblkLoop_recycle hs he hnext hd] at hget
            obtain ⟨rfl, head, -, rfl⟩ := recycle_cases hget
            refine ⟨recycle { p with free := rest } b devNo m, ?_, ?_, fun hne => absurd rfl hne⟩
            · rw [BufferPool.getblkLoop]
              simp [hl, hfree, h.heads, hd]
            · funext c
              simp only [recycle, setFlag, updHead_heads, Buffer.lockedBuffer, Buffer.setFlag,
                Cache.updHead, Buffer.listAdd_heads, Buffer.listDel_heads, h.heads, update_apply]
          · rw [getblkLoop_delayed hs he hnext hd hdata] at hget
            obtain ⟨p', hget', hheads, -⟩ := (h.writeDelayed hfree data).getblkLoop walk hget
            refine ⟨p', ?_, hheads, fun hne => absurd rfl hne⟩
            rw [BufferPool.getblkLoop]
            simp [hl, hfree, h.heads, hd, hdata, hget']
      · obtain ⟨hc, -, -⟩ := lookup_some hl
        rw [getblkLoop_hit hs] at hget
        split_ifs at hget with hlock
        · obtain ⟨p', hget', hheads, hsim⟩ := h.getblkLoop walk hget
          refine ⟨p', ?_, hheads, hl ▸ hsim⟩
          rw [BufferPool.getblkLoop]
          simp [hl, h.heads, hlock, hget']
        · obtain ⟨rfl, rfl⟩ := Prod.mk.inj (Except.ok.inj hget)
          have hsim := h.take hc hlock
          refine ⟨BufferPool.take p c, ?_, hsim.heads, fun _ => hsim⟩
          rw [BufferPool.getblkLoop]
          simp [hl, h.heads, hlock]
    · rw [Buffer.getblkLoop, hs] at hget
      simp [Bind.bind, Except.bind] at hget

theorem Sim.getblk (h : Sim n s p held) (hget : Buffer.getblk fuel s devNo m = .ok (b, s')) :
    ∃ p', getblk n fuel p devNo m = .ok (b, p') ∧ p'.heads = s'.heads ∧
      (lookup n p devNo m ≠ none → Sim n s' p' (b :: held)) := h.getblkLoop fuel hget

/-- **`brelse` of the cache is `brelse` of the pool.** -/
theorem Sim.brelse (h : Sim n s p held) (hb : b ∈ held) :
    Sim n (Buffer.brelse s b) (brelse p b) (held.erase b) := by
  obtain ⟨B, hB, hB'⟩ := h.lists
  refine ⟨?_, _, hB.brelse_free hb, ?_⟩
  · funext c
    rw [brelse_heads, heads_brelse, h.heads]
  · rw [update_self, ← hB', ← h.heads]
    simp only [BufferPool.brelse]
    split_ifs <;> rfl

end Sim

end YegaKernel.Fs.BufferPool
