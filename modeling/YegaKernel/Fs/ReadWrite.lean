import YegaKernel.Fs.BufferRun

/-! # Reading back what was written

A session of one client: it reads blocks by `bread`, changes the data of the buffers it holds, and
gives them back by `bwrite` or `brelse`, each before it asks for the block again.

`bwrite` of block `n` writes the sectors `n` and `n + 1`, and `bread` reads the sector `n` only. So
the first half of a block is on the disk until block `n - 1` is written, and the second half is only
in the buffer, until the buffer is given back with other data. `Session.intact` keeps track of the
blocks for which neither has happened since their last `bwrite`; those are read back as they were
written (`readsBack_of_run`). -/

namespace YegaKernel.Fs.ReadWrite

open Lib.Word Lib.Links Relation
open Fs.Disk Fs.Buffer Fs.BufferSpec Fs.BufferRun Function

/-! ### Sessions -/

/-- The cache, the buffers the client holds, and what it has done: the contents most recently passed
to `bwrite` for each block, and the blocks whose contents have been left alone since. -/
structure Session where
  cache : Cache
  held : List ℕ
  written : ℕ → Option Bytes
  intact : ℕ → Prop

inductive Act
  | bread (m : ℕ)
  | modify (b : ℕ) (data : Bytes)
  | bwrite (b : ℕ)
  | brelse (b : ℕ)

/-- The second half of the buffer is the one last written for its block. -/
def SameTail (σ : Session) (b : ℕ) : Prop :=
  ∀ data w, (σ.cache.heads b).bData = some data →
    σ.written (σ.cache.heads b).bBlocknr = some w →
      ∀ i, ataSectorSize ≤ i → i < bufferSize → data i = w i

def act (fuel : ℕ) : Act → Session → Except Fault Session
  | .bread m, σ => do
    let (b, s) ← bread fuel σ.cache devNo m
    return { σ with cache := s, held := b :: σ.held }
  | .modify b data, σ =>
    return { σ with cache := σ.cache.updHead b fun bh => { bh with bData := some data } }
  | .bwrite b, σ => do
    let s ← bwrite σ.cache b
    let m := (σ.cache.heads b).bBlocknr
    return { cache := s, held := σ.held.erase b
             written := update σ.written m (σ.cache.heads b).bData
             intact := fun k => k = m ∨ k ≠ m + 1 ∧ σ.intact k }
  | .brelse b, σ =>
    return { σ with cache := brelse σ.cache b, held := σ.held.erase b
                    intact := fun k =>
                      σ.intact k ∧ (k = (σ.cache.heads b).bBlocknr → SameTail σ b) }

/-- The client asks for no block that it holds, and uses only buffers that it holds. -/
def Legal (σ : Session) : Act → Prop
  | .bread m => ∀ b ∈ σ.held, (σ.cache.heads b).bBlocknr ≠ m
  | .modify b _ | .bwrite b | .brelse b => b ∈ σ.held

/-- The block as it is on the disk: the two sectors that `bwrite` writes. -/
def blockOnDisk (disk : Sectors) (m : ℕ) : Bytes := fun i =>
  if i < ataSectorSize then disk (readSector m) i
  else disk (readSector (u32 (m + 1))) (i - ataSectorSize)

/-- What a read of the block should return, for a disk that started as `disk`. -/
def Session.expected (σ : Session) (disk : Sectors) (m : ℕ) : Bytes :=
  (σ.written m).getD (blockOnDisk disk m)

/-- **`bread` returns the contents last written**, in all bytes of the buffer. -/
def ReadsBack (disk : Sectors) (σ : Session) (m fuel : ℕ) : Prop :=
  ∃ b s data, bread fuel σ.cache devNo m = .ok (b, s) ∧ (s.heads b).bData = some data ∧
    ∀ i < bufferSize, data i = σ.expected disk m i

/-- What a read of the block that buffer `b` is of finds: the sector on the disk, and behind it what
is in the buffer. -/
def contents (s : Cache) (b : ℕ) : Option Bytes :=
  (s.heads b).bData.map (diskRead s.disk (s.heads b).bBlocknr)

/-- The session before any call. -/
def opened (s : Cache) : Session :=
  { cache := s, held := [], written := fun _ => none, intact := fun _ => False }

/-- A step of the client, in which a `bread` asks for a cached block. -/
def Step (n : ℕ) (σ σ' : Session) : Prop :=
  ∃ fuel a, Legal σ a ∧ (∀ m, a = .bread m → Cached n σ.cache m) ∧ act fuel a σ = .ok σ'

/-! ### What a session keeps -/

/-- **The session and the cache agree**: buffer `b` is that of block `b`, none is dirty, and a block
that is intact has its first half on the disk and its second half in its buffer. -/
structure Coherent (n : ℕ) (σ : Session) : Prop where
  consistent : ∃ B, Consistent n σ.cache B σ.held
  block : ∀ b < n, (σ.cache.heads b).bBlocknr = b
  clean : ∀ b < n, isFlag (σ.cache.heads b).flags bhDirty = false
  intact : ∀ m, σ.intact m → ∃ w, σ.written m = some w ∧
    (∀ i < ataSectorSize, σ.cache.disk m i = w i) ∧
    (m ∉ σ.held → ∀ data, (σ.cache.heads m).bData = some data →
      ∀ i, ataSectorSize ≤ i → i < bufferSize → data i = w i)

variable {n m b : ℕ} {σ : Session}

theorem readSector_of_le (h : m ≤ buffers) : readSector m = m := by
  unfold buffers at h
  rw [readSector_eq]
  omega

theorem writeSector_of_le (h : m ≤ buffers) : writeSector m = m := by
  unfold buffers at h
  rw [writeSector_eq]
  omega

theorem Coherent.cached_iff (h : Coherent n σ) : Cached n σ.cache m ↔ m < n := by
  obtain ⟨B, hB⟩ := h.consistent
  constructor
  · rintro ⟨b, hb, -, hbm⟩
    rwa [← hbm, h.block b hb]
  · exact fun hm => ⟨m, hm, hB.dev m hm, h.block m hm⟩

/-! ### Reading -/

theorem isFlag_dirty_lock (f : BitVec 16) : isFlag (f ||| bhLock) bhDirty = isFlag f bhDirty :=
  (isFlag_or_bit f (by decide)).trans (by simp [bhDirty])

theorem isFlag_dirty_unlock (f : BitVec 16) : isFlag (f &&& ~~~bhLock) bhDirty = isFlag f bhDirty :=
  (isFlag_clear_bit f (by decide)).trans (by simp [bhDirty])

/-- The cache after a `bread` of a block that is not held. -/
def afterRead (s : Cache) (m : ℕ) (data : Bytes) : Cache :=
  (takeBuffer s m).updHead m fun bh => { bh with bData := some (diskRead s.disk m data) }

theorem afterRead_heads (s : Cache) (m : ℕ) (data : Bytes) (c : ℕ) :
    (afterRead s m data).heads c = if c = m then { s.heads m with
      flags := (s.heads m).flags ||| bhLock, bData := some (diskRead s.disk m data) }
      else s.heads c := by
  by_cases hc : c = m <;> simp [afterRead, Cache.updHead, takeBuffer_heads, hc]

/-- **What `bread` does**, if it comes back: the first half of the buffer is read from the disk. -/
theorem Coherent.bread_eq (h : Coherent n σ) (hm : m < n) (fuel : ℕ) :
    bread fuel σ.cache devNo m = .error .spinning ∨ (m ∉ σ.held ∧
      ∃ data, (σ.cache.heads m).bData = some data ∧
        bread fuel σ.cache devNo m = .ok (m, afterRead σ.cache m data)) := by
  obtain ⟨B, hB⟩ := h.consistent
  rcases hB.getblkLoop fuel fuel (m := m) with hspin | ⟨b, hb, hbm, heq⟩ | ⟨hmiss, -⟩
  · left
    unfold bread getblk
    rw [hspin]
    rfl
  · have hbn := (hB.mem_free b).mp hb
    rw [h.block b hbn.1] at hbm
    subst hbm
    obtain ⟨data, hdata⟩ := Option.isSome_iff_exists.mp (hB.data b hbn.1)
    have hhead := takeBuffer_heads σ.cache b b
    rw [if_pos rfl] at hhead
    have hdata' : ((takeBuffer σ.cache b).heads b).bData = some data := by rw [hhead]; exact hdata
    have hread := BufferRun.bread_eq (show getblk fuel σ.cache devNo b = _ from heq) hdata'
    rw [hhead] at hread
    simp only [isFlag_dirty_lock, h.clean b hbn.1, h.block b hm] at hread
    exact Or.inr ⟨fun hmem => hbn.2 ((hB.mem_held b).mp hmem).2, data, hdata, hread⟩
  · exact absurd (h.block m hm) (hmiss m hm)

theorem Coherent.bread_returns (h : Coherent n σ) (hm : m < n) (hheld : m ∉ σ.held) {fuel : ℕ}
    (hfuel : n < fuel) : ∃ data, (σ.cache.heads m).bData = some data ∧
      bread fuel σ.cache devNo m = .ok (m, afterRead σ.cache m data) := by
  obtain ⟨B, hB⟩ := h.consistent
  have hfree : m ∈ B .free :=
    (hB.mem_free m).mpr ⟨hm, fun hl => hheld ((hB.mem_held m).mpr ⟨hm, hl⟩)⟩
  have hget := hB.getblk_hit hfuel hfree (h.block m hm)
  rcases h.bread_eq hm fuel with hspin | ⟨-, hread⟩
  · unfold bread at hspin
    simp only [hget, Bind.bind, Except.bind, pure, Except.pure] at hspin
    split_ifs at hspin
    split at hspin <;> simp at hspin
  · exact hread

/-- **An intact block is read back as it was written.** -/
theorem Coherent.readsBack (h : Coherent n σ) (hn : n ≤ buffers) (hm : m < n) (hheld : m ∉ σ.held)
    (hint : σ.intact m) {fuel : ℕ} (hfuel : n < fuel) (disk : Sectors) :
    ReadsBack disk σ m fuel := by
  obtain ⟨data, hdata, hread⟩ := h.bread_returns hm hheld hfuel
  obtain ⟨w, hw, hfront, htail⟩ := h.intact m hint
  refine ⟨m, _, diskRead σ.cache.disk m data, hread, ?_, fun i hi => ?_⟩
  · rw [afterRead_heads, if_pos rfl]
  · rw [Session.expected, hw, Option.getD_some, diskRead_apply, readSector_of_le (by omega)]
    split_ifs with h512
    · exact hfront i h512
    · exact htail hheld data hdata i (by omega) hi

/-! ### One step of a session -/

section
variable (h : Coherent n σ)
include h

theorem Coherent.bread (hm : m < n) {fuel : ℕ} {σ' : Session}
    (hact : act fuel (.bread m) σ = .ok σ') : Coherent n σ' := by
  rcases h.bread_eq hm fuel with hspin | ⟨hheld, data, hdata, hread⟩
  · simp [act, hspin, Bind.bind, Except.bind] at hact
  · simp only [act, hread, Bind.bind, Except.bind, pure, Except.pure, Except.ok.injEq] at hact
    subst hact
    obtain ⟨B, hB⟩ := h.consistent
    have hfree : m ∈ B .free :=
      (hB.mem_free m).mpr ⟨hm, fun hl => hheld ((hB.mem_held m).mpr ⟨hm, hl⟩)⟩
    have hcons : Consistent n (afterRead σ.cache m data) _ (m :: σ.held) :=
      (hB.take hfree).updHead rfl rfl rfl rfl
    refine ⟨⟨_, hcons⟩, fun b hb => ?_, fun b hb => ?_, fun k hk => ?_⟩
    · simp only [afterRead_heads]
      split_ifs with hbm
      · rw [hbm]
        exact h.block m hm
      · exact h.block b hb
    · simp only [afterRead_heads]
      split_ifs
      · rw [isFlag_dirty_lock]
        exact h.clean m hm
      · exact h.clean b hb
    · obtain ⟨w, hw, hfront, htail⟩ := h.intact k hk
      refine ⟨w, hw, hfront, fun hkm => ?_⟩
      obtain ⟨hne, hkh⟩ := not_or.mp (List.mem_cons.not.mp hkm)
      simp only [afterRead_heads, if_neg hne]
      exact htail hkh

theorem Coherent.modify (hb : b ∈ σ.held) (data : Bytes) :
    Coherent n { σ with cache := σ.cache.updHead b fun bh => { bh with bData := some data } } := by
  obtain ⟨B, hB⟩ := h.consistent
  have hheads : ∀ c, (σ.cache.updHead b fun bh => { bh with bData := some data }).heads c =
      if c = b then { σ.cache.heads b with bData := some data } else σ.cache.heads c := by
    intro c
    by_cases hc : c = b <;> simp [Cache.updHead, hc]
  have hcons : Consistent n (σ.cache.updHead b fun bh => { bh with bData := some data }) B σ.held :=
    hB.updHead rfl rfl rfl rfl
  refine ⟨⟨B, hcons⟩, fun c hc => ?_, fun c hc => ?_, fun k hk => ?_⟩
  · simp only [hheads]
    split_ifs with hcb
    · rw [hcb]
      exact h.block b (hcb ▸ hc)
    · exact h.block c hc
  · simp only [hheads]
    split_ifs with hcb
    · exact h.clean b (hcb ▸ hc)
    · exact h.clean c hc
  · obtain ⟨w, hw, hfront, htail⟩ := h.intact k hk
    refine ⟨w, hw, hfront, fun hkh => ?_⟩
    have hne : k ≠ b := by
      rintro rfl
      exact hkh hb
    simp only [hheads, if_neg hne]
    exact htail hkh

theorem Coherent.release {s : Cache} {written : ℕ → Option Bytes} {intact : ℕ → Prop} (hb : b ∈ σ.held) (hheads : s.heads = σ.cache.heads)
    (hs : ∃ B, Consistent n s B σ.held)
    (hint : ∀ m, intact m → ∃ w, written m = some w ∧ (∀ i < ataSectorSize, s.disk m i = w i) ∧
      (m ∉ σ.held.erase b → ∀ data, (s.heads m).bData = some data →
        ∀ i, ataSectorSize ≤ i → i < bufferSize → data i = w i)) :
    Coherent n { cache := Buffer.brelse s b, held := σ.held.erase b, written := written,
                 intact := intact } := by
  obtain ⟨B, hB⟩ := hs
  obtain ⟨l, hl⟩ := hB.brelse hb
  have hsame := sameBlocks_brelse s b
  refine ⟨⟨_, hl⟩, fun c hc => ?_, fun c hc => ?_, fun k hk => ?_⟩
  · rw [(hsame c).2.1, hheads]
    exact h.block c hc
  · simp only [brelse_heads]
    split_ifs with hcb
    · rw [isFlag_dirty_unlock, hheads]
      exact h.clean b (hcb ▸ hc)
    · rw [hheads]
      exact h.clean c hc
  · obtain ⟨w, hw, hfront, htail⟩ := hint k hk
    refine ⟨w, hw, ?_, ?_⟩
    · simp only [brelse_disk]
      exact hfront
    · simp only [(hsame k).2.2]
      exact htail

theorem Coherent.brelse (hb : b ∈ σ.held) {fuel : ℕ} {σ' : Session}
    (hact : act fuel (.brelse b) σ = .ok σ') : Coherent n σ' := by
  obtain ⟨B, hB⟩ := h.consistent
  have hblock := h.block b ((hB.mem_held b).mp hb).1
  simp only [act, pure, Except.pure, Except.ok.injEq] at hact
  subst hact
  refine h.release hb rfl ⟨B, hB⟩ fun k hk => ?_
  obtain ⟨w, hw, hfront, htail⟩ := h.intact k hk.1
  refine ⟨w, hw, hfront, fun hkh data hdata => ?_⟩
  by_cases hkb : k = b
  · subst hkb
    exact hk.2 hblock.symm data w hdata (by rwa [hblock])
  · exact htail (fun hmem => hkh ((List.mem_erase_of_ne hkb).mpr hmem)) data hdata

end

/-! ### Writing -/

theorem diskWrite_buffer (hb : b < buffers) (disk : Sectors) (data : Bytes) :
    diskWrite disk b data bufferSize = update (update disk b (wholeSector data))
      (b + 1) (wholeSector fun i => data (ataSectorSize + i)) := by
  have h32 : u32 (b + 1) = b + 1 := u32_of_lt (by unfold buffers at hb; omega)
  rw [bufferSize, diskWrite_block, h32, writeSector_of_le (by omega), writeSector_of_le (by omega)]

theorem Coherent.bwrite_eq (h : Coherent n σ) (hn : n ≤ buffers) (hb : b ∈ σ.held) :
    ∃ data, (σ.cache.heads b).bData = some data ∧ bwrite σ.cache b = .ok (Buffer.brelse { σ.cache with
      disk := update (update σ.cache.disk b (wholeSector data)) (b + 1)
        (wholeSector fun i => data (ataSectorSize + i)) } b) := by
  obtain ⟨B, hB⟩ := h.consistent
  have hbn := ((hB.mem_held b).mp hb).1
  obtain ⟨data, hdata⟩ := Option.isSome_iff_exists.mp (hB.data b hbn)
  refine ⟨data, hdata, ?_⟩
  unfold Buffer.bwrite
  simp only [hdata, h.block b hbn]
  rw [diskWrite_buffer (by omega)]

theorem Coherent.bwrite (h : Coherent n σ) (hn : n ≤ buffers) (hb : b ∈ σ.held) {fuel : ℕ}
    {σ' : Session} (hact : act fuel (.bwrite b) σ = .ok σ') : Coherent n σ' := by
  obtain ⟨B, hB⟩ := h.consistent
  have hblock := h.block b ((hB.mem_held b).mp hb).1
  obtain ⟨data, hdata, hwrite⟩ := h.bwrite_eq hn hb
  simp only [act, hwrite, Bind.bind, Except.bind, pure, Except.pure, Except.ok.injEq] at hact
  subst hact
  refine h.release hb rfl ⟨B, hB.setDisk _⟩ fun k hk => ?_
  rw [hblock] at hk ⊢
  by_cases hkb : k = b
  · -- the block that is written
    subst hkb
    refine ⟨data, by rw [update_self, hdata], fun i hi => ?_, fun _ data' hdata' i _ _ => ?_⟩
    · simp only
      rw [update_of_ne (by omega), update_self, wholeSector, if_pos hi]
    · rw [Option.some.inj (hdata'.symm.trans hdata)]
  · obtain ⟨hne, hk⟩ := hk.resolve_left hkb
    obtain ⟨w, hw, hfront, htail⟩ := h.intact k hk
    refine ⟨w, by rwa [update_of_ne hkb], fun i hi => ?_, fun hkh => ?_⟩
    · simp only
      rw [update_of_ne hne, update_of_ne hkb]
      exact hfront i hi
    · exact htail fun hmem => hkh ((List.mem_erase_of_ne hkb).mpr hmem)

/-- `bwrite` of a block changes what is found for no other block but the next one. -/
theorem Coherent.contents_bwrite (h : Coherent n σ) (hn : n ≤ buffers) (hb : b ∈ σ.held) {s : Cache}
    (hwrite : Buffer.bwrite σ.cache b = .ok s) {c : ℕ} (hc : c < n) (hcb : c ≠ b) (hnext : c ≠ b + 1) :
    contents s c = contents σ.cache c := by
  obtain ⟨data, -, heq⟩ := h.bwrite_eq hn hb
  obtain rfl := Except.ok.inj (heq.symm.trans hwrite)
  have hsame := sameBlocks_brelse { σ.cache with
    disk := update (update σ.cache.disk b (wholeSector data)) (b + 1)
      (wholeSector fun i => data (ataSectorSize + i)) } b c
  unfold contents
  rw [hsame.2.1, hsame.2.2, brelse_disk]
  refine congrArg (fun f => Option.map f (σ.cache.heads c).bData) (funext fun buf => funext fun i => ?_)
  simp only [diskRead_apply, h.block c hc, readSector_of_le (show c ≤ buffers by omega),
    update_of_ne hnext, update_of_ne hcb]

/-! ### Runs -/

/-- **One step** keeps the session and the cache in agreement. -/
theorem Coherent.step (h : Coherent n σ) (hn : n ≤ buffers) {σ' : Session} (hstep : Step n σ σ') :
    Coherent n σ' := by
  obtain ⟨fuel, a, hlegal, hcached, hact⟩ := hstep
  cases a with
  | bread m => exact h.bread (h.cached_iff.mp (hcached m rfl)) hact
  | modify b data =>
    simp only [act, pure, Except.pure, Except.ok.injEq] at hact
    subst hact
    exact h.modify hlegal data
  | bwrite b => exact h.bwrite hn hlegal hact
  | brelse b => exact h.brelse hlegal hact

theorem coherent_opened (s : Cache) (got : ℕ) (data : ℕ → Option Bytes)
    (hdata : ∀ b < min got buffers, (data b).isSome) :
    Coherent (min got buffers) (opened (createBufferCache s got data)) := by
  obtain ⟨hheads, hcons⟩ := consistent_createBufferCache s got data hdata
  refine ⟨hcons, fun b hb => ?_, fun b hb => ?_, fun m hm => hm.elim⟩
  · simp only [opened, hheads b hb, freshHead]
  · simp only [opened, hheads b hb, freshHead]
    decide

theorem coherent_of_run {s : Cache} {got : ℕ} {data : ℕ → Option Bytes}
    (hdata : ∀ b < min got buffers, (data b).isSome)
    (hrun : ReflTransGen (Step (min got buffers)) (opened (createBufferCache s got data)) σ) :
    Coherent (min got buffers) σ := by
  induction hrun with
  | refl => exact coherent_opened s got data hdata
  | tail _ hstep ih => exact ih.step (Nat.min_le_right _ _) hstep

/-- **Reading back what was written.** In every session of one client that asks only for cached
blocks: a block that is intact is read back as it was last written, in all bytes; and `bwrite`
changes what is found for no other block but the next one. -/
theorem readsBack_of_run {s : Cache} {got : ℕ} {data : ℕ → Option Bytes}
    (hdata : ∀ b < min got buffers, (data b).isSome)
    (hrun : ReflTransGen (Step (min got buffers)) (opened (createBufferCache s got data)) σ) :
    (∀ m fuel, Legal σ (.bread m) → Cached (min got buffers) σ.cache m → σ.intact m →
      buffers < fuel → ReadsBack s.disk σ m fuel) ∧
    ∀ b s', Legal σ (.bwrite b) → bwrite σ.cache b = .ok s' → ∀ c < min got buffers,
      (σ.cache.heads c).bBlocknr ≠ (σ.cache.heads b).bBlocknr →
      (σ.cache.heads c).bBlocknr ≠ (σ.cache.heads b).bBlocknr + 1 →
      contents s' c = contents σ.cache c := by
  have hn : min got buffers ≤ buffers := Nat.min_le_right _ _
  have h := coherent_of_run hdata hrun
  obtain ⟨B, hB⟩ := h.consistent
  refine ⟨fun m fuel hlegal hcached hint hfuel => ?_, fun b s' hlegal hwrite c hc hcb hnext => ?_⟩
  · have hm := h.cached_iff.mp hcached
    refine h.readsBack hn hm (fun hheld => ?_) hint (by omega) s.disk
    exact hlegal m hheld (h.block m hm)
  · have hbn := ((hB.mem_held b).mp hlegal).1
    rw [h.block c hc, h.block b hbn] at hcb hnext
    exact h.contents_bwrite hn hlegal hwrite hc hcb hnext

/-! ### Two neighbouring blocks -/

theorem Coherent.write_block (h : Coherent n σ) (hn : n ≤ buffers) (hm : m < n) (hheld : σ.held = [])
    (data : Bytes) : ∃ σ', ReflTransGen (Step n) σ σ' ∧ σ'.held = [] ∧ σ'.intact m ∧
      σ'.written = update σ.written m (some data) ∧
      ∀ i < ataSectorSize, σ'.cache.disk (m + 1) i = data (ataSectorSize + i) := by
  obtain ⟨old, -, hread⟩ := h.bread_returns hm (by simp [hheld]) (Nat.lt_succ_self n)
  -- the block is read
  set σ₁ : Session := { σ with cache := afterRead σ.cache m old, held := m :: σ.held } with hσ₁
  have hstep₁ : Step n σ σ₁ := by
    refine ⟨n + 1, .bread m, by simp [Legal, hheld], fun k hk => ?_, ?_⟩
    · obtain rfl := Act.bread.inj hk
      exact h.cached_iff.mpr hm
    · simp [act, hread, Bind.bind, Except.bind, pure, Except.pure, hσ₁]
  have hm₁ : m ∈ σ₁.held := List.mem_cons_self
  -- changed
  set σ₂ : Session :=
    { σ₁ with cache := σ₁.cache.updHead m fun bh => { bh with bData := some data } } with hσ₂
  have hstep₂ : Step n σ₁ σ₂ := ⟨0, .modify m data, hm₁, by simp, rfl⟩
  have h₂ := (h.step hn hstep₁).step hn hstep₂
  have hm₂ : m ∈ σ₂.held := hm₁
  have hdata₂ : (σ₂.cache.heads m).bData = some data := by simp [hσ₂, Cache.updHead]
  -- and written
  obtain ⟨data', hdata', hwrite⟩ := h₂.bwrite_eq hn hm₂
  obtain rfl := Option.some.inj (hdata₂.symm.trans hdata')
  have hblock := h₂.block m hm
  refine ⟨_, ((ReflTransGen.single hstep₁).tail hstep₂).tail ⟨0, .bwrite m, hm₂, by simp,
    by simp only [act, hwrite, Bind.bind, Except.bind, pure, Except.pure]; rfl⟩, ?_, ?_, ?_, ?_⟩
  · simp [hσ₂, hσ₁, hheld]
  · exact Or.inl hblock.symm
  · simp only [hblock, hdata₂]
    rfl
  · intro i hi
    simp only [brelse_disk, update_self, wholeSector, if_pos hi]

def onesData : Bytes := fun _ => 1
def twosData : Bytes := fun _ => 2

/-- Block 16 written, and read back. -/
theorem readsBack_block_16 : ∃ σ,
    ReflTransGen (Step (min buffers buffers)) (opened freshCache) σ ∧
    σ.written 16 = some onesData ∧ ReadsBack zeroCache.disk σ 16 (buffers + 1) := by
  have h : Coherent buffers (opened freshCache) :=
    coherent_opened zeroCache buffers zeroData fun _ _ => rfl
  obtain ⟨σ, hrun, hheld, hint, hwritten, -⟩ := h.write_block (m := 16) le_rfl (by decide) rfl onesData
  have hcached : Cached buffers σ.cache 16 :=
    (coherent_of_run zeroData_isSome hrun).cached_iff.mpr (by decide)
  refine ⟨σ, hrun, by rw [hwritten, update_self], ?_⟩
  exact (readsBack_of_run zeroData_isSome hrun).1 16 _ (by simp [Legal, hheld]) hcached hint
    (Nat.lt_succ_self _)

/-- Block 17 is written with twos and then block 16 with ones: block 17 starts with a one. -/
theorem not_readsBack_block_17 : ∃ σ,
    ReflTransGen (Step buffers) (opened freshCache) σ ∧ Legal σ (.bread 17) ∧
      σ.written 17 = some twosData ∧ ¬ ReadsBack zeroCache.disk σ 17 (buffers + 1) := by
  have h : Coherent buffers (opened freshCache) :=
    coherent_opened zeroCache buffers zeroData fun _ _ => rfl
  obtain ⟨σ₁, hrun₁, hheld₁, -, hwritten₁, -⟩ :=
    h.write_block (m := 17) le_rfl (by decide) rfl twosData
  have h₁ : Coherent buffers σ₁ :=
    coherent_of_run zeroData_isSome hrun₁
  obtain ⟨σ, hrun, hheld, -, hwritten, hdisk⟩ :=
    h₁.write_block (m := 16) le_rfl (by decide) hheld₁ onesData
  have h₂ : Coherent buffers σ :=
    coherent_of_run zeroData_isSome (hrun₁.trans hrun)
  have h17 : σ.written 17 = some twosData := by
    rw [hwritten, update_of_ne (by decide), hwritten₁, update_self]
  refine ⟨σ, hrun₁.trans hrun, by simp [Legal, hheld], h17, ?_⟩
  rintro ⟨b, s, data, hread, hdata, hbytes⟩
  obtain ⟨old, -, hread'⟩ := h₂.bread_returns (m := 17) (by decide) (by simp [hheld])
    (Nat.lt_succ_self buffers)
  obtain ⟨rfl, rfl⟩ := Prod.mk.inj (Except.ok.inj (hread'.symm.trans hread))
  rw [afterRead_heads, if_pos rfl] at hdata
  obtain rfl := Option.some.inj hdata
  have hbyte := hbytes 0 (by decide)
  rw [Session.expected, h17, Option.getD_some, diskRead_apply, if_pos (by decide),
    readSector_of_le (by decide), hdisk 0 (by decide)] at hbyte
  exact absurd hbyte (by decide)

end YegaKernel.Fs.ReadWrite
