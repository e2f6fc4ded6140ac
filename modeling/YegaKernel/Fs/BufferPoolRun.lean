import YegaKernel.Lib.Runs
import YegaKernel.Lib.Loops
import YegaKernel.Fs.BufferPool

/-! # What the buffers of an ideal disk hold

Clients use the buffer cache over an ideal disk: they get buffers by `getblk` and `bread`, modify
the data of those they hold and mark them `BH_dirty` or `BH_delay`, and give them back by `bwrite`
and `brelse`. A session remembers, for every block, the contents last left in its buffer, if that
was marked.

`bread` should return these, and the block on the disk otherwise; and contents that are marked
should be on the disk before their buffer is used for another block. Both hold for the calls that
are `Careful`: `getblk` does not look at `BH_dirty` when it recycles a buffer, and `bread` does not
look at `BH_delay` when it finds one (`noStaleData_of_run`). -/

namespace YegaKernel.Fs.BufferPoolRun

open Lib.Runs Lib.Loops Relation
open Fs.Disk (Bytes)
open Fs.Buffer (BufferHead Fault bhLock bhDirty bhDelay bhOld isFlag)
open Fs.BufferSpec (isFlag_or_bit isFlag_clear_bit freshHead consistent_createBufferCache)
open Fs.BufferPool Function

/-! ### Sessions -/

/-- The pool, the buffers held by clients, and the marked contents last left in the buffer of each
block. -/
structure Session where
  pool : Pool
  held : List ℕ
  left : ℕ → ℕ → Option Bytes

inductive Act
  | getblk (dev blocknr : ℕ)
  | bread (dev blocknr : ℕ)
  | modify (b : ℕ) (data : Bytes)
  | setDirty (b : ℕ)
  | setDelay (b : ℕ)
  | bwrite (b : ℕ)
  | brelse (b : ℕ)

/-- The buffer is marked `BH_dirty` or `BH_delay`. -/
def Marked (p : Pool) (b : ℕ) : Prop :=
  isFlag (p.heads b).flags bhDirty = true ∨ isFlag (p.heads b).flags bhDelay = true

instance (p : Pool) (b : ℕ) : Decidable (Marked p b) := inferInstanceAs (Decidable (_ ∨ _))

/-- What is remembered when the buffer is given back. -/
def leave (σ : Session) (b : ℕ) : ℕ → ℕ → Option Bytes := fun dev m =>
  if dev = (σ.pool.heads b).bDev ∧ m = (σ.pool.heads b).bBlocknr then
    if Marked σ.pool b then (σ.pool.heads b).bData else none
  else σ.left dev m

def act (n fuel : ℕ) : Act → Session → Except Fault Session
  | .getblk dev m, σ => do
    let (b, p) ← getblk n fuel σ.pool dev m
    return { σ with pool := p, held := b :: σ.held }
  | .bread dev m, σ => do
    let (b, p) ← bread n fuel σ.pool dev m
    return { σ with pool := p, held := b :: σ.held }
  | .modify b data, σ =>
    return { σ with pool := σ.pool.updHead b fun bh => { bh with bData := some data } }
  | .setDirty b, σ => return { σ with pool := setFlag σ.pool b bhDirty }
  | .setDelay b, σ => return { σ with pool := setFlag σ.pool b bhDelay }
  | .bwrite b, σ => do
    let p ← bwrite σ.pool b
    return { pool := p, held := σ.held.erase b, left := leave σ b }
  | .brelse b, σ => return { pool := brelse σ.pool b, held := σ.held.erase b, left := leave σ b }

/-- Clients use only buffers that they hold. -/
def Legal (σ : Session) : Act → Prop
  | .getblk .. | .bread .. => True
  | .modify b _ | .setDirty b | .setDelay b | .bwrite b | .brelse b => b ∈ σ.held

instance (σ : Session) : ∀ a, Decidable (Legal σ a)
  | .getblk .. | .bread .. => inferInstanceAs (Decidable True)
  | .modify b _ | .setDirty b | .setDelay b | .bwrite b | .brelse b =>
    inferInstanceAs (Decidable (b ∈ σ.held))

/-- The first free buffer is not dirty. -/
def CleanFront (p : Pool) : Prop := ∀ b ∈ p.free.head?, isFlag (p.heads b).flags bhDirty = false

instance (p : Pool) : Decidable (CleanFront p) := inferInstanceAs (Decidable (∀ b ∈ p.free.head?, _))

/-- The buffer is not marked `BH_delay` only. -/
def NotDelayOnly (p : Pool) (b : ℕ) : Prop :=
  isFlag (p.heads b).flags bhDelay = true → isFlag (p.heads b).flags bhDirty = true

instance (p : Pool) (b : ℕ) : Decidable (NotDelayOnly p b) := inferInstanceAs (Decidable (_ → _))

/-- **The careful calls**: they all name one device; the first free buffer is not dirty if the block
is not cached; and `bread` does not find the block in a buffer that is marked `BH_delay` only. -/
def Careful (n dev : ℕ) (σ : Session) : Act → Prop
  | .getblk d m => d = dev ∧ (lookup n σ.pool d m = none → CleanFront σ.pool)
  | .bread d m => d = dev ∧ (lookup n σ.pool d m = none → CleanFront σ.pool) ∧
      ∀ b ∈ lookup n σ.pool d m, NotDelayOnly σ.pool b
  | _ => True

instance (n dev : ℕ) (σ : Session) : ∀ a, Decidable (Careful n dev σ a)
  | .getblk .. => inferInstanceAs (Decidable (_ ∧ _))
  | .bread .. => inferInstanceAs (Decidable (_ ∧ _ ∧ _))
  | .modify .. | .setDirty .. | .setDelay .. | .bwrite .. | .brelse .. =>
    inferInstanceAs (Decidable True)

def LegalStep (n : ℕ) (σ σ' : Session) : Prop := ∃ fuel a, Legal σ a ∧ act n fuel a σ = .ok σ'

def Step (n dev : ℕ) (σ σ' : Session) : Prop :=
  ∃ fuel a, Legal σ a ∧ Careful n dev σ a ∧ act n fuel a σ = .ok σ'

/-- **`bread` returns the right contents.** -/
def ReadsRight (n : ℕ) (σ : Session) (dev m : ℕ) : Prop :=
  ∀ fuel b p, bread n fuel σ.pool dev m = .ok (b, p) →
    (p.heads b).bData = some ((σ.left dev m).getD (σ.pool.disk m))

/-- **Marked contents are on the disk** when `getblk` has used their buffer for another block. -/
def WritesBack (n : ℕ) (σ : Session) (dev m : ℕ) : Prop :=
  ∀ fuel b p, getblk n fuel σ.pool dev m = .ok (b, p) →
    let old := σ.pool.heads b
    ¬ (old.bBlocknr = m ∧ old.bDev = dev) → ∀ data, σ.left old.bDev old.bBlocknr = some data →
      p.disk old.bBlocknr = data

/-! ### What a session keeps -/

/-- **The session and the pool agree**: a buffer that is not held has the contents left in it if
these were marked, and no mark otherwise; contents left for a block that is not cached are on the
disk. -/
structure Tracked (n dev : ℕ) (σ : Session) : Prop where
  data : ∀ b < n, (σ.pool.heads b).bData.isSome
  key : ∀ b < n, ∀ c < n, (σ.pool.heads b).bBlocknr = (σ.pool.heads c).bBlocknr →
    (σ.pool.heads b).bDev = (σ.pool.heads c).bDev → b = c
  mem_free : ∀ b, b ∈ σ.pool.free ↔ b < n ∧ b ∉ σ.held
  free_nodup : σ.pool.free.Nodup
  held_lt : ∀ b ∈ σ.held, b < n
  held_nodup : σ.held.Nodup
  locked : ∀ b < n, isFlag (σ.pool.heads b).flags bhLock = true ↔ b ∈ σ.held
  own : ∀ b < n, b ∈ σ.held ∨ Marked σ.pool b → (σ.pool.heads b).bDev = dev
  resting : ∀ b < n, b ∉ σ.held → (σ.pool.heads b).bDev = dev →
    if Marked σ.pool b then σ.left dev (σ.pool.heads b).bBlocknr = (σ.pool.heads b).bData
    else σ.left dev (σ.pool.heads b).bBlocknr = none
  away : ∀ m data, σ.left dev m = some data → lookup n σ.pool dev m = none → σ.pool.disk m = data
  foreign : ∀ d ≠ dev, ∀ m, σ.left d m = none

variable {n dev m b fuel : ℕ} {σ σ' : Session}

theorem marked_congr {p p' : Pool} (h : p'.heads b = p.heads b) : Marked p' b ↔ Marked p b := by
  unfold Marked
  rw [h]

theorem Tracked.lookup_eq (h : Tracked n dev σ) (hb : b < n) (hdev : (σ.pool.heads b).bDev = dev) :
    lookup n σ.pool dev (σ.pool.heads b).bBlocknr = some b := by
  rcases hl : lookup n σ.pool dev (σ.pool.heads b).bBlocknr with _ | c
  · exact absurd ⟨rfl, hdev⟩ (lookup_eq_none.mp hl b hb)
  · obtain ⟨hc, hcm, hcd⟩ := lookup_some hl
    rw [h.key b hb c hc hcm.symm (hdev.trans hcd.symm)]

theorem Tracked.not_held (h : Tracked n dev σ) (hb : b < n)
    (hlock : isFlag (σ.pool.heads b).flags bhLock = false) : b ∉ σ.held := fun hheld =>
  absurd (((h.locked b hb).mpr hheld).symm.trans hlock) (by simp)

/-- **A change of one buffer** that stays the buffer of its block. What is left for the block
changes with it, and the disk only there. -/
theorem Tracked.change (h : Tracked n dev σ) (hb : b < n) (hdev : (σ.pool.heads b).bDev = dev)
    (hother : ∀ c ≠ b, σ'.pool.heads c = σ.pool.heads c)
    (hblk' : (σ'.pool.heads b).bBlocknr = (σ.pool.heads b).bBlocknr)
    (hdev' : (σ'.pool.heads b).bDev = (σ.pool.heads b).bDev) (hdata' : (σ'.pool.heads b).bData.isSome)
    (hfree' : ∀ c, c ∈ σ'.pool.free ↔ c < n ∧ c ∉ σ'.held) (hfnodup' : σ'.pool.free.Nodup)
    (hheld' : ∀ c ≠ b, c ∈ σ'.held ↔ c ∈ σ.held) (hhnodup' : σ'.held.Nodup)
    (hlock' : isFlag (σ'.pool.heads b).flags bhLock = true ↔ b ∈ σ'.held)
    (hrest' : b ∉ σ'.held → if Marked σ'.pool b
      then σ'.left dev (σ.pool.heads b).bBlocknr = (σ'.pool.heads b).bData
      else σ'.left dev (σ.pool.heads b).bBlocknr = none)
    (hleft' : ∀ d k, ¬ (d = dev ∧ k = (σ.pool.heads b).bBlocknr) → σ'.left d k = σ.left d k)
    (hdisk' : ∀ k ≠ (σ.pool.heads b).bBlocknr, σ'.pool.disk k = σ.pool.disk k) : Tracked n dev σ' := by
  have hkeys : ∀ c, (σ'.pool.heads c).bBlocknr = (σ.pool.heads c).bBlocknr ∧
      (σ'.pool.heads c).bDev = (σ.pool.heads c).bDev := by
    intro c
    by_cases hc : c = b
    · exact hc ▸ ⟨hblk', hdev'⟩
    · rw [hother c hc]
      exact ⟨rfl, rfl⟩
  refine ⟨fun c hc => ?_, fun c hc d hd => ?_, hfree', hfnodup', fun c hc => ?_, hhnodup', fun c hc => ?_,
    fun c hc hm => ?_, fun c hc hcheld hcdev => ?_, fun k data hk hnone => ?_, fun d hd k => ?_⟩
  · by_cases hcb : c = b
    · exact hcb ▸ hdata'
    · rw [hother c hcb]
      exact h.data c hc
  · rw [(hkeys c).1, (hkeys c).2, (hkeys d).1, (hkeys d).2]
    exact h.key c hc d hd
  · by_cases hcb : c = b
    · exact hcb ▸ hb
    · exact h.held_lt c ((hheld' c hcb).mp hc)
  · by_cases hcb : c = b
    · exact hcb ▸ hlock'
    · rw [hother c hcb, hheld' c hcb]
      exact h.locked c hc
  · rw [(hkeys c).2]
    by_cases hcb : c = b
    · exact hcb ▸ hdev
    · rw [hheld' c hcb, marked_congr (hother c hcb)] at hm
      exact h.own c hc hm
  · by_cases hcb : c = b
    · subst hcb
      rw [hblk']
      exact hrest' hcheld
    · rw [hother c hcb] at hcdev ⊢
      have hne : (σ.pool.heads c).bBlocknr ≠ (σ.pool.heads b).bBlocknr := fun hblk =>
        hcb (h.key c hc b hb hblk (hcdev.trans hdev.symm))
      have hold := h.resting c hc (fun hm => hcheld ((hheld' c hcb).mpr hm)) hcdev
      rw [hleft' dev _ fun hk => hne hk.2]
      simpa only [marked_congr (hother c hcb)] using hold
  · rw [lookup_congr hkeys] at hnone
    have hne : k ≠ (σ.pool.heads b).bBlocknr := by
      rintro rfl
      exact absurd (hnone.symm.trans (h.lookup_eq hb hdev)) (by simp)
    rw [hleft' dev k fun hk' => hne hk'.2] at hk
    rw [hdisk' k hne]
    exact h.away k data hk hnone
  · rw [hleft' d k fun hk => hd hk.1]
    exact h.foreign d hd k

/-! ### The operations keep it -/

theorem isFlag_lock (f : BitVec 16) : isFlag (f ||| bhLock) bhLock = true ∧
    isFlag (f ||| bhLock) bhDirty = isFlag f bhDirty ∧ isFlag (f ||| bhLock) bhDelay = isFlag f bhDelay :=
  ⟨(isFlag_or_bit f (by decide)).trans (by simp), (isFlag_or_bit f (by decide)).trans (by simp [bhDirty]),
    (isFlag_or_bit f (by decide)).trans (by simp [bhDelay])⟩

theorem isFlag_unlock (f : BitVec 16) : isFlag (f &&& ~~~bhLock) bhLock = false ∧
    isFlag (f &&& ~~~bhLock) bhDirty = isFlag f bhDirty ∧
    isFlag (f &&& ~~~bhLock) bhDelay = isFlag f bhDelay :=
  ⟨(isFlag_clear_bit f (by decide)).trans (by simp),
    (isFlag_clear_bit f (by decide)).trans (by simp [bhDirty]),
    (isFlag_clear_bit f (by decide)).trans (by simp [bhDelay])⟩

section
variable (h : Tracked n dev σ)
include h

theorem Tracked.mem_erase (c : ℕ) : c ∈ σ.pool.free.erase b ↔ c < n ∧ c ∉ b :: σ.held := by
  rw [h.free_nodup.mem_erase_iff, h.mem_free, List.mem_cons, not_or]
  exact and_left_comm

/-- **A free buffer is taken.** -/
theorem Tracked.take (hb : b < n) (hdev : (σ.pool.heads b).bDev = dev)
    (hheld : b ∉ σ.held) : Tracked n dev { σ with pool := take σ.pool b, held := b :: σ.held } := by
  have hheads := take_heads σ.pool b
  have hself := (hheads b).trans (if_pos rfl)
  refine h.change hb hdev (fun c hc => (hheads c).trans (if_neg hc)) ?_ ?_ ?_ (fun c => ?_)
    (h.free_nodup.erase b) (fun c hc => ?_) (List.nodup_cons.mpr ⟨hheld, h.held_nodup⟩) ?_
    (fun hnot => absurd List.mem_cons_self hnot) (fun _ _ _ => rfl) fun _ _ => rfl
  · rw [hself]
  · rw [hself]
  · rw [hself]
    exact h.data b hb
  · exact h.mem_erase c
  · rw [List.mem_cons]
    exact or_iff_right hc
  · rw [hself]
    simp [(isFlag_lock _).1]

/-- **A held buffer is changed**, but for its block and its lock. -/
theorem Tracked.updHead (hb : b ∈ σ.held) {f : BufferHead → BufferHead}
    (hblk : (f (σ.pool.heads b)).bBlocknr = (σ.pool.heads b).bBlocknr)
    (hdev : (f (σ.pool.heads b)).bDev = (σ.pool.heads b).bDev)
    (hdata : (f (σ.pool.heads b)).bData.isSome)
    (hlock : isFlag (f (σ.pool.heads b)).flags bhLock = isFlag (σ.pool.heads b).flags bhLock) :
    Tracked n dev { σ with pool := σ.pool.updHead b f } := by
  have hbn := h.held_lt b hb
  have hself := (updHead_heads σ.pool b b f).trans (if_pos rfl)
  refine h.change hbn (h.own b hbn (.inl hb)) (fun c hc =>
    (updHead_heads _ _ _ _).trans (if_neg hc)) ?_ ?_
    ?_ h.mem_free h.free_nodup (fun _ _ => Iff.rfl) h.held_nodup ?_ (fun hnot => absurd hb hnot)
    (fun _ _ _ => rfl) fun _ _ => rfl
  · rw [hself, hblk]
  · rw [hself, hdev]
  · rw [hself]
    exact hdata
  · rw [hself, hlock]
    exact h.locked b hbn

/-- **A held buffer is given back**, perhaps after its block was written. -/
theorem Tracked.brelse (hb : b ∈ σ.held) {disk : ℕ → Bytes}
    (hdisk : ∀ k ≠ (σ.pool.heads b).bBlocknr, disk k = σ.pool.disk k) :
    Tracked n dev { pool := brelse { σ.pool with disk := disk } b, held := σ.held.erase b
                    left := leave σ b } := by
  have hbn := h.held_lt b hb
  have hdev := h.own b hbn (.inl hb)
  have hheads := heads_brelse { σ.pool with disk := disk } b
  have hself := (hheads b).trans (if_pos rfl)
  have hfree := free_brelse { σ.pool with disk := disk } b
  have hbfree : b ∉ σ.pool.free := fun hm => ((h.mem_free b).mp hm).2 hb
  refine h.change hbn hdev (fun c hc => (hheads c).trans (if_neg hc)) ?_ ?_ ?_ (fun c => ?_)
    (hfree.nodup_iff.mpr (List.nodup_cons.mpr ⟨hbfree, h.free_nodup⟩))
    (fun c hc => List.mem_erase_of_ne hc) (h.held_nodup.erase b) ?_ (fun _ => ?_) (fun d k hk => ?_)
    (fun k hk => ?_)
  · rw [hself]
  · rw [hself]
  · rw [hself]
    exact h.data b hbn
  · rw [hfree.mem_iff, List.mem_cons, h.mem_free, h.held_nodup.mem_erase_iff]
    constructor
    · rintro (rfl | hc)
      · exact ⟨hbn, fun hc => hc.1 rfl⟩
      · exact ⟨hc.1, fun hc' => hc.2 hc'.2⟩
    · rintro ⟨hc, hnot⟩
      by_cases hcb : c = b
      · exact .inl hcb
      · exact .inr ⟨hc, fun hm => hnot ⟨hcb, hm⟩⟩
  · rw [hself]
    simp [(isFlag_unlock _).1, h.held_nodup.not_mem_erase]
  · have hmarked : Marked (BufferPool.brelse { σ.pool with disk := disk } b) b ↔ Marked σ.pool b := by
      unfold Marked
      rw [hself, (isFlag_unlock _).2.1, (isFlag_unlock _).2.2]
    have hleave : leave σ b dev (σ.pool.heads b).bBlocknr =
        if Marked σ.pool b then (σ.pool.heads b).bData else none := if_pos ⟨hdev.symm, rfl⟩
    simp only [hmarked, hself, hleave]
    split_ifs <;> rfl
  · exact if_neg fun hk' => hk ⟨hk'.1.trans hdev, hk'.2⟩
  · exact (congrFun (disk_brelse { σ.pool with disk := disk } b) k).trans (hdisk k hk)

theorem Tracked.flush_disk {rest : List ℕ} {data : Bytes}
    (hfree : σ.pool.free = b :: rest) (hdata : (σ.pool.heads b).bData = some data)
    (hclean : isFlag (σ.pool.heads b).flags bhDirty = false) :
    (∀ x, σ.left (σ.pool.heads b).bDev (σ.pool.heads b).bBlocknr = some x →
      (flush σ.pool b data).disk (σ.pool.heads b).bBlocknr = x) ∧
    ∀ k, ¬ (k = (σ.pool.heads b).bBlocknr ∧ (σ.pool.heads b).bDev = dev) →
      (flush σ.pool b data).disk k = σ.pool.disk k := by
  obtain ⟨hb, hheld⟩ := (h.mem_free b).mp (by simp [hfree])
  rcases hd : isFlag (σ.pool.heads b).flags bhDelay with _ | _
  · have hnot : ¬ Marked σ.pool b := by simp [Marked, hd, hclean]
    have hflush : flush σ.pool b data = σ.pool := by simp [flush, hd]
    refine ⟨fun x hx => ?_, fun _ _ => by rw [hflush]⟩
    by_cases hdev : (σ.pool.heads b).bDev = dev
    · have hrest := h.resting b hb hheld hdev
      rw [if_neg hnot, ← hdev, hx] at hrest
      exact absurd hrest (by simp)
    · exact absurd (hx.symm.trans (h.foreign _ hdev _)) (by simp)
  · have hmarked : Marked σ.pool b := .inr hd
    have hdev := h.own b hb (.inr hmarked)
    have hrest := h.resting b hb hheld hdev
    have hflush : (flush σ.pool b data).disk =
        update σ.pool.disk (σ.pool.heads b).bBlocknr data := by simp [flush, hd]; rfl
    rw [if_pos hmarked, hdata] at hrest
    refine ⟨fun x hx => ?_, fun k hk => ?_⟩
    · rw [hdev, hrest] at hx
      rw [hflush, update_self, Option.some.inj hx]
    · rw [hflush, update_of_ne fun hk' => hk ⟨hk', hdev⟩]

end

theorem recycle_heads (p : Pool) (b dev m : ℕ) (rest : List ℕ) (data : Bytes) (c : ℕ) :
    (recycle { flush p b data with free := rest } b dev m).heads c = if c = b then { p.heads b with
      bDev := dev, bBlocknr := m, flags := (if isFlag (p.heads b).flags bhDelay
        then (p.heads b).flags &&& ~~~bhDelay else (p.heads b).flags) ||| bhLock } else p.heads c := by
  simp only [recycle, setFlag, updHead_heads, flush_heads]
  split_ifs <;> rfl

section
variable (h : Tracked n dev σ)
include h

/-- **The first free buffer becomes that of another block.** -/
theorem Tracked.recycle {rest : List ℕ} {data : Bytes}
    (hlookup : lookup n σ.pool dev m = none) (hfree : σ.pool.free = b :: rest)
    (hdata : (σ.pool.heads b).bData = some data)
    (hclean : isFlag (σ.pool.heads b).flags bhDirty = false) : Tracked n dev { σ with
      pool := recycle { flush σ.pool b data with free := rest } b dev m, held := b :: σ.held } := by
  obtain ⟨hb, hheld⟩ := (h.mem_free b).mp (by simp [hfree])
  have hrest := (List.nodup_cons.mp (hfree ▸ h.free_nodup)).2
  obtain ⟨hleft, hdisk⟩ := h.flush_disk hfree hdata hclean
  have hheads := recycle_heads σ.pool b dev m rest data
  have hself := (hheads b).trans (if_pos rfl)
  have hother : ∀ c ≠ b, _ := fun c hc => (hheads c).trans (if_neg hc)
  have hnew : ∀ c < n, c ≠ b → ¬ ((σ.pool.heads c).bBlocknr = m ∧ (σ.pool.heads c).bDev = dev) :=
    fun c hc _ => lookup_eq_none.mp hlookup c hc
  refine ⟨fun c hc => ?_, fun c hc d hd => ?_, fun c => ?_, hrest, ?_,
    List.nodup_cons.mpr ⟨hheld, h.held_nodup⟩, fun c hc => ?_, fun c hc hm => ?_,
    fun c hc hcheld hcdev => ?_, fun k x hk hnone => ?_, h.foreign⟩
  · by_cases hcb : c = b
    · subst hcb
      rw [hself, hdata]
      rfl
    · rw [hother c hcb]
      exact h.data c hc
  · by_cases hcb : c = b <;> by_cases hdb : d = b
    · exact fun _ _ => hcb.trans hdb.symm
    · rw [hcb, hself, hother d hdb]
      exact fun hblk hdev => absurd ⟨hblk.symm, hdev.symm⟩ (hnew d hd hdb)
    · rw [hdb, hself, hother c hcb]
      exact fun hblk hdev => absurd ⟨hblk, hdev⟩ (hnew c hc hcb)
    · rw [hother c hcb, hother d hdb]
      exact h.key c hc d hd
  · have hmem := h.mem_erase (b := b) c
    rwa [hfree, List.erase_cons_head] at hmem
  · exact List.forall_mem_cons.mpr ⟨hb, h.held_lt⟩
  · by_cases hcb : c = b
    · subst hcb
      rw [hself]
      simp [(isFlag_lock _).1]
    · rw [hother c hcb, h.locked c hc, List.mem_cons, or_iff_right hcb]
  · by_cases hcb : c = b
    · rw [hcb, hself]
    · rw [List.mem_cons, or_iff_right hcb, marked_congr (hother c hcb)] at hm
      rw [hother c hcb]
      exact h.own c hc hm
  · have hcb : c ≠ b := fun hcb => hcheld (hcb ▸ List.mem_cons_self)
    rw [hother c hcb] at hcdev ⊢
    have hold := h.resting c hc (fun hm => hcheld (List.mem_cons_of_mem b hm)) hcdev
    simpa only [marked_congr (hother c hcb)] using hold
  · have hnone := lookup_eq_none.mp hnone
    by_cases hold : k = (σ.pool.heads b).bBlocknr ∧ (σ.pool.heads b).bDev = dev
    · -- the block that the buffer was of before
      rw [hold.1] at hk ⊢
      exact hleft x (hold.2.symm ▸ hk)
    · refine (hdisk k hold).trans (h.away k x hk (lookup_eq_none.mpr fun c hc hkey => ?_))
      by_cases hcb : c = b
      · exact hold (hcb ▸ ⟨hkey.1.symm, hkey.2⟩)
      · exact hnone c hc (by rw [hother c hcb]; exact hkey)

/-- **A careful call of `getblk`.** -/
theorem Tracked.getblk {p : Pool} (hcare : lookup n σ.pool dev m = none → CleanFront σ.pool)
    (hget : getblk n fuel σ.pool dev m = .ok (b, p)) :
    Tracked n dev { σ with pool := p, held := b :: σ.held } := by
  obtain ⟨hl, hlock, rfl⟩ | ⟨hl, rest, data, hfree, hdata, rfl⟩ :=
    getblk_cases (fun c hc => h.data c ((h.mem_free c).mp hc).1) hget
  · obtain ⟨hb, hkey⟩ := lookup_some hl
    exact h.take hb hkey.2 (h.not_held hb hlock)
  · exact h.recycle hl hfree hdata (hcare hl b (by simp [hfree]))

theorem Tracked.bread {p : Pool} (hcare : lookup n σ.pool dev m = none → CleanFront σ.pool)
    (hread : bread n fuel σ.pool dev m = .ok (b, p)) :
    Tracked n dev { σ with pool := p, held := b :: σ.held } := by
  obtain ⟨p₁, hget, ⟨-, rfl⟩ | ⟨-, rfl⟩⟩ := bread_cases hread
  · exact h.getblk hcare hget
  · exact (h.getblk hcare hget).updHead List.mem_cons_self rfl rfl rfl rfl

/-- **One careful step.** -/
theorem Tracked.step (hstep : Step n dev σ σ') : Tracked n dev σ' := by
  obtain ⟨fuel, a, hlegal, hcare, hact⟩ := hstep
  cases a with
  | getblk d m =>
    obtain ⟨rfl, hcare⟩ := hcare
    obtain ⟨⟨b, p⟩, hget, hact⟩ := bind_eq_ok.mp hact
    exact Except.ok.inj hact ▸ h.getblk hcare hget
  | bread d m =>
    obtain ⟨rfl, hcare, -⟩ := hcare
    obtain ⟨⟨b, p⟩, hread, hact⟩ := bind_eq_ok.mp hact
    exact Except.ok.inj hact ▸ h.bread hcare hread
  | modify b data => exact Except.ok.inj hact ▸ h.updHead hlegal rfl rfl rfl rfl
  | setDirty b =>
    have hb := h.held_lt b hlegal
    exact Except.ok.inj hact ▸ h.updHead hlegal rfl rfl (h.data b hb)
      ((isFlag_or_bit _ (by decide)).trans (by simp [bhLock]))
  | setDelay b =>
    have hb := h.held_lt b hlegal
    exact Except.ok.inj hact ▸ h.updHead hlegal rfl rfl (h.data b hb)
      ((isFlag_or_bit _ (by decide)).trans (by simp [bhLock]))
  | bwrite b =>
    obtain ⟨p, hwrite, hact⟩ := bind_eq_ok.mp hact
    obtain rfl := Except.ok.inj hact
    obtain ⟨data, hdata⟩ := Option.isSome_iff_exists.mp (h.data b (h.held_lt b hlegal))
    rw [bwrite, hdata] at hwrite
    exact Except.ok.inj hwrite ▸ h.brelse hlegal fun k hk => update_of_ne hk _ _
  | brelse b => exact Except.ok.inj hact ▸ h.brelse hlegal fun _ _ => rfl

end

/-! ### What a careful call does -/

section
variable (h : Tracked n dev σ)
include h

/-- **`bread` finds the block in a buffer.** -/
theorem Tracked.take_data (hl : lookup n σ.pool dev m = some b)
    (hlock : isFlag (σ.pool.heads b).flags bhLock = false) (hdelay : NotDelayOnly σ.pool b) :
    if isFlag (σ.pool.heads b).flags bhDirty then σ.left dev m = (σ.pool.heads b).bData
    else σ.left dev m = none := by
  obtain ⟨hb, rfl, hdev⟩ := lookup_some hl
  have hrest := h.resting b hb (h.not_held hb hlock) hdev
  rcases hdirty : isFlag (σ.pool.heads b).flags bhDirty with _ | _
  · have hd : isFlag (σ.pool.heads b).flags bhDelay = false := by
      by_contra hd
      exact absurd ((hdelay (by simpa using hd)).symm.trans hdirty) (by simp)
    rw [if_neg (by simp [Marked, hdirty, hd])] at hrest
    simpa using hrest
  · rw [if_pos (.inl hdirty)] at hrest
    simpa using hrest

/-- **A careful `bread` returns the right contents.** -/
theorem Tracked.readsRight (hcare : Careful n dev σ (.bread dev m)) : ReadsRight n σ dev m := by
  obtain ⟨-, hfront, hdelay⟩ := hcare
  intro fuel b p hread
  obtain ⟨p₁, hget, hp⟩ := bread_cases hread
  obtain ⟨hl, hlock, rfl⟩ | ⟨hl, rest, data, hfree, hdata, rfl⟩ :=
    getblk_cases (fun c hc => h.data c ((h.mem_free c).mp hc).1) hget
  · have hleft := h.take_data hl hlock (hdelay b hl)
    obtain ⟨hb, hkey, -⟩ := lookup_some hl
    have hself : (BufferPool.take σ.pool b).heads b = { σ.pool.heads b with
        flags := (σ.pool.heads b).flags ||| bhLock } := (take_heads _ _ _).trans (if_pos rfl)
    obtain ⟨data, hdata⟩ := Option.isSome_iff_exists.mp (h.data b hb)
    rw [hself, (isFlag_lock _).2.1] at hp
    rcases hp with ⟨hdirty, rfl⟩ | ⟨hdirty, rfl⟩
    · rw [hdirty, if_pos rfl, hdata] at hleft
      rw [hself, hleft, hdata]
      rfl
    · rw [hdirty, if_neg (by simp)] at hleft
      rw [updHead_heads, if_pos rfl, hself, hkey, hleft]
      rfl
  · have hclean := hfront hl b (by simp [hfree])
    have hself := (recycle_heads σ.pool b dev m rest data b).trans (if_pos rfl)
    have hb := ((h.mem_free b).mp (by simp [hfree])).1
    have hdisk := (h.flush_disk hfree hdata hclean).2 m fun hm =>
      lookup_eq_none.mp hl b hb ⟨hm.1.symm, hm.2⟩
    have hnot : isFlag ((if isFlag (σ.pool.heads b).flags bhDelay then (σ.pool.heads b).flags
      &&& ~~~bhDelay
        else (σ.pool.heads b).flags) ||| bhLock) bhDirty = false := by
      rw [(isFlag_lock _).2.1]
      split_ifs
      · exact (isFlag_delay_clear _).2.trans hclean
      · exact hclean
    rw [hself] at hp
    obtain ⟨hdirty, -⟩ | ⟨-, rfl⟩ := hp
    · exact absurd (hdirty.symm.trans hnot) (by simp)
    · rw [updHead_heads, if_pos rfl, hself]
      change some ((flush σ.pool b data).disk m) = _
      rw [hdisk]
      rcases hleft : σ.left dev m with _ | x
      · rfl
      · rw [h.away m x hleft hl]
        rfl

/-- `bread` returns if there is a buffer for it: that of the block, which is not held, or a free
one. -/
theorem Tracked.bread_returns (hheld : ∀ b ∈ lookup n σ.pool dev m, b ∉ σ.held)
    (hready : lookup n σ.pool dev m = none → σ.pool.free ≠ []) (hfuel : 1 < fuel) :
    ∃ r, BufferPool.bread n fuel σ.pool dev m = .ok r := by
  rcases hl : lookup n σ.pool dev m with _ | b
  · obtain ⟨b, rest, hfree⟩ := List.exists_cons_of_ne_nil (hready hl)
    have hb := ((h.mem_free b).mp (by simp [hfree])).1
    obtain ⟨data, hdata⟩ := Option.isSome_iff_exists.mp (h.data b hb)
    obtain ⟨p, hp⟩ := BufferPool.bread_returns (getblk_miss hl hfree hdata hfuel) (by
      rw [recycle_heads, if_pos rfl]
      exact h.data b hb)
    exact ⟨_, hp⟩
  · obtain ⟨hb, -⟩ := lookup_some hl
    have hlock : isFlag (σ.pool.heads b).flags bhLock = false :=
      Bool.eq_false_iff.mpr fun hlock => hheld b hl ((h.locked b hb).mp hlock)
    obtain ⟨p, hp⟩ := BufferPool.bread_returns (getblk_hit hl hlock (Nat.zero_lt_of_lt hfuel)) (by
      rw [take_heads, if_pos rfl]
      exact h.data b hb)
    exact ⟨_, hp⟩

/-- **A careful `getblk` writes marked contents** before it uses their buffer for another block. -/
theorem Tracked.writesBack (hcare : Careful n dev σ (.getblk dev m)) : WritesBack n σ dev m := by
  intro fuel b p hget old hother data hleft
  obtain ⟨hl, -, rfl⟩ | ⟨hl, rest, data', hfree, hdata, rfl⟩ :=
    getblk_cases (fun c hc => h.data c ((h.mem_free c).mp hc).1) hget
  · exact absurd (lookup_some hl).2 hother
  · exact (h.flush_disk hfree hdata (hcare.2 hl b (by simp [hfree]))).1 data hleft

end

/-! ### Runs -/

/-- **A pool in which nothing has been done yet.** -/
structure Initial (n : ℕ) (p : Pool) : Prop where
  data : ∀ b < n, (p.heads b).bData.isSome
  key : ∀ b < n, ∀ c < n, (p.heads b).bBlocknr = (p.heads c).bBlocknr → b = c
  flags : ∀ b < n, (p.heads b).flags = 0
  mem_free : ∀ b, b ∈ p.free ↔ b < n
  free_nodup : p.free.Nodup

/-- **The pool that `create_buffer_cache` makes** is such a pool. -/
theorem initial_of_created {s : Buffer.Cache} {got : ℕ} {data : ℕ → Option Bytes} {p : Pool}
    (hdata : ∀ b < min got Buffer.buffers, (data b).isSome)
    (h : Sim (min got Buffer.buffers) (Buffer.createBufferCache s got data) p []) :
    Initial (min got Buffer.buffers) p := by
  obtain ⟨hheads, -⟩ := consistent_createBufferCache s got data hdata
  obtain ⟨B, hB, hfree⟩ := h.lists
  refine ⟨fun b hb => ?_, fun b hb c hc => ?_, fun b hb => ?_, fun b => ?_, ?_⟩
  · rw [h.heads, hheads b hb]
    exact hdata b hb
  · rw [h.heads, hheads b hb, hheads c hc]
    exact id
  · rw [h.heads, hheads b hb, freshHead]
  · rw [hfree, hB.mem_free]
    exact and_iff_left_of_imp fun hb hlock => absurd ((hB.mem_held b).mpr ⟨hb, hlock⟩) (by simp)
  · rw [hfree]
    exact hB.lists.nodup trivial

def opened (p : Pool) : Session := { pool := p, held := [], left := fun _ _ => none }

theorem tracked_opened {p : Pool} (h : Initial n p) (dev : ℕ) : Tracked n dev (opened p) := by
  have hlock : ∀ b < n, isFlag (p.heads b).flags bhLock = false := by
    intro b hb
    rw [h.flags b hb]
    decide
  have hnot : ∀ b < n, ¬ Marked p b := by
    intro b hb
    unfold Marked
    rw [h.flags b hb]
    decide
  refine ⟨h.data, fun b hb c hc hkey _ => h.key b hb c hc hkey, fun b => ?_,
    h.free_nodup, by simp [opened], List.nodup_nil, fun b hb => ?_, fun b hb hm => ?_,
    fun b hb _ _ => ?_, by simp [opened], fun _ _ _ => rfl⟩
  · simpa [opened] using h.mem_free b
  · simp [opened, hlock b hb]
  · exact absurd (hm.resolve_left (by simp [opened])) (hnot b hb)
  · exact (if_neg (hnot b hb)).mpr rfl

/-- **No stale data.** In every state that careful calls reach, a careful `bread` returns the
contents last left in the buffer of the block if they were marked, and those of the disk otherwise;
it does return if there is a buffer for it; and a careful `getblk` writes marked contents before it
uses their buffer for another block. -/
theorem noStaleData_of_run {p : Pool} (hp : Initial n p)
    (hrun : ReflTransGen (Step n dev) (opened p) σ) (m : ℕ) :
    (Careful n dev σ (.bread dev m) → ReadsRight n σ dev m ∧
      ((∀ b ∈ lookup n σ.pool dev m, b ∉ σ.held) → (lookup n σ.pool dev m = none → σ.pool.free ≠ []) →
        ∀ fuel > 1, ∃ r, bread n fuel σ.pool dev m = .ok r)) ∧
    (Careful n dev σ (.getblk dev m) → WritesBack n σ dev m) := by
  have h : Tracked n dev σ :=
    invariant_of_run (I := Tracked n dev) (fun _ _ h => h.step) (tracked_opened hp dev) hrun
  exact ⟨fun hcare => ⟨h.readsRight hcare, fun hheld hready _ hfuel =>
    h.bread_returns hheld hready hfuel⟩, h.writesBack⟩

/-! ### Runs on a fresh pool -/

/-- The pool of `n` buffers that hold the blocks from 0 on, with a disk of zeros. -/
def freshPool (n : ℕ) : Pool :=
  { heads := freshHead BufferRun.zeroData, free := (List.range n).reverse, disk := fun _ _ => 0 }

theorem initial_freshPool (n : ℕ) : Initial n (freshPool n) :=
  ⟨fun _ _ => rfl, fun _ _ _ _ hkey => hkey, fun _ _ => rfl, fun b => by simp [freshPool],
    List.nodup_reverse.mpr List.nodup_range⟩

/-- The session after the calls, each of which is checked. -/
def calls (check : Session → Act → Bool) (n : ℕ) : List Act → Option Session :=
  runList check (fun σ a => (act n 2 a σ).toOption) (opened (freshPool n))

theorem run_of_calls {check : Session → Act → Bool} {r : Session → Session → Prop} {as : List Act}
    (hr : ∀ σ a σ', check σ a = true → act n 2 a σ = .ok σ' → r σ σ')
    (h : calls check n as = some σ) : ReflTransGen r (opened (freshPool n)) σ := by
  have hacts : ReflTransGen (Acts (fun σ a => check σ a = true) _) _ σ :=
    run_of_runList (fun _ _ _ hc => hc) h
  refine ReflTransGen.mono ?_ _ _ hacts
  rintro σ σ' ⟨a, hcheck, hact⟩
  rcases hok : act n 2 a σ with e | σ''
  · simp [hok, Except.toOption] at hact
  · simp only [hok, Except.toOption, Option.some.injEq] at hact
    exact hr σ a σ' hcheck (hact ▸ hok)

/-- The contents of block 0 are changed and their write is delayed, in a pool of one buffer. -/
def delayedCalls : List Act := [.bread 4 0, .modify 0 fun _ => 1, .setDelay 0, .brelse 0]

theorem noStaleData_delayedCalls : ∃ σ, ReflTransGen (Step 1 4) (opened (freshPool 1)) σ ∧
    (σ.left 4 0).isSome ∧ ReadsRight 1 σ 4 1 ∧ WritesBack 1 σ 4 1 := by
  have heval : (calls (fun σ a => decide (Legal σ a ∧ Careful 1 4 σ a)) 1 delayedCalls).any
      (fun σ => decide ((σ.left 4 0).isSome ∧ Careful 1 4 σ (.bread 4 1))) = true := by decide +kernel
  obtain ⟨σ, hσ, hcheck⟩ := (Option.any_eq_true _ _).mp heval
  obtain ⟨hleft, hcare⟩ := of_decide_eq_true hcheck
  have hrun : ReflTransGen (Step 1 4) (opened (freshPool 1)) σ :=
    run_of_calls (fun σ a σ' hc hact =>
    ⟨2, a, (of_decide_eq_true hc).1, (of_decide_eq_true hc).2, hact⟩) hσ
  obtain ⟨hread, hwrite⟩ := noStaleData_of_run (initial_freshPool 1) hrun 1
  exact ⟨σ, hrun, hleft, (hread hcare).1, hwrite ⟨rfl, hcare.2.1⟩⟩

/-! ### A dirty buffer in front -/

/-- **A dirty buffer is recycled with its contents**: `bread` returns those of the block it was of,
and nothing is written. -/
theorem bread_dirty_front {p : Pool} {rest : List ℕ} {data : Bytes} (hl : lookup n p dev m = none)
    (hfree : p.free = b :: rest) (hdata : (p.heads b).bData = some data)
    (hdirty : isFlag (p.heads b).flags bhDirty = true)
    (hdelay : isFlag (p.heads b).flags bhDelay = false) (hfuel : 1 < fuel) :
    ∃ p', getblk n fuel p dev m = .ok (b, p') ∧ bread n fuel p dev m = .ok (b, p') ∧
      (p'.heads b).bData = some data ∧ p'.disk = p.disk := by
  have hself := (recycle_heads p b dev m rest data b).trans (if_pos rfl)
  refine ⟨_, getblk_miss hl hfree hdata hfuel, ?_, by rw [hself, hdata], ?_⟩
  · simp only [bread, getblk_miss hl hfree hdata hfuel, Bind.bind, Except.bind]
    rw [if_pos]
    · rfl
    · rw [hself]
      simp [hdelay, (isFlag_lock _).2.1, hdirty]
  · change (flush p b data).disk = p.disk
    simp [flush, hdelay]

/-- The contents of block 5 are changed and marked dirty. -/
def dirtyCalls : List Act := [.bread 4 5, .modify 5 fun _ => 1, .setDirty 5, .brelse 5]

theorem dirtyCalls_session : ∃ σ, ReflTransGen (LegalStep 100) (opened (freshPool 100)) σ ∧
    lookup 100 σ.pool 4 200 = none ∧ σ.pool.free.head? = some 5 ∧ (σ.pool.heads 5).bBlocknr = 5 ∧
    (σ.pool.heads 5).bDev = 4 ∧ (σ.pool.heads 5).flags = bhDirty ∧
    (σ.pool.heads 5).bData.map (· 0) = some 1 ∧ (σ.left 4 5).map (· 0) = some 1 ∧
    σ.left 4 200 = none ∧ σ.pool.disk 5 0 = 0 ∧ σ.pool.disk 200 0 = 0 := by
  have heval : (calls (fun σ a => decide (Legal σ a)) 100 dirtyCalls).any
      (fun σ => decide (lookup 100 σ.pool 4 200 = none ∧ σ.pool.free.head? = some 5 ∧
        (σ.pool.heads 5).bBlocknr = 5 ∧ (σ.pool.heads 5).bDev = 4 ∧ (σ.pool.heads 5).flags = bhDirty ∧
        (σ.pool.heads 5).bData.map (· 0) = some 1 ∧ (σ.left 4 5).map (· 0) = some 1 ∧
        σ.left 4 200 = none ∧ σ.pool.disk 5 0 = 0 ∧ σ.pool.disk 200 0 = 0)) = true := by decide +kernel
  obtain ⟨σ, hσ, hcheck⟩ := (Option.any_eq_true _ _).mp heval
  exact ⟨σ, run_of_calls (fun σ a σ' hc hact => ⟨2, a, of_decide_eq_true hc, hact⟩) hσ,
    of_decide_eq_true hcheck⟩

/-- Then `bread` of block 200 returns the contents of block 5, which are not on the disk. -/
theorem staleData_dirtyCalls : ∃ σ, ReflTransGen (LegalStep 100) (opened (freshPool 100)) σ ∧
    ¬ ReadsRight 100 σ 4 200 ∧ ¬ WritesBack 100 σ 4 200 := by
  obtain ⟨σ, hrun, hl, hfront, hblk, hdev, hflags, hdata, hleft, hnone, hdisk, hdisk'⟩ :=
    dirtyCalls_session
  obtain ⟨rest, hfree⟩ := List.head?_eq_some_iff.mp hfront
  obtain ⟨data, hdata, hone⟩ := Option.map_eq_some_iff.mp hdata
  obtain ⟨last, hlast, hone'⟩ := Option.map_eq_some_iff.mp hleft
  obtain ⟨p, hget, hread, hp, hpdisk⟩ := bread_dirty_front hl hfree hdata (by rw [hflags]; decide)
    (by rw [hflags]; decide) (Nat.lt_succ_self 1)
  refine ⟨σ, hrun, fun h => ?_, fun h => ?_⟩
  · have hright := h 2 5 p hread
    rw [hp, hnone] at hright
    rw [Option.some.inj hright, Option.getD_none, hdisk'] at hone
    exact absurd hone (by decide)
  · have hback := h 2 5 p hget (by rw [hblk]; exact fun hk => absurd hk.1 (by decide)) last
      (by rw [hblk, hdev]; exact hlast)
    rw [hblk, hpdisk] at hback
    rw [← hback, hdisk] at hone'
    exact absurd hone' (by decide)

end YegaKernel.Fs.BufferPoolRun
