import YegaKernel.Fs.ReadWrite
import YegaKernel.Fs.Ufs.Table

/-! # Formatting in the buffer cache

`mkufs` on the buffer cache of the kernel. As long as the file system is small enough for its inode
table to be cached from the beginning, `mkufs` comes back, in a cache in order, with the superblock
in buffer 1 (`mkufs_returns`).

`Plain n s held` is `Coherent` for a session that remembers nothing of what was written. -/

namespace YegaKernel.Fs.Ufs.Format

open Lib.Word Function
open Fs.Disk Fs.Buffer Fs.BufferSpec Fs.ReadWrite
open Fs.Ufs.Model Fs.Ufs.Table

/-- A session that remembers nothing. -/
def plainSession (s : Cache) (held : List ℕ) : Session :=
  { cache := s, held := held, written := fun _ => none, intact := fun _ => False }

/-- Buffer `b` is that of block `b`, none is dirty, and the clients hold `held`. -/
def Plain (n : ℕ) (s : Cache) (held : List ℕ) : Prop := Coherent n (plainSession s held)

variable {n m walk : ℕ} {s : Cache} {held : List ℕ}

/-- **A cached block is read.** -/
theorem Plain.bread (h : Plain n s held) (hm : m < n) (hheld : m ∉ held) (hwalk : n < walk) :
    ∃ data, bread walk s devNo m = .ok (m, afterRead s m data) ∧
      Plain n (afterRead s m data) (m :: held) := by
  obtain ⟨data, -, hread⟩ := h.bread_returns hm hheld hwalk
  have hact : act walk (.bread m) (plainSession s held) =
      .ok (plainSession (afterRead s m data) (m :: held)) := by
    simp only [act, hread, Bind.bind, Except.bind, pure, Except.pure]
    rfl
  exact ⟨data, hread, Coherent.bread h hm hact⟩

theorem Plain.setData (h : Plain n s held) (hm : m ∈ held) (walk : ℕ) (data : Bytes) :
    Plain n ((cacheOps walk).setData s m data) held := Coherent.modify h hm data

theorem setData_heads (walk : ℕ) (s : Cache) (m : ℕ) (data : Bytes) (c : ℕ) :
    ((cacheOps walk).setData s m data).heads c =
      if c = m then { s.heads m with bData := some data } else s.heads c :=
  update_apply ..

/-- **A buffer is written**: the other buffers stay, and so does the disk outside of the two sectors
written. -/
theorem Plain.bwrite (h : Plain n s (m :: held)) (hn : n ≤ buffers) :
    ∃ s', bwrite s m = .ok s' ∧ Plain n s' held ∧ (∀ c, s'.heads c = if c = m then
        { s.heads m with flags := (s.heads m).flags &&& ~~~bhLock } else s.heads c) ∧
      ∀ k, k ≠ m → k ≠ m + 1 → s'.disk k = s.disk k := by
  have hm : m ∈ m :: held := List.mem_cons_self
  obtain ⟨data, -, hwrite⟩ := Coherent.bwrite_eq h hn hm
  obtain ⟨B, hB⟩ := h.consistent
  refine ⟨_, hwrite, ?_, fun c => brelse_heads _ _ _, fun k hk hk' => ?_⟩
  · rw [← List.erase_cons_head m held]
    exact Coherent.release h hm rfl ⟨B, hB.setDisk _⟩ fun _ hk => False.elim hk
  · rw [brelse_disk]
    simp only [update_of_ne hk', update_of_ne hk]
    rfl

theorem Plain.formatBlock (h : Plain n s held) (hn : n ≤ buffers) (hm : m < n) (hheld : m ∉ held)
    (hwalk : n < walk) (iCnt : ℕ) : ∃ s', formatBlock (cacheOps walk) iCnt m s = .ok s' ∧
      Plain n s' held ∧ (∀ c ≠ m, s'.heads c = s.heads c) ∧
      ∀ k, k ≠ m → k ≠ m + 1 → s'.disk k = s.disk k := by
  obtain ⟨data, hread, hplain⟩ := h.bread hm hheld hwalk
  obtain ⟨s', hwrite, hs', hheads, hdisk⟩ := (hplain.setData List.mem_cons_self walk
    (initInodes iCnt m ((cacheOps walk).data (afterRead s m data) m))).bwrite hn
  refine ⟨s', formatBlock_eq_ok.mpr ⟨m, _, hread, hwrite⟩, hs', fun c hc => ?_, hdisk⟩
  rw [hheads c, if_neg hc, setData_heads, if_neg hc, afterRead_heads, if_neg hc]

/-- The loop of `mkufs`, from the `k`-th block of the table on; the superblock is in buffer 1. -/
theorem mkufsLoop_returns {mb : ℕ} (super : Bytes) (hmb : 32 * mb + 1 < n) (hn : n ≤ buffers)
    (hwalk : n < walk) : ∀ (rounds : ℕ) {k : ℕ} {s : Cache}, k + rounds = 32 * mb → Plain n s [1] →
      (s.heads 1).bData = some (makeSuper mb super) →
      ∃ s', mkufsLoop (cacheOps walk) 1 (rounds + 1) (8 * k) s = .ok s' ∧ Plain n s' [1] ∧
        s'.heads 1 = s.heads 1 ∧ ∀ j, 32 * mb + 2 < j → s'.disk j = s.disk j
  | rounds, k, s, hk, h, hdata => by
    have hbound : mb < 4096 := by
      unfold buffers at hn
      omega
    have hsuper : (cacheOps walk).data s 1 = makeSuper mb super := by
      simp only [cacheOps, hdata, Option.getD_some]
    rw [mkufsLoop, hsuper, sTotalInodes_makeSuper hbound, sBlkDilbStart_makeSuper]
    cases rounds with
    | zero =>
      rw [if_neg (by omega)]
      exact ⟨s, rfl, h, rfl, fun _ _ => rfl⟩
    | succ rounds =>
      have hblk : u32 (8 * k / inodesPerBlock + 2) = k + 2 := by
        rw [show inodesPerBlock = 8 from rfl, u32_of_lt (by omega)]
        omega
      obtain ⟨s₁, hformat, h₁, hheads₁, hdisk₁⟩ := h.formatBlock hn (m := k + 2) (by omega)
        (by simp) hwalk (8 * k)
      have hhead₁ := hheads₁ 1 (by omega)
      obtain ⟨s', hloop, h', hhead', hdisk'⟩ := mkufsLoop_returns super hmb hn hwalk rounds
        (show k + 1 + rounds = 32 * mb by omega) h₁ (hhead₁ ▸ hdata)
      refine ⟨s', ?_, h', hhead'.trans hhead₁, fun j hj => ?_⟩
      · rw [if_pos (by omega)]
        simp only [hblk, hformat]
        exact hloop
      · rw [hdisk' j hj, hdisk₁ j (by omega) (by omega)]

/-- **`mkufs` comes back**, in a cache in order that has all blocks of the inode table. -/
theorem mkufs_returns (mb : ℕ) (h : Plain n s []) (hmb : 32 * mb + 1 < n) (hn : n ≤ buffers)
    (hwalk : n < walk) : ∃ s' super, mkufs (cacheOps walk) (32 * mb + 1) mb s = .ok (1, s') ∧
      Plain n s' [] ∧ (s'.heads 1).bData = some (makeSuper mb super) ∧
      (s'.heads 1).flags = ((s.heads 1).flags ||| bhLock) &&& ~~~bhLock ∧
      ∀ k, 32 * mb + 2 < k → s'.disk k = s.disk k := by
  obtain ⟨data, hread, h₁⟩ := h.bread (m := 1) (by omega) (by simp) hwalk
  set super := (cacheOps walk).data (afterRead s 1 data) 1
  have h₂ := h₁.setData List.mem_cons_self walk (makeSuper mb super)
  have hhead₂ := (setData_heads walk (afterRead s 1 data) 1 (makeSuper mb super) 1).trans
    (if_pos rfl)
  obtain ⟨s₃, hloop, h₃, hhead₃, hdisk₃⟩ := mkufsLoop_returns super hmb hn hwalk (32 * mb)
    (Nat.zero_add _) h₂ (by rw [hhead₂])
  obtain ⟨s', hwrite, h', hheads', hdisk'⟩ := h₃.bwrite hn
  refine ⟨s', super, mkufs_eq_ok.mpr ⟨_, s₃, hread, hloop, hwrite⟩, h', ?_, ?_, fun k hk => ?_⟩
  · rw [hheads', if_pos rfl, hhead₃, hhead₂]
  · rw [hheads', if_pos rfl, hhead₃, hhead₂, afterRead_heads, if_pos rfl]
  · rw [hdisk' k (by omega) (by omega), hdisk₃ k hk]
    rfl

end YegaKernel.Fs.Ufs.Format
