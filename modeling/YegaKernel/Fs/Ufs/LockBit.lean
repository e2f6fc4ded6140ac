import YegaKernel.Fs.Ufs.InodeCacheRun

/-! # The lock bit on the disk

`I_lock` is a bit of `i_flags`, and `i_flags` is part of the `struct d_inode` that `write_inode`
copies. `iput` locks the inode before it writes it back and unlocks it afterwards, so that every image
it writes has the bit, while `iget` returns no inode that had it. A run leaves the bit off the disk
exactly if it writes no inode back (`clear_iff_quiet`).

Runs are those of clients that get inodes, change any of their fields, and put them; for each inode
that is held the session keeps the image `iget` found, and next to it those that were stored. -/

namespace YegaKernel.Fs.Ufs.LockBit

open Lib.Links Lib.Bytes Lib.Word Lib.Loops
open Fs.Disk (Bytes)
open Fs.Buffer (Fault Link devNo)
open Fs.Ufs.Model Fs.Ufs.InodeCache Fs.Ufs.InodeCacheRun

/-- `I_lock` of an image. -/
def lockBit (dinode : Bytes) : Bool := iFlags dinode &&& 1 = 1

/-! ### What is written back -/

section Iput
variable {τ : Type} (write : τ → Bytes → Except Fault τ)

/-- `iput` with any `write_inode`. -/
def iputWith (c : ICache) (s : τ) (i : ℕ) : Except Fault (ICache × τ) := do
  let c := lockedInode c i
  let c := setCount c i (sub32 (c.inode i).iCount 1)
  let s ← if (c.inode i).iCount = 0 ∧ isDirty c i then write s (c.inode i).dinode else .ok s
  let c := listAddTail c .free (.freeOf i)
  return (unlockedInode c i, s)

/-- `write_inode`, with the images it was given. -/
def logged (s : τ × List Bytes) (dinode : Bytes) : Except Fault (τ × List Bytes) := do
  return (← write s.1 dinode, s.2 ++ [dinode])

/-- The last reference to a dirty inode. -/
def WritesBack (c : ICache) (i : ℕ) : Prop := (c.inode i).iCount % 2 ^ 32 = 1 ∧ isDirty c i = true

instance (c : ICache) (i : ℕ) : Decidable (WritesBack c i) := by
  unfold WritesBack
  infer_instance

/-- The inode as `iput` has it when it looks whether to write it. -/
def putting (c : ICache) (i : ℕ) : ICache :=
  setCount (lockedInode c i) i (sub32 ((lockedInode c i).inode i).iCount 1)

theorem writes_putting (c : ICache) (i : ℕ) :
    (((putting c i).inode i).iCount = 0 ∧ isDirty (putting c i) i = true) ↔ WritesBack c i := by
  have hcount : ((putting c i).inode i).iCount = sub32 (c.inode i).iCount 1 := by
    rw [putting, iCount_setCount, if_pos rfl, lockedInode, iCount_setFlags]
  have hdirty : isDirty (putting c i) i = isDirty c i := by
    simp [isDirty, putting, setCount, lockedInode, setFlags, ICache.upd]
  have hzero : sub32 (c.inode i).iCount 1 = 0 ↔ (c.inode i).iCount % 2 ^ 32 = 1 := by
    unfold sub32
    omega
  rw [hcount, hdirty, hzero, WritesBack]

theorem lockBit_putting (c : ICache) (i : ℕ) : lockBit ((putting c i).inode i).dinode = true := by
  have hodd : (iFlags (c.inode i).dinode ||| 1) % 2 = 1 := Nat.or_mod_two_eq_one.mpr (.inr rfl)
  have hlocked : isLocked (lockedInode c i) i = true := by
    rw [lockedInode, isLocked_setFlags, if_pos rfl, decide_eq_true hodd]
  have hdinode : ((putting c i).inode i).dinode = ((lockedInode c i).inode i).dinode := by
    simp [putting, setCount, ICache.upd]
  rw [hdinode]
  exact hlocked

theorem iputWith_eq (c : ICache) (s : τ) (i : ℕ) : iputWith write c s i =
    (if WritesBack c i then write s ((putting c i).inode i).dinode else .ok s).map fun s =>
      (unlockedInode (listAddTail (putting c i) .free (.freeOf i)) i, s) := by
  have hiff := writes_putting c i
  unfold iputWith
  unfold putting at hiff ⊢
  by_cases hw : WritesBack c i
  · simp only [if_pos (hiff.mpr hw), if_pos hw]
    rcases write s _ with e | s' <;> rfl
  · simp only [if_neg fun h => hw (hiff.mp h), if_neg hw]
    rfl

/-- **What `iput` writes**: nothing, or, for the last reference to a dirty inode, its image with the
lock bit. -/
theorem iputWith_logged {c c' : ICache} {s s' : τ} {i : ℕ} {log : List Bytes}
    (h : iputWith (logged write) c (s, []) i = .ok (c', s', log)) :
    iputWith write c s i = .ok (c', s') ∧
      ((¬ WritesBack c i ∧ log = []) ∨ (WritesBack c i ∧ ∃ d, log = [d] ∧ lockBit d = true)) := by
  rw [iputWith_eq] at h ⊢
  by_cases hw : WritesBack c i
  · rw [if_pos hw, logged] at h
    rw [if_pos hw]
    rcases hwrite : write s ((putting c i).inode i).dinode with e | s₁
    · rw [hwrite] at h
      exact absurd h (by simp [bind, Except.bind, Except.map])
    · rw [hwrite] at h
      obtain ⟨rfl, rfl, rfl⟩ := h
      exact ⟨rfl, .inr ⟨hw, _, rfl, lockBit_putting c i⟩⟩
  · rw [if_neg hw] at h ⊢
    obtain ⟨rfl, rfl, rfl⟩ := h
    exact ⟨rfl, .inl ⟨hw, rfl⟩⟩

end Iput

variable {σ : Type} (ops : BufferOps σ) (super : Option ℕ)

/-- `write_inode`, as `iput` calls it. -/
def writeBack (s : σ) (dinode : Bytes) : Except Fault σ := do writeInode ops (← deref super) s dinode

theorem iput_eq (c : ICache) (s : σ) (i : ℕ) :
    iput ops super c s i = iputWith (writeBack ops super) c s i := by
  unfold iput iputWith writeBack
  simp only
  split_ifs
  · rcases super with _ | bh <;> rfl
  · rfl

/-! ### Runs -/

/-- **The inode cache and its clients**: the inodes that are held, with the image that `iget` found,
and the images that `write_inode` has stored, each with the one found. -/
structure Session (σ : Type) where
  cache : ICache
  store : σ
  held : List (ℕ × Bytes)
  stored : List (Bytes × Bytes)

/-- What a client does: get an inode, change a field of one it holds, put one it holds. -/
inductive Act
  | iget (fuel dev inum : ℕ)
  | update (i : ℕ) (dinode : Bytes) (iState : ℕ)
  | iput (i : ℕ)

def step (t : Session σ) : Act → Option (Session σ)
  | .iget fuel dev inum =>
    match iget ops super fuel t.cache t.store dev inum with
    | .ok (some i, c, s) =>
      some { t with cache := c, store := s, held := (i, (t.cache.inode i).dinode) :: t.held }
    | .ok (none, c, s) => some { t with cache := c, store := s }
    | .error _ => none
  | .update i dinode iState =>
    if i ∈ t.held.map Prod.fst then
      let c := t.cache.upd i fun inode => { inode with dinode := dinode, iState := iState }
      some { t with cache := c }
    else none
  | .iput i =>
    match t.held.find? (·.1 = i) with
    | none => none
    | some (_, found) =>
      match iputWith (logged (writeBack ops super)) t.cache (t.store, []) i with
      | .ok (c, s, log) =>
        some { cache := c, store := s, held := t.held.eraseP (·.1 = i),
               stored := t.stored ++ log.map fun d => (found, d) }
      | .error _ => none

/-- **The lock bit stays off the disk**: no image is stored with it, unless `iget` found it. -/
def Clear (t : Session σ) : Prop := ∀ p ∈ t.stored, lockBit p.1 = false → lockBit p.2 = false

/-- The act writes no inode back. -/
def Harmless (t : Session σ) : Act → Prop
  | .iput i => ¬ WritesBack t.cache i
  | _ => True

/-- No act of the run does. -/
def Quiet : Session σ → List Act → Prop
  | _, [] => True
  | t, a :: as => Harmless t a ∧ ∀ t', step ops super t a = some t' → Quiet t' as

variable {ops super} {t t' : Session σ}

/-- **`iget` returns only inodes that are not locked**: one that is not in core is a fault. -/
theorem iget_some {fuel dev inum i : ℕ} {c c' : ICache} {s s' : σ}
    (h : iget ops super fuel c s dev inum = .ok (some i, c', s')) : isLocked c i = false := by
  have hloop : ∀ walk fuel, igetLoop ops super walk fuel c s dev inum = .ok (some i, c', s') →
      isLocked c i = false := by
    intro walk fuel
    induction fuel with
    | zero => exact fun h => absurd h (by simp [igetLoop])
    | succ fuel ih =>
      intro h
      obtain ⟨found, hfound, h⟩ := bind_eq_ok.mp h
      rcases found with _ | j
      · split_ifs at h
        · exact absurd h (by simp [pure, Except.pure])
        · exact absurd h (by simp [loadInode, deref, bind, Except.bind])
      · simp only at h
        split_ifs at h with hlock
        · exact ih h
        · simp only [pure, Except.pure, Except.ok.injEq, Prod.mk.injEq, Option.some.injEq] at h
          rw [← h.1]
          exact Bool.eq_false_iff.mpr hlock
  exact hloop fuel fuel h

/-- The images that were found do not have the bit. -/
def FoundClear (t : Session σ) : Prop := ∀ p ∈ t.held, lockBit p.2 = false

/-- **One act** stores an image with the bit exactly if it writes an inode back. -/
theorem step_clear {a : Act} (hfound : FoundClear t) (h : step ops super t a = some t') :
    FoundClear t' ∧ (Clear t' ↔ Clear t ∧ Harmless t a) := by
  cases a with
  | iget fuel dev inum =>
    simp only [step] at h
    split at h
    · rename_i i c s hget
      obtain rfl := Option.some.inj h
      refine ⟨fun p hp => ?_, (and_true _).symm.to_iff⟩
      rcases List.mem_cons.mp hp with rfl | hp
      · exact iget_some hget
      · exact hfound p hp
    · obtain rfl := Option.some.inj h
      exact ⟨hfound, (and_true _).symm.to_iff⟩
    · exact absurd h (by simp)
  | update i dinode iState =>
    simp only [step] at h
    split_ifs at h
    obtain rfl := Option.some.inj h
    exact ⟨hfound, (and_true _).symm.to_iff⟩
  | iput i =>
    simp only [step] at h
    split at h
    · exact absurd h (by simp)
    rename_i j found hheld
    split at h
    · rename_i c s log hput
      obtain rfl := Option.some.inj h
      have hmem := List.mem_of_find?_eq_some hheld
      refine ⟨fun p hp => hfound p (List.mem_of_mem_eraseP hp), ?_⟩
      rcases (iputWith_logged _ hput).2 with ⟨hno, rfl⟩ | ⟨hw, d, rfl, hd⟩
      · simp only [Clear, List.map_nil, List.append_nil, Harmless]
        exact (and_iff_left hno).symm
      · refine iff_of_false (fun hclear => ?_) fun hclear => hclear.2 hw
        have hbad := hclear (found, d) (by simp) (hfound _ hmem)
        exact absurd (hd.symm.trans hbad) (by decide)
    · exact absurd h (by simp)

/-- **Every run**: the lock bit stays off the disk exactly if no inode is written back. -/
theorem clear_iff_quiet {acts : List Act} (hheld : t.held = []) (hstored : t.stored = [])
    (h : acts.foldlM (step ops super) t = some t') : Clear t' ↔ Quiet ops super t acts := by
  have hrun : ∀ (acts : List Act) (t : Session σ), FoundClear t →
      acts.foldlM (step ops super) t = some t' → (Clear t' ↔ Clear t ∧ Quiet ops super t acts) := by
    intro acts
    induction acts with
    | nil =>
      intro t _ h
      obtain rfl := Option.some.inj h
      exact (and_true _).symm.to_iff
    | cons a acts ih =>
      intro t hfound h
      rw [List.foldlM_cons] at h
      obtain ⟨t₁, hstep, hrest⟩ := Option.bind_eq_some_iff.mp h
      obtain ⟨hfound₁, hiff⟩ := step_clear hfound hstep
      rw [ih t₁ hfound₁ hrest, hiff, and_assoc, Quiet]
      refine and_congr_right fun _ => and_congr_right fun _ => ⟨fun hq t₂ h₂ => ?_, fun hq => hq t₁ hstep⟩
      rw [← Option.some.inj (hstep.symm.trans h₂)]
      exact hq
  have hstart : FoundClear t := by
    intro p hp
    rw [hheld] at hp
    exact absurd hp List.not_mem_nil
  have hclear : Clear t := by
    intro p hp
    rw [hstored] at hp
    exact absurd hp List.not_mem_nil
  rw [hrun acts t hstart h]
  exact and_iff_right hclear

/-- A session on the cache of eight inodes, with nothing in use. -/
def idle : Session Store := ⟨addInodes zeroICache 8, zeroStore, [], []⟩

/-- A client gets inode 7, changes it, and puts it without a mark in `i_state`. -/
theorem clear_unmarked : ∃ t, [Act.iget 31 devNo 7, .update 7 (fun _ => 3) 0, .iput 7].foldlM
    (step storeOps (some 1)) idle = some t ∧ Clear t := by
  have hcheck : (([Act.iget 31 devNo 7, .update 7 (fun _ => 3) 0].foldlM
      (step storeOps (some 1)) idle).any fun t =>
        decide (¬ WritesBack t.cache 7 ∧ (step storeOps (some 1) t (.iput 7)).isSome = true)) = true := by
    decide +kernel
  obtain ⟨t₂, htwo, h⟩ := (Option.any_eq_true _ _).mp hcheck
  obtain ⟨hquiet, hsome⟩ := of_decide_eq_true h
  obtain ⟨t, hput⟩ := Option.isSome_iff_exists.mp hsome
  have hrun : [Act.iget 31 devNo 7, .update 7 (fun _ => 3) 0, .iput 7].foldlM
      (step storeOps (some 1)) idle = some t :=
    (List.foldlM_append (l := [Act.iget 31 devNo 7, .update 7 (fun _ => 3) 0])).trans
      (Option.bind_eq_some_iff.mpr ⟨t₂, htwo, Option.bind_eq_some_iff.mpr ⟨t, hput, rfl⟩⟩)
  refine ⟨t, hrun, (clear_iff_quiet rfl rfl hrun).mpr ?_⟩
  refine ⟨trivial, fun t₁ h₁ => ⟨trivial, fun t₂' h₂ => ?_⟩⟩
  have htwo' : [Act.iget 31 devNo 7, .update 7 (fun _ => 3) 0].foldlM (step storeOps (some 1)) idle =
      some t₂' := by
    simp only [List.foldlM_cons, List.foldlM_nil, Option.bind_eq_bind, Option.bind_some, h₁, h₂, pure]
  rw [← Option.some.inj (htwo.symm.trans htwo')]
  exact ⟨hquiet, fun _ _ => trivial⟩

/-- The same with `I_DIRTY`: the image that is written has the lock bit, which it did not have when the
inode was got. -/
theorem not_clear_dirty : ∃ t, [Act.iget 31 devNo 7, .update 7 (fun _ => 0) 2, .iput 7].foldlM
    (step storeOps (some 1)) idle = some t ∧
      t.stored.map (fun p => (lockBit p.1, lockBit p.2)) = [(false, true)] ∧ ¬ Clear t := by
  have hcheck : (([Act.iget 31 devNo 7, .update 7 (fun _ => 0) 2, .iput 7].foldlM
      (step storeOps (some 1)) idle).any fun t =>
        decide (t.stored.map (fun p => (lockBit p.1, lockBit p.2)) = [(false, true)])) = true := by
    decide +kernel
  obtain ⟨t, hrun, h⟩ := (Option.any_eq_true _ _).mp hcheck
  have hstored := of_decide_eq_true h
  refine ⟨t, hrun, hstored, fun hclear => ?_⟩
  obtain ⟨p, hp, hbits⟩ := List.mem_map.mp (hstored ▸ List.mem_singleton_self (false, true))
  obtain ⟨h1, h2⟩ := Prod.mk.inj hbits
  exact absurd (h2.symm.trans (hclear p hp h1)) (by decide)

end YegaKernel.Fs.Ufs.LockBit
