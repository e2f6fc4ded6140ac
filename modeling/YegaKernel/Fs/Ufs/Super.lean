import YegaKernel.Lib.Runs
import YegaKernel.Fs.Ufs.Format

/-! # The superblock in memory

The global `super` points into the data of the buffer that `bread` returned for block 1. `init_sb`
keeps that buffer: it is off the free list for ever (`OffFree`), and no request can recycle it.
`mkufs` gives it back by its last `bwrite`. From then on the superblock is in memory only until a
request that finds its block not cached takes the buffer from the front of the free list.

`superblock_kept`: the buffer that `super` points into is left alone by every call after `init_sb`,
and after `mkufs` by the calls that spare it (`Spares`). -/

namespace YegaKernel.Fs.Ufs.Super

open Lib.Links Lib.Bytes Lib.Word Lib.Runs Relation
open Fs.Disk Fs.Buffer Fs.BufferSpec Fs.BufferRun
open Fs.ReadWrite (afterRead afterRead_heads coherent_opened readSector_of_le
    isFlag_dirty_lock)
open Fs.Ufs.Model Fs.Ufs.Format Function

variable {n m b S walk fuel : ℕ} {s s' : Cache}

/-! ### What a request leaves alone -/

/-- A request for the block `m` spares the buffer `S`: `search_hash` finds the block, or the buffer
at the front of the free list is another one. -/
def Spares (walk S m : ℕ) (s : Cache) : Prop :=
  (∃ b, searchHash walk s devNo m = .ok (some b)) ∨ LinkStore.next s Link.free ≠ .freeOf S

theorem writeDelayed_heads (s : Cache) (data : Bytes) (h : S ≠ b) :
    (writeDelayed (listDel .null s (.freeOf b)) b data).heads S = s.heads S := by
  simp [writeDelayed, clearFlag, Cache.updHead, update_of_ne h]

theorem recycle_heads {dev c : ℕ} (h : recycle s b dev m = .ok (c, s')) (hS : S ≠ b) :
    s'.heads S = s.heads S := by
  obtain ⟨-, head, -, rfl⟩ := recycle_cases h
  simp [lockedBuffer, setFlag, Cache.updHead, update_of_ne hS]

/-- **`getblk` of another block** that spares the buffer returns another one, and leaves it
alone. -/
theorem getblk_spares (hblk : (s.heads S).bBlocknr ≠ m) (hspares : Spares walk S m s)
    (h : getblk walk s devNo m = .ok (b, s')) : b ≠ S ∧ s'.heads S = s.heads S := by
  obtain ⟨s₁, ⟨hheads, hspares₁⟩, hcase⟩ := getblkLoop_rule
    (P := fun s₁ => s₁.heads S = s.heads S ∧ Spares walk S m s₁) (fun s₁ c data hP hs hnext => by
      have hc : S ≠ c := by
        rintro rfl
        rcases hP.2 with ⟨d, hd⟩ | hne
        · exact absurd (hs.symm.trans hd) (by simp)
        · exact hne hnext
      refine ⟨(writeDelayed_heads s₁ data hc).trans hP.1, .inr ?_⟩
      -- the buffer that was written is at the front again
      rw [writeDelayed, next_listAdd_head]
      exact fun heq => hc (Link.freeOf.inj heq).symm) ⟨rfl, hspares⟩ h
  rcases hcase with ⟨hs, -, rfl⟩ | ⟨hs, hnext, hrecycle⟩
  · have hbS : b ≠ S := by
      rintro rfl
      exact hblk (hheads ▸ (searchHash_some hs).1)
    refine ⟨hbS, ?_⟩
    rw [takeBuffer_heads, if_neg (Ne.symm hbS), hheads]
  · have hbS : b ≠ S := by
      rintro rfl
      rcases hspares₁ with ⟨d, hd⟩ | hne
      · exact absurd (hs.symm.trans hd) (by simp)
      · exact hne hnext
    refine ⟨hbS, ?_⟩
    rw [recycle_heads hrecycle (Ne.symm hbS), listDel_heads, hheads]

theorem bread_cases {dev : ℕ} (h : bread fuel s dev m = .ok (b, s')) : ∃ s₁,
    getblk fuel s dev m = .ok (b, s₁) ∧ s'.links = s₁.links ∧
      (∀ c ≠ b, s'.heads c = s₁.heads c) ∧ (s'.heads b).bBlocknr = (s₁.heads b).bBlocknr := by
  unfold bread at h
  rcases hget : getblk fuel s dev m with e | ⟨c, s₁⟩
  · simp [hget, Bind.bind, Except.bind] at h
  · simp only [hget, Bind.bind, Except.bind, pure, Except.pure] at h
    split_ifs at h
    · obtain ⟨rfl, rfl⟩ := Prod.mk.inj (Except.ok.inj h)
      exact ⟨s₁, rfl, rfl, fun _ _ => rfl, rfl⟩
    · rcases hdata : (s₁.heads c).bData with _ | data
      · simp [hdata] at h
      · simp only [hdata] at h
        obtain ⟨rfl, rfl⟩ := Prod.mk.inj (Except.ok.inj h)
        exact ⟨s₁, rfl, rfl, fun d hd => update_of_ne hd _ _, by simp [Cache.updHead]⟩

theorem bread_spares (hblk : (s.heads S).bBlocknr ≠ m) (hspares : Spares walk S m s)
    (h : bread walk s devNo m = .ok (b, s')) : b ≠ S ∧ s'.heads S = s.heads S := by
  obtain ⟨s₁, hget, -, hheads, -⟩ := bread_cases h
  obtain ⟨hb, hS⟩ := getblk_spares hblk hspares hget
  exact ⟨hb, (hheads S (Ne.symm hb)).trans hS⟩

theorem bwrite_heads (h : bwrite s b = .ok s') (hb : b ≠ S) : s'.heads S = s.heads S := by
  unfold bwrite at h
  rcases hdata : (s.heads b).bData with _ | data
  · simp [hdata] at h
  · simp only [hdata, Except.ok.injEq] at h
    rw [← h, brelse_heads, if_neg (Ne.symm hb)]

/-! ### A buffer that no list leads to -/

/-- The list nodes of the cache, without the node of `S` on the free list. -/
def Live (n S : ℕ) : Link → Prop
  | .null => False
  | .hash i => i < devNo
  | .free => True
  | .hashOf b => b < n
  | .freeOf b => b < n ∧ b ≠ S

/-- **The buffer is off the free list**: no link of any list leads to its node there. This holds
even after `getblk` has put buffers on the wrong chains. -/
abbrev OffFree (n S : ℕ) (s : Cache) : Prop := Confined (Live n S) Link.null s

theorem apart_of_ne : ∀ a b : Link, a ≠ b → LinkStore.Apart Cache a b := fun _ _ h => h

theorem OffFree.congr (h : OffFree n S s) (hlinks : s'.links = s.links) : OffFree n S s' := by
  intro x hx
  have hx := h x hx
  simp only [LinkStore.next, LinkStore.prev, hlinks] at hx ⊢
  exact hx

theorem OffFree.front (h : OffFree n S s) (hnext : LinkStore.next s Link.free = .freeOf b) :
    b < n ∧ b ≠ S := by
  rcases (h .free trivial).1 with hlive | hnull
  · rwa [hnext] at hlive
  · simp [hnext] at hnull

theorem OffFree.spares (h : OffFree n S s) (walk m : ℕ) : Spares walk S m s :=
  .inr fun hnext => (h.front hnext).2 rfl

theorem live_hashHead {i : ℕ} {head : Link} (h : hashHead i = .ok head) : Live n S head := by
  unfold hashHead at h
  split_ifs at h with hi
  · exact Except.ok.inj h ▸ hi
  · exact Except.ok.inj h ▸ trivial

theorem OffFree.searchFrom_lt (h : OffFree n S s) {head : Link} {dev : ℕ} :
    ∀ {fuel : ℕ} {run : Link}, Live n S run ∨ run = .null →
      searchFrom s head dev m fuel run = .ok (some b) → b < n
  | 0, _, _, hs => by simp [searchFrom] at hs
  | fuel + 1, run, hrun, hs => by
    unfold searchFrom at hs
    split_ifs at hs
    · cases hs
    · cases run with
      | hashOf c =>
        have hc : Live n S (.hashOf c) := hrun.resolve_right (by simp)
        dsimp only at hs
        split_ifs at hs
        · exact Option.some.inj (Except.ok.inj hs) ▸ hc
        · exact h.searchFrom_lt (h _ hc).1 hs
      | _ => cases hs

theorem OffFree.searchHash_lt (h : OffFree n S s) {dev : ℕ}
    (hs : searchHash walk s dev m = .ok (some b)) : b < n := by
  unfold searchHash at hs
  rcases hi : hashFn m dev with e | i
  · simp [hi, Bind.bind, Except.bind] at hs
  · rcases hh : hashHead i with e | head
    · simp [hi, hh, Bind.bind, Except.bind] at hs
    · simp only [hi, hh, Bind.bind, Except.bind] at hs
      exact h.searchFrom_lt (h head (live_hashHead hh)).1 hs

theorem OffFree.recycle (h : OffFree n S s) (hb : b < n) {dev c : ℕ}
    (hrec : recycle s b dev m = .ok (c, s')) : OffFree n S s' := by
  obtain ⟨-, head, hhead, rfl⟩ := recycle_cases hrec
  rcases hi : hashFn dev m with e | i
  · simp [hi, Bind.bind, Except.bind] at hhead
  · have hdel : OffFree n S (listDel .null s (.hashOf b)) := h.listDel apart_of_ne hb
    refine OffFree.congr (hdel.listAdd apart_of_ne (x := head) (y := .hashOf b) ?_ hb) rfl
    simp only [hi, Bind.bind, Except.bind] at hhead
    exact live_hashHead hhead

/-- **`getblk` of another block** keeps the buffer off the free list. -/
theorem OffFree.getblk (h : OffFree n S s) (hblk : (s.heads S).bBlocknr ≠ m)
    (hget : getblk walk s devNo m = .ok (b, s')) : b < n ∧ OffFree n S s' := by
  obtain ⟨s₁, ⟨hoff, hheads⟩, hcase⟩ := getblkLoop_rule
    (P := fun s₁ => OffFree n S s₁ ∧ s₁.heads S = s.heads S) (fun s₁ c data hP _ hnext => by
      have hc := hP.1.front hnext
      have hdel : OffFree n S (listDel .null s₁ (.freeOf c)) := hP.1.listDel apart_of_ne hc
      exact ⟨OffFree.congr (hdel.listAdd apart_of_ne (x := .free) (y := .freeOf c) trivial hc) rfl,
        (writeDelayed_heads s₁ data (Ne.symm hc.2)).trans hP.2⟩) ⟨h, rfl⟩ hget
  rcases hcase with ⟨hs, -, rfl⟩ | ⟨-, hnext, hrec⟩
  · have hb := hoff.searchHash_lt hs
    have hbS : b ≠ S := by
      rintro rfl
      exact hblk (hheads ▸ (searchHash_some hs).1)
    exact ⟨hb, OffFree.congr (hoff.listDel apart_of_ne (y := .freeOf b) ⟨hb, hbS⟩) rfl⟩
  · have hb := hoff.front hnext
    exact ⟨hb.1, OffFree.recycle (hoff.listDel apart_of_ne (y := .freeOf b) hb) hb.1 hrec⟩

theorem OffFree.bread (h : OffFree n S s) (hblk : (s.heads S).bBlocknr ≠ m)
    (hread : bread walk s devNo m = .ok (b, s')) : b < n ∧ OffFree n S s' := by
  obtain ⟨s₁, hget, hlinks, -⟩ := bread_cases hread
  obtain ⟨hb, hoff⟩ := h.getblk hblk hget
  exact ⟨hb, hoff.congr hlinks⟩

theorem OffFree.brelse (h : OffFree n S s) (hb : b < n) (hbS : b ≠ S) :
    OffFree n S (brelse s b) := by
  have hfree : Live n S (.freeOf b) := ⟨hb, hbS⟩
  unfold Buffer.brelse
  split_ifs
  · exact OffFree.congr (h.listAddTail apart_of_ne (x := .free) trivial hfree) rfl
  · exact OffFree.congr (h.listAdd apart_of_ne (x := .free) trivial hfree) rfl

theorem OffFree.bwrite (h : OffFree n S s) (hb : b < n) (hbS : b ≠ S) (hwrite : bwrite s b = .ok s') :
    OffFree n S s' := by
  unfold Buffer.bwrite at hwrite
  rcases hdata : (s.heads b).bData with _ | data
  · simp [hdata] at hwrite
  · simp only [hdata, Except.ok.injEq] at hwrite
    exact hwrite ▸ OffFree.brelse (OffFree.congr h rfl) hb hbS

variable {B : Queue → List ℕ}

theorem offFree_listDel (h : Consistent n s B []) (hS : S ∈ B .free) :
    OffFree n S (listDel .null s (.freeOf S)) := by
  have hlists := h.lists.listDel Link.null (i := .free) trivial hS
  have hfree : ∀ b, b ∈ (B .free).erase S ↔ b < n ∧ b ≠ S := by
    intro b
    have hnot : ¬ (b < n ∧ Locked s b) := fun hb => by simpa using (h.mem_held b).mpr hb
    rw [(h.lists.nodup (i := .free) trivial).mem_erase_iff, h.mem_free]
    tauto
  have hmem : ∀ x, Live n S x → ∃ q : Queue, x ∈ q.head ::
      (update B .free ((B .free).erase S) q).map q.node := by
    intro x hx
    cases x with
    | null => exact hx.elim
    | hash i => exact ⟨.chain ⟨i, hx⟩, by simp [Queue.head]⟩
    | free => exact ⟨.free, by simp [Queue.head]⟩
    | hashOf b =>
      refine ⟨chainOf (s.heads b).bBlocknr, List.mem_cons_of_mem _ ?_⟩
      exact List.mem_map_of_mem ((h.mem_chain _ b).mpr ⟨hx, rfl⟩)
    | freeOf b =>
      refine ⟨.free, List.mem_cons_of_mem _ ?_⟩
      exact List.mem_map_of_mem ((hfree b).mpr hx)
  have hlive : ∀ (q : Queue), ∀ x ∈ q.head :: (update B .free ((B .free).erase S) q).map q.node,
      Live n S x := by
    intro q x hx
    cases q with
    | free =>
      rcases List.mem_cons.mp hx with rfl | hx
      · trivial
      · obtain ⟨b, hb, rfl⟩ := List.mem_map.mp hx
        exact (hfree b).mp hb
    | chain i =>
      rcases List.mem_cons.mp hx with rfl | hx
      · exact i.isLt
      · obtain ⟨b, hb, rfl⟩ := List.mem_map.mp hx
        rw [chain_eq] at hb
        exact ((h.mem_chain _ b).mp hb).1
  intro x hx
  obtain ⟨q, hq⟩ := hmem x hx
  obtain ⟨hnext, hprev⟩ := (hlists.ring q trivial).mem_neighbours hq
  exact ⟨.inl (hlive q _ hnext), .inl (hlive q _ hprev)⟩

/-! ### Runs -/

variable {bh : BufferHead} {held : List ℕ} {st st' : Cache × List ℕ} {c : Call}

/-- The calls on blocks other than 1; clients use only buffers they hold. -/
def Elsewhere (st : Cache × List ℕ) : Call → Prop
  | .getblk m | .bread m => m ≠ 1
  | .bwrite b | .brelse b | .fill b _ _ => b ∈ st.2

/-- The calls that spare the buffer `S`. -/
def Careful (walk S : ℕ) (st : Cache × List ℕ) : Call → Prop
  | .getblk m | .bread m => Spares walk S m st.1
  | .bwrite _ | .brelse _ | .fill _ _ _ => True

/-- One call that returns. Where at a miss the front node of the free list is no `b_free`, `getblk` of
the source goes on with a wrong record; here it is an error, and no step. -/
def Step (st st' : Cache × List ℕ) : Prop := ∃ fuel c, Elsewhere st c ∧ exec fuel c st = .ok st'

def CarefulStep (S : ℕ) (st st' : Cache × List ℕ) : Prop :=
  ∃ fuel c, Elsewhere st c ∧ Careful fuel S st c ∧ exec fuel c st = .ok st'

theorem exec_cases (h : exec fuel c (s, held) = .ok st') :
    (∃ m b s', c = .getblk m ∧ getblk fuel s devNo m = .ok (b, s') ∧ st' = (s', b :: held)) ∨
    (∃ m b s', c = .bread m ∧ bread fuel s devNo m = .ok (b, s') ∧ st' = (s', b :: held)) ∨
    (∃ b s', c = .bwrite b ∧ bwrite s b = .ok s' ∧ st' = (s', held.erase b)) ∨
    (∃ b, c = .brelse b ∧ st' = (brelse s b, held.erase b)) ∨
    ∃ b data flags, c = .fill b data flags ∧ st' = (fillBuffer s b data flags, held) := by
  cases c with
  | getblk m =>
    rcases hget : getblk fuel s devNo m with e | ⟨b, s'⟩
    · simp [exec, hget, Bind.bind, Except.bind] at h
    · simp only [exec, hget, Bind.bind, Except.bind, pure, Except.pure, Except.ok.injEq] at h
      exact .inl ⟨m, b, s', rfl, hget, h.symm⟩
  | bread m =>
    rcases hread : bread fuel s devNo m with e | ⟨b, s'⟩
    · simp [exec, hread, Bind.bind, Except.bind] at h
    · simp only [exec, hread, Bind.bind, Except.bind, pure, Except.pure, Except.ok.injEq] at h
      exact .inr (.inl ⟨m, b, s', rfl, hread, h.symm⟩)
  | bwrite b =>
    rcases hwrite : bwrite s b with e | s'
    · simp [exec, hwrite, Bind.bind, Except.bind] at h
    · simp only [exec, hwrite, Bind.bind, Except.bind, pure, Except.pure, Except.ok.injEq] at h
      exact .inr (.inr (.inl ⟨b, s', rfl, hwrite, h.symm⟩))
  | brelse b => exact .inr (.inr (.inr (.inl ⟨b, rfl, (Except.ok.inj h).symm⟩)))
  | fill b data flags =>
    exact .inr (.inr (.inr (.inr ⟨b, data, flags, rfl, (Except.ok.inj h).symm⟩)))

/-- **The superblock is in its buffer**, whose head is `bh`, and no client holds it. -/
structure Kept (S : ℕ) (bh : BufferHead) (st : Cache × List ℕ) : Prop where
  block : bh.bBlocknr = 1
  head : st.1.heads S = bh
  idle : S ∉ st.2

/-- **One call** that spares the buffer. -/
theorem Kept.exec (h : Kept S bh st) (helse : Elsewhere st c) (hcare : Careful fuel S st c)
    (hexec : exec fuel c st = .ok st') : Kept S bh st' := by
  obtain ⟨s, held⟩ := st
  have hblock : (s.heads S).bBlocknr = 1 := h.head ▸ h.block
  have hne : ∀ b ∈ held, b ≠ S := fun b hb hS => h.idle (hS ▸ hb)
  have herase : ∀ b, S ∉ held.erase b := fun b hS => h.idle (List.mem_of_mem_erase hS)
  obtain ⟨m, b, s', rfl, hget, rfl⟩ | ⟨m, b, s', rfl, hread, rfl⟩ | ⟨b, s', rfl, hwrite, rfl⟩ |
    ⟨b, rfl, rfl⟩ | ⟨b, data, flags, rfl, rfl⟩ := exec_cases hexec
  · obtain ⟨hb, hS⟩ := getblk_spares (hblock.trans_ne (Ne.symm helse)) hcare hget
    exact ⟨h.block, hS.trans h.head, List.not_mem_cons_of_ne_of_not_mem (Ne.symm hb) h.idle⟩
  · obtain ⟨hb, hS⟩ := bread_spares (hblock.trans_ne (Ne.symm helse)) hcare hread
    exact ⟨h.block, hS.trans h.head, List.not_mem_cons_of_ne_of_not_mem (Ne.symm hb) h.idle⟩
  · exact ⟨h.block, (bwrite_heads hwrite (hne b helse)).trans h.head, herase b⟩
  · refine ⟨h.block, ?_, herase b⟩
    rw [brelse_heads, if_neg (Ne.symm (hne b helse))]
    exact h.head
  · exact ⟨h.block, (update_of_ne (Ne.symm (hne b helse)) _ _).trans h.head, h.idle⟩

/-- The superblock is in a buffer that is off the free list. -/
structure Pinned (n S : ℕ) (bh : BufferHead) (st : Cache × List ℕ) : Prop extends Kept S bh st where
  off : OffFree n S st.1
  lt : ∀ b ∈ st.2, b < n

/-- **One call**: every call spares a buffer that is off the free list. -/
theorem Pinned.exec (h : Pinned n S bh st) (helse : Elsewhere st c) (hexec : exec fuel c st = .ok st') :
    Pinned n S bh st' := by
  obtain ⟨s, held⟩ := st
  have hcare : Careful fuel S (s, held) c := by
    cases c <;> first | exact h.off.spares _ _ | trivial
  have hblock : (s.heads S).bBlocknr = 1 := h.head ▸ h.block
  have hne : ∀ b ∈ held, b ≠ S := fun b hb hS => h.idle (hS ▸ hb)
  have herase : ∀ b, ∀ c ∈ held.erase b, c < n := fun b c hc => h.lt c (List.mem_of_mem_erase hc)
  suffices hsuff : OffFree n S st'.1 ∧ ∀ b ∈ st'.2, b < n from
    ⟨h.toKept.exec helse hcare hexec, hsuff.1, hsuff.2⟩
  obtain ⟨m, b, s', rfl, hget, rfl⟩ | ⟨m, b, s', rfl, hread, rfl⟩ | ⟨b, s', rfl, hwrite, rfl⟩ |
    ⟨b, rfl, rfl⟩ | ⟨b, data, flags, rfl, rfl⟩ := exec_cases hexec
  · obtain ⟨hb, hoff⟩ := h.off.getblk (hblock.trans_ne (Ne.symm helse)) hget
    exact ⟨hoff, List.forall_mem_cons.mpr ⟨hb, h.lt⟩⟩
  · obtain ⟨hb, hoff⟩ := h.off.bread (hblock.trans_ne (Ne.symm helse)) hread
    exact ⟨hoff, List.forall_mem_cons.mpr ⟨hb, h.lt⟩⟩
  · exact ⟨h.off.bwrite (h.lt b helse) (hne b helse) hwrite, herase b⟩
  · exact ⟨h.off.brelse (h.lt b helse) (hne b helse), herase b⟩
  · exact ⟨h.off.congr rfl, h.lt⟩

/-! ### `init_sb` and `mkufs` -/

theorem pinned_bread (h : Consistent n s B [])
    (hread : bread walk s devNo 1 = .ok (S, s')) : Pinned n S (s'.heads S) (s', []) := by
  obtain ⟨s₁, hget, hlinks, -, hblk⟩ := bread_cases hread
  suffices hsuff : (s₁.heads S).bBlocknr = 1 ∧ OffFree n S s₁ from
    ⟨⟨hblk.trans hsuff.1, rfl, by simp⟩, hsuff.2.congr hlinks, by simp⟩
  rcases h.getblkLoop walk walk (m := 1) with hspin | ⟨b, hb, hbm, heq⟩ | ⟨-, s₂, hs₂, -, b, hb, heq⟩
  · exact absurd (hget.symm.trans hspin) (by simp)
  · obtain ⟨rfl, rfl⟩ := Prod.mk.inj (Except.ok.inj (hget.symm.trans heq))
    exact ⟨((sameBlocks_takeBuffer s S S).2.1).trans hbm, (offFree_listDel h hb).congr rfl⟩
  · have hrec := heq.symm.trans hget
    have hbn := ((hs₂.mem_free b).mp hb).1
    obtain ⟨rfl, head, -, hs₁⟩ := recycle_cases hrec
    refine ⟨?_, (offFree_listDel hs₂ hb).recycle hbn hrec⟩
    simp [hs₁, lockedBuffer, setFlag, Cache.updHead]

theorem formatBlock_pinned (h : Pinned n S bh (s, [])) {iCnt blk : ℕ} (hblk : blk ≠ 1)
    (hformat : formatBlock (cacheOps walk) iCnt blk s = .ok s') : Pinned n S bh (s', []) := by
  have hne : (s.heads S).bBlocknr ≠ blk := fun hS => hblk (hS.symm.trans (h.head ▸ h.block))
  obtain ⟨b, s₁, hread, hwrite⟩ := formatBlock_eq_ok.mp hformat
  obtain ⟨hbS, hS⟩ := bread_spares hne (h.off.spares walk blk) hread
  obtain ⟨hb, hoff⟩ := h.off.bread hne hread
  have hoff' : OffFree n S ((cacheOps walk).setData s₁ b
      (initInodes iCnt blk ((cacheOps walk).data s₁ b))) := hoff.congr rfl
  refine ⟨⟨h.block, ?_, h.idle⟩, hoff'.bwrite hb hbS hwrite, h.lt⟩
  calc s'.heads S = _ := bwrite_heads hwrite hbS
    _ = s₁.heads S := update_of_ne (Ne.symm hbS) _ _
    _ = bh := hS.trans h.head

theorem sTotalInodes_makeSuper_lt (mb : ℕ) (super : Bytes) :
    sTotalInodes (makeSuper mb super) < 2 ^ 20 := by
  have hfield := load_makeSuper mb super (8, 4, totalInodes mb) (by simp [superFields])
  have hlt : totalInodes mb < 2 ^ 20 := by
    simp only [totalInodes, u32]
    omega
  rw [sTotalInodes, hfield]
  exact lt_of_le_of_lt (Nat.mod_le _ _) hlt

theorem mkufsLoop_pinned {mb : ℕ} {super : Bytes} (hdata : bh.bData = some (makeSuper mb super)) :
    ∀ {fuel iCnt : ℕ} {s s' : Cache}, Pinned n S bh (s, []) →
      mkufsLoop (cacheOps walk) S fuel iCnt s = .ok s' → Pinned n S bh (s', [])
  | 0, _, _, _, _, hloop => by simp [mkufsLoop] at hloop
  | fuel + 1, iCnt, s, s', h, hloop => by
    have hsuper : (cacheOps walk).data s S = makeSuper mb super := by
      have hhead : s.heads S = bh := h.head
      simp only [cacheOps, hhead, hdata, Option.getD_some]
    have htotal := sTotalInodes_makeSuper_lt mb super
    rw [mkufsLoop, hsuper, sBlkDilbStart_makeSuper] at hloop
    split_ifs at hloop with hlt
    · have hblk : u32 (iCnt / inodesPerBlock + 2) ≠ 1 := by
        rw [show inodesPerBlock = 8 from rfl, u32_of_lt (by omega)]
        omega
      rcases hformat : formatBlock (cacheOps walk) iCnt (u32 (iCnt / inodesPerBlock + 2)) s with e | s₁
      · simp [hformat, Bind.bind, Except.bind] at hloop
      · simp only [hformat, Bind.bind, Except.bind] at hloop
        exact mkufsLoop_pinned hdata (formatBlock_pinned h hblk hformat) hloop
    · exact Except.ok.inj hloop ▸ h

/-- **What `mkufs` leaves**: the superblock that it has made, in a buffer that is not in use. -/
theorem kept_mkufs {mb : ℕ} (h : Consistent n s B [])
    (hmkufs : mkufs (cacheOps walk) fuel mb s = .ok (S, s')) :
    ∃ bh super, Kept S bh (s', []) ∧ bh.bData = some (makeSuper mb super) := by
  obtain ⟨s₁, s₃, hread, hloop, hwrite⟩ := mkufs_eq_ok.mp hmkufs
  have hpinned := pinned_bread h hread
  set super := (cacheOps walk).data s₁ S
  set s₂ := (cacheOps walk).setData s₁ S (makeSuper mb super)
  have hhead : s₂.heads S = { s₁.heads S with bData := some (makeSuper mb super) } :=
    update_self ..
  have hdata : (s₂.heads S).bData = some (makeSuper mb super) := by rw [hhead]
  have hpinned₂ : Pinned n S (s₂.heads S) (s₂, []) :=
    ⟨⟨hhead ▸ hpinned.block, rfl, by simp⟩, hpinned.off.congr rfl, by simp⟩
  have hhead₃ : s₃.heads S = s₂.heads S := (mkufsLoop_pinned hdata hpinned₂ hloop).head
  -- the last `bwrite` unlocks the buffer
  have hwrite' : bwrite s₃ S = .ok (brelse { s₃ with
      disk := diskWrite s₃.disk (s₃.heads S).bBlocknr (makeSuper mb super) bufferSize } S) := by
    rw [bwrite, hhead₃, hdata]
  obtain rfl := Except.ok.inj (hwrite'.symm.trans hwrite)
  refine ⟨_, super, ⟨?_, rfl, by simp⟩, ?_⟩
  all_goals rw [brelse_heads, if_pos rfl]
  · exact hhead₃ ▸ hpinned₂.block
  · exact hhead₃ ▸ hdata

/-! ### The result -/

/-- **The superblock stays in memory.** In a cache in order of which nothing is in use, let `mkufs`
or `init_sb` set `super`. After `mkufs` the record has the fields of the new superblock in every
state reached by calls on other blocks that spare its buffer, and the block of an inode is computed
from the `s_blk_dilb_start` of the format. After `init_sb` the record stays what it was for all
calls on other blocks. -/
theorem superblock_kept {n : ℕ} {s : Cache} {B : Queue → List ℕ} (h : Consistent n s B []) :
    (∀ walk fuel mb S s', mkufs (cacheOps walk) fuel mb s = .ok (S, s') →
      ∀ st, ReflTransGen (CarefulStep S) (s', []) st →
        (∀ f ∈ superFields mb, load ((cacheOps walk).data st.1 S) f.1 f.2.1 = f.2.2 % 256 ^ f.2.1) ∧
        ∀ ino, iBlk (cacheOps walk) S st.1 ino = u32 (ino / inodesPerBlock + 2)) ∧
    ∀ walk S s', initSb (cacheOps walk) s = .ok (S, s') →
      ∀ st, ReflTransGen Step (s', []) st →
        (cacheOps walk).data st.1 S = (cacheOps walk).data s' S ∧
        ∀ ino, iBlk (cacheOps walk) S st.1 ino = iBlk (cacheOps walk) S s' ino := by
  constructor
  · intro walk fuel mb S s' hmkufs st hrun
    obtain ⟨bh, super, hkept, hdata⟩ := kept_mkufs h hmkufs
    have hstep : ∀ a b, Kept S bh a → CarefulStep S a b → Kept S bh b := by
      rintro a b hk ⟨_, _, helse, hcare, hexec⟩
      exact hk.exec helse hcare hexec
    have hkept' : Kept S bh st := invariant_of_run hstep hkept hrun
    have hsuper : (cacheOps walk).data st.1 S = makeSuper mb super := by
      simp only [cacheOps, hkept'.head, hdata, Option.getD_some]
    rw [hsuper]
    refine ⟨load_makeSuper mb super, fun ino => ?_⟩
    rw [iBlk, hsuper, sBlkDilbStart_makeSuper]
  · intro walk S s' hinit st hrun
    have hstep : ∀ a b, Pinned n S (s'.heads S) a → Step a b → Pinned n S (s'.heads S) b := by
      rintro a b hp ⟨_, _, helse, hexec⟩
      exact hp.exec helse hexec
    have hpinned : Pinned n S (s'.heads S) st :=
      invariant_of_run hstep (pinned_bread h hinit) hrun
    have hsuper : (cacheOps walk).data st.1 S = (cacheOps walk).data s' S := by
      simp only [cacheOps, hpinned.head]
    refine ⟨hsuper, fun ino => ?_⟩
    rw [iBlk, iBlk, hsuper]

/-! ### The blocks from 0 on, and one behind them -/

theorem reads_blocks (hwalk : n < walk) : ∀ (blocks : List ℕ) {held : List ℕ} {s : Cache},
    Plain n s held → blocks.Nodup → (∀ m ∈ blocks, m < n ∧ m ≠ 1 ∧ m ∉ held) →
    ∃ s' held', ReflTransGen Step (s, held) (s', held') ∧ Plain n s' held' ∧
      (∀ m, m ∈ held' ↔ m ∈ blocks ∨ m ∈ held) ∧ s'.heads 1 = s.heads 1 ∧ s'.disk = s.disk
  | [], held, s, h, _, _ => ⟨s, held, .refl, h, by simp, rfl, rfl⟩
  | m :: blocks, held, s, h, hnodup, hblocks => by
    obtain ⟨hm, hm1, hheld⟩ := hblocks m List.mem_cons_self
    obtain ⟨hmb, hnodup⟩ := List.nodup_cons.mp hnodup
    obtain ⟨data, hread, h₁⟩ := h.bread hm hheld hwalk
    have hstep : Step (s, held) (afterRead s m data, m :: held) := by
      refine ⟨walk, .bread m, hm1, ?_⟩
      simp only [exec, hread, Bind.bind, Except.bind, pure, Except.pure]
    obtain ⟨s', held', hrun, h', hmem, hhead, hdisk⟩ := reads_blocks hwalk blocks h₁ hnodup
      fun k hk => by
        obtain ⟨hkn, hk1, hkh⟩ := hblocks k (List.mem_cons_of_mem m hk)
        exact ⟨hkn, hk1, List.not_mem_cons_of_ne_of_not_mem (fun h => hmb (h ▸ hk)) hkh⟩
    refine ⟨s', held', .head hstep hrun, h', fun k => ?_, ?_, hdisk⟩
    · rw [hmem, List.mem_cons, List.mem_cons]
      tauto
    · rw [hhead, afterRead_heads, if_neg (Ne.symm hm1)]

/-- **The buffer is recycled** when it is the only one that is not in use and a block that is not
cached is read; its first half is that block then. -/
theorem bread_recycles (h : Plain n s held) (hS : S < n) (hheld : ∀ b, b ∈ held ↔ b < n ∧ b ≠ S)
    (hdelay : isFlag (s.heads S).flags bhDelay = false) (hm : n ≤ m) (hm' : devNo < m)
    (hwalk : n < walk) : ∃ s' data, bread walk s devNo m = .ok (S, s') ∧
      (s'.heads S).bData = some (diskRead s.disk m data) := by
  obtain ⟨B, hB⟩ := h.consistent
  have hfree : ∀ b, b ∈ B .free ↔ b = S := by
    intro b
    have hlocked := (hB.mem_held b).symm.trans (hheld b)
    rw [hB.mem_free]
    constructor
    · rintro ⟨hb, hl⟩
      by_contra hbS
      exact hl (hlocked.mpr ⟨hb, hbS⟩).2
    · rintro rfl
      exact ⟨hS, fun hl => (hlocked.mp ⟨hS, hl⟩).2 rfl⟩
  -- the search finds nothing, and the only free buffer is at the front
  have hsearch : searchHash walk s devNo m = .ok none := by
    rcases hB.searchHash walk m with ⟨b, hb, hbm, -⟩ | ⟨-, hs⟩ | ⟨-, hle⟩
    · exact absurd ((h.block b hb).symm.trans hbm) (by omega)
    · exact hs
    · omega
  obtain ⟨b, l, hfront, hempty, hnext⟩ := hB.free_cases.resolve_left fun hnil => by
    have := (hfree S).mpr rfl
    simp [hnil.1] at this
  obtain rfl : b = S := (hfree b).mp (by simp [hfront])
  have hhead : (hashFn devNo m >>= hashHead) = .ok .free := by
    have hne : m ≠ 0 := by omega
    simp [hashFn, hashHead, Bind.bind, Except.bind, hne, Nat.mod_eq_of_lt hm']
  obtain ⟨data, hdata⟩ := Option.isSome_iff_exists.mp (hB.data b hS)
  set s₁ := lockedBuffer (listAdd ((listDel .null (listDel .null s (.freeOf b)) (.hashOf b)).updHead b
    fun bh => { bh with bDev := devNo, bBlocknr := m }) .free (.hashOf b)) b with hs₁
  have hget : getblk walk s devNo m = .ok (b, s₁) := by
    obtain ⟨k, rfl⟩ := Nat.exists_eq_add_one_of_ne_zero (show walk ≠ 0 by omega)
    rw [getblk, getblkLoop_recycle hsearch hempty hnext hdelay, recycle_of_head hhead]
  have hhead₁ : s₁.heads b = { s.heads b with
      bDev := devNo, bBlocknr := m, flags := (s.heads b).flags ||| bhLock } := by
    simp [hs₁, lockedBuffer, setFlag, Cache.updHead]
  have hclean : isFlag (s₁.heads b).flags bhDirty = false := by
    rw [hhead₁, isFlag_dirty_lock]
    exact h.clean b hS
  refine ⟨_, data, bread_eq hget (by rw [hhead₁]; exact hdata), ?_⟩
  rw [hclean, if_neg (by simp)]
  simp only [Cache.updHead, update_self, hhead₁]
  rfl

theorem addBuffer_disk (data : ℕ → Option Bytes) (s : Cache) (b : ℕ) :
    (addBuffer data s b).disk = s.disk := by
  unfold addBuffer binit
  split_ifs <;> rfl

theorem createBufferCache_disk (s : Cache) (got : ℕ) (data : ℕ → Option Bytes) :
    (createBufferCache s got data).disk = s.disk :=
  List.foldlRecOn (motive := fun s' => s'.disk = s.disk) (List.range (min got buffers)) _
    (show (initHeads s).disk = s.disk from rfl) fun s' hs' b _ => (addBuffer_disk data s' b).trans hs'

theorem plain_freshCache : Plain buffers freshCache [] :=
  coherent_opened zeroCache buffers zeroData fun _ _ => rfl

/-- After `mkufs(1)` a client reads block 50, which is cached: the superblock stays. -/
theorem superblock_kept_block_50 : ∃ s st, mkufs (cacheOps 101) 33 1 freshCache = .ok (1, s) ∧
    ReflTransGen (CarefulStep 1) (s, []) st ∧ st.2 = [50] ∧
    iBlk (cacheOps 101) 1 st.1 8 = 3 := by
  obtain ⟨s, super, hmkufs, hs, -, -, -⟩ := mkufs_returns 1 plain_freshCache (by decide) le_rfl
    (show buffers < 101 by decide)
  obtain ⟨data, hread, -⟩ := hs.bread (m := 50) (by decide) (by simp) (show buffers < 101 by decide)
  obtain ⟨B, hB⟩ := hs.consistent
  have hstep : CarefulStep 1 (s, []) (afterRead s 50 data, [50]) := by
    refine ⟨101, .bread 50, show 50 ≠ 1 by decide, .inl ?_, ?_⟩
    · rcases hB.searchHash 101 50 with ⟨b, -, -, hfound⟩ | ⟨hnone, -⟩ | ⟨-, hle⟩
      · exact ⟨b, hfound⟩
      · exact absurd (hs.block 50 (by decide)) (hnone 50 (by decide))
      · exact absurd hle (by decide)
    · simp only [exec, hread, Bind.bind, Except.bind, pure, Except.pure]
  have hrun := ReflTransGen.single hstep
  obtain ⟨B₀, hB₀⟩ := consistent_freshCache.2
  exact ⟨s, _, hmkufs, hrun, rfl, ((superblock_kept hB₀).1 101 33 1 1 s hmkufs _ hrun).2 8⟩

/-- **The superblock is lost.** After `mkufs(1)` clients read the other 99 cached blocks, and then
block 100: the buffer that `super` points into becomes the buffer of block 100. Inode 8, which is in
block 3, is looked for in block 1 then. -/
theorem superblock_recycled : ∃ s st, mkufs (cacheOps 101) 33 1 freshCache = .ok (1, s) ∧
    iBlk (cacheOps 101) 1 s 8 = 3 ∧ ReflTransGen Step (s, []) st ∧
    sBlkDilbStart ((cacheOps 101).data st.1 1) = 0 ∧ iBlk (cacheOps 101) 1 st.1 8 = 1 := by
  obtain ⟨s, super, hmkufs, hs, hdata, hflags, hdisk⟩ := mkufs_returns 1 plain_freshCache
    (by decide) le_rfl (show buffers < 101 by decide)
  obtain ⟨s₁, held, hrun, hs₁, hheld, hhead, hdisk₁⟩ := reads_blocks (show buffers < 101 by decide)
    ((List.range buffers).erase 1) hs (List.nodup_range.erase 1) fun m hm => by
      rw [List.nodup_range.mem_erase_iff, List.mem_range] at hm
      exact ⟨hm.2, hm.1, by simp⟩
  have hdelay : isFlag (s₁.heads 1).flags bhDelay = false := by
    rw [hhead, hflags, consistent_freshCache.1 1 (by decide)]
    decide
  obtain ⟨s₂, data, hread, hdata₂⟩ := bread_recycles (S := 1) (m := 100) hs₁ (by decide) (fun b => by
    rw [hheld, List.nodup_range.mem_erase_iff, List.mem_range]
    simp [and_comm]) hdelay le_rfl (by decide) (show buffers < 101 by decide)
  have hstep : Step (s₁, held) (s₂, 1 :: held) := by
    refine ⟨101, .bread 100, show 100 ≠ 1 by decide, ?_⟩
    simp only [exec, hread, Bind.bind, Except.bind, pure, Except.pure]
  have hzero : ∀ i < ataSectorSize, diskRead s₁.disk 100 data i = 0 := by
    intro i hi
    rw [diskRead_apply, if_pos hi, readSector_of_le (by decide), hdisk₁, hdisk 100 (by decide),
      freshCache, createBufferCache_disk]
    rfl
  have hstart : sBlkDilbStart ((cacheOps 101).data s₂ 1) = 0 := by
    simp only [cacheOps, hdata₂, Option.getD_some]
    have hagree : Agree ataSectorSize (diskRead s₁.disk 100 data) fun _ => 0 := hzero
    exact hagree.load_eq (by decide)
  refine ⟨s, (s₂, 1 :: held), hmkufs, ?_, hrun.tail hstep, hstart, ?_⟩
  · have hsuper : (cacheOps 101).data s 1 = makeSuper 1 super := by
      simp only [cacheOps, hdata, Option.getD_some]
    rw [iBlk, hsuper, sBlkDilbStart_makeSuper]
    rfl
  · rw [iBlk, hstart]
    rfl

end YegaKernel.Fs.Ufs.Super
