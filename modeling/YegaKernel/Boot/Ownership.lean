import YegaKernel.Boot.Paging
import YegaKernel.Buddy.Init

/-! # Who owns which page after the boot

The stages of `init_mem` up to the region scan of `init_zone`, from the memory map of the boot
loader and the boot heap. The kernel image, the relocated array of page descriptors and the page
tables have to stay out of the free lists and apart from each other (`Owned`).

`create_mem_map` clears the marks of the blocks that its loop visits, and `copy_mem_map` those of
all low pages. This is harmless where every block visited starts behind the low pages and is not the
entry of the kernel without its part behind the image, and where the array arrives as it was at the
lowest of them (`SafeBlocks`). -/

namespace YegaKernel.Boot.Ownership

open Lib.Word Lib.Loops
open Buddy.State Buddy.Ops Buddy.FreeBlocks
open Buddy.Represent Buddy.Init
open Boot.FirstFit Boot.MemoryMap Boot.PageArray
open Boot.Paging

/-! ### The stages -/

/-- What the boot leaves: the first page of the array, the pages of the page tables, and the
zone. -/
structure Booted where
  first : ℕ
  tables : List ℕ
  zone : Zone

theorem sizeofPage_mul_totalramPages (mbi : MultibootInfo) :
    sizeofPage * totalramPages mbi ≤ 2 ^ 32 := by
  have := totalramPages_lt mbi
  unfold sizeofPage
  omega

/-- `init_mem` up to the self-test of `init_zone`, after `find_available_memory`. The zone has the
array that `setup_paging` changed, since `zone_mem_map` is `mem_map`. -/
def bootMemory (fuel : ℕ) (entryAt : ℕ → MmapEntry) (kernelEnd : ℕ) (mbi : MultibootInfo) (h : Heap)
    (garbage : ℕ → Page) (mem : ℕ → ℕ) : Option Booted := do
  let blocks ← findAvailableMemory entryAt kernelEnd mbi fuel
  let (memMap, pages) ← createMemMap fuel h mbi blocks
  let (first, pages) ← copyMemMap mbi memMap garbage pages
  let (tables, pages, _) ← setupPaging (totalramPages mbi) (countPgdirEntries (totalramPages mbi))
    (first * pageSize) garbage pages ⟨fun _ => 0, mem⟩
  some ⟨first, tables, initRegions (createZone zoneBss pages (totalramPages mbi)
    (sizeofPage_mul_totalramPages mbi))⟩

/-- The kernel is linked at 2 MiB. -/
def kernelStart : ℕ := 0x200000

/-- The page holds a byte of the kernel image. -/
def KernelPage (kernelEnd x : ℕ) : Prop :=
  ∃ a, kernelStart ≤ a ∧ a < kernelEnd ∧ a / pageSize = x

/-- The page holds a byte of the relocated array. -/
def ArrayPage (first totalram x : ℕ) : Prop :=
  ∃ a, first * pageSize ≤ a ∧ a < first * pageSize + sizeofPage * totalram ∧ a / pageSize = x

/-- **Every page has at most one owner**: none of the pages in use is free, and no page is used for
two purposes. -/
structure Owned (kernelEnd totalram : ℕ) (b : Booted) : Prop where
  kernel : ∀ x, KernelPage kernelEnd x → ¬ PageFree b.zone x
  array : ∀ x, ArrayPage b.first totalram x → ¬ PageFree b.zone x
  tables : ∀ x ∈ b.tables, ¬ PageFree b.zone x
  kernel_array : ∀ x, KernelPage kernelEnd x → ¬ ArrayPage b.first totalram x
  kernel_tables : ∀ x ∈ b.tables, ¬ KernelPage kernelEnd x
  array_tables : ∀ x ∈ b.tables, ¬ ArrayPage b.first totalram x
  nodup : b.tables.Nodup

/-! ### What the boot loader and the boot heap promise -/

/-- The address ranges of two entries are disjoint. -/
def EntriesApart (e e' : MmapEntry) : Prop :=
  e.addr + e.len ≤ e'.addr ∨ e'.addr + e'.len ≤ e.addr

instance : Std.Symm EntriesApart := ⟨fun _ _ h => h.symm⟩

/-- The memory map: its usable entries are disjoint and below 4 GiB, the first one starts at 0, and
a later one contains the kernel image and ends within the memory reported. -/
structure BootMap (kernelEnd : ℕ) (mbi : MultibootInfo) (es : List MmapEntry) : Prop where
  disjoint : (usable es).Pairwise EntriesApart
  below : ∀ e ∈ usable es, e.addr + e.len ≤ 2 ^ 32
  first : ∃ e rest, usable es = e :: rest ∧ e.addr = 0 ∧ ∃ k ∈ rest, k.addr ≤ kernelStart ∧
    kernelEnd ≤ k.addr + k.len ∧ k.addr + k.len ≤ 1024 * 1024 + mbi.memUpper * 1024
  low : mbi.memLower ≤ 640
  kernel_lt : kernelStart < kernelEnd

/-- The boot heap in the memory block from `start`. -/
structure BootHeap (start : ℕ) (h : Heap) : Prop where
  start_eq : h.heapStart = alignUp start 4096
  end_eq : h.heapEnd = u32 (h.heapStart + heapSize)
  le : h.heapStart ≤ h.kallocPtr
  ge : h.kallocPtr ≤ h.heapEnd

/-- The lowest of the blocks visited that have pages. -/
def Lowest (visited : List MemoryBlock) (b : MemoryBlock) : Prop :=
  b ∈ visited ∧ pageStart b ≤ pageEnd b ∧
    ∀ c ∈ visited, pageStart c ≤ pageEnd c → pageStart b ≤ pageStart c

/-- The blocks visited by `create_mem_map` are safe to give away: a block that has pages starts
behind the low pages and can be rounded up to a page, it does not end where the kernel image ends,
and the array can be moved to the start of the lowest one. -/
structure SafeBlocks (kernelEnd : ℕ) (mbi : MultibootInfo) (memMap : ℕ)
    (visited : List MemoryBlock) : Prop where
  low : ∀ b ∈ visited, pageStart b ≤ pageEnd b → maxLowPfn mbi ≤ pageStart b
  top : ∀ b ∈ visited, pageStart b ≤ pageEnd b → b.start ≤ 2 ^ 32 - pageSize
  kernel : ∀ b ∈ visited, pageStart b ≤ pageEnd b → b.fin ≠ kernelEnd
  copy : ∀ b, Lowest visited b → MovesIntact (pageStart b * pageSize) memMap (totalramPages mbi)

/-! ### Blocks and the kernel image -/

section Blocks
variable {kernelEnd : ℕ} {mbi : MultibootInfo} {es : List MmapEntry}

theorem visitBlocks_mem (blocks : List MemoryBlock) : ∀ (fuel iCnt : ℕ) (vs : List MemoryBlock),
    visitBlocks blocks fuel iCnt = some vs → ∀ b ∈ vs, b ∈ blocks ∧ b.start ≠ 0 ∧ b.fin ≠ 0
  | 0, _, _, h => absurd h (by simp [visitBlocks])
  | fuel + 1, iCnt, vs, h => by
    rw [visitBlocks] at h
    simp only at h
    split_ifs at h with hlt hskip
    · exact visitBlocks_mem blocks fuel _ vs h
    · rw [Option.map_eq_some_iff] at h
      obtain ⟨ws, hws, rfl⟩ := h
      rw [not_or] at hskip
      refine List.forall_mem_cons.mpr ⟨⟨?_, hskip⟩, visitBlocks_mem blocks fuel _ ws hws⟩
      -- a block that is not empty is not the default of the lookup
      rcases hget : blocks[iCnt]? with _ | b
      · exact absurd (by simp [List.getD_eq_getElem?_getD, hget]) hskip.1
      · rw [List.getD_eq_getElem?_getD, hget]
        exact List.mem_of_getElem? hget
    · rw [Option.some.injEq] at h
      subst h
      simp

theorem BootMap.block_cases (hb : BootMap kernelEnd mbi es) {e : MmapEntry} (he : e ∈ usable es)
    (h0 : (freeBlockOf kernelEnd e).fin ≠ 0) (hne : (freeBlockOf kernelEnd e).fin ≠ kernelEnd) :
    (freeBlockOf kernelEnd e).fin ≤ kernelStart ∨ kernelEnd ≤ (freeBlockOf kernelEnd e).start := by
  rw [freeBlockOf_eq] at *
  simp only at *
  obtain ⟨e₀, rest, hrest, -, k, hk, hk1, hk2, -⟩ := hb.first
  have hkmem : k ∈ usable es := by rw [hrest]; exact List.mem_cons_of_mem _ hk
  have hbelow := hb.below e he
  have hsum : e.addr + e.len < 2 ^ 32 ∧ entryEnd e = e.addr + e.len := by
    unfold entryEnd entryStart u32 at *
    omega
  by_cases hcut : kernelEnd < entryEnd e
  · right
    rw [cutStart, if_pos hcut]
    exact le_max_right _ _
  · have hek : e ≠ k := by
      rintro rfl
      omega
    have hdis := hb.disjoint.forall he hkmem hek
    unfold EntriesApart at hdis
    omega

theorem not_kernelPage {b : MemoryBlock} (hb : b.fin ≤ kernelStart ∨ kernelEnd ≤ b.start)
    (h0 : b.fin ≠ 0) (htop : b.start ≤ 2 ^ 32 - pageSize) {x : ℕ} (hx : pageStart b ≤ x)
    (hx' : x ≤ pageEnd b) : ¬ KernelPage kernelEnd x := by
  rintro ⟨a, ha, ha', rfl⟩
  rcases hb with hb | hb
  · have hend : pageEnd b ≤ (kernelStart - 1) / pageSize := by
      unfold pageEnd sub32 u32
      simp only
      split_ifs <;> unfold kernelStart pageSize at * <;> omega
    unfold kernelStart pageSize at *
    omega
  · have hstart : b.start ≤ pageStart b * pageSize := by
      unfold pageStart
      simp only
      rw [u32_of_lt (n := b.start) (by unfold pageSize at *; omega)]
      split_ifs
      · unfold pageSize at *
        omega
      · rw [u32_of_lt (by omega)]
        unfold pageSize at *
        omega
    unfold pageSize at *
    omega

theorem BootMap.first_block (hb : BootMap kernelEnd mbi es) :
    (((kept es).map (freeBlockOf kernelEnd)).headD ⟨0, 0⟩).start = 0 := by
  obtain ⟨e₀, rest, hrest, h0, k, hk, hk1, hk2, -⟩ := hb.first
  have hpair := hb.disjoint
  rw [hrest, List.pairwise_cons] at hpair
  have hapart := hpair.1 k hk
  have hlt := hb.kernel_lt
  have hend : ¬ kernelEnd < entryEnd e₀ := by
    have hle : entryEnd e₀ ≤ entryStart e₀ + e₀.len := Nat.mod_le _ _
    have hstart : entryStart e₀ ≤ e₀.addr := Nat.mod_le _ _
    unfold EntriesApart at hapart
    omega
  have hstart : entryStart e₀ = 0 := by
    unfold entryStart u32
    omega
  unfold kept
  rw [hrest, maxMemoryBlocks, List.take_succ_cons, List.map_cons, List.headD_cons, freeBlockOf_eq]
  rw [cutStart, if_neg hend, hstart]

end Blocks

theorem BootHeap.array_le {h h' : Heap} (hh : BootHeap 0 h) {mbi : MultibootInfo} {fuel memMap : ℕ}
    (h0 : memMap ≠ 0)
    (hk : kalloc fuel h (u32 (totalramPages mbi * sizeofPage)) = some (memMap, h')) :
    totalramPages mbi * sizeofPage ≤ heapSize := by
  have hn := totalramPages_lt mbi
  generalize totalramPages mbi = n at *
  have hstart : h.heapStart = 4096 := hh.start_eq
  have hend : h.heapEnd = 4096 + heapSize := by
    rw [hh.end_eq, hstart]
    rfl
  have hle := hh.le
  have hge := hh.ge
  have hreq : alignUp (u32 (n * sizeofPage)) 8 = (n * sizeofPage + 9) / 8 * 8 := by
    rw [u32_of_lt (by unfold sizeofPage; omega)]
    exact alignUp_two_pow (k := 3) (by norm_num) (by unfold sizeofPage; omega)
  unfold kalloc at hk
  simp only at hk
  split_ifs at hk with hfull
  · rw [Option.some.injEq, Prod.mk.injEq] at hk
    exact absurd hk.1.symm h0
  · have hsum : (n * sizeofPage + 9) / 8 * 8 + sizeofHeapBlock < 2 ^ 27 := by
      unfold sizeofPage sizeofHeapBlock
      omega
    unfold heapSize at hend ⊢
    rw [hreq, u32_of_lt (n := _ / 8 * 8 + _) (by omega), u32_of_lt (by omega)] at hfull
    omega

/-! ### The last stage -/

theorem pageFree_initRegions {pages : ℕ → Page} {n : ℕ} {h : sizeofPage * n ≤ 2 ^ 32}
    (hp : ∀ p < n, isPrivate (pages p) = false) (x : ℕ) :
    PageFree (initRegions (createZone zoneBss pages n h)) x ↔
      x < n ∧ taken (pages x) = false ∧ reserved (pages x) = false := by
  obtain ⟨L, hr, -, hcov, -⟩ := initRegions_spec (h := h) fun p hpn => by
    have hbit := hp p hpn
    unfold isPrivate at hbit
    rw [← isFlag_shift _ (by norm_num)] at hbit
    exact of_decide_eq_false hbit
  rw [hr.pageFree_iff, hcov x]
  unfold pgFlagTaken pgFlagReserved taken reserved
  rw [isFlag_shift _ (by norm_num), isFlag_shift _ (by norm_num)]

section Boot
variable {fuel kernelEnd : ℕ} {entryAt : ℕ → MmapEntry} {mbi : MultibootInfo} {h : Heap}
  {garbage : ℕ → Page} {mem : ℕ → ℕ} {b : Booted} {es : List MmapEntry}

theorem bootMemory_cases (hboot : bootMemory fuel entryAt kernelEnd mbi h garbage mem = some b) :
    ∃ blocks memMap pages₀ pages₂ pages₃ pt,
      findAvailableMemory entryAt kernelEnd mbi fuel = some blocks ∧
      createMemMap fuel h mbi blocks = some (memMap, pages₀) ∧
      copyMemMap mbi memMap garbage pages₀ = some (b.first, pages₂) ∧
      setupPaging (totalramPages mbi) (countPgdirEntries (totalramPages mbi)) (b.first * pageSize)
        garbage pages₂ ⟨fun _ => 0, mem⟩ = some (b.tables, pages₃, pt) ∧
      b.zone = initRegions (createZone zoneBss pages₃ (totalramPages mbi)
        (sizeofPage_mul_totalramPages mbi)) := by
  unfold bootMemory at hboot
  simp only [Option.bind_eq_bind, Option.bind_eq_some_iff, Option.some.injEq, Prod.exists] at hboot
  obtain ⟨blocks, hblocks, memMap, pages₀, hcreate, first, pages₂, hcopy, tables, pages₃, pt, hpaging,
    rfl⟩ := hboot
  exact ⟨blocks, memMap, pages₀, pages₂, pages₃, pt, hblocks, hcreate, hcopy, hpaging, rfl⟩

theorem maxLowPfn_le (hlow : mbi.memLower ≤ 640) : maxLowPfn mbi ≤ 160 := by
  have hle : u32 (mbi.memLower * 1024) ≤ 640 * 1024 :=
    le_trans (Nat.mod_le _ _) (Nat.mul_le_mul_right _ hlow)
  unfold maxLowPfn pageSize
  simp only
  split_ifs <;> omega

variable {n first x : ℕ}

/-- The first page that is not taken is the first one of the lowest block. -/
theorem first_eq_pageStart {visited : List MemoryBlock} {pages : ℕ → Page}
    (hbits : ∀ x < n, taken (pages x) = false ↔ InBlocks visited x) (hlt : first < n)
    (hfree : taken (pages first) = false) (hmin : ∀ i < first, taken (pages i) = true) :
    ∃ c, Lowest visited c ∧ first = pageStart c := by
  have hle : ∀ d ∈ visited, pageStart d ≤ pageEnd d → first ≤ pageStart d := by
    intro d hd hne
    by_contra hgt
    have hstart := (hbits (pageStart d) (by omega)).mpr ⟨d, hd, le_rfl, hne⟩
    rw [hmin _ (by omega)] at hstart
    exact absurd hstart (by simp)
  obtain ⟨c, hc, hs, he⟩ := (hbits first hlt).mp hfree
  have hfirst : first = pageStart c := le_antisymm (hle c hc (hs.trans he)) hs
  exact ⟨c, ⟨hc, hs.trans he, hfirst ▸ hle⟩, hfirst⟩

theorem arrayPage_iff : ArrayPage first n x ↔ Meets (x * pageSize) (first * pageSize) n := by
  constructor
  · rintro ⟨a, ha, ha', rfl⟩
    unfold Meets pageSize at *
    omega
  · rintro ⟨h1, h2⟩
    refine ⟨max (first * pageSize) (x * pageSize), le_max_left _ _, ?_, ?_⟩ <;>
      unfold pageSize at * <;> omega

theorem arrayPage_bounds (hx : ArrayPage first n x) (hn : sizeofPage * n < 2 ^ 32) :
    first ≤ x ∧ x < first + pageReq n := by
  obtain ⟨a, ha, ha', rfl⟩ := hx
  unfold pageReq
  rw [u32_of_lt hn]
  unfold pageSize at *
  omega

theorem kernelPage_ge (hx : KernelPage kernelEnd x) : 512 ≤ x := by
  obtain ⟨a, ha, -, rfl⟩ := hx
  unfold kernelStart pageSize at *
  omega

/-- **The array lies in one block** as far as it reaches beyond the low memory: of the blocks
visited only the last one does. -/
theorem inBlocks_of_array {blocks visited : List MemoryBlock} {iCnt p r : ℕ}
    (hvis : visitBlocks blocks fuel iCnt = some visited) {c : MemoryBlock} (hc : c ∈ visited)
    (hcne : pageStart c ≤ pageEnd c) (hfirst : first = pageStart c) (hp : InBlocks visited p)
    (hr : r ≤ 257) (hreach : first + r ≤ p + 1) (hx : first ≤ x) (hx' : x < first + r)
    (hhigh : 512 ≤ x) : InBlocks visited x := by
  have hlast : ∀ d ∈ visited, d ∈ visited.dropLast ∨ visited.getLast (List.ne_nil_of_mem hc) = d := by
    intro d hd
    rw [← List.dropLast_append_getLast (List.ne_nil_of_mem hc), List.mem_append,
      List.mem_singleton] at hd
    exact hd.imp id Eq.symm
  have hdrop := visitBlocks_dropLast blocks fuel iCnt visited hvis
  obtain ⟨d, hd, hds, hde⟩ := hp
  rcases hlast d hd with hd7 | hdl
  · have := hdrop d hd7
    omega
  · rcases hlast c hc with hc7 | hcl
    · have := hdrop c hc7
      omega
    · obtain rfl : c = d := hcl.symm.trans hdl
      exact ⟨c, hc, by omega, by omega⟩

/-- Pages that are taken before `setup_paging` are not given away by the last two stages. -/
theorem owned_of_taken {pages pages' : ℕ → Page} {tables : List ℕ}
    {hn : sizeofPage * n ≤ 2 ^ 32} (ht : Takes n pages pages' tables)
    (hprivate : ∀ x < n, isPrivate (pages x) = false)
    (hk : ∀ x < n, KernelPage kernelEnd x → taken (pages x) = true)
    (ha : ∀ x < n, ArrayPage first n x → taken (pages x) = true)
    (hka : ∀ x, KernelPage kernelEnd x → ¬ ArrayPage first n x) :
    Owned kernelEnd n ⟨first, tables, initRegions (createZone zoneBss pages' n hn)⟩ := by
  have hfree := fun x => pageFree_initRegions (h := hn) (fun p hp => by
    rw [ht.private_eq]
    exact hprivate p hp) x
  have hout : ∀ x, (x < n → taken (pages x) = true ∨ x ∈ tables) →
      ¬ PageFree (initRegions (createZone zoneBss pages' n hn)) x := by
    intro x hx hf
    obtain ⟨hlt, htk, -⟩ := (hfree x).mp hf
    rw [ht.taken x, Bool.or_eq_false_iff] at htk
    rcases hx hlt with h | h
    · exact absurd (htk.1.symm.trans h) (by simp)
    · exact absurd htk.2 (by simpa using h)
  have htab : ∀ x ∈ tables, ∀ P : Prop, (P → taken (pages x) = true) → ¬ P := by
    intro x hx P hP hp
    exact absurd ((ht.fresh x hx).symm.trans (hP hp)) (by simp)
  exact ⟨fun x hx => hout x fun hlt => Or.inl (hk x hlt hx),
    fun x hx => hout x fun hlt => Or.inl (ha x hlt hx), fun x hx => hout x fun _ => Or.inr hx, hka,
    fun x hx => htab x hx _ (hk x (ht.lt x hx)), fun x hx => htab x hx _ (ha x (ht.lt x hx)), ht.nodup⟩

theorem isPrivate_of_copy {pages₀ pages₁ pages₂ : ℕ → Page} {low : ℕ} {ps : List ℕ}
    (htakes : Takes n pages₀ pages₁ ps)
    (hclear : ∀ i, pages₂ i = if i < low then clearMarks (pages₁ i) else pages₁ i)
    (h : isPrivate (pages₀ x) = false) : isPrivate (pages₂ x) = false := by
  rw [hclear x]
  split_ifs
  · rw [(bits_clearMarks _).2.2, htakes.private_eq, h]
  · rw [htakes.private_eq, h]

theorem pageReq_le (h : n * sizeofPage ≤ heapSize) : pageReq n ≤ 257 := by
  unfold sizeofPage heapSize at h
  unfold pageReq sizeofPage pageSize
  rw [u32_of_lt (by omega)]
  omega

/-- No page of the image is in a block visited. -/
theorem SafeBlocks.not_kernelPage {memMap : ℕ} {visited : List MemoryBlock}
    (hs : SafeBlocks kernelEnd mbi memMap visited) (hb : BootMap kernelEnd mbi es)
    (hvis : visitBlocks ((kept es).map (freeBlockOf kernelEnd)) fuel 0 = some visited)
    (hx : InBlocks visited x) : ¬ KernelPage kernelEnd x := by
  obtain ⟨c, hc, hcs, hce⟩ := hx
  obtain ⟨hmem, -, hfin⟩ := visitBlocks_mem _ _ _ _ hvis c hc
  obtain ⟨e, he, rfl⟩ := List.mem_map.mp hmem
  exact Ownership.not_kernelPage (hb.block_cases (List.mem_of_mem_take he) hfin
    (hs.kernel _ hc (hcs.trans hce))) hfin (hs.top _ hc (hcs.trans hce)) hcs hce

/-- **A block in low memory is not safe**: if one that has pages is visited, the first page of the
array is given away. With a page `x` in front of the array that is no table, `test_mmu` does not write
to the array. -/
theorem not_owned_of_low (hmap : MapAt entryAt mbi es)
    (hboot : bootMemory fuel entryAt kernelEnd mbi h garbage mem = some b)
    {visited : List MemoryBlock} {memMap : ℕ} {h' : Heap}
    (hvis : visitBlocks ((kept es).map (freeBlockOf kernelEnd)) fuel 0 = some visited)
    (hk : kalloc fuel h (u32 (totalramPages mbi * sizeofPage)) = some (memMap, h'))
    (hcopies : ∀ c, Lowest visited c → MovesIntact (pageStart c * pageSize) memMap (totalramPages mbi))
    {d : MemoryBlock} (hd : d ∈ visited) (hdne : pageStart d ≤ pageEnd d)
    (hlow : pageStart d < maxLowPfn mbi) {x : ℕ} (hx : x < b.first) (hxt : x ∉ b.tables) :
    ¬ Owned kernelEnd (totalramPages mbi) b := by
  intro hown
  obtain ⟨blocks, memMap', pages₀, pages₂, pages₃, pt, hblocks, hcreate, hcopy, hpaging, hzone⟩ :=
    bootMemory_cases hboot
  obtain rfl := findAvailableMemory_unique hmap hblocks
  obtain ⟨-, ⟨h'', hk'⟩, visited', hvis', hbits⟩ := createMemMap_spec hcreate
  rw [hk, Option.some.injEq, Prod.mk.injEq] at hk'
  rw [hvis, Option.some.injEq] at hvis'
  obtain rfl := hk'.1
  subst hvis'
  obtain ⟨hlt, hfree, hmin⟩ := copyMemMap_first hcopy
  obtain ⟨c, hlowest, hfirst⟩ := first_eq_pageStart (fun x hx => (hbits x hx).1) hlt hfree hmin
  -- the array starts at or before the low block
  have hle : b.first ≤ pageStart d := by
    rw [hfirst]
    exact hlowest.2.2 d hd hdne
  obtain ⟨ps, pages₁, htakes, -, -, hclear⟩ := copyMemMap_spec hcopy
    (by rw [hfirst]; exact hcopies c hlowest)
  have hcleared : ∀ y ≤ b.first, pages₂ y = clearMarks (pages₁ y) := by
    intro y hy
    rw [hclear, if_pos (by omega)]
  have htables : Takes (totalramPages mbi) pages₂ pages₃ b.tables := by
    refine setupPaging_takes (totalramPages_lt mbi) hpaging
      (fun t ht hm => hown.array_tables t ht (arrayPage_iff.mpr hm)) fun p _ _ _ hlowest hm => ?_
    -- the page of `test_mmu` is at most `x`
    have hpx : p ≤ x := by
      by_contra hgt
      have htk := (hlowest x (by omega)).resolve_right hxt
      rw [hcleared x hx.le, (bits_clearMarks _).1] at htk
      exact absurd htk (by simp)
    have hlt' := hm.2
    unfold pageSize at hlt'
    omega
  have harray : ArrayPage b.first (totalramPages mbi) b.first :=
    ⟨b.first * pageSize, le_rfl, by unfold sizeofPage; omega, Nat.mul_div_cancel _ (by decide)⟩
  by_cases htab : b.first ∈ b.tables
  · exact hown.array_tables _ htab harray
  · refine hown.array _ harray ?_
    rw [hzone, pageFree_initRegions fun x hx => ?_]
    · refine ⟨hlt, ?_, ?_⟩
      · rw [htables.taken, hcleared _ le_rfl, (bits_clearMarks _).1]
        simpa using htab
      · rw [htables.reserved, hcleared _ le_rfl, (bits_clearMarks _).2.1]
    · rw [htables.private_eq]
      exact isPrivate_of_copy htakes hclear (hbits x hx).2.2

end Boot

/-! ### Two machines of 4 MiB -/

/-- What the boot loader passes for the given number of entries, with 4 MiB of memory. -/
def smallInfo (n : ℕ) : MultibootInfo := ⟨64, 639, 3072, 24 * n, 0x1000⟩

/-- The low memory is one entry. -/
def plainMap : List MmapEntry := [⟨20, 0, 0x9fc00, 1⟩, ⟨20, 0x100000, 0x300000, 1⟩]

/-- The low memory has a hole. -/
def holeMap : List MmapEntry :=
  [⟨20, 0, 0x1000, 1⟩, ⟨20, 0x10000, 0x8f000, 1⟩, ⟨20, 0x100000, 0x300000, 1⟩]

/-- The boot with the given map, and a kernel image of 64 KiB. -/
def bootWith (es : List MmapEntry) : Option Booted :=
  bootMemory 8 (readAt es) 0x210000 (smallInfo es.length) (initHeap 0 fun _ => 0) (fun _ => zeroPage)
    fun _ => 0

theorem isSome_bootWith_plainMap : (bootWith plainMap).isSome := by
  unfold bootWith bootMemory createMemMap copyMemMap
  simp only [forRange_eq]
  decide +kernel

/-- The array is moved to the page 16, and the page table is the page 0. -/
theorem bootWith_holeMap : (bootWith holeMap).any fun b => decide (b.first = 16 ∧ b.tables = [0]) := by
  unfold bootWith bootMemory createMemMap copyMemMap
  simp only [forRange_eq]
  decide +kernel

theorem bootArray_eq {memMap n : ℕ} {h' : Heap}
    (hk : kalloc 8 (initHeap 0 fun _ => 0) (u32 (totalramPages (smallInfo n) * sizeofPage)) =
      some (memMap, h')) : memMap = 4108 := by
  have hfst : (kalloc 8 (initHeap 0 fun _ => 0) 36864).map Prod.fst = some 4108 := by decide
  have hn : u32 (totalramPages (smallInfo n) * sizeofPage) = 36864 := by
    simp [u32, totalramPages, smallInfo, sizeofPage, pageSize]
  rw [hn] at hk
  rw [hk] at hfst
  simpa using hfst

end YegaKernel.Boot.Ownership
