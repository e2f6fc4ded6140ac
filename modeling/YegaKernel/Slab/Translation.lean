import YegaKernel.Boot.HeapPlacement
import YegaKernel.Slab.PageOps

/-! # Addresses and page descriptors

`page_address` goes from a descriptor to the address of its page above `PAGE_OFFSET`, `virt_to_page`
from an address of the page, above `PAGE_OFFSET` or physical, back to the descriptor. Both are
computed modulo `2 ^ 32` and are inverse to each other as long as there are at most `2 ^ 18` pages
(`translates`). The heap of 1 MiB that the first array comes from has no room for so many
descriptors (`translates_of_boot`).

The model of the slabs has the index of a page in the place of its descriptor; `pageAddressOf_descriptor`
and `virtToPageAt_eq` connect the two. -/

namespace YegaKernel.Slab.Translation

open Lib.Links Lib.Word
open Boot.FirstFit Boot.MemoryMap Boot.PageArray
open Boot.HeapPlacement
open Buddy.State Buddy.Ops Buddy.FreeBlocks
open Buddy.Represent Buddy.Spec
open Buddy.Run (BuddyInvariant buddyInvariant_iff)
open Slab.State (Kernel KmemCache pageAddress virtToPage pageOffset pa asAddr)
open Slab.Ops Slab.PageOps

/-! ### The macros -/

/-- `mem_map + i`. -/
def descriptor (memMap i : ℕ) : ℕ := u32 (memMap + i * sizeofPage)

/-- `page_to_pfn`, for a descriptor in the array. -/
def pageToPfn (memMap page : ℕ) : ℕ := sub32 page memMap / sizeofPage

def va (x : ℕ) : ℕ := u32 (x + pageOffset)

/-- `page_address` of a descriptor. -/
def pageAddressOf (memMap page : ℕ) : ℕ := va (u32 (pageToPfn memMap page * pageSize))

/-- `pfn_to_page`, where `zone_start_pfn` is 0. -/
def pfnToPage (memMap pfn : ℕ) : ℕ := descriptor memMap pfn

/-- `virt_to_page`, as the address of the descriptor. -/
def virtToPageAt (memMap kaddr : ℕ) : ℕ := pfnToPage memMap (pa kaddr / pageSize)

/-! ### The inverse equations -/

/-- **Translation of the addresses of `n` pages**: the addresses of a page do not wrap around, they
lead back to its descriptor from above `PAGE_OFFSET` and from the physical page, and the descriptors
are different. -/
structure Translates (memMap n : ℕ) : Prop where
  noWrap : ∀ p < n, ∀ o < pageSize, pageAddressOf memMap (descriptor memMap p) + o < 2 ^ 32
  virt : ∀ p < n, ∀ o < pageSize,
    virtToPageAt memMap (pageAddressOf memMap (descriptor memMap p) + o) = descriptor memMap p
  phys : ∀ p < n, ∀ o < pageSize, virtToPageAt memMap (p * pageSize + o) = descriptor memMap p
  inj : ∀ p < n, ∀ q < n, descriptor memMap p = descriptor memMap q → p = q

variable {memMap n p : ℕ}

theorem descriptor_eq (hm : memMap + n * sizeofPage ≤ 2 ^ 32) (hp : p < n) :
    descriptor memMap p = memMap + p * sizeofPage := by
  refine u32_of_lt ?_
  unfold sizeofPage at *
  omega

/-- `page_address` of a descriptor is the address that the model of the slabs gives its page. -/
theorem pageAddressOf_descriptor (hm : memMap + n * sizeofPage ≤ 2 ^ 32) (hn : n ≤ 2 ^ 18) (hp : p < n) :
    pageAddressOf memMap (descriptor memMap p) = pageAddress p := by
  have hlt : memMap + p * sizeofPage < 2 ^ 32 := by unfold sizeofPage at *; omega
  have hpfn : pageToPfn memMap (descriptor memMap p) = p := by
    rw [descriptor_eq hm hp, pageToPfn, sub32_of_le hlt (Nat.le_add_right _ _), Nat.add_sub_cancel_left,
      Nat.mul_div_cancel _ (by decide)]
  rw [pageAddressOf, hpfn, u32_of_lt (by unfold pageSize; omega)]
  rfl

theorem virtToPageAt_eq (memMap x : ℕ) : virtToPageAt memMap x = descriptor memMap (virtToPage x) := rfl

theorem virtToPage_add (hn : n ≤ 2 ^ 18) {o : ℕ} (ho : p * pageSize + o < n * pageSize) :
    pageAddress p + o < 2 ^ 32 ∧ virtToPage (pageAddress p + o) = p + o / pageSize := by
  rw [pageAddress, u32_of_lt (by unfold pageSize pageOffset at *; omega), virtToPage, pa]
  unfold pageSize pageOffset at *
  rw [if_pos (by omega)]
  omega

theorem virtToPage_phys (hn : n ≤ 2 ^ 18) {o : ℕ} (hp : p < n) (ho : o < pageSize) :
    virtToPage (p * pageSize + o) = p := by
  rw [virtToPage, pa, if_neg (by unfold pageSize pageOffset at *; omega)]
  unfold pageSize at *
  omega

/-- **The translation is a bijection** for at most `2 ^ 18` pages, wherever the array is. -/
theorem translates (hm : memMap + n * sizeofPage ≤ 2 ^ 32) (hn : n ≤ 2 ^ 18) : Translates memMap n := by
  have hbyte : ∀ p < n, ∀ o < pageSize, p * pageSize + o < n * pageSize := by
    unfold pageSize at *
    omega
  refine ⟨fun p hp o ho => ?_, fun p hp o ho => ?_, fun p hp o ho => ?_, fun p hp q hq heq => ?_⟩
  · rw [pageAddressOf_descriptor hm hn hp]
    exact (virtToPage_add hn (hbyte p hp o ho)).1
  · rw [pageAddressOf_descriptor hm hn hp, virtToPageAt_eq, (virtToPage_add hn (hbyte p hp o ho)).2,
      Nat.div_eq_of_lt ho, Nat.add_zero]
  · rw [virtToPageAt_eq, virtToPage_phys hn hp ho]
  · rw [descriptor_eq hm hp, descriptor_eq hm hq] at heq
    unfold sizeofPage at heq
    omega

/-! ### The pages of a cache -/

/-- **The way back from the address `a`** to the pages of the block at `p` that `kmem_getpages` took
for a cache: `kmem_freepages` frees this block, and `kfree` finds the page that a byte is in. -/
structure LeadsBack (kc : KmemCache) (a p : ℕ) : Prop where
  page : ∀ o < 2 ^ kc.gfporder * pageSize, a + o < 2 ^ 32 ∧ virtToPage (a + o) = p + o / pageSize
  freepages : ∀ t : Kernel, kmemFreepages t kc a =
    { t with zone := freeBlock (clearPagesSlab t.zone p (2 ^ kc.gfporder)) p kc.gfporder }
  lookup : ∀ (t : Kernel), ∀ o < 2 ^ kc.gfporder * pageSize,
    pageCache t (a + o) = asAddr (LinkStore.next t.zone (Node.lru (p + o / pageSize)))

theorem leadsBack (kc : KmemCache) (hn : n ≤ 2 ^ 18) (hp : p + 2 ^ kc.gfporder ≤ n) :
    LeadsBack kc (pageAddress p) p := by
  have hbytes : ∀ o < 2 ^ kc.gfporder * pageSize, p * pageSize + o < n * pageSize := by
    have hmul := Nat.mul_le_mul_right pageSize hp
    rw [Nat.add_mul] at hmul
    omega
  have hpage : ∀ o < 2 ^ kc.gfporder * pageSize,
      pageAddress p + o < 2 ^ 32 ∧ virtToPage (pageAddress p + o) = p + o / pageSize :=
    fun o ho => virtToPage_add hn (hbytes o ho)
  refine ⟨hpage, fun t => ?_, fun t o ho => ?_⟩
  · have hfirst := (hpage 0 (Nat.mul_pos (by positivity) (by decide))).2
    rw [Nat.add_zero, Nat.zero_div, Nat.add_zero] at hfirst
    rw [kmemFreepages, hfirst]
  · rw [pageCache, (hpage o ho).2]

theorem kmemGetpages_leadsBack {s s' : Kernel} {kc : KmemCache} {a : ℕ} (hinv : BuddyInvariant s.zone)
    (hn : s.zone.presentPages ≤ 2 ^ 18) (hg : kmemGetpages s kc = (a, s')) (ha : a ≠ 0) :
    ∃ p, (allocateBlock s.zone kc.gfporder).1 = some p ∧ LeadsBack kc a p := by
  obtain ⟨L, hrep⟩ := buddyInvariant_iff.mp hinv
  unfold kmemGetpages at hg
  rcases allocateBlock_spec hrep kc.gfporder with ⟨heq, -⟩ | ⟨p, z, L', heq, -, -, hin, -⟩
  · rw [heq] at hg
    exact absurd (Prod.mk.inj hg).1.symm ha
  · rw [heq] at hg
    obtain ⟨rfl, -⟩ := Prod.mk.inj hg
    exact ⟨p, by rw [heq], leadsBack kc hn (hrep.blocks.bound_of_covers hin)⟩

/-! ### The machine -/

/-- **Address translation on every machine** on which `create_mem_map` finds room for the descriptors
in the boot heap: the translation is a bijection for this array and for a copy of it that starts in
any page, and so the pages that `kmem_getpages` takes are found again. -/
theorem translates_of_boot {fuel fuel' kernelEnd memMap : ℕ} {entryAt : ℕ → MmapEntry}
    {mbi : MultibootInfo} {mem : ℕ → ℕ} {blocks : List MemoryBlock} {h : Heap} {pages : ℕ → Page}
    (hi : initializeMemeoryManager fuel entryAt kernelEnd mbi mem = some (blocks, h))
    (hc : createMemMap fuel' h mbi blocks = some (memMap, pages))
    (hfit : memMap + totalramPages mbi * sizeofPage ≤ h.heapEnd) :
    Translates memMap (totalramPages mbi) ∧
      (∀ first ≤ totalramPages mbi, Translates (first * pageSize) (totalramPages mbi)) ∧
      ∀ s : Kernel, BuddyInvariant s.zone → s.zone.presentPages = totalramPages mbi →
        ∀ kc a s', kmemGetpages s kc = (a, s') → a ≠ 0 →
          ∃ p, (allocateBlock s.zone kc.gfporder).1 = some p ∧ LeadsBack kc a p := by
  have hp := placed_of_test (initializeMemeoryManager_cases hi).2.2
  have heap := hp.end_eq
  have hlt := hp.lt
  rw [memMap_eq hp hc] at hfit ⊢
  have hroom : totalramPages mbi * sizeofPage ≤ heapSize := by omega
  have hn : totalramPages mbi ≤ 2 ^ 18 := by
    unfold sizeofPage heapSize at hroom
    omega
  refine ⟨translates (by omega) hn, fun first hfirst => translates ?_ hn, ?_⟩
  · have hcopy : first * pageSize ≤ 2 ^ 30 := Nat.mul_le_mul_right pageSize (hfirst.trans hn)
    have hsize : heapSize ≤ 2 ^ 30 := by decide
    omega
  · intro s hinv hpresent kc a s' hg ha
    exact kmemGetpages_leadsBack hinv (hpresent ▸ hn) hg ha

/-- On a machine with 64 MiB the array is at `0x106c`. -/
theorem translates_machine : ∃ blocks h memMap pages,
    initializeMemeoryManager 9 (entryOfMachine 64512) 0x220000 (infoOfMachine 64512) (fun _ => 0) =
        some (blocks, h) ∧
      createMemMap 9 h (infoOfMachine 64512) blocks = some (memMap, pages) ∧
      memMap + totalramPages (infoOfMachine 64512) * sizeofPage ≤ h.heapEnd ∧
      Translates memMap (totalramPages (infoOfMachine 64512)) := by
  have hcheck : ((bootMachine 64512).any fun r =>
      decide (r.1.2.heapEnd = 0x101000 ∧ r.2.1 = 0x106c)) = true := by
    decide +kernel
  obtain ⟨blocks, h, memMap, pages, hi, hc, hvalues⟩ := bootMachine_of_check hcheck
  have hvalues : h.heapEnd = 0x101000 ∧ memMap = 0x106c := of_decide_eq_true hvalues
  have hfit : memMap + totalramPages (infoOfMachine 64512) * sizeofPage ≤ h.heapEnd := by
    rw [hvalues.1, hvalues.2]
    decide
  exact ⟨blocks, h, memMap, pages, hi, hc, hfit, (translates_of_boot hi hc hfit).1⟩

end YegaKernel.Slab.Translation
