import YegaKernel.Slab.Totality

/-! # Constructors

`cache_init_objs` writes the link of an object into its first word and runs the constructor on the
object then. The constructor owns the whole object, and the first word is also the link: whatever it
writes there is where the free list goes on. The model of the loop is repeated here with a
constructor, of which only the first word that it leaves counts. -/

namespace YegaKernel.Slab.Constructor

open Lib.Links Lib.NullList Lib.Word
open Buddy.State (pageSize buddyGroups)
open Slab.State Slab.Ops Slab.Invariant Slab.Objects
open Slab.Worlds Slab.Grow Slab.Init Slab.Estimate
    Slab.Totality
open Function

/-! ### The loop with a constructor -/

/-- A constructor that writes only inside its object: the first word that it leaves there, for the
address of the object and the state in which it is called. -/
abbrev Ctor := ℕ → Kernel → ℕ

/-- `if (cachep->ctor) (cachep->ctor)(objp, cachep, 0);` -/
def construct (ctor : Option Ctor) (s : Kernel) (objp : ℕ) : Kernel :=
  match ctor with
  | none => s
  | some run => store s objp (.bytes (run objp s))

/-- The loop of `cache_init_objs`, from the object with index `i - 1` down to the first. -/
def initObjsWith (ctor : Option Ctor) (kc : KmemCache) (slabp : ℕ) : ℕ → Kernel → Option Kernel
  | 0, s => some s
  | i + 1, s => do
    let sd ← readSlab s slabp
    let objp := u32 (sd.sMem + i * kc.objsize)
    let s := store s objp (.bytes sd.freeList)
    let s := store s slabp (.slab { sd with freeList := objp })
    initObjsWith ctor kc slabp i (construct ctor s objp)

/-- `cache_init_objs`. -/
def cacheInitObjsWith (ctor : Option Ctor) (s : Kernel) (kc : KmemCache) (slabp : ℕ) :
    Option Kernel := do
  let sd ← readSlab s slabp
  let s := store s slabp (.slab { sd with freeList := 0 })
  initObjsWith ctor kc slabp (if kc.num ≤ 2 ^ 31 then kc.num else 0) s

theorem initObjsWith_none {kc : KmemCache} (hctor : kc.ctor = 0) (slabp : ℕ) :
    ∀ (i : ℕ) (s : Kernel), initObjsWith none kc slabp i s = initObjs kc slabp i s
  | 0, _ => rfl
  | i + 1, s => by
    refine congrArg (Option.bind _) (funext fun sd => ?_)
    rw [if_neg (not_not_intro hctor)]
    exact initObjsWith_none hctor slabp i _

theorem cacheInitObjsWith_none {kc : KmemCache} (hctor : kc.ctor = 0) (s : Kernel) (slabp : ℕ) :
    cacheInitObjsWith none s kc slabp = cacheInitObjs s kc slabp := by
  unfold cacheInitObjsWith cacheInitObjs
  simp only [initObjsWith_none hctor]

/-! ### Calls of `slab_get_obj` -/

/-- The results of `n` calls of `slab_get_obj`. -/
def getObjs (c slabp : ℕ) : ℕ → Kernel → Option (List ℕ × Kernel)
  | 0, s => some ([], s)
  | n + 1, s => do
    let (objp, s) ← slabGetObj s c slabp
    let (objps, s) ← getObjs c slabp n s
    return (objp :: objps, s)

/-- **The objects of the slab at `d` are on its free list**, in their order, and the calls of
`slab_get_obj` return them once each. -/
structure HandsOut (s : Kernel) (c d : ℕ) (l : List ℕ) : Prop where
  chain : ∃ sd, readSlab s d = some sd ∧ Threaded (word s.mem) sd.freeList l
  nodup : l.Nodup
  calls : ∃ s', getObjs c d l.length s = some (l, s')

theorem getObjs_spec {c d : ℕ} (hd : d ≠ 0) (hc : c ≠ 0) (hcd : c ≠ d) : ∀ (l : List ℕ) {s : Kernel}
    {sd : SlabDesc} {kc : KmemCache}, s.mem d = .slab sd → s.mem c = .cache kc →
    Threaded (word s.mem) sd.freeList l →
      (∀ x ∈ l, x ≠ d ∧ x ≠ c ∧ ∃ w, s.mem x = .bytes w) →
      ∃ s', getObjs c d l.length s = some (l, s')
  | [], s, _, _, _, _, _, _ => ⟨s, rfl⟩
  | x :: l, s, sd, kc, hsd, hkc, ⟨hx, hx0, hl⟩, hcells => by
    obtain ⟨-, -, w, hw⟩ := hcells x List.mem_cons_self
    have hword : word s.mem x = w := by rw [word, hw]
    rw [hword] at hl
    have hget := slabGetObj_eq hd hc hcd hsd hkc hx hx0 hw
    -- the call changes the two descriptors only
    have hslab : (popped s c d kc sd w).mem d =
        .slab { sd with freeList := w, inuse := u32 (sd.inuse + 1) } :=
      (update_of_ne hcd.symm _ _).trans (update_self _ _ _)
    have hmem : ∀ y ∈ l, (popped s c d kc sd w).mem y = s.mem y := by
      intro y hy
      obtain ⟨hyd, hyc, -⟩ := hcells y (List.mem_cons_of_mem x hy)
      exact (update_of_ne hyc _ _).trans (update_of_ne hyd _ _)
    have hrest : Threaded (word (popped s c d kc sd w).mem) w l := by
      refine hl.congr fun y hy => ?_
      unfold word
      rw [hmem y hy]
    obtain ⟨s', hs'⟩ := getObjs_spec hd hc hcd l hslab (update_self _ _ _) hrest fun y hy => by
      rw [hmem y hy]
      exact hcells y (List.mem_cons_of_mem x hy)
    refine ⟨s', ?_⟩
    rw [List.length_cons, getObjs, hget]
    simp only [Option.bind_eq_bind, Option.bind_some]
    rw [hs']
    rfl

/-! ### A slab whose objects are in place -/

/-- The objects of the slab with the descriptor `sd` at `d` are addresses apart from each other,
from the descriptor and from that of the cache at `c`. -/
structure InPlace (kc : KmemCache) (sd : SlabDesc) (c d : ℕ) : Prop where
  slab : d ≠ 0
  cache : c ≠ 0
  ne : c ≠ d
  size : 0 < kc.objsize
  start : 0 < sd.sMem
  num : kc.num ≤ 2 ^ 31
  lt : ∀ i < kc.num, sd.sMem + i * kc.objsize < 2 ^ 32
  ne_slab : ∀ i < kc.num, sd.sMem + i * kc.objsize ≠ d
  ne_cache : ∀ i < kc.num, sd.sMem + i * kc.objsize ≠ c

section InPlace
variable {kc : KmemCache} {sd : SlabDesc} {c d i : ℕ}

/-- The memory with one more object linked, before the constructor runs on it. -/
def linked (m : ℕ → Cell) (kc : KmemCache) (sd : SlabDesc) (d i : ℕ) : ℕ → Cell :=
  update (update m (sd.sMem + i * kc.objsize)
    (.bytes ((objectsFrom kc sd.sMem (i + 1)).headD 0))) d
    (.slab { sd with freeList := sd.sMem + i * kc.objsize })

theorem InPlace.filled_linked (h : InPlace kc sd c d) (hi : i < kc.num) {m₀ m : ℕ → Cell}
    (hm : Filled m₀ m sd d (objectsFrom kc sd.sMem (i + 1))) :
    Filled m₀ (linked m kc sd d i) sd d (objectsFrom kc sd.sMem i) := by
  have hstart := h.start
  rw [objectsFrom_succ sd.sMem hi]
  exact hm.cons (h.ne_slab i hi) (by omega) (notMem_objectsFrom h.size h.ne_slab (Or.inr rfl))
    (notMem_objectsFrom h.size h.ne_slab (Or.inl rfl))

/-- The memory behind the constructor of the object at `x`. -/
def constructed (ctor : Option Ctor) (s : Kernel) (m : ℕ → Cell) (x : ℕ) : ℕ → Cell :=
  (construct ctor { s with mem := m } x).mem

theorem InPlace.initObjsWith_succ (h : InPlace kc sd c d) (hi : i < kc.num) {s : Kernel}
    {m₀ m : ℕ → Cell} (ctor : Option Ctor)
    (hm : Filled m₀ m sd d (objectsFrom kc sd.sMem (i + 1))) :
    initObjsWith ctor kc d (i + 1) { s with mem := m } = initObjsWith ctor kc d i
      { s with mem := constructed ctor s (linked m kc sd d i) (sd.sMem + i * kc.objsize) } := by
  rw [initObjsWith, readSlab_of_mem h.slab hm.slab]
  simp only [Option.bind_eq_bind, Option.bind_some]
  rw [u32_of_lt (h.lt i hi)]
  rcases ctor with _ | run <;> rfl

theorem InPlace.initObjsWith_frame (h : InPlace kc sd c d) (run : Ctor) :
    ∀ (i : ℕ) {s s' : Kernel} {l : ℕ}, i ≤ kc.num → s.mem d = .slab { sd with freeList := l } →
      initObjsWith (some run) kc d i s = some s' →
      ∀ a, a ≠ d → (∀ j < i, a ≠ sd.sMem + j * kc.objsize) → s'.mem a = s.mem a
  | 0, s, s', _, _, _, hs', a, _, _ => by rw [Option.some.inj hs']
  | i + 1, s, s', l, hi, hmem, hs', a, had, ha => by
    rw [initObjsWith, readSlab_of_mem h.slab hmem] at hs'
    simp only [Option.bind_eq_bind, Option.bind_some] at hs'
    rw [u32_of_lt (h.lt i hi)] at hs'
    have hax := ha i (Nat.lt_succ_self i)
    rw [h.initObjsWith_frame run i (Nat.le_of_succ_le hi)
      ((update_of_ne (h.ne_slab i hi).symm _ _).trans (update_self _ _ _)) hs' a had
      fun j hj => ha j (Nat.lt_succ_of_lt hj)]
    rw [construct, store_mem, update_of_ne hax, store_mem, update_of_ne had,
      store_mem, update_of_ne hax]

end InPlace

/-! ### The constructor and the chain -/

theorem filled_unique {m₀ m m' : ℕ → Cell} {sd : SlabDesc} {d : ℕ} {l : List ℕ}
    (h : Filled m₀ m sd d l) (h' : Filled m₀ m' sd d l) : m = m' := by
  funext a
  by_cases had : a = d
  · rw [had, h.slab, h'.slab]
  by_cases hal : a ∈ l
  · obtain ⟨w, hw⟩ := h.bytes a hal
    obtain ⟨w', hw'⟩ := h'.bytes a hal
    have hword := h.chain.next_eq h'.chain a hal
    unfold word at hword
    rw [hw, hw'] at hword
    rw [hw, hw', show w = w' from hword]
  · rw [h.other a had hal, h'.other a had hal]

/-- The constructor leaves the first word of the object with index `i` as it finds it. It is called
in the state in which the objects from this one on are linked, and the memory is `m₀` otherwise. -/
def LeavesLink (run : Ctor) (s : Kernel) (m₀ : ℕ → Cell) (kc : KmemCache) (sd : SlabDesc)
    (d i : ℕ) : Prop :=
  ∀ m, Filled m₀ m sd d (objectsFrom kc sd.sMem i) →
    run (sd.sMem + i * kc.objsize) { s with mem := m } = word m (sd.sMem + i * kc.objsize)

/-- **The constructor, if there is one, leaves the first word** of each object as it finds it. -/
def LeavesLinks (ctor : Option Ctor) (s : Kernel) (kc : KmemCache) (sd : SlabDesc) (d : ℕ) : Prop :=
  ∀ run, ctor = some run → ∀ i < kc.num, LeavesLink run s s.mem kc sd d i

section Chain
variable {kc : KmemCache} {sd : SlabDesc} {c d : ℕ} {s : Kernel} {ctor : Option Ctor} {run : Ctor}

theorem constructed_eq {m : ℕ → Cell} {x w : ℕ} (hx : m x = .bytes w)
    (hrun : ∀ run, ctor = some run → run x { s with mem := m } = word m x) :
    constructed ctor s m x = m := by
  rcases ctor with _ | run
  · rfl
  · rw [constructed, construct, store_mem, hrun run rfl, word, hx, ← hx]
    exact update_eq_self x m

theorem mem_objectsFrom_self {i : ℕ} (hi : i < kc.num) :
    sd.sMem + i * kc.objsize ∈ objectsFrom kc sd.sMem i := by
  rw [objectsFrom_succ sd.sMem hi]
  exact List.mem_cons_self

theorem initObjsWith_spec (h : InPlace kc sd c d) {m₀ : ℕ → Cell} :
    ∀ (i : ℕ) (m : ℕ → Cell), i ≤ kc.num → Filled m₀ m sd d (objectsFrom kc sd.sMem i) →
      (∀ run, ctor = some run → ∀ j < i, LeavesLink run s m₀ kc sd d j) →
      ∃ m', initObjsWith ctor kc d i { s with mem := m } = some { s with mem := m' } ∧
        Filled m₀ m' sd d (objectsAt kc sd.sMem)
  | 0, m, _, hm, _ => ⟨m, rfl, by rwa [objectsFrom_zero] at hm⟩
  | i + 1, m, hi, hm, hrun => by
    have hlink := h.filled_linked hi hm
    obtain ⟨w, hw⟩ := hlink.bytes _ (mem_objectsFrom_self hi)
    rw [h.initObjsWith_succ hi ctor hm,
      constructed_eq hw fun run hctor => hrun run hctor i (Nat.lt_succ_self i) _ hlink]
    exact initObjsWith_spec h i _ (Nat.le_of_succ_le hi) hlink fun run hctor j hj =>
      hrun run hctor j (Nat.lt_succ_of_lt hj)

theorem exists_append_objectsFrom (kc : KmemCache) (m : ℕ) {i : ℕ} (hi : i ≤ kc.num) :
    ∃ l, objectsAt kc m = l ++ objectsFrom kc m i := by
  refine ⟨(List.range' 0 i).map fun j => m + j * kc.objsize, ?_⟩
  rw [← objectsFrom_zero, objectsFrom, objectsFrom, ← List.map_append]
  have happ := @List.range'_append 0 i (kc.num - i) 1
  rw [Nat.one_mul, Nat.zero_add, show i + (kc.num - i) = kc.num by omega] at happ
  rw [happ, Nat.sub_zero]

theorem threaded_objectsFrom {next : ℕ → ℕ} {a m i : ℕ} (h : Threaded next a (objectsAt kc m))
    (hi : i < kc.num) : Threaded next (m + i * kc.objsize) (objectsFrom kc m i) := by
  obtain ⟨l, hl⟩ := exists_append_objectsFrom kc m hi.le
  rw [hl, objectsFrom_succ m hi] at h
  rw [objectsFrom_succ m hi]
  exact h.suffix

theorem leaves_of_chain (h : InPlace kc sd c d) {m₀ : ℕ → Cell} {s' : Kernel} {a : ℕ}
    (hchain : Threaded (word s'.mem) a (objectsAt kc sd.sMem)) :
    ∀ (i : ℕ) (m : ℕ → Cell), i ≤ kc.num → Filled m₀ m sd d (objectsFrom kc sd.sMem i) →
      initObjsWith (some run) kc d i { s with mem := m } = some s' →
      ∀ j < i, LeavesLink run s m₀ kc sd d j
  | 0, _, _, _, _, j, hj, _, _ => absurd hj (Nat.not_lt_zero j)
  | i + 1, m, hi, hm, hrun, j, hj, m', hm' => by
    have hlink := h.filled_linked hi hm
    rw [h.initObjsWith_succ hi (some run) hm] at hrun
    obtain ⟨w, hw⟩ := hlink.bytes _ (mem_objectsFrom_self hi)
    -- the word that the constructor leaves is there at the end
    have hslab : constructed (some run) s (linked m kc sd d i) (sd.sMem + i * kc.objsize) d =
        .slab { sd with freeList := (objectsFrom kc sd.sMem i).headD 0 } :=
      (update_of_ne (h.ne_slab i hi).symm _ _).trans hlink.slab
    have hlast := h.initObjsWith_frame run i (Nat.le_of_succ_le hi) hslab hrun
      (sd.sMem + i * kc.objsize) (h.ne_slab i hi) fun k hk heq => by
        have := object_inj h.size heq
        omega
    simp only [construct, store_mem, update_self] at hlast
    -- the link of the object at the end, and before the constructor, is to the next one
    have hword := (threaded_objectsFrom hchain hi).next_eq hlink.chain _ (mem_objectsFrom_self hi)
    have hleft : run (sd.sMem + i * kc.objsize) { s with mem := linked m kc sd d i } =
        word (linked m kc sd d i) (sd.sMem + i * kc.objsize) := by
      rw [← hword, word, hlast]
    rcases Nat.eq_or_lt_of_le (Nat.le_of_lt_succ hj) with rfl | hj
    · rw [filled_unique hm' hlink]
      exact hleft
    · rw [constructed_eq hw fun run' heq => Option.some.inj heq ▸ hleft] at hrun
      exact leaves_of_chain h hchain i _ (Nat.le_of_succ_le hi) hlink hrun j hj m' hm'

theorem cacheInitObjsWith_eq (h : InPlace kc sd c d) (hsd : s.mem d = .slab sd) (ctor : Option Ctor) :
    cacheInitObjsWith ctor s kc d = initObjsWith ctor kc d kc.num
      { s with mem := update s.mem d (.slab { sd with freeList := 0 }) } := by
  unfold cacheInitObjsWith
  rw [readSlab_of_mem h.slab hsd]
  simp only [Option.bind_eq_bind, Option.bind_some, if_pos h.num]
  rfl

theorem InPlace.handsOut (h : InPlace kc sd c d) {m : ℕ → Cell} {kc' : KmemCache}
    (hm : Filled s.mem m sd d (objectsAt kc sd.sMem)) (hkc : s.mem c = .cache kc') :
    HandsOut { s with mem := m } c d (objectsAt kc sd.sMem) := by
  have hc : m c = .cache kc' := by
    rw [hm.other c h.ne fun hmem => ?_, hkc]
    obtain ⟨i, hi, heq⟩ := mem_objectsAt.mp hmem
    exact h.ne_cache i hi heq.symm
  refine ⟨⟨_, readSlab_of_mem h.slab hm.slab, hm.chain⟩, hm.chain.nodup, ?_⟩
  refine getObjs_spec h.slab h.cache h.ne (objectsAt kc sd.sMem) hm.slab hc hm.chain fun x hx => ?_
  obtain ⟨i, hi, heq⟩ := mem_objectsAt.mp hx
  exact ⟨heq ▸ h.ne_slab i hi, heq ▸ h.ne_cache i hi, hm.bytes x hx⟩

/-- **Constructors and the free list**: `cache_init_objs` puts all the objects on the free list, for
`slab_get_obj` to return, exactly if the constructor leaves the first word of each as it finds it.
-/
theorem handsOut_iff_leavesLinks (h : InPlace kc sd c d) (hsd : s.mem d = .slab sd)
    {kc' : KmemCache} (hkc : s.mem c = .cache kc') (ctor : Option Ctor) :
    (∃ s', cacheInitObjsWith ctor s kc d = some s' ∧ HandsOut s' c d (objectsAt kc sd.sMem)) ↔
      LeavesLinks ctor s kc sd d := by
  rw [cacheInitObjsWith_eq h hsd]
  constructor
  · rintro ⟨s', hs', hout⟩ run rfl
    obtain ⟨sd', -, hchain⟩ := hout.chain
    exact leaves_of_chain h hchain kc.num _ le_rfl (filled_start s.mem kc sd d) hs'
  · intro hleaves
    obtain ⟨m, heq, hm⟩ := initObjsWith_spec h kc.num _ le_rfl (filled_start s.mem kc sd d) hleaves
    exact ⟨_, heq, h.handsOut hm hkc⟩

end Chain

/-! ### The slabs of a new cache -/

theorem inPlace_of_geometry {kc : KmemCache} {size k room c d j p : ℕ}
    {alloc : Kernel → ℕ → Option (ℕ × Kernel)} {s s' : Kernel} (h1 : 1 ≤ size) (hk : k ≤ 12)
    (hg : SafeGeometry kc size (2 ^ k) room) (hh : Header kc (2 ^ k) room)
    (hoffset : 2 ^ k ∣ kc.colourOff) (hj : j = 0 ∨ j < kc.colour)
    (hp : p + 2 ^ kc.gfporder ≤ 2 ^ 18)
    (h : allocSlabmgmt alloc s kc (base p) (u32 (j * kc.colourOff)) = some (d, s')) (hd : d ≠ 0)
    (hc : c ≠ 0) (hcd : c ≠ d) (hout : ∀ a, a = c ∨ (offSlab kc = true ∧ a = d) →
      a < base p ∨ base p + slabBytes kc.gfporder ≤ a) :
    ∃ sd, s'.mem d = .slab sd ∧ InPlace kc sd c d := by
  obtain ⟨sd, hmem, hplaced⟩ := hg.wellPlaced hk hh hoffset
    (Dvd.intro_left (p + 0xC0000) (by unfold base pageSize pageOffset; omega)) hj h hd
  have hcol := hg.colours j hj
  have hbase := base_pos p
  have hend : base p + slabBytes kc.gfporder ≤ 2 ^ 32 := by
    unfold base slabBytes pageSize pageOffset
    omega
  have hsize : 1 ≤ kc.objsize := h1.trans hg.size_le
  have hnum : 1 * kc.objsize ≤ kc.num * kc.objsize := Nat.mul_le_mul_right _ hg.num_pos
  have hmany : kc.num * 1 ≤ kc.num * kc.objsize := Nat.mul_le_mul_left _ hsize
  have hbytes := (slabBytes_le hg.order_lt).2
  have hstart : sd.sMem = base p + (j * kc.colourOff + room) := by
    rw [hplaced.start]
    exact u32_of_lt (by omega)
  have hin : ∀ i < kc.num, sd.sMem + i * kc.objsize + kc.objsize ≤ base p + slabBytes kc.gfporder := by
    intro i hi
    have := (hplaced.inside i hi).2
    omega
  have hapart : ∀ i < kc.num, ∀ a, a < base p ∨ base p + slabBytes kc.gfporder ≤ a →
      sd.sMem + i * kc.objsize ≠ a := by
    intro i hi a ha
    have := hin i hi
    omega
  have hfront : offSlab kc = false → d + sizeofSlab ≤ sd.sMem := by
    intro hon
    obtain ⟨hde, hroom⟩ := hplaced.behind hon
    have hword : u32 (base p + j * kc.colourOff) = base p + j * kc.colourOff := u32_of_lt (by omega)
    omega
  refine ⟨sd, hmem, hd, hc, hcd, hsize, ?_, by omega, fun i hi => ?_, fun i hi => ?_,
    fun i hi => hapart i hi c (hout c (Or.inl rfl))⟩
  · unfold pageOffset at hbase
    omega
  · have := hin i hi
    omega
  · rcases hos : offSlab kc
    · have := hfront hos
      unfold sizeofSlab at this
      omega
    · exact hapart i hi d (hout d (Or.inr ⟨hos, rfl⟩))

/-- A cache of 1000-byte objects after `init_slab`, and a slab of it on the page 40 with its four
objects, before `cache_init_objs`. -/
def freshSlab : Option (ℕ × ℕ × KmemCache × SlabDesc × Kernel) := do
  let s ← startKernel
  let (c, s) ← kmemCacheCreate zeroDesc s 1000 8 0 1
  let kc ← readCache s c
  let (d, s) ← allocSlabmgmt (kmemCacheAlloc 1) s kc (base 40) 0
  let sd ← readSlab s d
  return (c, d, kc, sd, s)

/-- A constructor that leaves the first word: all four objects are handed out. -/
theorem handsOut_leaving : ∃ c d kc sd s s', freshSlab = some (c, d, kc, sd, s) ∧ kc.num = 4 ∧
    LeavesLinks (some fun x s => word s.mem x) s kc sd d ∧
    cacheInitObjsWith (some fun x s => word s.mem x) s kc d = some s' ∧
    HandsOut s' c d (objectsAt kc sd.sMem) := by
  have hcheck : (freshSlab.any fun r => decide (r.2.2.1.num = 4 ∧
      readCache r.2.2.2.2 r.1 = some r.2.2.1 ∧ readSlab r.2.2.2.2 r.2.1 = some r.2.2.2.1 ∧
      r.1 ≠ r.2.1 ∧ 0 < r.2.2.1.objsize ∧ 0 < r.2.2.2.1.sMem ∧
      ∀ i < 4, r.2.2.2.1.sMem + i * r.2.2.1.objsize < 2 ^ 32 ∧
        r.2.2.2.1.sMem + i * r.2.2.1.objsize ≠ r.2.1 ∧
        r.2.2.2.1.sMem + i * r.2.2.1.objsize ≠ r.1)) = true := by decide +kernel
  obtain ⟨⟨c, d, kc, sd, s⟩, hfresh, h⟩ := (Option.any_eq_true _ _).mp hcheck
  obtain ⟨hnum, hkc, hsd, hcd, hsize, hstart, hobj⟩ := of_decide_eq_true h
  simp only at hnum hkc hsd hcd hsize hstart hobj
  obtain ⟨hc0, hkc⟩ := mem_of_readCache hkc
  obtain ⟨hd0, hsd⟩ := mem_of_readSlab hsd
  rw [← hnum] at hobj
  have hplace : InPlace kc sd c d := ⟨hd0, hc0, hcd, hsize, hstart, by omega,
    fun i hi => (hobj i hi).1, fun i hi => (hobj i hi).2.1, fun i hi => (hobj i hi).2.2⟩
  have hleaves : LeavesLinks (some fun x s => word s.mem x) s kc sd d := by
    intro run hrun i _ m _
    rw [← Option.some.inj hrun]
  obtain ⟨s', hs', hout⟩ := (handsOut_iff_leavesLinks hplace hsd hkc _).mpr hleaves
  exact ⟨c, d, kc, sd, s, s', hfresh, hnum, hleaves, hs', hout⟩

/-- **A constructor that clears its object** cuts the free list behind the first object: the second
call of `slab_get_obj` follows NULL. -/
theorem not_handsOut_clearing : ∃ c d kc sd s s', freshSlab = some (c, d, kc, sd, s) ∧ kc.num = 4 ∧
    cacheInitObjsWith (some fun _ _ => 0) s kc d = some s' ∧
    (getObjs c d 1 s').map Prod.fst = some [sd.sMem] ∧ (getObjs c d 2 s').isNone := by
  have hcheck : (freshSlab.any fun r => (cacheInitObjsWith (some fun _ _ => 0) r.2.2.2.2 r.2.2.1
      r.2.1).any fun s' => decide (r.2.2.1.num = 4 ∧
        (getObjs r.1 r.2.1 1 s').map Prod.fst = some [r.2.2.2.1.sMem] ∧
        (getObjs r.1 r.2.1 2 s').isNone)) = true := by decide +kernel
  obtain ⟨⟨c, d, kc, sd, s⟩, hfresh, h⟩ := (Option.any_eq_true _ _).mp hcheck
  obtain ⟨s', hs', h⟩ := (Option.any_eq_true _ _).mp h
  obtain ⟨hnum, hfirst, hsecond⟩ := of_decide_eq_true h
  exact ⟨c, d, kc, sd, s, s', hfresh, hnum, hs', hfirst, hsecond⟩

end YegaKernel.Slab.Constructor
