import YegaKernel.Fs.Dcache.Model
import YegaKernel.Lib.Families

/-! # The hash table of dentries

`Table K s hashed`: the buckets hold the dentries `hashed`, in each bucket the one hashed last in
front. A dentry that is not hashed has the flag `DCACHE_UNHASHED`, or its `d_hash` is linked to
itself, so that `d_delete` can unlink it all the same.

The lists through `d_child` need not be well formed for this. It is enough that their links do not
lead into the hash table, which is what the set `K` of list heads is for: no operation on them can
then write to a bucket or to a `d_hash`. There is one lemma for each function, and
`Table.dLookup_eq`: `d_lookup` finds the first of `hashed` with the parent and the name. -/

namespace YegaKernel.Fs.Dcache.Hash

open Lib.Links Lib.Families Lib.Word
open Fs.Dcache.Model Function

/-- The list heads outside the hash table. -/
def TreeNode : Link → Prop
  | .childOf _ => True
  | .subdirsOf _ => True
  | .lruOf _ => True
  | .dentryOf _ => True
  | _ => False

/-- **The hash table holds `hashed`.** -/
structure Table (K : Link → Prop) (s : DentryCache) (hashed : List ℕ) : Prop where
  rings : Rings s (· < dentryHashSize) Link.bucket (fun _ => Link.hashOf)
    fun i => hashed.filter (bucketOf s · = i)
  nodup : hashed.Nodup
  live : ∀ d ∈ hashed, d ∈ s.live
  flag : ∀ d ∈ hashed, ¬ Unhashed s d
  loose : ∀ d ∈ s.live, d ∉ hashed → ¬ Unhashed s d → Linked s (.hashOf d) (.hashOf d)
  tree : ∀ n, K n → TreeNode n
  nodes : ∀ d ∈ s.live, K (.childOf d) ∧ K (.subdirsOf d)
  confined : Confined K .null s

variable {K : Link → Prop} {s s' : DentryCache} {hashed : List ℕ} {d : ℕ}

theorem dHash_lt (parent : Option ℕ) (name : List UInt8) : dHash parent name < dentryHashSize :=
  Nat.mod_lt _ (by decide)

theorem bucketOf_lt (s : DentryCache) (d : ℕ) : bucketOf s d < dentryHashSize := dHash_lt _ _

theorem Table.hash_node (h : Table K s hashed) {n : Link}
    (hn : (∃ i, n = .bucket i) ∨ ∃ e, n = .hashOf e) : ¬ K n ∧ n ≠ .null := by
  rcases hn with ⟨i, rfl⟩ | ⟨e, rfl⟩
  · exact ⟨fun hK => h.tree _ hK, by simp⟩
  · exact ⟨fun hK => h.tree _ hK, by simp⟩

theorem mem_ring {i : ℕ} {l : List ℕ} {n : Link} (hn : n ∈ Link.bucket i :: l.map .hashOf) :
    n = .bucket i ∨ ∃ e ∈ l, n = .hashOf e := by
  simpa [eq_comm] using hn

/-! ### Steps that leave the table alone -/

section
variable (h : Table K s hashed)
include h

theorem Table.transport
    (hlinks : ∀ n, ((∃ i, n = .bucket i) ∨ ∃ e ∈ s.live, n = .hashOf e) → SameLinks s s' n)
    (hlive : s'.live = s.live) (hbucket : ∀ e ∈ s.live, bucketOf s' e = bucketOf s e)
    (hflag : ∀ e ∈ s.live, Unhashed s' e ↔ Unhashed s e) (hconf : Confined K .null s') :
    Table K s' hashed := by
  have hfilter : ∀ i, hashed.filter (bucketOf s' · = i) = hashed.filter (bucketOf s · = i) := by
    intro i
    refine List.filter_congr fun e he => ?_
    rw [hbucket e (h.live e he)]
  refine ⟨?_, h.nodup, fun e he => by rw [hlive]; exact h.live e he, fun e he => ?_,
    fun e he hne hf => ?_, h.tree, by rw [hlive]; exact h.nodes, hconf⟩
  · simp only [hfilter]
    refine h.rings.transport fun i _ n hn => hlinks n ?_
    rcases mem_ring hn with rfl | ⟨e, he, rfl⟩
    · exact Or.inl ⟨i, rfl⟩
    · exact Or.inr ⟨e, h.live e (List.mem_of_mem_filter he), rfl⟩
  · rw [hflag e (h.live e he)]
    exact h.flag e he
  · rw [hlive] at he
    rw [hflag e he] at hf
    have hsame := hlinks (.hashOf e) (Or.inr ⟨e, he, rfl⟩)
    exact (h.loose e he hne hf).transport hsame hsame

theorem Table.upd {f : Dentry → Dentry}
    (hparent : ∀ e, (f e).dParent = e.dParent) (hname : ∀ e, (f e).dName = e.dName)
    (hflags : ∀ e, (f e).dFlags = e.dFlags) : Table K (s.upd d f) hashed := by
  refine h.transport (fun n _ => sameLinks_upd s d f n) rfl (fun e _ => ?_) (fun e _ => ?_)
    (h.confined.transport fun n _ => sameLinks_upd s d f n)
  · by_cases hed : e = d
    · subst hed
      simp only [bucketOf, upd_self, hparent, hname]
    · simp only [bucketOf, upd_of_ne s d f hed]
  · by_cases hed : e = d
    · subst hed
      simp only [Unhashed, upd_self, hflags]
    · simp only [Unhashed, upd_of_ne s d f hed]

theorem Table.countUp (d : ℕ) : Table K (countUp s d) hashed :=
  h.upd (fun _ => rfl) (fun _ => rfl) fun _ => rfl

theorem Table.listAdd {x y : Link} (hx : K x) (hy : K y) : Table K (listAdd s x y) hashed := by
  refine h.transport (fun n hn => ?_) rfl (fun _ _ => rfl) (fun _ _ => Iff.rfl)
    (h.confined.listAdd apart_of_ne hx hy)
  obtain ⟨hK, hnull⟩ := h.hash_node (hn.imp_right fun ⟨e, _, he⟩ => ⟨e, he⟩)
  exact h.confined.sameLinks_listAdd apart_of_ne hx hy hK hnull

theorem Table.dInstantiate (hd : d ∈ s.live) {i : ℕ} (hi : K (.dentryOf i)) :
    Table K (dInstantiate s (some d) (some i)) hashed := by
  have hupd : Table K (s.upd d fun e => { e with dInode := some i }) hashed :=
    h.upd (fun _ => rfl) (fun _ => rfl) fun _ => rfl
  exact hupd.listAdd hi (h.nodes d hd).1

end

/-! ### A new dentry -/

/-- The set `K` with the list heads of a new dentry. -/
def grow (K : Link → Prop) (d : ℕ) (n : Link) : Prop :=
  ((K n ∨ n = .lruOf d) ∨ n = .childOf d) ∨ n = .subdirsOf d

theorem initDentry_dentries (s : DentryCache) (parent : Option ℕ) (name : Option (List UInt8)) {e : ℕ}
    (he : e ≠ d) : (initDentry s d parent name).dentries e = s.dentries e :=
  update_of_ne he ..

theorem sameLinks_initDentry (s : DentryCache) (parent : Option ℕ) (name : Option (List UInt8))
    {n : Link} (hlru : n ≠ .lruOf d) (hchild : n ≠ .childOf d) (hsub : n ≠ .subdirsOf d)
    (hhash : n ≠ .hashOf d) : SameLinks s (initDentry s d parent name) n := by
  have h0 : SameLinks s (DentryCache.upd { s with live := d :: s.live } d
      fun _ => newDentry d parent name) n := ⟨rfl, rfl⟩
  exact (((h0.trans (sameLinks_initListHead _ hlru.symm)).trans
    (sameLinks_initListHead _ hchild.symm)).trans (sameLinks_initListHead _ hsub.symm)).trans
    (sameLinks_initListHead _ hhash.symm)

theorem linked_initDentry (s : DentryCache) (d : ℕ) (parent : Option ℕ)
    (name : Option (List UInt8)) : Linked (initDentry s d parent name) (.hashOf d) (.hashOf d) :=
  (ring_initListHead _ _).linked_head (List.nil_append [_])

theorem Table.initDentry (h : Table K s hashed) (hd : d ∉ s.live) (parent : Option ℕ)
    (name : Option (List UInt8)) : Table (grow K d) (initDentry s d parent name) hashed := by
  have hne : ∀ e ∈ hashed, e ≠ d := by
    rintro e he rfl
    exact hd (h.live e he)
  have hbucket : ∀ e ≠ d, bucketOf (Model.initDentry s d parent name) e = bucketOf s e := by
    intro e he
    simp only [bucketOf, initDentry_dentries s parent name he]
  have hflag : ∀ e ≠ d, (Unhashed (Model.initDentry s d parent name) e ↔ Unhashed s e) := by
    intro e he
    simp only [Unhashed, initDentry_dentries s parent name he]
  have hfilter : ∀ i, hashed.filter (bucketOf (Model.initDentry s d parent name) · = i) =
      hashed.filter (bucketOf s · = i) := by
    intro i
    refine List.filter_congr fun e he => ?_
    rw [hbucket e (hne e he)]
  refine ⟨?_, h.nodup, fun e he => List.mem_cons_of_mem _ (h.live e he), fun e he => ?_,
    fun e he hnot hf => ?_, ?_, ?_, ?_⟩
  · simp only [hfilter]
    refine h.rings.transport fun i _ n hn => ?_
    rcases mem_ring hn with rfl | ⟨e, he, rfl⟩
    · exact sameLinks_initDentry s parent name (by simp) (by simp) (by simp) (by simp)
    · exact sameLinks_initDentry s parent name (by simp) (by simp) (by simp)
        (by simpa using hne e (List.mem_of_mem_filter he))
  · rw [hflag e (hne e he)]
    exact h.flag e he
  · rcases List.mem_cons.mp he with rfl | he
    · exact linked_initDentry s e parent name
    · have hed : e ≠ d := fun hed => hd (hed ▸ he)
      rw [hflag e hed] at hf
      have hsame : SameLinks s (Model.initDentry s d parent name) (.hashOf e) :=
        sameLinks_initDentry s parent name (by simp) (by simp) (by simp) (by simpa using hed)
      exact (h.loose e he hnot hf).transport hsame hsame
  · rintro n (((hn | rfl) | rfl) | rfl)
    · exact h.tree n hn
    · trivial
    · trivial
    · trivial
  · intro e he
    rcases List.mem_cons.mp he with rfl | he
    · exact ⟨Or.inl (Or.inr rfl), Or.inr rfl⟩
    · obtain ⟨hc, hs⟩ := h.nodes e he
      exact ⟨Or.inl (Or.inl (Or.inl hc)), Or.inl (Or.inl (Or.inl hs))⟩
  · -- the three list heads join the set one by one; the last write is to `d_hash`, outside of it
    have h0 : Confined K .null (DentryCache.upd { s with live := d :: s.live } d
        fun _ => newDentry d parent name) := h.confined.transport fun _ _ => ⟨rfl, rfl⟩
    refine Confined.transport (((h0.initListHead apart_of_ne (.lruOf d)).initListHead
      apart_of_ne (.childOf d)).initListHead apart_of_ne (.subdirsOf d)) fun n hn => ?_
    refine sameLinks_initListHead _ (apart_of_ne _ _ ?_)
    rintro rfl
    rcases hn with ((hn | hn) | hn) | hn
    · exact h.tree _ hn
    · simp at hn
    · simp at hn
    · simp at hn

/-- **`d_alloc`** leaves the table as it is; the new dentry is not hashed. -/
theorem Table.dAlloc (h : Table K s hashed) (hd : d ∉ s.live) {parent : Option ℕ}
    (hparent : ∀ p, parent = some p → p ∈ s.live) (name : Option (List UInt8)) :
    Table (grow K d) (dAlloc s (some d) parent name).2 hashed := by
  have hinit := h.initDentry hd parent name
  cases parent with
  | none => exact hinit
  | some p =>
    have hpd : p ≠ d := fun hpd => hd (hpd ▸ hparent p rfl)
    simp only [Model.dAlloc, ne_eq, hpd, not_false_eq_true, if_true]
    refine hinit.listAdd ?_ (Or.inl (Or.inr rfl))
    exact Or.inl (Or.inl (Or.inl (h.nodes p (hparent p rfl)).2))

/-! ### Hashing -/

theorem unhashed_clear (f : BitVec 32) : f &&& ~~~dcacheUnhashed &&& dcacheUnhashed = 0 := by
  rw [BitVec.and_assoc, BitVec.and_comm (~~~dcacheUnhashed), show
    dcacheUnhashed &&& ~~~dcacheUnhashed = 0#32 from rfl, BitVec.and_zero]
  rfl

theorem unhashed_set (f : BitVec 32) : (f ||| dcacheUnhashed) &&& dcacheUnhashed ≠ 0 := by
  intro h
  have hbit := congrArg (BitVec.getLsbD · 1) h
  simp [dcacheUnhashed] at hbit

theorem unhashed_enterHash (s : DentryCache) (d e : ℕ) :
    Unhashed (enterHash s d) e ↔ e ≠ d ∧ Unhashed s e := by
  by_cases hed : e = d
  · subst hed
    simp only [Unhashed, enterHash, upd_self, listAdd_dentries, unhashed_clear, ne_eq,
      not_true_eq_false, false_and]
  · simp only [Unhashed, enterHash, upd_of_ne _ d _ hed, listAdd_dentries, ne_eq, hed,
      not_false_eq_true, true_and]

theorem bucketOf_enterHash (s : DentryCache) (d e : ℕ) :
    bucketOf (enterHash s d) e = bucketOf s e := by
  by_cases hed : e = d
  · subst hed
    simp only [bucketOf, enterHash, upd_self, listAdd_dentries]
  · simp only [bucketOf, enterHash, upd_of_ne _ d _ hed, listAdd_dentries]

theorem apart_ring {l : List ℕ} {n m : Link} {i : ℕ} (hb : ∀ i, n ≠ .bucket i)
    (he : ∀ e ∈ l, n ≠ .hashOf e) (hm : m ∈ Link.bucket i :: l.map .hashOf) :
    LinkStore.Apart DentryCache m n := by
  rcases mem_ring hm with rfl | ⟨c, hc, rfl⟩
  · exact apart_of_ne _ _ (hb i).symm
  · exact apart_of_ne _ _ (he c hc).symm

/-- **Hashing** a dentry that is not hashed puts it in front. -/
theorem Table.enterHash (h : Table K s hashed) (hd : d ∈ s.live) (hnot : d ∉ hashed) :
    Table K (enterHash s d) (d :: hashed) := by
  have hlt := bucketOf_lt s d
  have hrings := h.rings.listAdd (b := d) hlt fun j _ n hn => by
    refine LinkStore.apart_symm (apart_ring (by simp) (fun e he hde => hnot ?_) hn)
    rw [Link.hashOf.inj hde]
    exact List.mem_of_mem_filter he
  have hout : ∀ n, (∀ i, n ≠ .bucket i) → (∀ e ∈ d :: hashed, n ≠ .hashOf e) →
      SameLinks s (Lib.Links.listAdd s (.bucket (bucketOf s d)) (.hashOf d)) n := by
    intro n hb he
    refine (h.rings.ring _ hlt).sameLinks_listAdd (fun m hm => apart_ring hb (fun e hm => ?_) hm)
      (apart_of_ne _ _ (he d (by simp)).symm)
    exact he e (List.mem_cons_of_mem _ (List.mem_of_mem_filter hm))
  refine ⟨?_, List.nodup_cons.mpr ⟨hnot, h.nodup⟩, ?_, ?_, fun e he hne hf => ?_, h.tree, h.nodes, ?_⟩
  · have hB : (fun i => (d :: hashed).filter (bucketOf (Model.enterHash s d) · = i)) =
        update (fun i => hashed.filter (bucketOf s · = i)) (bucketOf s d)
          (d :: hashed.filter (bucketOf s · = bucketOf s d)) := by
      funext i
      simp only [bucketOf_enterHash]
      by_cases hi : i = bucketOf s d
      · subst hi
        rw [update_self, List.filter_cons_of_pos (by simp)]
      · rw [update_of_ne hi, List.filter_cons_of_neg (by simpa using Ne.symm hi)]
    rw [hB]
    exact hrings.transport fun _ _ _ _ => ⟨rfl, rfl⟩
  · intro e he
    rcases List.mem_cons.mp he with rfl | he
    · exact hd
    · exact h.live e he
  · intro e he hf
    obtain ⟨hed, hf⟩ := (unhashed_enterHash s d e).mp hf
    exact h.flag e ((List.mem_cons.mp he).resolve_left hed) hf
  · have hed : e ≠ d := fun hed => hne (by simp [hed])
    have hold := h.loose e he (fun hm => hne (List.mem_cons_of_mem _ hm))
      fun hu => hf ((unhashed_enterHash s d e).mpr ⟨hed, hu⟩)
    have hsame := hout (.hashOf e) (by simp) fun c hc hec => hne (Link.hashOf.inj hec ▸ hc)
    exact hold.transport hsame hsame
  · refine h.confined.transport fun n hn => hout n ?_ ?_
    · rintro i rfl
      exact h.tree _ hn
    · rintro e - rfl
      exact h.tree _ hn

/-! ### Unhashing -/

/-- The unlinking of a `d_hash` without the flag, on its bucket or linked to itself. -/
theorem Table.unlink (h : Table K s hashed) (hd : d ∈ s.live) (hu : ¬ Unhashed s d) :
    Rings (listDel .null s (.hashOf d)) (· < dentryHashSize) Link.bucket (fun _ => Link.hashOf)
        (fun i => (hashed.erase d).filter (bucketOf s · = i)) ∧
      ∀ n, (∀ i, n ≠ .bucket i) → (∀ e ∈ d :: hashed, n ≠ .hashOf e) →
        SameLinks s (listDel .null s (.hashOf d)) n := by
  by_cases hm : d ∈ hashed
  · have hlt := bucketOf_lt s d
    have hmem : d ∈ hashed.filter (bucketOf s · = bucketOf s d) :=
      List.mem_filter.mpr ⟨hm, by simp⟩
    have hB : (fun i => (hashed.erase d).filter (bucketOf s · = i)) =
        update (fun i => hashed.filter (bucketOf s · = i)) (bucketOf s d)
          ((hashed.filter (bucketOf s · = bucketOf s d)).erase d) := by
      funext i
      by_cases hi : i = bucketOf s d
      · subst hi
        rw [update_self, List.erase_filter]
      · rw [update_of_ne hi, ← List.erase_filter, List.erase_of_not_mem]
        simpa using fun _ => Ne.symm hi
    rw [hB]
    refine ⟨h.rings.listDel .null hlt hmem, fun n hb he => ?_⟩
    obtain ⟨us, vs, -, hcut, -⟩ := List.exists_erase_eq hmem
    have hring := h.rings.ring _ hlt
    rw [hcut, List.map_append, List.map_cons] at hring
    refine hring.sameLinks_listDel .null fun m hm => ?_
    rw [← List.map_cons, ← List.map_append, ← hcut] at hm
    exact apart_ring hb (fun e he' => he e (by simp [List.mem_of_mem_filter he'])) hm
  · have hlink := h.loose d hd hm hu
    rw [List.erase_of_not_mem hm]
    refine ⟨h.rings.transport fun i _ n hn => ?_, fun n _ he => ?_⟩
    · refine hlink.sameLinks_listDel .null (LinkStore.apart_symm (apart_ring (by simp) ?_ hn))
      intro e he hde
      rw [Link.hashOf.inj hde] at hm
      exact hm (List.mem_of_mem_filter he)
    · exact hlink.sameLinks_listDel .null (apart_of_ne _ _ (he d (by simp)).symm)

theorem dDelete_of_unhashed (hu : Unhashed s d) : dDelete s (some d) = s := by
  simp only [dDelete, hu, not_true_eq_false, if_false]

theorem unhashed_dDelete (s : DentryCache) (d e : ℕ) :
    Unhashed (dDelete s (some d)) e ↔ e = d ∨ Unhashed s e := by
  by_cases hu : Unhashed s d
  · rw [dDelete_of_unhashed hu]
    exact ⟨Or.inr, fun h => h.elim (fun hed => hed ▸ hu) id⟩
  · simp only [dDelete, hu, not_false_eq_true, if_true]
    by_cases hed : e = d
    · subst hed
      simp only [Unhashed, upd_self, listDel_dentries, unhashed_set, ne_eq, not_false_eq_true,
        true_or]
    · simp only [Unhashed, upd_of_ne _ d _ hed, listDel_dentries, ne_eq, hed, false_or]

theorem bucketOf_dDelete (s : DentryCache) (d e : ℕ) :
    bucketOf (dDelete s (some d)) e = bucketOf s e := by
  by_cases hu : Unhashed s d
  · rw [dDelete_of_unhashed hu]
  · simp only [dDelete, hu, not_false_eq_true, if_true]
    by_cases hed : e = d
    · subst hed
      simp only [bucketOf, upd_self, listDel_dentries]
    · simp only [bucketOf, upd_of_ne _ d _ hed, listDel_dentries]

/-- **`d_delete`** takes the dentry out of the table, hashed or not. -/
theorem Table.dDelete (h : Table K s hashed) (hd : d ∈ s.live) :
    Table K (dDelete s (some d)) (hashed.erase d) := by
  by_cases hu : Unhashed s d
  · rw [dDelete_of_unhashed hu, List.erase_of_not_mem fun hm => h.flag d hm hu]
    exact h
  · obtain ⟨hrings, hout⟩ := h.unlink hd hu
    have hlinks : ∀ n, SameLinks (listDel .null s (.hashOf d)) (Model.dDelete s (some d)) n := by
      intro n
      simp only [Model.dDelete, hu, not_false_eq_true, if_true]
      exact sameLinks_upd _ d _ n
    have hkept : ∀ e ∈ hashed.erase d, e ≠ d ∧ e ∈ hashed := fun e he => h.nodup.mem_erase_iff.mp he
    refine ⟨?_, h.nodup.erase d, ?_, ?_, ?_, h.tree, ?_, ?_⟩
    · simp only [bucketOf_dDelete]
      exact hrings.transport fun _ _ n _ => hlinks n
    · intro e he
      rw [dDelete_live]
      exact h.live e (hkept e he).2
    · intro e he hf
      rcases (unhashed_dDelete s d e).mp hf with rfl | hf
      · exact (hkept e he).1 rfl
      · exact h.flag e (hkept e he).2 hf
    · intro e he hne hf
      rw [unhashed_dDelete, not_or] at hf
      rw [dDelete_live] at he
      have hnot : e ∉ hashed := fun hm => hne (h.nodup.mem_erase_iff.mpr ⟨hf.1, hm⟩)
      have hsame := (hout (.hashOf e) (by simp) fun c hc hec => ?_).trans (hlinks _)
      · exact (h.loose e he hnot hf.2).transport hsame hsame
      · rw [← Link.hashOf.inj hec, List.mem_cons] at hc
        exact hc.elim hf.1 hnot
    · rw [dDelete_live]
      exact h.nodes
    · refine h.confined.transport fun n hn => (hout n ?_ ?_).trans (hlinks n)
      · rintro i rfl
        exact h.tree _ hn
      · rintro e - rfl
        exact h.tree _ hn

/-! ### Looking up -/

theorem lookupFrom_eq {head : Link} (hhead : ∀ d, head ≠ .hashOf d) (parent : ℕ)
    (name : List UInt8) {l : List ℕ} {fuel : ℕ} {tmp : Link} {rest : List Link}
    (htmp : l.map .hashOf ++ [head] = tmp :: rest) (hchain : (tmp :: rest).IsChain (Linked s))
    (hfuel : l.length < fuel) : lookupFrom s head parent name fuel tmp = .ok
      (l.find? fun d => (s.dentries d).dParent = parent ∧ (s.dentries d).dName = name) := by
  induction l generalizing fuel tmp rest with
  | nil =>
    obtain ⟨fuel, rfl⟩ : ∃ k, fuel = k + 1 := ⟨fuel - 1, by omega⟩
    obtain ⟨rfl, -⟩ := List.cons.inj htmp
    unfold lookupFrom
    rw [if_pos rfl]
    rfl
  | cons d l ih =>
    obtain ⟨fuel, rfl⟩ : ∃ k, fuel = k + 1 := ⟨fuel - 1, by omega⟩
    rw [List.map_cons, List.cons_append] at htmp
    obtain ⟨rfl, hrest⟩ := List.cons.inj htmp
    rw [lookupFrom, if_neg (hhead d).symm]
    by_cases hd : (s.dentries d).dParent = parent ∧ (s.dentries d).dName = name
    · rw [if_pos hd, List.find?_cons_of_pos (by simpa using hd)]
    · rw [if_neg hd, List.find?_cons_of_neg (by simpa using hd)]
      obtain ⟨-, z, post, hz⟩ := exists_ends head [] (l.map Link.hashOf)
      rw [← hrest, hz, List.isChain_cons_cons] at hchain
      rw [hchain.1.1]
      exact ih hz hchain.2 (by simpa using hfuel)

/-- The first hashed dentry with the parent and the name. -/
def cached (s : DentryCache) (hashed : List ℕ) (parent : ℕ) (name : List UInt8) : Option ℕ :=
  hashed.find? fun d => (s.dentries d).dParent = parent ∧ (s.dentries d).dName = name

/-- What `d_lookup` returns if the search has found this. -/
def answer (s : DentryCache) : Option ℕ → Option ℕ × DentryCache
  | some d => (some d, countUp s d)
  | none => (none, s)

theorem find_bucket (s : DentryCache) (hashed : List ℕ) (parent : ℕ) (name : List UInt8) :
    (hashed.filter (bucketOf s · = dHash (some parent) name)).find?
      (fun d => (s.dentries d).dParent = parent ∧ (s.dentries d).dName = name) =
      cached s hashed parent name := by
  rw [List.find?_filter, cached]
  congr 1
  funext d
  simp only [bucketOf, Bool.decide_and, Bool.and_eq_right_iff_imp, Bool.and_eq_true,
    decide_eq_true_eq]
  rintro ⟨rfl, rfl⟩
  exact decide_eq_true rfl

theorem Table.length_le (h : Table K s hashed) : hashed.length ≤ s.live.length :=
  (List.subperm_of_subset h.nodup h.live).length_le

/-- **`d_lookup`** finds the hashed dentry and counts the reference, or finds none and changes
nothing. -/
theorem Table.dLookup_eq (h : Table K s hashed) (parent : ℕ) (name : List UInt8) {fuel : ℕ}
    (hfuel : hashed.length < fuel) :
    dLookup fuel s (some parent) (some name) = .ok (answer s (cached s hashed parent name)) := by
  have hring := h.rings.ring _ (dHash_lt (some parent) name)
  obtain ⟨-, z, post, hz⟩ := exists_ends (Link.bucket (dHash (some parent) name)) []
    ((hashed.filter (bucketOf s · = dHash (some parent) name)).map Link.hashOf)
  have hchain : (z :: post).IsChain (Linked s) := by
    have hc := hring.chain
    rw [List.cons_append, hz] at hc
    exact hc.tail
  have hlen := (List.length_filter_le (bucketOf s · = dHash (some parent) name) hashed)
  have hwalk := lookupFrom_eq (by simp) parent name hz hchain (by omega : _ < fuel)
  rw [find_bucket] at hwalk
  simp only [dLookup, (hring.linked_head hz).1, hwalk, Bind.bind, Except.bind]
  cases cached s hashed parent name with
  | none => rfl
  | some d => rfl

/-! ### The start -/

theorem linked_initListHead {s : DentryCache} {n : Link} (a : Link) (h : Linked s n n ∨ n = a) :
    Linked (initListHead s a) n n := by
  by_cases hna : n = a
  · rw [hna]
    exact (ring_initListHead s a).linked_head (List.nil_append [a])
  · have hsame := sameLinks_initListHead s (apart_of_ne a n (Ne.symm hna))
    exact (h.resolve_right hna).transport hsame hsame

/-- The loop of `dcache_init` makes the buckets empty, and writes to nothing else. -/
theorem initBuckets_spec (l : List ℕ) (s : DentryCache) :
    (∀ i, i ∈ l ∨ Linked s (.bucket i) (.bucket i) →
      Linked (l.foldl (fun s i => initListHead s (.bucket i)) s) (.bucket i) (.bucket i)) ∧
    (∀ n, (∀ i, n ≠ .bucket i) → SameLinks s (l.foldl (fun s i => initListHead s (.bucket i)) s) n) ∧
    (l.foldl (fun s i => initListHead s (.bucket i)) s).live = s.live := by
  induction l generalizing s with
  | nil => exact ⟨fun i hi => by simpa using hi, fun n _ => SameLinks.refl s n, rfl⟩
  | cons a l ih =>
    obtain ⟨hlinked, hsame, hlive⟩ := ih (initListHead s (.bucket a))
    refine ⟨fun i hi => hlinked i ?_, fun n hn => ?_, hlive⟩
    · rw [List.mem_cons, or_assoc] at hi
      rcases hi with rfl | hi | hi
      · exact Or.inr (linked_initListHead _ (Or.inr rfl))
      · exact Or.inl hi
      · exact Or.inr (linked_initListHead _ (Or.inl hi))
    · exact (sameLinks_initListHead s (apart_of_ne _ _ (hn a).symm)).trans (hsame n hn)

/-- **`dcache_init`** makes an empty table. -/
theorem table_dcacheInit (hK : ∀ n, K n → TreeNode n) (hconf : Confined K .null s) :
    Table K (dcacheInit true s) [] ∧ (dcacheInit true s).live = [] := by
  obtain ⟨hlinked, hsame, hlive⟩ :=
    initBuckets_spec (List.range dentryHashSize) { s with live := [] }
  have hnil : (dcacheInit true s).live = [] := hlive
  refine ⟨⟨⟨fun i hi => ?_, fun i j hi hj hij a ha b hb => ?_⟩, List.nodup_nil, by simp, by simp,
    by simp [hnil], hK, by simp [hnil], ?_⟩, hnil⟩
  · exact ring_nil (hlinked i (Or.inl (List.mem_range.mpr hi)))
  · simp only [List.filter_nil, List.map_nil, List.mem_singleton] at ha hb
    rw [ha, hb]
    exact apart_of_ne _ _ (by simpa using hij)
  · refine hconf.transport fun n hn => hsame n ?_
    rintro i rfl
    exact hK _ hn

end YegaKernel.Fs.Dcache.Hash
