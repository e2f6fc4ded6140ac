import YegaKernel.Fs.Dcache.Hash

/-! # The lists of children and of aliases

A dentry should be on the list `d_subdirs` of its parent and on the list `i_dentry` of its inode,
and has one node `d_child` for both. `TreeOk` says what the two kinds of lists should hold. In a
state in which the lists are right, a dentry with an inode is its own parent
(`TreeOk.root_of_inode`).

`Forest` is the invariant that the functions keep as long as only roots have inodes: a lemma for
each of them. The lists of the hash table need not be well formed for it; it is enough that their
links do not lead out of the table. `Forest.free`: a dentry that is freed leaves its list and
disturbs no other. -/

namespace YegaKernel.Fs.Dcache.Tree

open Lib.Links Lib.Families Lib.Word
open Fs.Dcache.Model Fs.Dcache.Hash Function

/-- The two kinds of lists: of the children of a dentry, and of the dentries of an inode. -/
inductive Owner
  | parent (p : ℕ)
  | inode (i : ℕ)
  deriving DecidableEq

def Owner.head : Owner → Link
  | .parent p => .subdirsOf p
  | .inode i => .dentryOf i

/-- The dentries in use and the inodes have lists. -/
def Owner.Here (inodes : Set ℕ) (live : List ℕ) : Owner → Prop
  | .parent p => p ∈ live
  | .inode i => i ∈ inodes

/-- The dentry belongs on the list. -/
def Owner.Has (s : DentryCache) (d : ℕ) : Owner → Prop
  | .parent p => (s.dentries d).dParent = p ∧ d ≠ p
  | .inode i => (s.dentries d).dInode = some i

/-- **The lists are right**: each is a well-formed circular list of the `d_child` nodes of the
dentries in use that belong on it. -/
def TreeOk (inodes : Set ℕ) (s : DentryCache) : Prop :=
  ∀ o : Owner, o.Here inodes s.live → ∃ ds : List ℕ,
    Ring s o.head (ds.map .childOf) ∧ ∀ d, d ∈ ds ↔ d ∈ s.live ∧ o.Has s d

variable {inodes : Set ℕ} {H : Link → Prop} {s s' : DentryCache} {B : Owner → List ℕ} {d i : ℕ}

/-- **One node is not enough for two lists**: where the lists are right, a dentry with an inode is a
root. -/
theorem TreeOk.root_of_inode (h : TreeOk inodes s) (hd : d ∈ s.live)
    (hparent : (s.dentries d).dParent ∈ s.live) (hi : i ∈ inodes)
    (hinode : (s.dentries d).dInode = some i) : (s.dentries d).dParent = d := by
  by_contra hne
  obtain ⟨cs, hcs, hcmem⟩ := h (.parent (s.dentries d).dParent) hparent
  obtain ⟨ds, hds, hdmem⟩ := h (.inode i) hi
  have hc : Link.childOf d ∈ cs.map .childOf :=
    List.mem_map_of_mem ((hcmem d).mpr ⟨hd, rfl, Ne.symm hne⟩)
  have hd' : Link.childOf d ∈ ds.map .childOf := List.mem_map_of_mem ((hdmem d).mpr ⟨hd, hinode⟩)
  have hshared := hcs.head_mem_of_shared hds hc hd'
  simp [Owner.head] at hshared

/-! ### The invariant -/

/-- The list heads of the hash table. -/
def HashNode : Link → Prop
  | .bucket _ => True
  | .hashOf _ => True
  | _ => False

/-- **The invariant of the lists**; `H` are the nodes of the hash table. -/
structure Forest (inodes : Set ℕ) (H : Link → Prop) (s : DentryCache) (B : Owner → List ℕ) :
    Prop where
  rings : Rings s (Owner.Here inodes s.live) Owner.head (fun _ => Link.childOf) B
  mem : ∀ o : Owner, o.Here inodes s.live → ∀ d, d ∈ B o ↔ d ∈ s.live ∧ o.Has s d
  parent : ∀ d ∈ s.live, (s.dentries d).dParent ∈ s.live
  root : ∀ d ∈ s.live, ∀ i, (s.dentries d).dInode = some i → (s.dentries d).dParent = d
  nodup : s.live.Nodup
  table : ∀ n, H n → HashNode n
  buckets : ∀ i < dentryHashSize, H (.bucket i)
  nodes : ∀ d ∈ s.live, H (.hashOf d)
  confined : Confined H .null s

theorem Forest.treeOk (h : Forest inodes H s B) : TreeOk inodes s :=
  fun o ho => ⟨B o, h.rings.ring o ho, h.mem o ho⟩

theorem mem_list {o : Owner} {l : List ℕ} {n : Link} (hn : n ∈ o.head :: l.map .childOf) :
    n = o.head ∨ ∃ e ∈ l, n = .childOf e := by
  simpa [eq_comm] using hn

theorem treeNode_list {o : Owner} {l : List ℕ} {n : Link} (hn : n ∈ o.head :: l.map .childOf) :
    TreeNode n := by
  rcases mem_list hn with rfl | ⟨e, -, rfl⟩
  · cases o <;> trivial
  · trivial

theorem Forest.not_hash (h : Forest inodes H s B) {n : Link} (hn : TreeNode n) :
    ¬ H n ∧ n ≠ .null := by
  refine ⟨fun hH => ?_, ?_⟩
  · have hh := h.table n hH
    cases n <;> trivial
  · rintro rfl
    exact hn

theorem Forest.transport (h : Forest inodes H s B) (hlinks : ∀ n, TreeNode n → SameLinks s s' n)
    (hlive : s'.live = s.live) (hparent : ∀ e, (s'.dentries e).dParent = (s.dentries e).dParent)
    (hinode : ∀ e, (s'.dentries e).dInode = (s.dentries e).dInode)
    (hconf : Confined H .null s') : Forest inodes H s' B := by
  have hhas : ∀ (o : Owner) (e : ℕ), o.Has s' e ↔ o.Has s e := by
    intro o e
    cases o <;> simp only [Owner.Has, hparent, hinode]
  refine ⟨?_, ?_, ?_, ?_, ?_, h.table, h.buckets, ?_, hconf⟩
  · rw [hlive]
    exact h.rings.transport fun o _ n hn => hlinks n (treeNode_list hn)
  · rw [hlive]
    intro o ho e
    rw [hhas]
    exact h.mem o ho e
  · rw [hlive]
    intro e he
    rw [hparent]
    exact h.parent e he
  · rw [hlive]
    intro e he j hj
    rw [hinode] at hj
    rw [hparent]
    exact h.root e he j hj
  · rw [hlive]
    exact h.nodup
  · rw [hlive]
    exact h.nodes

theorem Forest.upd (h : Forest inodes H s B) (d : ℕ) {f : Dentry → Dentry}
    (hparent : (f (s.dentries d)).dParent = (s.dentries d).dParent)
    (hinode : (f (s.dentries d)).dInode = (s.dentries d).dInode) :
    Forest inodes H (s.upd d f) B := by
  refine h.transport (fun n _ => sameLinks_upd s d f n) rfl (fun e => ?_) (fun e => ?_)
    (h.confined.transport fun n _ => sameLinks_upd s d f n)
  · by_cases hed : e = d
    · subst hed
      rw [upd_self, hparent]
    · rw [upd_of_ne _ _ _ hed]
  · by_cases hed : e = d
    · subst hed
      rw [upd_self, hinode]
    · rw [upd_of_ne _ _ _ hed]

/-! ### The hash table apart -/

theorem Forest.enterHash (h : Forest inodes H s B) (hd : d ∈ s.live) :
    Forest inodes H (enterHash s d) B := by
  have hb := h.buckets _ (bucketOf_lt s d)
  refine h.transport (fun n hn => ?_) rfl (fun e => ?_) (fun e => ?_)
    (h.confined.listAdd apart_of_ne hb (h.nodes d hd))
  · obtain ⟨hH, hnull⟩ := h.not_hash hn
    exact h.confined.sameLinks_listAdd apart_of_ne hb (h.nodes d hd) hH hnull
  · obtain ⟨f, hf⟩ := enterHash_dentries s d e
    rw [hf]
  · obtain ⟨f, hf⟩ := enterHash_dentries s d e
    rw [hf]

theorem sameLinks_dDelete (hconf : Confined H .null s) (hd : H (.hashOf d)) :
    Confined H .null (dDelete s (some d)) ∧
      ∀ n, ¬ H n → n ≠ .null → SameLinks s (dDelete s (some d)) n := by
  rw [dDelete]
  split
  · exact ⟨hconf.listDel apart_of_ne hd, fun n hn hnull =>
      hconf.sameLinks_listDel apart_of_ne hd hn hnull⟩
  · exact ⟨hconf, fun n _ _ => SameLinks.refl s n⟩

theorem Forest.dDelete (h : Forest inodes H s B) (hd : d ∈ s.live) :
    Forest inodes H (dDelete s (some d)) B := by
  obtain ⟨hconf, hsame⟩ := sameLinks_dDelete h.confined (h.nodes d hd)
  refine h.transport (fun n hn => ?_) (dDelete_live s _) (fun e => ?_) (fun e => ?_) hconf
  · obtain ⟨hH, hnull⟩ := h.not_hash hn
    exact hsame n hH hnull
  · obtain ⟨f, hf⟩ := dDelete_dentries s d e
    rw [hf]
  · obtain ⟨f, hf⟩ := dDelete_dentries s d e
    rw [hf]

/-! ### Linking in -/

theorem apart_hash {m n : Link} (hm : TreeNode m) (hn : HashNode n) :
    LinkStore.Apart DentryCache m n := by
  rintro rfl
  cases m <;> trivial

theorem apart_of_off {live : List ℕ} (hd : ∀ o : Owner, o.Here inodes live → d ∉ B o)
    (o : Owner) (ho : o.Here inodes live) (n : Link) (hn : n ∈ o.head :: (B o).map .childOf) :
    LinkStore.Apart DentryCache (.childOf d) n := by
  refine apart_of_ne _ _ ?_
  rcases mem_list hn with rfl | ⟨e, he, rfl⟩
  · cases o <;> simp [Owner.head]
  · rintro hde
    rw [← Link.childOf.inj hde] at he
    exact hd o ho he

/-- **`d_instantiate`** of a root without an inode. -/
theorem Forest.dInstantiate (h : Forest inodes H s B) (hd : d ∈ s.live)
    (hroot : (s.dentries d).dParent = d) (hnone : (s.dentries d).dInode = none) (hi : i ∈ inodes) :
    Forest inodes H (dInstantiate s (some d) (some i))
      (update B (.inode i) (d :: B (.inode i))) := by
  have hoff : ∀ o : Owner, o.Here inodes s.live → d ∉ B o := by
    intro o ho hm
    have hhas := ((h.mem o ho d).mp hm).2
    cases o with
    | parent p => exact hhas.2 (hroot.symm.trans hhas.1)
    | inode j => simp [Owner.Has, hnone] at hhas
  have hlist := h.rings.listAdd (i := Owner.inode i) hi (apart_of_off hoff)
  have hparent : ∀ e, ((Model.dInstantiate s (some d) (some i)).dentries e).dParent =
      (s.dentries e).dParent := by
    intro e
    by_cases hed : e = d
    · subst hed
      rw [dInstantiate_self]
    · rw [dInstantiate_of_ne _ _ hed]
  have hinode : ∀ e ≠ d, ((Model.dInstantiate s (some d) (some i)).dentries e).dInode =
      (s.dentries e).dInode := by
    intro e hed
    rw [dInstantiate_of_ne _ _ hed]
  have hself : ((Model.dInstantiate s (some d) (some i)).dentries d).dInode = some i := by
    rw [dInstantiate_self]
  refine ⟨hlist.transport fun _ _ _ _ => ⟨rfl, rfl⟩, fun o ho e => ?_, fun e he => ?_,
    fun e he j hj => ?_, h.nodup, h.table, h.buckets, h.nodes, ?_⟩
  · by_cases hoi : o = .inode i
    · subst hoi
      rw [update_self, List.mem_cons, h.mem (.inode i) hi e]
      by_cases hed : e = d
      · subst hed
        exact iff_of_true (Or.inl rfl) ⟨hd, hself⟩
      · simp only [hed, false_or, Owner.Has, hinode e hed]
        rfl
    · rw [update_of_ne hoi, h.mem o ho e]
      refine and_congr_right fun _ => ?_
      cases o with
      | parent p => simp only [Owner.Has, hparent]
      | inode j =>
        by_cases hed : e = d
        · subst hed
          simp only [Owner.Has, hnone, hself, Option.some.injEq]
          exact iff_of_false (by simp) fun hij => hoi (by rw [hij])
        · simp only [Owner.Has, hinode e hed]
  · rw [hparent]
    exact h.parent e he
  · rw [hparent]
    by_cases hed : e = d
    · rw [hed, hroot]
    · rw [hinode e hed] at hj
      exact h.root e he j hj
  · exact h.confined.transport fun n hn => (h.rings.ring (.inode i) hi).sameLinks_listAdd
      (fun m hm => apart_hash (treeNode_list hm) (h.table n hn)) (apart_hash trivial (h.table n hn))

theorem Owner.here_cons {o : Owner} {live : List ℕ} (ho : o.Here inodes (d :: live)) :
    o = .parent d ∨ o.Here inodes live := by
  cases o with
  | parent q =>
    rcases List.mem_cons.mp ho with rfl | hq
    · exact Or.inl rfl
    · exact Or.inr hq
  | inode j => exact Or.inr ho

theorem ring_initDentry (s : DentryCache) (d : ℕ) (parent : Option ℕ)
    (name : Option (List UInt8)) : Ring (initDentry s d parent name) (.subdirsOf d) [] := by
  have hlast : ∀ t : DentryCache,
      Ring (initListHead (initListHead t (.subdirsOf d)) (.hashOf d)) (.subdirsOf d) [] := by
    refine fun t => (ring_initListHead t (Link.subdirsOf d)).transport fun n hn => ?_
    rw [List.mem_singleton.mp hn]
    exact sameLinks_initListHead _ (apart_of_ne _ _ (by simp))
  exact hlast _

theorem Forest.ne_of_new (h : Forest inodes H s B) (hd : d ∉ s.live) {o : Owner}
    (ho : o.Here inodes s.live) {n : Link} (hn : n ∈ o.head :: (B o).map .childOf) :
    n ≠ .lruOf d ∧ n ≠ .childOf d ∧ n ≠ .subdirsOf d ∧ n ≠ .hashOf d := by
  rcases mem_list hn with rfl | ⟨e, he, rfl⟩
  · cases o with
    | parent p =>
      have hpd : p ≠ d := fun hpd => hd (hpd ▸ ho)
      simpa [Owner.head] using hpd
    | inode j => simp [Owner.head]
  · have hed : e ≠ d := fun hed => hd (hed ▸ ((h.mem o ho e).mp he).1)
    simpa using hed

theorem Forest.rings_initDentry (h : Forest inodes H s B) (hd : d ∉ s.live) (parent : Option ℕ)
    (name : Option (List UInt8)) :
    Rings (initDentry s d parent name) (Owner.Here inodes (d :: s.live)) Owner.head
      (fun _ => Link.childOf) (update B (.parent d) []) := by
  have hinit : Rings (initDentry s d parent name) (Owner.Here inodes s.live) Owner.head
      (fun _ => Link.childOf) B := by
    refine h.rings.transport fun o ho n hn => ?_
    obtain ⟨hlru, hchild, hsub, hhash⟩ := h.ne_of_new hd ho hn
    exact sameLinks_initDentry s parent name hlru hchild hsub hhash
  have hgrown := hinit.insert (i := Owner.parent d) (ring_initDentry s d parent name)
    fun o ho n hn => apart_of_ne _ _ (h.ne_of_new hd ho hn).2.2.1.symm
  exact hgrown.congr fun o ho => ⟨Owner.here_cons ho, rfl⟩

theorem Forest.lists_dAlloc (h : Forest inodes H s B) (hd : d ∉ s.live) {parent : Option ℕ}
    (hparent : ∀ p, parent = some p → p ∈ s.live) (name : Option (List UInt8)) :
    ∃ B', Rings (dAlloc s (some d) parent name).2 (Owner.Here inodes (d :: s.live)) Owner.head
        (fun _ => Link.childOf) B' ∧ B' (.parent d) = [] ∧
      (∀ o : Owner, o ≠ .parent d → ∀ e, e ∈ B' o ↔ e ∈ B o ∨ e = d ∧ ∃ p, parent = some p ∧
        o = .parent p) ∧
      ∀ n, HashNode n → SameLinks (initDentry s d parent name) (dAlloc s (some d) parent name).2 n := by
  have hgrown := h.rings_initDentry hd parent name
  cases parent with
  | none =>
    refine ⟨_, hgrown, update_self .., fun o ho e => ?_, fun n _ => SameLinks.refl _ n⟩
    rw [update_of_ne ho]
    simp
  | some p =>
    have hp : Owner.Here inodes (d :: s.live) (.parent p) := List.mem_cons_of_mem _ (hparent p rfl)
    have hpd : p ≠ d := fun hpd => hd (hpd ▸ hparent p rfl)
    have hoff : ∀ o : Owner, o.Here inodes (d :: s.live) →
        d ∉ update B (.parent d) [] o := by
      intro o ho hm
      by_cases hod : o = .parent d
      · rw [hod, update_self] at hm
        exact List.not_mem_nil hm
      · rw [update_of_ne hod] at hm
        exact hd ((h.mem o ((Owner.here_cons ho).resolve_left hod) d).mp hm).1
    have halloc : (Model.dAlloc s (some d) (some p) name).2 =
        listAdd (initDentry s d (some p) name) (.subdirsOf p) (.childOf d) := by
      simp only [Model.dAlloc, ne_eq, hpd, not_false_eq_true, if_true]
    rw [halloc]
    have hadd := hgrown.listAdd hp (apart_of_off hoff)
    refine ⟨_, hadd, ?_, fun o ho e => ?_, fun n hn => ?_⟩
    · rw [update_of_ne (by simpa using hpd.symm), update_self]
    · by_cases hop : o = .parent p
      · subst hop
        rw [update_self, update_of_ne ho, List.mem_cons]
        simp [or_comm]
      · rw [update_of_ne hop, update_of_ne ho]
        simp [hop]
    · exact (hgrown.ring _ hp).sameLinks_listAdd (fun m hm => apart_hash (treeNode_list hm) hn)
        (apart_hash trivial hn)

theorem has_newDentry {parent : Option ℕ} {name : Option (List UInt8)}
    (hs : s.dentries d = newDentry d parent name) {o : Owner} (ho : o ≠ .parent d) :
    o.Has s d ↔ ∃ p, parent = some p ∧ o = .parent p := by
  cases o with
  | parent q =>
    have hdq : d ≠ q := fun hdq => ho (by rw [hdq])
    cases parent <;> simp [Owner.Has, hs, newDentry, hdq, eq_comm]
  | inode j => simp [Owner.Has, hs, newDentry]

theorem Forest.confined_initDentry (h : Forest inodes H s B) (parent : Option ℕ)
    (name : Option (List UInt8)) :
    Confined (fun n => H n ∨ n = .hashOf d) .null (initDentry s d parent name) := by
  have hsame : ∀ (t : DentryCache) (m : Link), TreeNode m → Confined H .null t →
      Confined H .null (initListHead t m) := fun t m hm ht =>
    ht.transport fun n hn => sameLinks_initListHead t (apart_hash hm (h.table n hn))
  have h0 : Confined H .null (DentryCache.upd { s with live := d :: s.live } d
      fun _ => newDentry d parent name) := h.confined.transport fun _ _ => ⟨rfl, rfl⟩
  exact (hsame _ (.subdirsOf d) trivial (hsame _ (.childOf d) trivial
    (hsame _ (.lruOf d) trivial h0))).initListHead apart_of_ne (.hashOf d)

/-- **`d_alloc`** links a new dentry to its parent. -/
theorem Forest.dAlloc (h : Forest inodes H s B) (hd : d ∉ s.live) {parent : Option ℕ}
    (hparent : ∀ p, parent = some p → p ∈ s.live) (name : Option (List UInt8)) :
    ∃ B', Forest inodes (fun n => H n ∨ n = .hashOf d) (dAlloc s (some d) parent name).2 B' := by
  have hne : ∀ e ∈ s.live, e ≠ d := fun e he hed => hd (hed ▸ he)
  obtain ⟨B', hrings, hown, hmem, hhash⟩ := h.lists_dAlloc hd hparent name
  have hother : ∀ e ∈ s.live, (Model.dAlloc s (some d) parent name).2.dentries e = s.dentries e :=
    fun e he => dAlloc_of_ne s d parent name (hne e he)
  have hself := dAlloc_self s d parent name
  have htable : ∀ n, H n ∨ n = .hashOf d → HashNode n := by
    rintro n (hn | rfl)
    · exact h.table n hn
    · trivial
  refine ⟨B', ?_, fun o ho e => ?_, fun e he => ?_, fun e he j hj => ?_, ?_, htable,
    fun k hk => Or.inl (h.buckets k hk), fun e he => ?_,
    (h.confined_initDentry parent name).transport fun n hn => hhash n (htable n hn)⟩
  · rwa [dAlloc_live]
  · rw [dAlloc_live] at ho ⊢
    by_cases hod : o = .parent d
    · -- nobody can have an object that was not in use for its parent
      subst hod
      rw [hown]
      refine iff_of_false (by simp) ?_
      rintro ⟨he, hpar, hed⟩
      have he' := (List.mem_cons.mp he).resolve_left hed
      rw [hother e he'] at hpar
      exact hd (hpar ▸ h.parent e he')
    · rw [hmem o hod e, h.mem o ((Owner.here_cons ho).resolve_left hod) e, List.mem_cons]
      by_cases hed : e = d
      · subst hed
        simp only [hd, false_and, true_and, false_or, true_or]
        exact (has_newDentry hself hod).symm
      · simp only [hed, false_and, or_false, false_or]
        refine and_congr_right fun he => ?_
        cases o <;> simp only [Owner.Has, hother e he]
  · rw [dAlloc_live] at he ⊢
    rcases List.mem_cons.mp he with rfl | he
    · rw [hself]
      cases parent with
      | none => exact List.mem_cons_self
      | some p => exact List.mem_cons_of_mem _ (hparent p rfl)
    · rw [hother e he]
      exact List.mem_cons_of_mem _ (h.parent e he)
  · rw [dAlloc_live] at he
    rcases List.mem_cons.mp he with rfl | he
    · simp [newDentry] at hj
    · rw [hother e he] at hj ⊢
      exact h.root e he j hj
  · rw [dAlloc_live]
    exact List.nodup_cons.mpr ⟨hd, h.nodup⟩
  · rw [dAlloc_live] at he
    rcases List.mem_cons.mp he with rfl | he
    · exact Or.inr rfl
    · exact Or.inl (h.nodes e he)

/-! ### Taking out -/

section
variable (h : Forest inodes H s B)
include h

theorem Forest.off_other (hd : d ∈ s.live)
    (hne : (s.dentries d).dParent ≠ d) {o : Owner} (ho : o.Here inodes s.live)
    (hother : o ≠ .parent (s.dentries d).dParent) : d ∉ B o := by
  intro hm
  have hhas := ((h.mem o ho d).mp hm).2
  cases o with
  | parent q => exact hother (by rw [hhas.1])
  | inode j => exact hne (h.root d hd j hhas)

theorem Forest.lists_unlinkChild (hd : d ∈ s.live)
    (hroot : (s.dentries d).dParent = d → (s.dentries d).dInode = none) :
    Rings (unlinkChild s d) (Owner.Here inodes s.live) Owner.head (fun _ => Link.childOf)
        (fun o => (B o).erase d) ∧ Confined H .null (unlinkChild s d) := by
  by_cases hpd : (s.dentries d).dParent = d
  · rw [unlinkChild, if_neg (not_not.mpr hpd)]
    refine ⟨h.rings.congr fun o ho => ⟨ho, List.erase_of_not_mem fun hm => ?_⟩, h.confined⟩
    have hhas := ((h.mem o ho d).mp hm).2
    cases o with
    | parent q => exact hhas.2 (hpd.symm.trans hhas.1)
    | inode j => simp [Owner.Has, hroot hpd] at hhas
  · rw [unlinkChild, if_pos hpd]
    have hp : (Owner.parent (s.dentries d).dParent).Here inodes s.live := h.parent d hd
    have hm : d ∈ B (.parent (s.dentries d).dParent) :=
      (h.mem _ hp d).mpr ⟨hd, rfl, Ne.symm hpd⟩
    constructor
    · refine (h.rings.listDel .null hp hm).congr fun o ho => ⟨ho, ?_⟩
      by_cases hop : o = .parent (s.dentries d).dParent
      · rw [hop, update_self]
      · rw [update_of_ne hop, List.erase_of_not_mem (h.off_other hd hpd ho hop)]
    · obtain ⟨us, vs, hcut⟩ := List.append_of_mem hm
      have hring := h.rings.ring _ hp
      rw [hcut, List.map_append, List.map_cons] at hring
      refine h.confined.transport fun n hn => hring.sameLinks_listDel .null fun m hm => ?_
      rw [← List.map_cons, ← List.map_append] at hm
      exact apart_hash (treeNode_list hm) (h.table n hn)

theorem Forest.discard (hd : d ∈ s.live)
    (hroot : (s.dentries d).dParent = d → (s.dentries d).dInode = none)
    (hleaf : ∀ e ∈ s.live, (s.dentries e).dParent = d → e = d) :
    Forest inodes H (discard s d) fun o => (B o).erase d := by
  obtain ⟨hrings, hconf⟩ := h.lists_unlinkChild hd hroot
  obtain ⟨hconf', hsame⟩ := sameLinks_dDelete hconf (h.nodes d hd)
  have hkept : ∀ e, e ∈ (Model.discard s d).live ↔ e ≠ d ∧ e ∈ s.live := by
    intro e
    rw [discard_live, h.nodup.mem_erase_iff]
  have hhere : ∀ o : Owner, o.Here inodes (Model.discard s d).live → o.Here inodes s.live := by
    intro o ho
    cases o with
    | parent q => exact ((hkept q).mp ho).2
    | inode j => exact ho
  refine ⟨?_, fun o ho e => ?_, fun e he => ?_, fun e he j hj => ?_, ?_, h.table, h.buckets,
    fun e he => h.nodes e ((hkept e).mp he).2, hconf'.transport fun _ _ => ⟨rfl, rfl⟩⟩
  · refine (hrings.transport fun o _ n hn => ?_).congr fun o ho => ⟨hhere o ho, rfl⟩
    obtain ⟨hH, hnull⟩ := h.not_hash (treeNode_list hn)
    exact hsame n hH hnull
  · obtain ⟨f, hf⟩ := discard_dentries s d e
    have hhas : o.Has (Model.discard s d) e ↔ o.Has s e := by
      cases o <;> simp only [Owner.Has, hf]
    rw [(h.rings.nodup (hhere o ho)).mem_erase_iff, h.mem o (hhere o ho) e, hkept, hhas, and_assoc]
  · obtain ⟨f, hf⟩ := discard_dentries s d e
    obtain ⟨hed, he⟩ := (hkept e).mp he
    rw [hf]
    exact (hkept _).mpr ⟨fun hpar => hed (hleaf e he hpar), h.parent e he⟩
  · obtain ⟨f, hf⟩ := discard_dentries s d e
    rw [hf] at hj ⊢
    exact h.root e ((hkept e).mp he).2 j hj
  · rw [discard_live]
    exact h.nodup.erase d

/-- **A freed dentry** leaves its list; the others stay as they are. -/
theorem Forest.free (hd : d ∈ s.live) (hzero : sub32 (s.dentries d).dCount 1 = 0)
    (hroot : (s.dentries d).dParent = d → (s.dentries d).dInode = none)
    (hleaf : ∀ e ∈ s.live, (s.dentries e).dParent = d → e = d) :
    Forest inodes H (dput s (some d)) fun o => (B o).erase d := by
  have hcount := h.upd d (f := fun e => { e with dCount := sub32 e.dCount 1 }) rfl rfl
  rw [dput_of_zero hzero]
  refine hcount.discard hd (by simpa using hroot) fun e he hpar => hleaf e he ?_
  by_cases hed : e = d
  · rw [hed, upd_self] at hpar
    rw [hed]
    exact hpar
  · rwa [upd_of_ne _ _ _ hed] at hpar

end

end YegaKernel.Fs.Dcache.Tree
