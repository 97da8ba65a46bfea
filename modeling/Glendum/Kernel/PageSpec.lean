import Glendum.Kernel.Page
import Mathlib.Algebra.BigOperators.Group.Finset.Basic
import Mathlib.Algebra.BigOperators.Group.Finset.Piecewise
import Mathlib.Algebra.BigOperators.Ring.Finset
import Mathlib.Data.Finset.Range
import Mathlib.Tactic.Ring

/-!
# Glendum — what the page functions do

Two facts hold of `palloc` between calls: its free list spells a list of pages
(`FreeList`) and its hash chains spell the cached pages, every one on the chain of
its `daddr` (`Hashed`). Under them every function of the page layer completes, and
each has one theorem here that says with what:

* `uncachepage_spec`, `cachedel_some` — the page is as it was, less its image
  (`Uncached`);
* `cachepage_spec` — the page has the image, and heads the chain of its `daddr`
  (`Cached`);
* `find_cached`, `firstOfColor_spec` — the loops over a chain and over the free
  list answer with a page of the list.

`CacheMap` is the table that the cache stands for, and `Caches` says that the
cached pages are its entries.
-/

namespace Glendum

open Machine Lists

/-! ## The table the cache stands for -/

/-- One page for every pair of an image and an address that is cached. -/
abbrev CacheMap := ImageId → Word → Option PageId

namespace CacheMap

/-- Every key of a page removed. -/
def dropPage (m : CacheMap) (p : PageId) : CacheMap := fun i d =>
  if m i d = some p then none else m i d

def dropKey (m : CacheMap) (i : ImageId) (d : Word) : CacheMap := fun i' d' =>
  if i' = i ∧ d' = d then none else m i' d'

def insert (m : CacheMap) (i : ImageId) (d : Word) (p : PageId) : CacheMap := fun i' d' =>
  if i' = i ∧ d' = d then some p else m i' d'

/-- The keys of a page go to another, whose own are removed. -/
def move (m : CacheMap) (p q : PageId) : CacheMap := fun i d =>
  if m i d = some p then some q else m.dropPage q i d

end CacheMap

/-! ## Invariants -/

/-- The free list of `k` is `fl`, and holds the pages without a reference. -/
structure FreeList (k : Palloc) (fl : List PageId) : Prop where
  links : k.free.IsList fl
  count : k.freecount = fl.length
  mem   : ∀ p, p ∈ fl ↔ p < k.user ∧ (k.pages p).ref = 0

/-- The hash chains of `k` are `ch`, and hold the pages with an image. -/
structure Hashed (P : Port) (k : Palloc) (ch : Nat → List PageId) : Prop where
  spells : k.chains.Spells ch
  mem    : ∀ b p, p ∈ ch b ↔
    p < k.user ∧ (k.pages p).image ≠ none ∧ b = P.pghash (k.pages p).daddr

/-- The cached pages of `k` are the entries of `m`. -/
def Caches (k : Palloc) (m : CacheMap) : Prop :=
  ∀ i d p, m i d = some p ↔ p < k.user ∧ (k.pages p).image = some i ∧ (k.pages p).daddr = d

/-- The pages below `n` that are cached for an image. -/
def imageCount (pages : PageId → Page) (n : Nat) (i : ImageId) : Int :=
  ∑ p ∈ Finset.range n, if (pages p).image = some i then 1 else 0

section

variable {P : Port} {k k' : Palloc} {fl : List PageId} {ch : Nat → List PageId} {m : CacheMap}
  {p : PageId}

/-- Nodes that are all pages of the pool are no more than the pool has. -/
theorem length_le_of_nodup {l : List PageId} {n : Nat} (hNodup : l.Nodup)
    (hBound : ∀ p ∈ l, p < n) : l.length ≤ n := by
  have hSub : l ⊆ List.range n := fun p hp => List.mem_range.mpr (hBound p hp)
  simpa using (List.subperm_of_subset hNodup hSub).length_le

/-- The free list is no longer than the pool. -/
theorem FreeList.length_le (h : FreeList k fl) : fl.length ≤ k.user :=
  length_le_of_nodup h.links.nodup fun p hp => ((h.mem p).mp hp).1

/-- Nor is a chain. -/
theorem Hashed.length_le (h : Hashed P k ch) (b : Nat) : (ch b).length ≤ k.user :=
  length_le_of_nodup (h.spells.nodup b) fun p hp => ((h.mem b p).mp hp).1

/-- The free list only depends on its links, its counter and the references. -/
theorem FreeList.congr (h : FreeList k fl) (hFree : k'.free = k.free)
    (hCount : k'.freecount = k.freecount) (hUser : k'.user = k.user)
    (hRef : ∀ p, p < k.user → (k'.pages p).ref = (k.pages p).ref) : FreeList k' fl where
  links := hFree ▸ h.links
  count := hCount.trans h.count
  mem p := by
    rw [h.mem, hUser]
    exact and_congr_right fun hp => by rw [hRef p hp]

/-- The chains see the images and the addresses of the pages that have an image. -/
theorem Hashed.congr (h : Hashed P k ch) (hChains : k'.chains = k.chains)
    (hUser : k'.user = k.user)
    (hImage : ∀ p, p < k.user → (k'.pages p).image = (k.pages p).image)
    (hDaddr : ∀ p, p < k.user → (k.pages p).image ≠ none →
      (k'.pages p).daddr = (k.pages p).daddr) : Hashed P k' ch where
  spells := hChains ▸ h.spells
  mem b p := by
    rw [h.mem, hUser]
    refine and_congr_right fun hp => ?_
    rw [hImage p hp]
    exact and_congr_right fun hne => by rw [hDaddr p hp hne]

/-- A page's share in the count of an image, before and after it changes. -/
theorem imageCount_update (pages : PageId → Page) (pg : Page) {n : Nat} {i : ImageId}
    (hp : p < n) :
    imageCount (Function.update pages p pg) n i = imageCount pages n i
      - (if (pages p).image = some i then 1 else 0) + (if pg.image = some i then 1 else 0) := by
  have hMem : p ∈ Finset.range n := Finset.mem_range.mpr hp
  -- the sum over the other pages is the same
  have hRest : ∀ q ∈ (Finset.range n).erase p,
      (if (Function.update pages p pg q).image = some i then (1 : Int) else 0)
        = if (pages q).image = some i then 1 else 0 := by
    intro q hq
    rw [Function.update_of_ne (Finset.ne_of_mem_erase hq)]
  have hNew := Finset.add_sum_erase _
    (fun q => if (Function.update pages p pg q).image = some i then (1 : Int) else 0) hMem
  have hOld := Finset.add_sum_erase _
    (fun q => if (pages q).image = some i then (1 : Int) else 0) hMem
  rw [Finset.sum_congr rfl hRest] at hNew
  rw [Function.update_self] at hNew
  rw [imageCount, imageCount, ← hNew, ← hOld]
  ring

/-! ## A step that only touches the cache -/

/-- Besides the cache entry of the page `p`, `k'` is `k`. -/
structure CacheStep (p : PageId) (k k' : Palloc) : Prop where
  user       : k'.user = k.user
  free       : k'.free = k.free
  freecount  : k'.freecount = k.freecount
  highwater  : k'.highwater = k.highwater
  dupretries : k'.dupretries = k.dupretries
  others     : ∀ q, q ≠ p → k'.pages q = k.pages q
  ref        : (k'.pages p).ref = (k.pages p).ref
  color      : (k'.pages p).color = (k.pages p).color

/-- Nothing has changed. -/
theorem CacheStep.refl : CacheStep p k k :=
  ⟨rfl, rfl, rfl, rfl, rfl, fun _ _ => rfl, rfl, rfl⟩

/-- The references are not touched. -/
theorem CacheStep.ref_eq (h : CacheStep p k k') (q : PageId) :
    (k'.pages q).ref = (k.pages q).ref := by
  by_cases hq : q = p
  · rw [hq, h.ref]
  · rw [h.others q hq]

/-- `p` has lost its cache entry, and its image the reference. -/
structure Uncached (p : PageId) (k k' : Palloc) : Prop extends CacheStep p k k' where
  image : (k'.pages p).image = none
  iref  : ∀ i, k'.iref i - imageCount k'.pages k'.user i = k.iref i - imageCount k.pages k.user i

/-- `p` has got a cache entry for `i`, and the image a reference. -/
structure Cached (p : PageId) (i : ImageId) (k k' : Palloc) : Prop extends CacheStep p k k' where
  image : (k'.pages p).image = some i
  daddr : (k'.pages p).daddr = (k.pages p).daddr
  iref  : ∀ j, k'.iref j - imageCount k'.pages k'.user j = k.iref j - imageCount k.pages k.user j

/-! ## Loops -/

/-- The first page of the color on the list is found, if there is one. -/
theorem firstOfColor_spec (hLinks : k.free.IsList fl) (hLen : fl.length ≤ k.user) (color : Nat) :
    k.firstOfColor color = .ok (fl.find? fun p => (k.pages p).color == color) := by
  rw [Palloc.firstOfColor, hLinks.chain.search _ hLen]

/-- The test of `cachedel` and `lookpage` finds the entry of the table. -/
theorem find?_isCached (h : Hashed P k ch) (hm : Caches k m) (i : ImageId) (d : Word) :
    (ch (P.pghash d)).find? (k.isCached i d) = m i d := by
  have hTest : ∀ f, k.isCached i d f = true ↔
      (k.pages f).image = some i ∧ (k.pages f).daddr = d := by
    intro f
    simp [Palloc.isCached]
  cases hFind : (ch (P.pghash d)).find? (k.isCached i d) with
  | some f =>
    have hUser := ((h.mem _ f).mp (List.mem_of_find?_eq_some hFind)).1
    obtain ⟨hImage, hDaddr⟩ := (hTest f).mp (List.find?_some hFind)
    exact ((hm i d f).mpr ⟨hUser, hImage, hDaddr⟩).symm
  | none =>
    -- an entry would stand on the chain of its address
    cases hEntry : m i d with
    | none => rfl
    | some f =>
      obtain ⟨hUser, hImage, hDaddr⟩ := (hm i d f).mp hEntry
      have hMem : f ∈ ch (P.pghash d) := (h.mem _ f).mpr ⟨hUser, by simp [hImage], by rw [hDaddr]⟩
      exact absurd ((hTest f).mpr ⟨hImage, hDaddr⟩) (List.find?_eq_none.mp hFind f hMem)

/-! ## Removing and adding a cache entry -/

/-- The end of `uncachepage` and of `cachedel`, once the loop has found the place
that points to the page. -/
theorem unchain_spec {test : PageId → Bool} {l : Loc Nat PageId} {i : ImageId}
    (h : Hashed P k ch) (hp : p < k.user) (hImage : (k.pages p).image = some i)
    (hFind : k.chains.find test k.user (.bucket (P.pghash (k.pages p).daddr)) = some (some (l, p))) :
    let k' := (({ k with chains := k.chains.set l (k.chains.next p) } : Palloc).putimage i).setPage p
      fun pg => { pg with image := none, daddr := 0 }
    Uncached p k k' ∧ ∃ ch', Hashed P k' ch' := by
  intro k'
  let f : Page → Page := fun pg => { pg with image := none, daddr := 0 }
  refine ⟨⟨⟨rfl, rfl, rfl, rfl, rfl, ?_, ?_, ?_⟩, ?_, ?_⟩, _,
    h.spells.remove (h.length_le _) hFind, ?_⟩
  · exact fun q hq => Function.update_of_ne hq _ _
  · exact Palloc.setPage_field (f := f) Page.ref (fun _ => rfl) p
  · exact Palloc.setPage_field (f := f) Page.color (fun _ => rfl) p
  · exact congrArg Page.image (Palloc.setPage_self (f := f))
  · -- the count of the image and its references both go down by one
    intro j
    have hCount := imageCount_update k.pages { k.pages p with image := none, daddr := 0 }
      (n := k.user) (i := j) hp
    simp only [k', Palloc.setPage, Palloc.putimage, hCount, hImage, Option.some.injEq,
      Function.update_apply, reduceCtorEq, if_false]
    by_cases hj : j = i
    · subst hj
      simp only [if_true]
      omega
    · have hij : ¬ i = j := fun h => hj h.symm
      simp [hj, hij]
  · intro b q
    have hNodup := h.spells.nodup (P.pghash (k.pages p).daddr)
    have hOld := h.mem b q
    by_cases hq : q = p
    · -- the page itself is on no chain any more
      subst hq
      simp only [k', Palloc.setPage, Palloc.putimage, Function.update_self, ne_eq, not_true_eq_false,
        false_and, and_false, iff_false]
      by_cases hb : b = P.pghash (k.pages q).daddr
      · rw [hb, Function.update_self]
        exact hNodup.not_mem_erase
      · rw [Function.update_of_ne hb]
        exact fun hMem => hb (hOld.mp hMem).2.2
    · have hPage : k'.pages q = k.pages q := Function.update_of_ne hq _ _
      rw [hPage]
      refine Iff.trans ?_ hOld
      by_cases hb : b = P.pghash (k.pages p).daddr
      · rw [hb, Function.update_self, List.mem_erase_of_ne hq]
      · rw [Function.update_of_ne hb]

/-- `uncachepage` takes the page out of its chain, or finds that it has no key. -/
theorem uncachepage_spec (h : Hashed P k ch) (hp : p < k.user) :
    ∃ k', k.uncachepage P p = .ok k' ∧ Uncached p k k' ∧ ∃ ch', Hashed P k' ch' := by
  unfold Palloc.uncachepage
  cases hImage : (k.pages p).image with
  | none => exact ⟨k, rfl, ⟨CacheStep.refl, hImage, fun _ => rfl⟩, ch, h⟩
  | some i =>
    have hMem : p ∈ ch (P.pghash (k.pages p).daddr) := (h.mem _ p).mpr ⟨hp, by simp [hImage], rfl⟩
    obtain ⟨r, hFind, hFound⟩ := h.spells.find (P.pghash (k.pages p).daddr) (· == p)
      (h.length_le _)
    -- only the page itself passes the test, and it is on the chain
    have hSelf : (ch (P.pghash (k.pages p).daddr)).find? (· == p) = some p := by
      cases hf : (ch (P.pghash (k.pages p).daddr)).find? (· == p) with
      | none => exact absurd (beq_self_eq_true p) (List.find?_eq_none.mp hf p hMem)
      | some f =>
        have hfp : (f == p) = true := List.find?_some (p := (· == p)) hf
        rw [eq_of_beq hfp]
    rw [hSelf] at hFound
    obtain ⟨⟨l, f⟩, rfl, rfl⟩ := Option.map_eq_some_iff.mp hFound
    rw [hFind]
    exact ⟨_, rfl, unchain_spec h hp hImage hFind⟩

/-- A key that is not there is not deleted. -/
theorem cachedel_none (h : Hashed P k ch) (hm : Caches k m) {i : ImageId} {d : Word}
    (hKey : m i d = none) : k.cachedel P i d = .ok k := by
  obtain ⟨r, hFind, hFound⟩ := h.spells.find (P.pghash d) (k.isCached i d) (h.length_le _)
  rw [find?_isCached h hm, hKey] at hFound
  obtain rfl := Option.map_eq_none_iff.mp hFound
  rw [Palloc.cachedel, hFind]

/-- What the loop over a chain answers for a key that is cached. -/
theorem find_cached (h : Hashed P k ch) (hm : Caches k m) {i : ImageId} {d : Word}
    (hKey : m i d = some p) :
    ∃ l, k.chains.find (k.isCached i d) k.user (.bucket (P.pghash d)) = some (some (l, p)) ∧
      k.isCached i d p = true := by
  obtain ⟨r, hFind, hFound⟩ := h.spells.find (P.pghash d) (k.isCached i d) (h.length_le _)
  rw [find?_isCached h hm, hKey] at hFound
  obtain ⟨⟨l, f⟩, rfl, rfl⟩ := Option.map_eq_some_iff.mp hFound
  obtain ⟨-, hImage, hDaddr⟩ := (hm i d _).mp hKey
  exact ⟨l, hFind, by simp [Palloc.isCached, hImage, hDaddr]⟩

/-- A key that is there is deleted. -/
theorem cachedel_some (h : Hashed P k ch) (hm : Caches k m) {i : ImageId} {d : Word}
    (hKey : m i d = some p) :
    ∃ k', k.cachedel P i d = .ok k' ∧ Uncached p k k' ∧ ∃ ch', Hashed P k' ch' := by
  obtain ⟨l, hFind, hTest⟩ := find_cached h hm hKey
  obtain ⟨hUser, hImage, hDaddr⟩ := (hm i d p).mp hKey
  rw [Palloc.cachedel, hFind]
  simp only [hTest, if_true]
  exact ⟨_, rfl, unchain_spec h hUser hImage (hDaddr ▸ hFind)⟩

/-- `cachepage` puts the page into the chain of its key. -/
theorem cachepage_spec {i : ImageId} (h : Hashed P k ch) (hp : p < k.user)
    (hImage : (k.pages p).image = none) :
    ∃ k', k.cachepage P p (some i) = .ok k' ∧ Cached p i k k' ∧ ∃ ch', Hashed P k' ch' := by
  -- without an image the page is on no chain, so that it can be pushed
  have hNew : ∀ b, p ∉ ch b := fun b hMem => ((h.mem b p).mp hMem).2.1 hImage
  have hSpells := h.spells.push (b := P.pghash (k.pages p).daddr) hNew
  let k1 := (k.incref i).setPage p fun pg => { pg with image := some i }
  have hPage : k1.pages p = { k.pages p with image := some i } := Function.update_self ..
  have hOthers : ∀ q, q ≠ p → k1.pages q = k.pages q := fun q hq => Function.update_of_ne hq _ _
  refine ⟨{ k1 with chains := k.chains.push (P.pghash (k.pages p).daddr) p }, ?_,
    ⟨⟨rfl, rfl, rfl, rfl, rfl, hOthers, by rw [hPage], by rw [hPage]⟩,
      by rw [hPage], by rw [hPage], ?_⟩, _, hSpells, ?_⟩
  · rw [Palloc.cachepage, if_neg (by simp [hImage])]
    simp only [k1, Palloc.setPage, Palloc.incref, Function.update_self]
  · -- the count of the image and its references both go up by one
    intro j
    have hCount := imageCount_update k.pages { k.pages p with image := some i } (n := k.user) (i := j) hp
    simp only [k1, Palloc.setPage, Palloc.incref, hCount, hImage, Option.some.injEq,
      Function.update_apply, reduceCtorEq, if_false]
    by_cases hj : j = i
    · subst hj
      simp only [if_true]
      omega
    · have hij : ¬ i = j := fun h => hj h.symm
      simp [hj, hij]
  · intro b q
    by_cases hq : q = p
    · -- the page itself heads the chain of its address
      subst hq
      have hUser : q < k1.user := hp
      simp only [hPage, hUser, true_and, ne_eq, reduceCtorEq, not_false_eq_true]
      by_cases hb : b = P.pghash (k.pages q).daddr
      · rw [hb, Function.update_self]
        simp
      · rw [Function.update_of_ne hb]
        simp [hb, hNew b]
    · rw [hOthers q hq]
      refine Iff.trans ?_ (h.mem b q)
      by_cases hb : b = P.pghash (k.pages p).daddr
      · rw [hb, Function.update_self, List.mem_cons]
        simp [hq]
      · rw [Function.update_of_ne hb]

/-! ## The cache between calls -/

/-- The chains, the table they stand for, and the references of the images. -/
structure CacheInv (P : Port) (k : Palloc) (m : CacheMap) : Prop where
  hashed  : ∃ ch, Hashed P k ch
  caches  : Caches k m
  counted : ∀ i, k.iref i = imageCount k.pages k.user i

/-- The cache does not depend on anything but images, addresses and chains. -/
theorem CacheInv.congr (h : CacheInv P k m) (hChains : k'.chains = k.chains)
    (hUser : k'.user = k.user) (hIref : k'.iref = k.iref)
    (hPage : ∀ p, p < k.user →
      (k'.pages p).image = (k.pages p).image ∧ (k'.pages p).daddr = (k.pages p).daddr) :
    CacheInv P k' m := by
  obtain ⟨ch, hHash⟩ := h.hashed
  refine ⟨⟨ch, hHash.congr hChains hUser (fun p hp => (hPage p hp).1)
    fun p hp _ => (hPage p hp).2⟩, ?_, ?_⟩
  · intro i d p
    rw [h.caches, hUser]
    exact and_congr_right fun hp => by rw [(hPage p hp).1, (hPage p hp).2]
  · intro i
    rw [hIref, h.counted, imageCount, imageCount, hUser]
    refine Finset.sum_congr rfl fun p hp => ?_
    rw [(hPage p (Finset.mem_range.mp hp)).1]

/-- The entries of the cache without a page. -/
theorem Caches.uncached (hm : Caches k m) (hStep : Uncached p k k') : Caches k' (m.dropPage p) := by
  intro i d q
  rw [CacheMap.dropPage, hStep.user]
  by_cases hq : q = p
  · -- the page has lost its image, and every key of it is removed
    subst hq
    simp only [hStep.image, reduceCtorEq, false_and, and_false, iff_false]
    split
    · simp
    · assumption
  · rw [hStep.others q hq, ← hm i d q]
    split
    · rename_i hKey
      simp [hKey, Ne.symm hq]
    · rfl

/-- The page has lost its key. -/
theorem CacheInv.uncached (h : CacheInv P k m) (hStep : Uncached p k k')
    (hHash : ∃ ch', Hashed P k' ch') : CacheInv P k' (m.dropPage p) where
  hashed := hHash
  caches := h.caches.uncached hStep
  counted i := by
    -- the difference of the two counts is what the step keeps
    have hOld := h.counted i
    have hNew := hStep.iref i
    omega

/-- `uncachepage` drops the key of its page. -/
theorem CacheInv.uncachepage (h : CacheInv P k m) (hp : p < k.user) :
    ∃ k', k.uncachepage P p = .ok k' ∧ CacheStep p k k' ∧ CacheInv P k' (m.dropPage p) := by
  obtain ⟨ch, hHash⟩ := h.hashed
  obtain ⟨k', hRun, hStep, hHash'⟩ := uncachepage_spec hHash hp
  exact ⟨k', hRun, hStep.toCacheStep, h.uncached hStep hHash'⟩

/-- A page that is cached under one key is cached under no other. -/
theorem Caches.dropKey_eq {i : ImageId} {d : Word} (hm : Caches k m) (hKey : m i d = some p) :
    m.dropKey i d = m.dropPage p := by
  obtain ⟨-, hImage, hDaddr⟩ := (hm i d p).mp hKey
  funext i' d'
  rw [CacheMap.dropKey, CacheMap.dropPage]
  by_cases hSame : m i' d' = some p
  · obtain ⟨-, hImage', hDaddr'⟩ := (hm i' d' p).mp hSame
    obtain rfl : i' = i := Option.some.inj (hImage'.symm.trans hImage)
    obtain rfl : d' = d := hDaddr'.symm.trans hDaddr
    simp [hSame]
  · -- an entry of another page is not under the key
    rw [if_neg hSame, if_neg]
    rintro ⟨rfl, rfl⟩
    exact hSame hKey

/-- `cachedel` drops the key that it is given. -/
theorem CacheInv.cachedel (h : CacheInv P k m) (i : ImageId) (d : Word) :
    ∃ k' f, k.cachedel P i d = .ok k' ∧ CacheStep f k k' ∧ CacheInv P k' (m.dropKey i d) := by
  obtain ⟨ch, hHash⟩ := h.hashed
  cases hKey : m i d with
  | none =>
    -- nothing to remove
    have hSame : m.dropKey i d = m := by
      funext i' d'
      rw [CacheMap.dropKey]
      split
      · rename_i hEq
        rw [hEq.1, hEq.2, hKey]
      · rfl
    exact ⟨k, 0, cachedel_none hHash h.caches hKey, CacheStep.refl, hSame.symm ▸ h⟩
  | some f =>
    obtain ⟨k', hRun, hStep, hHash'⟩ := cachedel_some hHash h.caches hKey
    exact ⟨k', f, hRun, hStep.toCacheStep, h.caches.dropKey_eq hKey ▸ h.uncached hStep hHash'⟩

/-- `cachepage` on a page without an image, for a key that is not cached. -/
theorem CacheInv.cachepage {i : ImageId} (h : CacheInv P k m) (hp : p < k.user)
    (hImage : (k.pages p).image = none) (hKey : m i (k.pages p).daddr = none) :
    ∃ k', k.cachepage P p (some i) = .ok k' ∧ CacheStep p k k' ∧
      CacheInv P k' (m.insert i (k.pages p).daddr p) := by
  obtain ⟨ch, hHash⟩ := h.hashed
  obtain ⟨k', hRun, hStep, hHash'⟩ := cachepage_spec (i := i) hHash hp hImage
  refine ⟨k', hRun, hStep.toCacheStep, hHash', ?_, ?_⟩
  · intro i' d' q
    rw [CacheMap.insert, hStep.user]
    by_cases hq : q = p
    · -- the new entry is the only one of the page
      subst hq
      rw [hStep.image, hStep.daddr]
      split
      · rename_i hEq
        simp [hEq.1, hEq.2, hp]
      · rename_i hne
        constructor
        · intro hOld
          have hOther := ((h.caches i' d' q).mp hOld).2.1
          simp [hImage] at hOther
        · rintro ⟨-, hi, hd⟩
          exact absurd ⟨(Option.some.inj hi).symm, hd.symm⟩ hne
    · -- the other pages keep their entries, none of which is under the new key
      rw [hStep.others q hq, ← h.caches i' d' q]
      split
      · rename_i hEq
        rw [hEq.1, hEq.2, hKey]
        simp [Ne.symm hq]
      · rfl
  · intro j
    have hOld := h.counted j
    have hNew := hStep.iref j
    omega

end

end Glendum
