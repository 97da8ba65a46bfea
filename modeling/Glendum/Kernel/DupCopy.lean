import Glendum.Kernel.PageBytes

/-!
# Glendum — duppage, with its retries

`duppage` leaves the cached contents of its page with a free page before the caller
writes to its own. It has the page locked and needs `palloc` as well; while `canlock`
fails it drops the page's lock, lets others run and starts over. Here each of these
pauses ends in a state of its own, and `copypage` is a parameter.

* `duppageWith_copypage` — with the `copypage` of this kernel and nothing running
  meanwhile this is the `duppage` of `Page`;
* `duppage_keeps_cached` — what it leaves when `copypage` copies.
-/

namespace Glendum

open Machine Lists

/-! ## The retries -/

/-- How the loop around `canlock` ends. -/
inductive DupWait
  /-- the page is not worth a copy -/
  | skip
  /-- the retries are used up -/
  | spent
  /-- `palloc` is locked -/
  | obtained
deriving DecidableEq

namespace Palloc

/-- The tests from `retry:` up to `canlock`. -/
def dupTest (P : Port) (p : PageId) (retries : Nat) (k : Palloc) : Option DupWait :=
  if retries > k.dupretries then some .spent else
  match (k.pages p).image with
  | none => some .skip
  | some i => if (k.pages p).ref = 0 ∨ P.notext i = true then some .skip else none

/-- `waits` are the states in which the page is locked again, one for each time that
`canlock` fails. -/
def dupWait (P : Port) (p : PageId) : Nat → Palloc → List Palloc → DupWait × Palloc
  | retries, k, [] => ((k.dupTest P p retries).getD .obtained, k)
  | retries, k, k' :: waits =>
    match k.dupTest P p retries with
    | some w => (w, k)
    | none => dupWait P p (retries + 1) k' waits

/-- `dupInto` with `copy` for `copypage`. -/
def dupIntoWith (P : Port) (copy : PageId → PageId → Palloc → Palloc) (p np : PageId)
    (k : Palloc) : Except Fault (Nat × Palloc) :=
  let k := (k.pageunchain np).pagechaintail np
  match k.uncachepage P np with
  | .error e => .error e
  | .ok k =>
    let k := k.setPage np fun pg => { pg with va := (k.pages p).va, daddr := (k.pages p).daddr }
    let k := copy p np k
    match k.cachepage P np (k.pages p).image with
    | .error e => .error e
    | .ok k =>
      match k.uncachepage P p with
      | .error e => .error e
      | .ok k => .ok (0, k)

/-- `duppage` once `palloc` is locked. -/
def dupLocked (P : Port) (copy : PageId → PageId → Palloc → Palloc) (p : PageId) (k : Palloc) :
    Except Fault (Nat × Palloc) :=
  if k.freecount < k.highwater then k.dupGiveUp P p else
  match k.firstOfColor (getpgcolor (k.pages p).va) with
  | .error e => .error e
  | .ok none => k.dupGiveUp P p
  | .ok (some np) => k.dupIntoWith P copy p np

def duppageWith (P : Port) (copy : PageId → PageId → Palloc → Palloc) (p : PageId) (k : Palloc)
    (waits : List Palloc) : Except Fault (Nat × Palloc) :=
  match dupWait P p 0 k waits with
  | (.skip, k) => .ok (0, k)
  | (.spent, k) =>
    let k := { k with dupretries := k.dupretries + 100 }
    if k.dupretries > 100000 then .error (.panic "duppage\n") else k.dupGiveUp P p
  | (.obtained, k) => k.dupLocked P copy p

end Palloc

section

variable {P : Port} {k k' : Palloc} {p np : PageId} {i : ImageId} {d : Word} {m : CacheMap}
  {fl : List PageId} {copy : PageId → PageId → Palloc → Palloc}

/-- Waiting in a state that does not change. -/
theorem dupWait_replicate (P : Port) (p : PageId) {k : Palloc} (hImage : (k.pages p).image = some i)
    (hTest : ¬ ((k.pages p).ref = 0 ∨ P.notext i = true)) (busy retries : Nat)
    (hTries : retries ≤ k.dupretries) :
    Palloc.dupWait P p retries k (List.replicate busy k) =
      (if retries + busy > k.dupretries then .spent else .obtained, k) := by
  have hNone : ∀ r, k.dupTest P p r = if r > k.dupretries then some .spent else none := by
    intro r
    simp only [Palloc.dupTest, hImage, if_neg hTest]
  induction busy generalizing retries with
  | zero =>
    have hFew : ¬ retries > k.dupretries := by omega
    simp [Palloc.dupWait, hNone, hFew]
  | succ busy ih =>
    have hFew : ¬ retries > k.dupretries := by omega
    rw [List.replicate_succ, Palloc.dupWait, hNone, if_neg hFew]
    by_cases hMore : retries + 1 ≤ k.dupretries
    · simp only [ih (retries + 1) hMore]
      rw [show retries + 1 + busy = retries + (busy + 1) by omega]
    · -- the next round is one too many
      have hSpent : retries + 1 > k.dupretries := by omega
      rw [if_pos (by omega)]
      cases busy with
      | zero => simp [Palloc.dupWait, hNone, hSpent]
      | succ busy => simp [List.replicate_succ, Palloc.dupWait, hNone, hSpent]

/-- When nothing runs during the pauses, `busy` of them lead to `duppage`. -/
theorem duppageWith_copypage (P : Port) (p : PageId) (busy : Nat) (k : Palloc) :
    k.duppageWith P Palloc.copypage p (List.replicate busy k) = k.duppage P p busy := by
  have hSkip : ∀ r, k.dupTest P p 0 = some r →
      Palloc.dupWait P p 0 k (List.replicate busy k) = (r, k) := by
    intro r hr
    cases busy with
    | zero => simp [Palloc.dupWait, hr]
    | succ busy => simp [List.replicate_succ, Palloc.dupWait, hr]
  -- a page without an image, and one that is not to be copied, are not waited for
  cases hImage : (k.pages p).image with
  | none =>
    have hTest : k.dupTest P p 0 = some .skip := by simp [Palloc.dupTest, hImage]
    simp only [Palloc.duppageWith, hSkip _ hTest, Palloc.duppage, hImage]
  | some i =>
    by_cases hNot : (k.pages p).ref = 0 ∨ P.notext i = true
    · have hTest : k.dupTest P p 0 = some .skip := by simp [Palloc.dupTest, hImage, hNot]
      simp only [Palloc.duppageWith, hSkip _ hTest, Palloc.duppage, hImage, if_pos hNot]
    · have hWait := dupWait_replicate P p hImage hNot busy 0 (Nat.zero_le _)
      rw [Nat.zero_add] at hWait
      simp only [Palloc.duppageWith, hWait, Palloc.duppage, hImage, if_neg hNot]
      by_cases hBusy : busy > k.dupretries
      · simp only [if_pos hBusy]
      · simp only [if_neg hBusy]
        rfl

/-! ## What a pause leaves -/

/-- The allocator between two critical sections, with the page `p` cached under the key
of `i` and `d`. Pages have only the colours that `pageinit` and `newpage` give them. -/
structure DupReady (P : Port) (p : PageId) (i : ImageId) (d : Word) (k : Palloc) : Prop where
  free   : ∃ fl, FreeList k fl
  hashed : ∃ ch, Hashed P k ch
  caches : ∃ m, Caches k m
  color  : ∀ q, q < k.user → (k.pages q).color < NCOLOR
  user   : p < k.user
  ref    : (k.pages p).ref ≠ 0
  image  : (k.pages p).image = some i
  daddr  : (k.pages p).daddr = d

/-- The retries end in one of the states, with `palloc` locked or the retries used up. -/
theorem dupWait_ready (hNotext : P.notext i = false) (retries : Nat) {waits : List Palloc}
    (hReady : ∀ s ∈ k :: waits, DupReady P p i d s) :
    (Palloc.dupWait P p retries k waits).1 ≠ .skip ∧
      (Palloc.dupWait P p retries k waits).2 ∈ k :: waits := by
  have hTest : ∀ r, k.dupTest P p r = if r > k.dupretries then some .spent else none := by
    intro r
    have hk := hReady k (List.mem_cons_self ..)
    simp [Palloc.dupTest, hk.image, hk.ref, hNotext]
  -- induction on the pauses; the test says the same in each state
  induction waits generalizing k retries with
  | nil =>
    rw [Palloc.dupWait, hTest]
    split <;> simp
  | cons k' waits ih =>
    rw [Palloc.dupWait, hTest]
    by_cases hSpent : retries > k.dupretries
    · simp [hSpent]
    · simp only [if_neg hSpent]
      have hLater : ∀ s ∈ k' :: waits, DupReady P p i d s := fun s hs =>
        hReady s (List.mem_cons_of_mem _ hs)
      obtain ⟨hNot, hMem⟩ := ih (retries + 1) hLater fun r => by
        have hk := hLater k' (List.mem_cons_self ..)
        simp [Palloc.dupTest, hk.image, hk.ref, hNotext]
      exact ⟨hNot, List.mem_cons_of_mem _ hMem⟩

/-! ## The two ends of duppage -/

/-- A key that is not cached is not found. -/
theorem lookpage_none {ch : Nat → List PageId} (h : Hashed P k ch) (hm : Caches k m)
    (hKey : m i d = none) : k.lookpage P i d = .ok (none, k) := by
  obtain ⟨r, hFind, hFound⟩ := h.spells.find (P.pghash d) (k.isCached i d) (h.length_le _)
  rw [find?_isCached h hm, hKey] at hFound
  obtain rfl := Option.map_eq_none_iff.mp hFound
  rw [Palloc.lookpage, hFind]

theorem lookpage_some {ch : Nat → List PageId} (h : Hashed P k ch) (hm : Caches k m)
    (hKey : m i d = some p) : ∃ k', k.lookpage P i d = .ok (some p, k') := by
  obtain ⟨l, hFind, hTest⟩ := find_cached h hm hKey
  rw [Palloc.lookpage, hFind]
  simp only [hTest, if_true]
  exact ⟨_, rfl⟩

/-- The function that stands for `copypage` only writes the target page, and to it the
bytes of the source. -/
def CopiesPage (copy : PageId → PageId → Palloc → Palloc) : Prop :=
  ∀ f t k, copy f t k = { k with mem := (copy f t k).mem } ∧
    CopiedTo k.mem (copy f t k).mem (k.pages f).pa (k.pages t).pa

/-- The page `p` has lost its key, its references are the same, and so are the free
pages. -/
structure DupFrame (p : PageId) (k k' : Palloc) : Prop where
  image     : (k'.pages p).image = none
  freecount : k'.freecount = k.freecount
  free      : ∀ fl, FreeList k fl → ∃ fl', FreeList k' fl' ∧ fl'.Perm fl
  ref       : (k'.pages p).ref = (k.pages p).ref

/-- The page `np` is found under the key that `p` had, with its address and its bytes. -/
structure DupFound (P : Port) (p : PageId) (i : ImageId) (d : Word) (k k' : Palloc) (np : PageId) :
    Prop where
  look  : ∃ k2, k'.lookpage P i d = .ok (some np, k2)
  ne    : np ≠ p
  ref   : (k'.pages np).ref = 0
  va    : (k'.pages np).va = (k.pages p).va
  daddr : (k'.pages np).daddr = d
  bytes : CopiedTo k.mem k'.mem (k.pages p).pa (k'.pages np).pa

/-- A page that is given up is not cached any more. -/
theorem dupGiveUp_drops (h : DupReady P p i d k) :
    ∃ k', k.dupGiveUp P p = .ok (1, k') ∧ DupFrame p k k' ∧
      k'.lookpage P i d = .ok (none, k') := by
  obtain ⟨ch, hHash⟩ := h.hashed
  obtain ⟨m, hm⟩ := h.caches
  obtain ⟨k', hRun, hStep, ch', hHash'⟩ := uncachepage_spec hHash h.user
  have hKey : m i d = some p := (hm i d p).mpr ⟨h.user, h.image, h.daddr⟩
  refine ⟨k', by rw [Palloc.dupGiveUp, hRun], ⟨hStep.image, hStep.freecount, fun fl hList => ?_,
    hStep.ref⟩, lookpage_none hHash' (hm.uncached hStep) (by rw [CacheMap.dropPage, if_pos hKey])⟩
  exact ⟨fl, hList.congr hStep.free hStep.freecount hStep.user fun q _ => hStep.ref_eq q, .refl fl⟩

/-- A page put to the end of the free list stays one of the free pages. -/
theorem FreeList.requeue (hList : FreeList k fl) (hnp : np ∈ fl) :
    ∃ fl', FreeList ((k.pageunchain np).pagechaintail np) fl' ∧ fl'.Perm fl := by
  have hPerm : (fl.erase np ++ [np]).Perm fl :=
    (List.perm_append_singleton np _).trans (List.perm_cons_erase hnp).symm
  have hPos : 0 < fl.length := List.length_pos_of_mem hnp
  refine ⟨_, ⟨(hList.links.unlink_erase hnp).pushBack hList.links.nodup.not_mem_erase, ?_,
    fun q => hPerm.mem_iff.trans (hList.mem q)⟩, hPerm⟩
  have hCount := hList.count
  simp only [Palloc.pagechaintail, Palloc.pageunchain, hPerm.length_eq]
  omega

theorem dupIntoWith_addressed (hCopy : CopiesPage copy) (p np : PageId) (k : Palloc) :
    Addressed p np k (copy p np (k.setPage np fun pg =>
      { pg with va := (k.pages p).va, daddr := (k.pages p).daddr })) := by
  rw [(hCopy p np _).1]
  exact ⟨rfl, rfl, rfl, rfl, rfl, rfl, Function.update_self ..,
    fun _ hq => Function.update_of_ne hq ..⟩

/-- A free page takes the key and the contents over. -/
theorem dupIntoWith_found (hCopy : CopiesPage copy) (h : DupReady P p i d k)
    (hList : FreeList k fl) (hnp : np ∈ fl) :
    ∃ k', k.dupIntoWith P copy p np = .ok (0, k') ∧ DupFrame p k k' ∧ DupFound P p i d k k' np := by
  obtain ⟨hnpUser, hnpRef⟩ := (hList.mem np).mp hnp
  have hne : np ≠ p := by
    rintro rfl
    exact h.ref hnpRef
  obtain ⟨ch, hHash⟩ := h.hashed
  obtain ⟨m, hm⟩ := h.caches
  have hKey : m i d = some p := (hm i d p).mpr ⟨h.user, h.image, h.daddr⟩
  -- the cache does not see the free list
  let k1 := (k.pageunchain np).pagechaintail np
  have hHash1 : Hashed P k1 ch := hHash.congr rfl rfl (fun _ _ => rfl) fun _ _ _ => rfl
  obtain ⟨k2, k4, k5, hRun2, hStep2, -, hRun4, hStep4, hRun5, hStep5, ch5, hHash5⟩ :=
    dupCalls_spec hHash1 hnpUser h.user hne i (dupIntoWith_addressed hCopy p np)
  set k3 := copy p np (k2.setPage np fun pg =>
    { pg with va := (k2.pages p).va, daddr := (k2.pages p).daddr }) with hk3
  obtain ⟨hUser3, hFree3, hCount3, -, -, -, hPage3, hSame3⟩ := dupIntoWith_addressed hCopy p np k2
  rw [← hk3] at hUser3 hFree3 hCount3 hPage3 hSame3
  have hp2 : k2.pages p = k.pages p := hStep2.others p hne.symm
  have hOthers3 : ∀ q, q ≠ np → k3.pages q = k.pages q := fun q hq =>
    (hSame3 q hq).trans (hStep2.others q hq)
  have hImage3 : (k3.pages p).image = some i := by rw [hOthers3 p hne.symm, h.image]
  have hRef : ∀ q, (k5.pages q).ref = (k.pages q).ref := by
    intro q
    rw [hStep5.ref_eq, hStep4.ref_eq]
    by_cases hq : q = np
    · rw [hq, hPage3]
      exact hStep2.ref
    · rw [hOthers3 q hq]
  have hCaches5 := hm.moved hne h.image hStep4 hStep5 (hUser3.trans hStep2.user) h.user hnpUser
    (by rw [hPage3, hp2]) hOthers3
  refine ⟨k5, ?_, ⟨hStep5.image, ?_, fun fl0 hFl0 => ?_, hRef p⟩,
    ⟨lookpage_some hHash5 hCaches5 (by rw [CacheMap.move, if_pos hKey]), hne, ?_, ?_, ?_, ?_⟩⟩
  · have hCached : k3.cachepage P np (k3.pages p).image = .ok k4 := by rw [hImage3, hRun4]
    simp only [Palloc.dupIntoWith]
    rw [hRun2]
    simp only [← hk3, hCached, hRun5]
  · have hSame1 : k1.freecount = k.freecount := by
      obtain ⟨fl', hList1, hPerm⟩ := hList.requeue hnp
      rw [hList1.count, hList.count, hPerm.length_eq]
    rw [hStep5.freecount, hStep4.freecount, hCount3, hStep2.freecount, hSame1]
  · -- the copy went to the end of the free list
    have hnp0 : np ∈ fl0 := (hFl0.mem np).mpr ⟨hnpUser, hnpRef⟩
    obtain ⟨fl', hList1, hPerm⟩ := hFl0.requeue hnp0
    refine ⟨fl', hList1.congr ?_ ?_ ?_ fun q _ => hRef q, hPerm⟩
    · rw [hStep5.free, hStep4.free, hFree3, hStep2.free]
    · rw [hStep5.freecount, hStep4.freecount, hCount3, hStep2.freecount]
    · rw [hStep5.user, hStep4.user, hUser3, hStep2.user]
  · rw [hRef np, hnpRef]
  · -- the calls of the cache leave the address alone
    rw [(uncachepage_field Page.va (fun _ => rfl) hRun5).2,
      (cachepage_field Page.va (fun _ _ => rfl) hRun4).2, hPage3, hp2]
  · rw [hStep5.others np hne, hStep4.daddr, hPage3, hp2, h.daddr]
  · -- only `copypage` writes to the memory
    have hMem2 : k2.mem = k.mem := (uncachepage_mem hRun2).mem
    have hPa2 : (k2.pages np).pa = (k.pages np).pa := (uncachepage_mem hRun2).pa np
    have hCopied := (hCopy p np (k2.setPage np fun pg =>
      { pg with va := (k2.pages p).va, daddr := (k2.pages p).daddr })).2
    have hSrc : ((k2.setPage np fun pg =>
        { pg with va := (k2.pages p).va, daddr := (k2.pages p).daddr }).pages p).pa =
          (k.pages p).pa := by
      rw [Palloc.setPage_of_ne hne.symm, hp2]
    have hDst : ((k2.setPage np fun pg =>
        { pg with va := (k2.pages p).va, daddr := (k2.pages p).daddr }).pages np).pa =
          (k5.pages np).pa := by
      rw [(uncachepage_mem hRun5).pa, (cachepage_mem hRun4).pa, hPage3, Palloc.setPage_self]
    rw [hSrc, hDst, ← hk3] at hCopied
    rw [(uncachepage_mem hRun5).mem, (cachepage_mem hRun4).mem, ← hMem2]
    exact hCopied

/-! ## The whole call -/

/-- The counter of the retries is not looked at. -/
theorem DupReady.bump (h : DupReady P p i d k) (n : Nat) : DupReady P p i d { k with dupretries := n } := by
  obtain ⟨⟨fl, hList⟩, ⟨ch, hHash⟩, ⟨m, hm⟩, hColor, hUser, hRef, hImage, hDaddr⟩ := h
  exact ⟨⟨fl, hList.congr rfl rfl rfl fun _ _ => rfl⟩,
    ⟨ch, hHash.congr rfl rfl (fun _ _ => rfl) fun _ _ _ => rfl⟩, ⟨m, hm⟩, hColor, hUser, hRef,
    hImage, hDaddr⟩

/-- The part with `palloc` locked. -/
theorem dupLocked_spec (hCopy : CopiesPage copy) (h : DupReady P p i d k) :
    ∃ rc k', k.dupLocked P copy p = .ok (rc, k') ∧ DupFrame p k k' ∧
      if k.highwater ≤ k.freecount ∧ k.free.head ≠ none
        then rc = 0 ∧ ∃ np, DupFound P p i d k k' np
        else rc = 1 ∧ k'.lookpage P i d = .ok (none, k') := by
  obtain ⟨k2, hGive, hFrame, hLook⟩ := dupGiveUp_drops h
  obtain ⟨fl, hList⟩ := h.free
  simp only [Palloc.dupLocked]
  by_cases hLow : k.freecount < k.highwater
  · refine ⟨1, k2, by rw [if_pos hLow, hGive], hFrame, ?_⟩
    rw [if_neg (fun hHigh => absurd hHigh.1 (by omega))]
    exact ⟨rfl, hLook⟩
  rw [if_neg hLow, firstOfColor_spec hList.links hList.length_le]
  cases fl with
  | nil =>
    refine ⟨1, k2, hGive, hFrame, ?_⟩
    rw [if_neg fun hSome => hSome.2 hList.links.head]
    exact ⟨rfl, hLook⟩
  | cons q fl =>
    -- every page has the one colour there is
    have hFirst : ((k.pages q).color == getpgcolor (k.pages p).va) = true := by
      have hq := h.color q ((hList.mem q).mp (List.mem_cons_self ..)).1
      rw [show NCOLOR = 1 from rfl, Nat.lt_one_iff] at hq
      rw [hq]
      rfl
    obtain ⟨k3, hInto, hFrame3, hFound⟩ := dupIntoWith_found hCopy h hList (List.mem_cons_self ..)
    rw [List.find?_cons_of_pos (p := fun q => (k.pages q).color == getpgcolor (k.pages p).va) hFirst]
    refine ⟨0, k3, hInto, hFrame3, ?_⟩
    rw [if_pos ⟨by omega, by rw [hList.links.head]; simp⟩]
    exact ⟨rfl, q, hFound⟩

/-- **`duppage` keeps the cached contents reachable.** It returns, or panics when the
retries have gone up to their limit. When it returns, its page has lost its key, and
the free pages and the references are the same. With `palloc` obtained on a free list
that is not empty and not below the high-water mark, it answers 0 and the key leads to a
free page with the address and the bytes; otherwise it answers 1 and the key is not
cached. -/
theorem duppage_keeps_cached (P : Port) (copy : PageId → PageId → Palloc → Palloc) {p : PageId}
    {i : ImageId} {d : Word} {k : Palloc} {waits : List Palloc}
    (hCopy : CopiesPage copy) (hNotext : P.notext i = false)
    (hReady : ∀ s ∈ k :: waits, DupReady P p i d s) :
    let (w, k1) := Palloc.dupWait P p 0 k waits
    k1 ∈ k :: waits ∧
      (w = .spent ∧ 100000 < k1.dupretries + 100 ∧
        k.duppageWith P copy p waits = .error (.panic "duppage\n") ∨
      ∃ rc k', k.duppageWith P copy p waits = .ok (rc, k') ∧ DupFrame p k1 k' ∧
        if w = .obtained ∧ k1.highwater ≤ k1.freecount ∧ k1.free.head ≠ none
          then rc = 0 ∧ ∃ np, DupFound P p i d k1 k' np
          else rc = 1 ∧ k'.lookpage P i d = .ok (none, k')) := by
  obtain ⟨hNot, hMem⟩ := dupWait_ready hNotext 0 hReady
  unfold Palloc.duppageWith
  -- the loop leaves k1; all that follows is about this state
  cases hWait : Palloc.dupWait P p 0 k waits with
  | mk w k1 =>
    rw [hWait] at hNot hMem
    refine ⟨hMem, ?_⟩
    have hk1 := hReady k1 hMem
    cases w with
    | skip => exact absurd rfl hNot
    | spent =>
      by_cases hLimit : k1.dupretries + 100 > 100000
      · exact Or.inl ⟨rfl, hLimit, if_pos hLimit⟩
      · right
        obtain ⟨k2, hGive, hFrame, hLook⟩ := dupGiveUp_drops (hk1.bump (k1.dupretries + 100))
        refine ⟨1, k2, (if_neg hLimit).trans hGive,
          ⟨hFrame.image, hFrame.freecount, fun fl hFl => ?_, hFrame.ref⟩, ?_⟩
        · exact hFrame.free fl (hFl.congr rfl rfl rfl fun _ _ => rfl)
        · rw [if_neg (by simp)]
          exact ⟨rfl, hLook⟩
    | obtained =>
      obtain ⟨rc, k2, hRun, hFrame, hEnd⟩ := dupLocked_spec hCopy hk1
      refine Or.inr ⟨rc, k2, hRun, hFrame, ?_⟩
      simp only [true_and]
      exact hEnd

end

/-- `copypage` with a `kmap` that knows where a page is. -/
def copyFrames (f t : PageId) (k : Palloc) : Palloc :=
  let src := (k.pages f).pa
  { k with
    mem := k.mem.write (k.pages t).pa
      ((List.range BY2PG).map fun j => k.mem (src + BitVec.ofNat 32 j)) }

theorem copyFrames_copies : CopiesPage copyFrames := by
  refine fun f t k => ⟨by simp only [copyFrames], fun x => ?_⟩
  simp only [copyFrames, Memory.write]
  by_cases hIn : (x - (k.pages t).pa).toNat < BY2PG
  · rw [List.getElem?_eq_getElem (by simpa using hIn), if_pos hIn, Option.getD_some,
      List.getElem_map, List.getElem_range, BitVec.ofNat_toNat, BitVec.setWidth_eq]
  · rw [List.getElem?_eq_none (by simpa using hIn), if_neg hIn, Option.getD_none]

/-- A pool of three pages, the first of which is in use and cached. -/
def cachedPage : Palloc := ((smallPool 3).stepTo takePage).stepTo (.cachepage 0 0 0x1000)

theorem cachedPage_ready : DupReady smallPort 0 0 0x1000 cachedPage := by
  have hRun1 := PageRun.start.next (n := 3) takePage (.page 0) trivial (by decide +kernel)
  have hRun2 := hRun1.next (.cachepage 0 0 0x1000) .done
    ⟨by decide +kernel, by decide +kernel, by decide +kernel⟩ (by decide +kernel)
  have hInit : pageinit [{ base := 0x100000, npage := 3 }] (fun _ => 0) = .ok (smallPool 3) := rfl
  obtain ⟨m, -, hInv, -⟩ := hRun2.inv hInit
  exact ⟨hInv.free.free, hInv.cache.hashed, ⟨m, hInv.cache.caches⟩, by decide +kernel,
    by decide +kernel, by decide +kernel, by decide +kernel, by decide +kernel⟩

/-- The cached page of a small pool, with one pause before `palloc` is obtained. -/
theorem duppage_keeps_cached_small :
    let (w, k1) := Palloc.dupWait smallPort 0 0 cachedPage [cachedPage]
    k1 ∈ [cachedPage, cachedPage] ∧
      (w = .spent ∧ 100000 < k1.dupretries + 100 ∧
        cachedPage.duppageWith smallPort copyFrames 0 [cachedPage] =
          .error (.panic "duppage\n") ∨
      ∃ rc k', cachedPage.duppageWith smallPort copyFrames 0 [cachedPage] = .ok (rc, k') ∧
        DupFrame 0 k1 k' ∧
        if w = .obtained ∧ k1.highwater ≤ k1.freecount ∧ k1.free.head ≠ none
          then rc = 0 ∧ ∃ np, DupFound smallPort 0 0 0x1000 k1 k' np
          else rc = 1 ∧ k'.lookpage smallPort 0 0x1000 = .ok (none, k')) :=
  duppage_keeps_cached smallPort copyFrames copyFrames_copies rfl fun s hs => by
    rcases List.mem_pair.mp hs with rfl | rfl <;> exact cachedPage_ready

end Glendum
