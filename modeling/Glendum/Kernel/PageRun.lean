import Glendum.Kernel.PageStep

/-!
# Glendum — runs of the page layer

A run (`PageRun`) starts at `pageinit` and makes one legal call after another. The
table that the cache stands for has runs of its own (`CacheRun`), over the same
calls and answers.

* `pageinit_inv` — `pageinit` leaves every page on the free list and no page
  cached, for any banks;
* `PageRun.inv` — so every state of a run satisfies the invariants, next to a run
  of the table;
* `freelist_invariant` — the free list, its counter and the references agree
  after any run, and none of the panics of the allocator can be reached;
* `pagecache_refines` — after any run the chains hold the cached pages, the
  images have one reference for each of them, and `lookpage` answers from the
  table;
* `duppage_evicts` — the free page that `duppage` takes for its copy loses the key
  it was cached under.
-/

namespace Glendum

open Machine Lists

/-! ## pageinit -/

theorem length_banksPages (banks : List Pallocmem) (color : Nat) :
    (banksPages banks color).length = (banks.map Pallocmem.npage).sum := by
  induction banks generalizing color with
  | nil => rfl
  | cons pm banks ih => simp [banksPages, bankPages, ih]

theorem banksPages_blank {banks : List Pallocmem} {color : Nat} {pg : Page}
    (h : pg ∈ banksPages banks color) : pg.ref = 0 ∧ pg.image = none := by
  induction banks generalizing color with
  | nil => simp [banksPages] at h
  | cons pm banks ih =>
    rw [banksPages, List.mem_append] at h
    rcases h with hHere | hRest
    · obtain ⟨j, -, rfl⟩ := List.mem_map.mp hHere
      exact ⟨rfl, rfl⟩
    · exact ih hRest

/-- The links that `pageinit` writes spell the pages in their order. -/
theorem isList_range {s : Links Nat} {n : Nat} (hHead : s.head = some 0)
    (hTail : s.tail = some (n - 1)) (hPos : 0 < n)
    (hNext : ∀ p : Nat, s.next p = if p < n - 1 then some (p + 1) else none)
    (hPrev : ∀ p : Nat, s.prev p = if 0 < p ∧ p < n then some (p - 1) else none) :
    s.IsList (List.range n) := by
  refine ⟨List.nodup_range, ?_, ?_, ?_⟩
  · rw [hHead, List.head?_range, if_neg hPos.ne']
  · rw [hTail, List.getLast?_range, if_neg hPos.ne']
  · intro xs a ys hSplit
    -- a node stands where its number says
    have hLen : xs.length + (ys.length + 1) = n := by
      have hLength := congrArg List.length hSplit
      simpa [eq_comm] using hLength
    have hAt : ∀ j, j < n → (xs ++ a :: ys)[j]? = some j := by
      intro j hj
      rw [← hSplit, List.getElem?_range hj]
    have ha : a = xs.length := by simpa using hAt xs.length (by omega)
    subst ha
    rw [hNext, hPrev]
    -- before the node stands the number below its own, behind it the one above
    constructor
    · rw [List.getLast?_eq_getElem?]
      by_cases hFirst : xs.length = 0
      · simp [List.length_eq_zero_iff.mp hFirst]
      · rw [if_pos (by omega)]
        have hLast := hAt (xs.length - 1) (by omega)
        rw [List.getElem?_append_left (by omega)] at hLast
        exact hLast.symm
    · rw [List.head?_eq_getElem?]
      by_cases hLast : ys.length = 0
      · rw [if_neg (by omega), List.length_eq_zero_iff.mp hLast]
        rfl
      · rw [if_pos (by omega)]
        have hAfter := hAt (xs.length + 1) (by omega)
        rw [List.getElem?_append_right (by omega)] at hAfter
        simpa using hAfter.symm

/-- A pool of blank pages: every page is free, and nothing is cached. -/
theorem chainPages_inv {P : Port} {ps : List Page} {mem : Memory} (hPos : 0 < ps.length)
    (hBlank : ∀ pg ∈ ps, pg.ref = 0 ∧ pg.image = none) :
    PageInv P (chainPages ps mem) (fun _ _ => none) fun _ => 0 := by
  -- inside the pool the default of `getD` is not used
  have hPage : ∀ p, p < ps.length → ((chainPages ps mem).pages p).ref = 0 ∧
      ((chainPages ps mem).pages p).image = none := by
    intro p hp
    change (ps.getD p _).ref = 0 ∧ (ps.getD p _).image = none
    rw [List.getD_eq_getElem?_getD, List.getElem?_eq_getElem hp, Option.getD_some]
    exact hBlank _ (List.getElem_mem hp)
  -- the free list is the pool in its order, and the chains are empty
  refine ⟨⟨⟨List.range ps.length, ?_, ?_, ?_⟩, ?_, ?_⟩, ⟨fun _ => [], ?_, ?_⟩, ?_, ?_⟩
  · exact isList_range rfl rfl hPos (fun _ => rfl) (fun _ => rfl)
  · rw [List.length_range]
    rfl
  · intro p
    rw [List.mem_range]
    exact ⟨fun hp => ⟨hp, (hPage p hp).1⟩, fun hp => hp.1⟩
  · exact fun p hp => (hPage p hp).1
  · exact fun _ _ => rfl
  · exact ⟨fun _ => rfl, fun _ => List.nodup_nil, fun _ _ _ h => by simp at h⟩
  · intro b p
    simp only [List.not_mem_nil, false_iff, not_and]
    intro hp hne
    exact absurd (hPage p hp).2 hne
  · intro i d p
    simp only [reduceCtorEq, false_iff, not_and]
    intro hp hImage
    rw [(hPage p hp).2] at hImage
    simp at hImage
  · intro i
    refine (Finset.sum_eq_zero fun p hp => ?_).symm
    rw [(hPage p (Finset.mem_range.mp hp)).2]
    simp

/-- After `pageinit` every page is free, and nothing is cached. -/
theorem pageinit_inv {P : Port} {banks : List Pallocmem} {mem : Memory} {k : Palloc}
    (h : pageinit banks mem = .ok k) :
    PageInv P k (fun _ _ => none) (fun _ => 0) ∧ k.user = (banks.map Pallocmem.npage).sum ∧
      k.highwater = (banks.map Pallocmem.npage).sum * 5 / 100 := by
  rw [← length_banksPages banks 0]
  unfold pageinit at h
  by_cases hEmpty : (banksPages banks 0).length = 0
  · simp [hEmpty] at h
  · simp only [if_neg hEmpty, Except.ok.injEq] at h
    subst h
    exact ⟨chainPages_inv (Nat.pos_of_ne_zero hEmpty) fun pg hpg => banksPages_blank hpg, rfl, rfl⟩

/-! ## Runs -/

abbrev PageEvent := PageOp × PageResult

/-- Legal calls, one after another, from the state `k0`; the last index is the
ledger of the references. -/
inductive PageRun (P : Port) (k0 : Palloc) : List PageEvent → Palloc → (PageId → Nat) → Prop
  | start : PageRun P k0 [] k0 fun _ => 0
  | step {es : List PageEvent} {k k' : Palloc} {held : PageId → Nat} {op : PageOp}
      {r : PageResult} (run : PageRun P k0 es k held) (legal : Legal k held op)
      (call : k.step P op = .ok (r, k')) :
      PageRun P k0 (es ++ [(op, r)]) k' (heldAfter held op r)

/-- The table of the cache through the same calls. -/
inductive CacheRun (P : Port) : List PageEvent → CacheMap → (PageId → Nat) → Prop
  | start : CacheRun P [] (fun _ _ => none) fun _ => 0
  | step {es : List PageEvent} {m m' : CacheMap} {held : PageId → Nat} {op : PageOp}
      {r : PageResult} (run : CacheRun P es m held) (effect : CacheEffect P m held op r m') :
      CacheRun P (es ++ [(op, r)]) m' (heldAfter held op r)

section

variable {P : Port} {banks : List Pallocmem} {mem : Memory} {k0 k : Palloc}
  {es : List PageEvent} {held : PageId → Nat}

/-- Every state of a run satisfies the invariants, and the table has a run that ends
in what is cached there. -/
theorem PageRun.inv (hInit : pageinit banks mem = .ok k0) (hRun : PageRun P k0 es k held) :
    ∃ m, CacheRun P es m held ∧ PageInv P k m held ∧ k.user = k0.user ∧
      k.highwater = k0.highwater := by
  induction hRun with
  | start => exact ⟨_, .start, (pageinit_inv hInit).1, rfl, rfl⟩
  | step _ legal call ih =>
    obtain ⟨m, hCache, hInv, hUser, hHigh⟩ := ih
    rcases step_inv (P := P) hInv _ legal with ⟨r', k', m', hStep, hEffect, hKeeps⟩ | hPanic | ⟨-, hNil⟩
    · -- the call is the one that the step lemma is about
      have hSame := hStep.symm.trans call
      rw [Except.ok.injEq, Prod.mk.injEq] at hSame
      obtain ⟨rfl, rfl⟩ := hSame
      exact ⟨m', hCache.step hEffect, hKeeps.inv, hKeeps.user.trans hUser,
        hKeeps.highwater.trans hHigh⟩
    · -- a call that stops the kernel is no step of a run
      simp [hPanic] at call
    · simp [hNil] at call

/-! ## The allocator -/

/-- In a pool of at least 20 pages, after any run: the free list is well formed, its
counter is its length, it holds the pages without a reference, and the references
are those of the ledger. Every legal call completes, short of the retry limit of
`duppage`; `newpage` and `auxpage` answer with pages that nobody holds. -/
theorem freelist_invariant (hSize : 20 ≤ (banks.map Pallocmem.npage).sum)
    (hInit : pageinit banks mem = .ok k0) (hRun : PageRun P k0 es k held) :
    (∃ fl, FreeList k fl) ∧ (∀ p, p < k.user → (k.pages p).ref = held p) ∧
    (∀ op, Legal k held op →
      (∃ r k', k.step P op = .ok (r, k')) ∨ k.step P op = .error (.panic "duppage\n")) ∧
    (∀ kp clear seg va p k', k.newpage P kp clear seg va = .ok (.page p, k') →
      p < k.user ∧ (k.pages p).ref = 0) ∧
    (∀ p k', k.auxpage P = .ok (some p, k') → p < k.user ∧ (k.pages p).ref = 0) := by
  obtain ⟨m, -, hInv, -, hHigh⟩ := hRun.inv hInit
  refine ⟨hInv.free.free, hInv.free.ledger, ?_, ?_, ?_⟩
  · intro op hLegal
    rcases step_inv (P := P) hInv op hLegal with ⟨r, k', -, hStep, -, -⟩ | hPanic | ⟨hZero, -⟩
    · exact Or.inl ⟨r, k', hStep⟩
    · exact Or.inr hPanic
    · -- 20 pages give a high-water mark of one
      rw [hHigh, (pageinit_inv (P := P) hInit).2.2] at hZero
      omega
  · intro kp clear seg va p k' hCall
    rcases newpage_spec hInv kp clear seg va with (hNil | hAsleep) | ⟨q, k1, hPage, hUser, hRef, -⟩
    · simp [hNil] at hCall
    · simp [hAsleep] at hCall
    · obtain ⟨rfl, -⟩ : q = p ∧ k1 = k' := by simpa using hPage.symm.trans hCall
      exact ⟨hUser, hRef⟩
  · intro p k' hCall
    rcases auxpage_spec hInv with hNone | ⟨-, hNil⟩ | ⟨q, k1, hPage, hUser, hRef, -⟩
    · simp [hNone] at hCall
    · simp [hNil] at hCall
    · obtain ⟨rfl, -⟩ : q = p ∧ k1 = k' := by simpa using hPage.symm.trans hCall
      exact ⟨hUser, hRef⟩

/-! ## The cache -/

/-- After any run the cached pages are the entries of a table that went through the
same calls; they are the pages on the chains, each once and on the chain of its
address; `lookpage` answers from the table; and every image has gained as many
references as pages are cached for it. -/
theorem pagecache_refines (hInit : pageinit banks mem = .ok k0) (hRun : PageRun P k0 es k held) :
    ∃ m, CacheRun P es m held ∧ Caches k m ∧ (∃ ch, Hashed P k ch) ∧
      (∀ i d, ∃ k', k.lookpage P i d = .ok (m i d, k')) ∧
      ∀ i, k.iref i = imageCount k.pages k.user i := by
  obtain ⟨m, hCache, hInv, -, -⟩ := hRun.inv hInit
  refine ⟨m, hCache, hInv.cache.caches, hInv.cache.hashed, ?_, hInv.cache.counted⟩
  intro i d
  obtain ⟨k', hLook, -⟩ := lookpage_spec hInv i d
  exact ⟨k', hLook⟩

end

/-! ## Two small pools -/

def smallPort : Port where
  PGHSIZE := 512
  swapimage := 9
  notext := fun _ => false

def smallPool (n : Nat) : Palloc :=
  chainPages (banksPages [{ base := 0x100000, npage := n }] 0) fun _ => 0

/-- The state after a call. -/
def Palloc.stepTo (k : Palloc) (op : PageOp) : Palloc :=
  match k.step smallPort op with
  | .ok (_, k') => k'
  | .error _ => k

theorem Palloc.step_stepTo {k : Palloc} {op : PageOp} {r : PageResult}
    (h : (k.step smallPort op).toOption.map Prod.fst = some r) :
    k.step smallPort op = .ok (r, k.stepTo op) := by
  unfold Palloc.stepTo
  cases hStep : k.step smallPort op with
  | error e => simp [hStep, Except.toOption] at h
  | ok res =>
    obtain rfl : res.1 = r := by simpa [hStep, Except.toOption] using h
    rfl

/-- A legal call in a small pool, by its answer. -/
theorem PageRun.next {n : Nat} {es : List PageEvent} {k : Palloc} {held : PageId → Nat}
    (run : PageRun smallPort (smallPool n) es k held) (op : PageOp) (r : PageResult)
    (legal : Legal k held op) (call : (k.step smallPort op).toOption.map Prod.fst = some r) :
    PageRun smallPort (smallPool n) (es ++ [(op, r)]) (k.stepTo op) (heldAfter held op r) :=
  run.step legal (Palloc.step_stepTo call)

def takePage : PageOp := .newpage false false false 0x5000

/-- In a pool of 20 pages, one is taken, cached, given back and found again. -/
theorem twentyPages_run : ∃ es k held,
    PageRun smallPort (smallPool 20) es k held ∧ held 0 = 1 := by
  have hRun1 := PageRun.start.next (n := 20) takePage (.page 0) trivial (by decide +kernel)
  have hRun2 := hRun1.next (.cachepage 0 0 0x1000) .done
    ⟨by decide +kernel, by decide +kernel, by decide +kernel⟩ (by decide +kernel)
  have hRun3 := hRun2.next (.putpage (.page 0)) .done
    (show 0 < _ from by decide +kernel) (by decide +kernel)
  have hRun4 := hRun3.next (.lookpage 0 0x1000) (.page 0) trivial (by decide +kernel)
  exact ⟨_, _, _, hRun4, by decide +kernel⟩

theorem freelist_invariant_twenty : ∃ es k held,
    PageRun smallPort (smallPool 20) es k held ∧ (∃ fl, FreeList k fl) ∧ held 0 = 1 := by
  obtain ⟨es, k, held, hRun, hHeld⟩ := twentyPages_run
  have hInit : pageinit [{ base := 0x100000, npage := 20 }] (fun _ => 0) = .ok (smallPool 20) := rfl
  exact ⟨es, k, held, hRun, (freelist_invariant (by decide) hInit hRun).1, hHeld⟩

theorem pagecache_refines_twenty : ∃ es k held m,
    PageRun smallPort (smallPool 20) es k held ∧ Caches k m ∧ held 0 = 1 := by
  obtain ⟨es, k, held, hRun, hHeld⟩ := twentyPages_run
  have hInit : pageinit [{ base := 0x100000, npage := 20 }] (fun _ => 0) = .ok (smallPool 20) := rfl
  obtain ⟨m, -, hCaches, -⟩ := pagecache_refines hInit hRun
  exact ⟨es, k, held, m, hRun, hCaches, hHeld⟩

/-- In a pool of three pages, two are cached; `duppage` copies the first to the free
page, and then the second over it. The key of the first is gone, though no call
named it after it had moved. -/
theorem duppage_evicts : ∃ es k held k',
    PageRun smallPort (smallPool 3) es k held ∧
    (k.pages 1).image = some 0 ∧ (k.pages 1).daddr = 0x2000 ∧
    (k.lookpage smallPort 0 0x1000).toOption.map Prod.fst = some (some 2) ∧
    k.step smallPort (.duppage 1 0) = .ok (.code 0, k') ∧
    (k'.lookpage smallPort 0 0x1000).toOption.map Prod.fst = some none := by
  have hRun1 := PageRun.start.next (n := 3) takePage (.page 0) trivial (by decide +kernel)
  have hRun2 := hRun1.next takePage (.page 1) trivial (by decide +kernel)
  have hRun3 := hRun2.next (.cachepage 0 0 0x1000) .done
    ⟨by decide +kernel, by decide +kernel, by decide +kernel⟩ (by decide +kernel)
  have hRun4 := hRun3.next (.cachepage 1 0 0x2000) .done
    ⟨by decide +kernel, by decide +kernel, by decide +kernel⟩ (by decide +kernel)
  have hRun5 := hRun4.next (.duppage 0 0) (.code 0) (show 0 < _ from by decide +kernel)
    (by decide +kernel)
  exact ⟨_, _, _, _, hRun5, by decide +kernel, by decide +kernel, by decide +kernel,
    Palloc.step_stepTo (by decide +kernel), by decide +kernel⟩

end Glendum
