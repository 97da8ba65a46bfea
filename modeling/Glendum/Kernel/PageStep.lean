import Glendum.Kernel.PageSpec

/-!
# Glendum — one call of the page layer

`PageOp` names the calls of the page layer, and `Palloc.step` makes one. Beside
the kernel's state there is a ledger of the references that the callers hold. A
call is legal (`Legal`) when it drops only references of the ledger, and when
`cachepage` gets a page without an image for a key that is not cached.

`PageInv` joins the invariants of the free list, of the cache and of the ledger.
Each function has its theorem, `newpage_spec` and so on, and `step_inv` puts them
together: a legal call completes, keeps the invariants, and does to the table of
the cache what `CacheEffect` says. The exceptions are the retry limit of
`duppage`, and `auxpage` in a pool with a zero high-water mark.
-/

namespace Glendum

open Machine Lists

/-! ## Calls -/

inductive PageOp
  | newpage (kp clear seg : Bool) (va : Word)
  | auxpage
  | putpage (e : PageEntry)
  | lookpage (i : ImageId) (d : Word)
  | duppage (p : PageId) (busy : Nat)
  /-- the caller has set `p->daddr` to `d` -/
  | cachepage (p : PageId) (i : ImageId) (d : Word)
  | uncachepage (p : PageId)
  | cachedel (i : ImageId) (d : Word)
  | ptecpy (old : Pte)
  | freepte (type : SegType) (pgfree : Bool) (t : Pte)

inductive PageResult
  | done
  | page (p : PageId)
  | nopage
  | asleep
  | code (rc : Nat)
  | pte (t : Pte)
deriving DecidableEq

def PageResult.ofOption : Option PageId → PageResult
  | some p => .page p
  | none => .nopage

def PageResult.ofNewpage : Palloc.NewpageResult → PageResult
  | .page p => .page p
  | .nil => .nopage
  | .asleep => .asleep

namespace Palloc

def step (P : Port) (op : PageOp) (k : Palloc) : Except Fault (PageResult × Palloc) :=
  match op with
  | .newpage kp clear seg va => (k.newpage P kp clear seg va).map fun r => (.ofNewpage r.1, r.2)
  | .auxpage => (k.auxpage P).map fun r => (.ofOption r.1, r.2)
  | .putpage e => (k.putpage P e).map fun k => (.done, k)
  | .lookpage i d => (k.lookpage P i d).map fun r => (.ofOption r.1, r.2)
  | .duppage p busy => (k.duppage P p busy).map fun r => (.code r.1, r.2)
  | .cachepage p i d =>
    ((k.setPage p fun pg => { pg with daddr := d }).cachepage P p (some i)).map fun k => (.done, k)
  | .uncachepage p => (k.uncachepage P p).map fun k => (.done, k)
  | .cachedel i d => (k.cachedel P i d).map fun k => (.done, k)
  | .ptecpy old => (k.ptecpy old).map fun r => (.pte r.1, r.2)
  | .freepte type pgfree t => (k.freepte P type pgfree t).map fun k => (.done, k)

end Palloc

/-! ## The ledger -/

/-- The references to the page `p` that a table holds in its slots. -/
def Pte.count (t : Pte) (p : PageId) : Nat :=
  t.slots.countP fun j => t.pages[j]? == some (some (.page p))

/-- The references each page has after a call. -/
def heldAfter (held : PageId → Nat) : PageOp → PageResult → PageId → Nat
  | .newpage .., .page p | .auxpage, .page p | .lookpage .., .page p =>
    Function.update held p (held p + 1)
  | .putpage (.page p), _ => Function.update held p (held p - 1)
  | .ptecpy old, _ => fun p => held p + old.count p
  | .freepte .physical .., _ => held
  | .freepte _ _ t, _ => fun p => held p - t.count p
  | _, _ => held

/-- What a caller of the page layer keeps to: it drops references it holds,
copies tables that hold theirs, and caches pages without an image under free
keys. -/
def Legal (k : Palloc) (held : PageId → Nat) : PageOp → Prop
  | .putpage (.page p) => 0 < held p
  | .duppage p _ => p < k.user
  | .cachepage p i d => p < k.user ∧ (k.pages p).image = none ∧
      ∀ q, q < k.user → (k.pages q).image = some i → (k.pages q).daddr ≠ d
  | .uncachepage p => p < k.user
  | .ptecpy old => ∀ j ∈ old.slots, j < PTEPERTAB ∧
      ∀ p, old.pages[j]? = some (some (.page p)) → 0 < held p
  | .freepte .physical _ t => ∀ e ∈ t.pages.toList,
      e = none ∨ ∃ p, e = some (.page p) ∧ k.user ≤ p
  | .freepte _ _ t => (∀ j ∈ t.slots, j < PTEPERTAB) ∧ ∀ p, t.count p ≤ held p
  | _ => True

/-- What a call does to the table the cache stands for. A copy made by `duppage` of a page
that is in use and cached takes over its key, and loses the one it had. -/
def CacheEffect (P : Port) (m : CacheMap) (held : PageId → Nat) :
    PageOp → PageResult → CacheMap → Prop
  | .newpage .., .page p, m' | .auxpage, .page p, m' => m' = m.dropPage p
  | .lookpage i d, r, m' => m' = m ∧ r = .ofOption (m i d)
  | .cachepage p i d, _, m' => m' = m.insert i d p
  | .uncachepage p, _, m' => m' = m.dropPage p
  | .cachedel i d, _, m' => m' = m.dropKey i d
  | .duppage p _, r, m' =>
    r = .code 1 ∧ m' = m.dropPage p ∨
    r = .code 0 ∧ m' = m ∧ (held p = 0 ∨ ∀ i d, m i d = some p → P.notext i = true) ∨
    r = .code 0 ∧ held p ≠ 0 ∧ (∃ i d, m i d = some p ∧ P.notext i = false) ∧
      ∃ np, np ≠ p ∧ held np = 0 ∧ m' = m.move p np
  | _, _, m' => m' = m

/-! ## Invariants -/

/-- The free list, and the references of the pages as the ledger has them. -/
structure FreeInv (k : Palloc) (held : PageId → Nat) : Prop where
  free    : ∃ fl, FreeList k fl
  ledger  : ∀ p, p < k.user → (k.pages p).ref = held p
  outside : ∀ p, k.user ≤ p → held p = 0

structure PageInv (P : Port) (k : Palloc) (m : CacheMap) (held : PageId → Nat) : Prop where
  free  : FreeInv k held
  cache : CacheInv P k m

section

variable {P : Port} {k k' : Palloc} {m : CacheMap} {held : PageId → Nat} {fl : List PageId}
  {p : PageId}

/-- The free list and the ledger see the list, the count and the references only. -/
theorem FreeInv.congr (h : FreeInv k held) (hFree : k'.free = k.free)
    (hCount : k'.freecount = k.freecount) (hUser : k'.user = k.user)
    (hRef : ∀ p, p < k.user → (k'.pages p).ref = (k.pages p).ref) : FreeInv k' held := by
  obtain ⟨fl, hList⟩ := h.free
  refine ⟨⟨fl, hList.congr hFree hCount hUser hRef⟩, ?_, ?_⟩
  · intro p hp
    rw [hUser] at hp
    rw [hRef p hp, h.ledger p hp]
  · rw [hUser]
    exact h.outside

/-- The cache does not look at the free list … -/
theorem CacheInv.lists (h : CacheInv P k m) {free : Links PageId} {n : Nat} :
    CacheInv P { k with free := free, freecount := n } m :=
  h.congr rfl rfl rfl fun _ _ => ⟨rfl, rfl⟩

/-- … nor at the other fields of a page. -/
theorem CacheInv.setPage (h : CacheInv P k m) {f : Page → Page}
    (hImage : ∀ pg, (f pg).image = pg.image) (hDaddr : ∀ pg, (f pg).daddr = pg.daddr) :
    CacheInv P (k.setPage p f) m :=
  h.congr rfl rfl rfl fun q _ =>
    ⟨Palloc.setPage_field Page.image hImage q, Palloc.setPage_field Page.daddr hDaddr q⟩

/-- A change of the keys does not touch them. -/
theorem FreeInv.cacheStep (h : FreeInv k held) (hStep : CacheStep p k k') : FreeInv k' held :=
  h.congr hStep.free hStep.freecount hStep.user fun q _ => hStep.ref_eq q

/-- The references of one page change, and its holders with them. -/
theorem FreeInv.ledger_update (h : FreeInv k held) (hp : p < k.user) (hUser : k'.user = k.user)
    {n : Nat} (hRef : (k'.pages p).ref = n)
    (hOthers : ∀ q, q ≠ p → (k'.pages q).ref = (k.pages q).ref) :
    (∀ q, q < k'.user → (k'.pages q).ref = Function.update held p n q) ∧
      ∀ q, k'.user ≤ q → Function.update held p n q = 0 := by
  constructor
  · intro q hq
    by_cases hqp : q = p
    · rw [hqp, hRef, Function.update_self]
    · rw [Function.update_of_ne hqp, hOthers q hqp, h.ledger q (hUser ▸ hq)]
  · intro q hq
    rw [hUser] at hq
    rw [Function.update_of_ne (lt_of_lt_of_le hp hq).ne', h.outside q hq]

/-- A free page gets a reference and leaves the free list. -/
theorem FreeInv.take (h : FreeInv k held) (hList : FreeList k fl) (hp : p ∈ fl)
    (hFree : k'.free = k.free.unlink p) (hCount : k'.freecount = k.freecount - 1)
    (hUser : k'.user = k.user) (hRef : (k'.pages p).ref = 1)
    (hOthers : ∀ q, q ≠ p → (k'.pages q).ref = (k.pages q).ref) :
    FreeInv k' (Function.update held p (held p + 1)) := by
  obtain ⟨hUserP, hRefP⟩ := (hList.mem p).mp hp
  have hHeld : held p = 0 := by rw [← h.ledger p hUserP, hRefP]
  obtain ⟨hLedger, hOutside⟩ := h.ledger_update hUserP hUser (n := held p + 1) (by rw [hRef, hHeld]) hOthers
  refine ⟨⟨fl.erase p, ?_, ?_, ?_⟩, hLedger, hOutside⟩
  · rw [hFree]
    exact hList.links.unlink_erase hp
  · rw [hCount, hList.count, List.length_erase_of_mem hp]
  · -- the page has left the list and has a reference
    intro q
    by_cases hq : q = p
    · subst hq
      simp [hRef, hList.links.nodup.not_mem_erase]
    · rw [List.mem_erase_of_ne hq, hList.mem, hUser, hOthers q hq]

/-- A page whose last reference is dropped comes to the free list, at the end that
`fl'` tells. -/
theorem FreeInv.give {fl' : List PageId} (h : FreeInv k held) (hList : FreeList k fl)
    (hp : p < k.user) (hHeld : held p = 1) (hLinks : k'.free.IsList fl')
    (hPerm : ∀ q, q ∈ fl' ↔ q = p ∨ q ∈ fl) (hLen : fl'.length = fl.length + 1)
    (hCount : k'.freecount = k.freecount + 1) (hUser : k'.user = k.user)
    (hRef : (k'.pages p).ref = 0) (hOthers : ∀ q, q ≠ p → (k'.pages q).ref = (k.pages q).ref) :
    FreeInv k' (Function.update held p (held p - 1)) := by
  obtain ⟨hLedger, hOutside⟩ := h.ledger_update hp hUser (n := held p - 1) (by rw [hRef, hHeld]) hOthers
  refine ⟨⟨fl', hLinks, by rw [hCount, hList.count, hLen], ?_⟩, hLedger, hOutside⟩
  intro q
  by_cases hq : q = p
  · subst hq
    simp [hPerm, hUser, hp, hRef]
  · rw [hPerm, hList.mem, hUser, hOthers q hq]
    simp [hq]

/-- The references of the pages change, and no page becomes or ceases to be free. -/
theorem FreeInv.recount {held' : PageId → Nat} (h : FreeInv k held)
    (hFree : k'.free = k.free) (hCount : k'.freecount = k.freecount) (hUser : k'.user = k.user)
    (hRef : ∀ q, q < k.user → (k'.pages q).ref = held' q)
    (hZero : ∀ q, held' q = 0 ↔ held q = 0) : FreeInv k' held' := by
  obtain ⟨fl, hList⟩ := h.free
  refine ⟨⟨fl, hFree ▸ hList.links, hCount.trans hList.count, ?_⟩, hUser ▸ hRef, ?_⟩
  · intro q
    rw [hList.mem, hUser]
    refine and_congr_right fun hq => ?_
    rw [hRef q hq, h.ledger q hq]
    exact (hZero q).symm
  · intro q hq
    exact (hZero q).mpr (h.outside q (hUser ▸ hq))

/-! ## One call -/

/-- What a completed call leaves: the invariants, and the pool as large as it was. -/
structure Keeps (P : Port) (k k' : Palloc) (m' : CacheMap) (held' : PageId → Nat) : Prop where
  inv       : PageInv P k' m' held'
  user      : k'.user = k.user
  highwater : k'.highwater = k.highwater

/-- Nothing has happened, and everything is kept. -/
theorem Keeps.refl (h : PageInv P k m held) : Keeps P k k m held := ⟨h, rfl, rfl⟩

/-- The rest of `newpage`, for a page of the free list. -/
theorem claimPage_spec (h : PageInv P k m held) (hList : FreeList k fl) (hp : p ∈ fl)
    (clear : Bool) (va : Word) (ct : CacheCtl) :
    ∃ k', k.claimPage P clear va ct p = .ok (.page p, k') ∧
      Keeps P k k' (m.dropPage p) (Function.update held p (held p + 1)) := by
  obtain ⟨hUser, hRef⟩ := (hList.mem p).mp hp
  -- `pageunchain` leaves the cache as it is
  have hCache : CacheInv P (k.pageunchain p) m := h.cache.lists
  obtain ⟨k1, hRun, hStep, hCache1⟩ := hCache.uncachepage (p := p) hUser
  have hRef1 : ∀ q, (k1.pages q).ref = (k.pages q).ref := hStep.ref_eq
  -- the writes to the page, and with `clear` the one to the memory
  let k2 := k1.setPage p fun pg =>
    { pg with ref := pg.ref + 1, va := va, modref := 0,
              cachectl := List.replicate MAXMACH ct }
  let k3 := if clear then
      { k2 with mem := k2.mem.write (kmap (k2.pages p)) (List.replicate BY2PG 0) }
    else k2
  have hPages : k3.pages = k2.pages := by
    simp only [k3]
    split <;> rfl
  have hPageP : (k3.pages p).ref = 1 := by
    rw [hPages]
    simp [k2, Palloc.setPage, hRef1, hRef]
  have hOthers : ∀ q, q ≠ p → k3.pages q = k1.pages q := by
    intro q hq
    rw [hPages]
    exact Function.update_of_ne hq _ _
  have hSame : k3.user = k1.user ∧ k3.highwater = k1.highwater ∧ k3.free = k1.free ∧
      k3.freecount = k1.freecount ∧ k3.chains = k1.chains ∧ k3.iref = k1.iref := by
    simp only [k3]
    split <;> exact ⟨rfl, rfl, rfl, rfl, rfl, rfl⟩
  obtain ⟨hUser3, hHigh3, hFree3, hCount3, hChains3, hIref3⟩ := hSame
  refine ⟨k3, ?_, ⟨?_, ?_⟩, hUser3.trans hStep.user, hHigh3.trans hStep.highwater⟩
  · -- a page of the free list has no reference, so the panic does not fire
    have hNoPanic : ¬ ((k.pageunchain p).pages p).ref ≠ 0 := not_not.mpr hRef
    rw [Palloc.claimPage]
    simp only [if_neg hNoPanic, hRun]
    rfl
  · refine h.free.take hList hp (hFree3.trans hStep.free) (hCount3.trans hStep.freecount)
      (hUser3.trans hStep.user) hPageP ?_
    intro q hq
    rw [hOthers q hq, hRef1]
  · refine hCache1.congr hChains3 hUser3 hIref3 fun q hq => ?_
    by_cases hqp : q = p
    · rw [hqp, hPages]
      simp [k2, Palloc.setPage]
    · rw [hOthers q hqp]
      exact ⟨rfl, rfl⟩

/-- With enough pages on the free list `newpage` takes one of them. -/
theorem newpage_enough (h : PageInv P k m held) (kp clear seg : Bool) (va : Word)
    (hEnough : k.freecount > k.highwater ∨ kp = true ∧ k.freecount > 0) :
    ∃ p k', k.newpage P kp clear seg va = .ok (.page p, k') ∧ p < k.user ∧ (k.pages p).ref = 0 ∧
      Keeps P k k' (m.dropPage p) (Function.update held p (held p + 1)) := by
  obtain ⟨fl, hList⟩ := h.free.free
  unfold Palloc.newpage
  simp only [if_pos hEnough, firstOfColor_spec hList.links hList.length_le]
  cases hFind : fl.find? fun p => (k.pages p).color == getpgcolor va with
  | some p =>
    -- a page of the colour
    have hp := List.mem_of_find?_eq_some hFind
    obtain ⟨k', hRun, hKeeps⟩ := claimPage_spec h hList hp clear va .noflush
    exact ⟨p, k', hRun, ((hList.mem p).mp hp).1, ((hList.mem p).mp hp).2, hKeeps⟩
  | none =>
    -- the list is not empty, so its head is recoloured
    have hPos : 0 < fl.length := by
      rw [← hList.count]
      omega
    obtain ⟨p, rest, rfl⟩ := List.exists_cons_of_length_pos hPos
    have hHead : k.free.head = some p := hList.links.head
    rw [hHead]
    have hp : p ∈ p :: rest := List.mem_cons_self ..
    let k1 := k.setPage p fun pg => { pg with color := getpgcolor va }
    have hRef : ∀ q, (k1.pages q).ref = (k.pages q).ref :=
      Palloc.setPage_field Page.ref fun _ => rfl
    have hInv1 : PageInv P k1 m held :=
      ⟨h.free.congr rfl rfl rfl fun q _ => hRef q, h.cache.setPage (fun _ => rfl) fun _ => rfl⟩
    have hList1 : FreeList k1 (p :: rest) := hList.congr rfl rfl rfl fun q _ => hRef q
    obtain ⟨k', hRun, hKeeps⟩ := claimPage_spec hInv1 hList1 hp clear va .newcol
    exact ⟨p, k', hRun, ((hList.mem p).mp hp).1, ((hList.mem p).mp hp).2, hKeeps.inv,
      hKeeps.user, hKeeps.highwater⟩

/-- With too few the caller loses its segment or sleeps, whatever the state. -/
theorem newpage_short {kp : Bool} (clear seg : Bool) (va : Word)
    (hShort : ¬ (k.freecount > k.highwater ∨ kp = true ∧ k.freecount > 0)) :
    k.newpage P kp clear seg va = .ok (if seg then .nil else .asleep, k) := by
  unfold Palloc.newpage
  simp only [if_neg hShort]
  cases seg with
  | true => rfl
  | false => rfl

/-- `newpage` gives nothing, sleeps, or takes a page without references and drops its key. -/
theorem newpage_spec (h : PageInv P k m held) (kp clear seg : Bool) (va : Word) :
    (k.newpage P kp clear seg va = .ok (.nil, k) ∨ k.newpage P kp clear seg va = .ok (.asleep, k)) ∨
    ∃ p k', k.newpage P kp clear seg va = .ok (.page p, k') ∧ p < k.user ∧ (k.pages p).ref = 0 ∧
      Keeps P k k' (m.dropPage p) (Function.update held p (held p + 1)) := by
  by_cases hEnough : k.freecount > k.highwater ∨ kp = true ∧ k.freecount > 0
  · exact Or.inr (newpage_enough h kp clear seg va hEnough)
  · left
    have hRun := newpage_short (P := P) clear seg va hEnough
    cases seg with
    | true => exact Or.inl hRun
    | false => exact Or.inr hRun

/-- `auxpage` takes a page in the same way, or gives none; with a high water mark of 0 it can
look at page nil. -/
theorem auxpage_spec (h : PageInv P k m held) :
    k.auxpage P = .ok (none, k) ∨ k.highwater = 0 ∧ k.auxpage P = .error .nilDeref ∨
    ∃ p k', k.auxpage P = .ok (some p, k') ∧ p < k.user ∧ (k.pages p).ref = 0 ∧
      Keeps P k k' (m.dropPage p) (Function.update held p (held p + 1)) := by
  obtain ⟨fl, hList⟩ := h.free.free
  unfold Palloc.auxpage
  by_cases hLow : k.freecount < k.highwater
  · exact Or.inl (by simp only [if_pos hLow])
  right
  simp only [if_neg hLow, hList.links.head]
  cases fl with
  | nil =>
    -- no page at all, which only a zero mark lets through
    have hCount : k.freecount = 0 := hList.count
    exact Or.inl ⟨by omega, rfl⟩
  | cons p rest =>
    right
    have hp : p ∈ p :: rest := List.mem_cons_self ..
    obtain ⟨hUser, hRef⟩ := (hList.mem p).mp hp
    let k1 := (k.pageunchain p).setPage p fun pg => { pg with ref := pg.ref + 1 }
    have hPageP : k1.pages p = { k.pages p with ref := (k.pages p).ref + 1 } :=
      Function.update_self ..
    have hOthers : ∀ q, q ≠ p → k1.pages q = k.pages q := fun q hq => Function.update_of_ne hq _ _
    have hUnchained : CacheInv P (k.pageunchain p) m := h.cache.lists
    have hCache : CacheInv P k1 m := hUnchained.setPage (fun _ => rfl) fun _ => rfl
    have hFree : FreeInv k1 (Function.update held p (held p + 1)) := by
      refine h.free.take hList hp rfl rfl rfl ?_ fun q hq => by rw [hOthers q hq]
      rw [hPageP]
      simp [hRef]
    obtain ⟨k2, hRun, hStep, hCache2⟩ := hCache.uncachepage (p := p) hUser
    have hNoPanic : ¬ ((k.pageunchain p).pages p).ref ≠ 0 := not_not.mpr hRef
    refine ⟨p, k2, ?_, hUser, hRef, ⟨hFree.cacheStep hStep, hCache2⟩, hStep.user, hStep.highwater⟩
    simp only [List.head?_cons, if_neg hNoPanic]
    rw [hRun]

/-- One reference more or less, with one left over either way. -/
theorem FreeInv.setRef (h : FreeInv k held) (f : Nat → Nat) (hp : p < k.user)
    (hBefore : held p ≠ 0) (hAfter : f (held p) ≠ 0) :
    FreeInv (k.setPage p fun pg => { pg with ref := f pg.ref })
      (Function.update held p (f (held p))) := by
  refine h.recount rfl rfl rfl ?_ ?_
  · intro q hq
    by_cases hqp : q = p
    · subst hqp
      simp [Palloc.setPage, h.ledger q hq]
    · simp [Palloc.setPage, Function.update_of_ne hqp, h.ledger q hq]
  · intro q
    by_cases hqp : q = p
    · subst hqp
      simp [hBefore, hAfter]
    · rw [Function.update_of_ne hqp]

/-- A page of which somebody holds a reference is one of the pool. -/
theorem FreeInv.lt_user (h : FreeInv k held) (hHeld : 0 < held p) : p < k.user := by
  by_contra hOut
  rw [h.outside p (not_lt.mp hOut)] at hHeld
  exact absurd hHeld (lt_irrefl 0)

/-- `putpage` gives one reference back. -/
theorem putpage_spec (h : PageInv P k m held) (hHeld : 0 < held p) :
    ∃ k', k.putpage P (.page p) = .ok k' ∧
      Keeps P k k' m (Function.update held p (held p - 1)) := by
  have hUser : p < k.user := h.free.lt_user hHeld
  have hRef : (k.pages p).ref = held p := h.free.ledger p hUser
  have hNoPanic : ¬ (k.pages p).ref = 0 := by omega
  let k1 := k.setPage p fun pg => { pg with ref := pg.ref - 1 }
  have hCache : CacheInv P k1 m := h.cache.setPage (fun _ => rfl) fun _ => rfl
  have hRef1 : (k1.pages p).ref = held p - 1 := by simp [k1, Palloc.setPage, hRef]
  have hOthers : ∀ q, q ≠ p → k1.pages q = k.pages q := fun q hq => Function.update_of_ne hq _ _
  simp only [Palloc.putpage, if_neg hNoPanic]
  by_cases hMore : (k1.pages p).ref > 0
  · -- some are left, and the lists are as they were
    refine ⟨k1, if_pos hMore, ⟨?_, hCache⟩, rfl, rfl⟩
    exact h.free.setRef (· - 1) hUser (by omega) (by omega)
  · -- the last reference
    rw [if_neg hMore]
    have hOne : held p = 1 := by omega
    obtain ⟨fl, hList⟩ := h.free.free
    have hNew : p ∉ fl := fun hMem => hNoPanic ((hList.mem p).mp hMem).2
    have hZero : (k1.pages p).ref = 0 := by omega
    split
    · -- a cached page goes to the tail, to be kept as long as possible
      refine ⟨k1.pagechaintail p, rfl, ⟨?_, hCache.lists⟩, rfl, rfl⟩
      refine h.free.give hList hUser hOne (hList.links.pushBack hNew) ?_ (by simp) rfl rfl hZero
        fun q hq => by rw [← hOthers q hq]; rfl
      intro q
      rw [List.mem_append, List.mem_singleton, or_comm]
    · -- and one that is not to the head
      refine ⟨k1.pagechainhead p, rfl, ⟨?_, hCache.lists⟩, rfl, rfl⟩
      exact h.free.give hList hUser hOne (hList.links.pushFront hNew) (fun q => List.mem_cons)
        (by simp) rfl rfl hZero fun q hq => by rw [← hOthers q hq]; rfl

/-- `lookpage` answers with the entry of the table, and takes a reference to it. -/
theorem lookpage_spec (h : PageInv P k m held) (i : ImageId) (d : Word) :
    ∃ k', k.lookpage P i d = .ok (m i d, k') ∧
      Keeps P k k' m (match m i d with
        | some p => Function.update held p (held p + 1)
        | none => held) := by
  obtain ⟨ch, hHash⟩ := h.cache.hashed
  cases hKey : m i d with
  | none =>
    obtain ⟨r, hFind, hFound⟩ := hHash.spells.find (P.pghash d) (k.isCached i d)
      (hHash.length_le _)
    rw [find?_isCached hHash h.cache.caches, hKey] at hFound
    obtain rfl := Option.map_eq_none_iff.mp hFound
    refine ⟨k, ?_, .refl h⟩
    rw [Palloc.lookpage, hFind]
  | some f =>
    obtain ⟨l, hFind, hTest⟩ := find_cached hHash h.cache.caches hKey
    have hUser : f < k.user := ((h.cache.caches i d f).mp hKey).1
    let k1 := k.setPage f fun pg => { pg with ref := pg.ref + 1 }
    have hCache : CacheInv P k1 m := h.cache.setPage (fun _ => rfl) fun _ => rfl
    have hRef1 : (k1.pages f).ref = held f + 1 := by
      simp [k1, Palloc.setPage, h.free.ledger f hUser]
    simp only [Palloc.lookpage, hFind, hTest, if_true]
    by_cases hFirst : (k1.pages f).ref = 1
    · -- a free page is resurrected
      refine ⟨k1.pageunchain f, by rw [if_pos hFirst], ⟨?_, ?_⟩, rfl, rfl⟩
      · obtain ⟨fl, hList⟩ := h.free.free
        have hMem : f ∈ fl := (hList.mem f).mpr ⟨hUser, by rw [h.free.ledger f hUser]; omega⟩
        refine h.free.take hList hMem rfl rfl rfl hFirst fun q hq => ?_
        exact congrArg Page.ref (Function.update_of_ne hq _ _)
      · exact hCache.lists
    · -- a page in use gets one more reference
      refine ⟨k1, by rw [if_neg hFirst], ⟨?_, hCache⟩, rfl, rfl⟩
      exact h.free.setRef (· + 1) hUser (by omega) (by omega)

/-! ## duppage -/

/-- A page without a key is found under none. -/
theorem CacheMap.dropPage_ne (m : CacheMap) (p : PageId) (i : ImageId) (d : Word) :
    m.dropPage p i d ≠ some p := by
  rw [CacheMap.dropPage]
  split
  · simp
  · assumption

/-- Nothing in the cache depends on a page without an image. -/
theorem CacheInv.blank (h : CacheInv P k m) (hImage : (k.pages p).image = none) {f : Page → Page}
    (hf : (f (k.pages p)).image = none) : CacheInv P (k.setPage p f) m := by
  have hPage : ((k.setPage p f).pages p) = f (k.pages p) := Function.update_self ..
  have hOthers : ∀ q, q ≠ p → (k.setPage p f).pages q = k.pages q :=
    fun q hq => Function.update_of_ne hq _ _
  -- no image changes, and a `daddr` only where there is none
  have hSame : ∀ q, ((k.setPage p f).pages q).image = (k.pages q).image := by
    intro q
    by_cases hq : q = p
    · rw [hq, hPage, hf, hImage]
    · rw [hOthers q hq]
  obtain ⟨ch, hHash⟩ := h.hashed
  refine ⟨⟨ch, hHash.congr rfl rfl (fun q _ => hSame q) ?_⟩, ?_, ?_⟩
  · intro q _ hne
    have hq : q ≠ p := by
      rintro rfl
      exact hne hImage
    rw [hOthers q hq]
  · intro i d q
    rw [h.caches]
    by_cases hq : q = p
    · subst hq
      simp [hPage, hf, hImage]
    · rw [hOthers q hq]
      rfl
  · intro i
    refine (h.counted i).trans (Finset.sum_congr rfl fun q _ => ?_)
    rw [hSame q]

/-- A free page is put to the end of the free list. -/
theorem FreeInv.requeue {np : PageId} (h : FreeInv k held) (hList : FreeList k fl) (hnp : np ∈ fl) :
    FreeInv ((k.pageunchain np).pagechaintail np) held := by
  have hPos : 0 < fl.length := List.length_pos_of_mem hnp
  have hLinks := (hList.links.unlink_erase hnp).pushBack (p := np) hList.links.nodup.not_mem_erase
  refine ⟨⟨fl.erase np ++ [np], hLinks, ?_, ?_⟩, h.ledger, h.outside⟩
  · have hCount := hList.count
    simp only [Palloc.pagechaintail, Palloc.pageunchain, List.length_append,
      List.length_erase_of_mem hnp, List.length_singleton]
    omega
  · intro q
    refine Iff.trans ?_ (hList.mem q)
    rw [List.mem_append, List.mem_singleton]
    by_cases hq : q = np
    · simp [hq, hnp]
    · simp [List.mem_erase_of_ne hq, hq]

/-- The entries of the cache after `duppage` has filled `np` and uncached `p`. -/
theorem Caches.moved {np : PageId} {i : ImageId} {k1 k2 k3 : Palloc} (hm : Caches k m)
    (hne : np ≠ p) (hImage : (k.pages p).image = some i)
    (hCached : Cached np i k1 k2) (hUncached : Uncached p k2 k3)
    (hUser : k1.user = k.user) (hp : p < k.user) (hnp : np < k.user)
    (hDaddr : (k1.pages np).daddr = (k.pages p).daddr)
    (hOthers : ∀ q, q ≠ np → k1.pages q = k.pages q) : Caches k3 (m.move p np) := by
  intro i' d' q
  have hUser3 : k3.user = k.user := hUncached.user.trans (hCached.user.trans hUser)
  have hKeyP : m i' d' = some p ↔ i = i' ∧ (k.pages p).daddr = d' := by
    rw [hm i' d' p, hImage, Option.some.injEq]
    exact and_iff_right hp
  rw [CacheMap.move, hUser3]
  by_cases hqp : q = p
  · -- the original is not cached any more
    subst hqp
    simp only [hUncached.image, reduceCtorEq, false_and, and_false, iff_false]
    split
    · simpa using hne
    · rename_i hOld
      rw [CacheMap.dropPage]
      split
      · simp
      · exact hOld
  · rw [hUncached.others q hqp]
    by_cases hqn : q = np
    · -- the copy has the key of the original and no other
      subst hqn
      rw [hCached.image, hCached.daddr, hDaddr, Option.some.injEq, ← hKeyP]
      split
      · rename_i hOld
        simp [hOld, hnp]
      · rename_i hOld
        simp [CacheMap.dropPage_ne, hOld]
    · rw [hCached.others q hqn, hOthers q hqn, ← hm i' d' q]
      split
      · rename_i hOld
        simp [hOld, Ne.symm hqn, Ne.symm hqp]
      · rw [CacheMap.dropPage]
        split
        · rename_i hNp
          simp [hNp, Ne.symm hqn]
        · rfl

/-- `k'` is `k` with the address of the page `p` on the page `np`. -/
structure Addressed (p np : PageId) (k k' : Palloc) : Prop where
  user       : k'.user = k.user
  free       : k'.free = k.free
  freecount  : k'.freecount = k.freecount
  highwater  : k'.highwater = k.highwater
  chains     : k'.chains = k.chains
  iref       : k'.iref = k.iref
  copy       : k'.pages np = { k.pages np with va := (k.pages p).va, daddr := (k.pages p).daddr }
  others     : ∀ q, q ≠ np → k'.pages q = k.pages q

/-- The three calls on the cache that `duppage` makes, with `fill` for what it does to
the free page between the first and the second. For a moment two pages are under one
key, so the chains are followed here and not the table. -/
theorem dupCalls_spec {ch : Nat → List PageId} {np : PageId} (hHash : Hashed P k ch)
    (hnp : np < k.user) (hp : p < k.user) (hne : np ≠ p) (i : ImageId) {fill : Palloc → Palloc}
    (hFill : ∀ k, Addressed p np k (fill k)) :
    ∃ k2 k4 k5, k.uncachepage P np = .ok k2 ∧ Uncached np k k2 ∧ (∃ ch', Hashed P k2 ch') ∧
      (fill k2).cachepage P np (some i) = .ok k4 ∧ Cached np i (fill k2) k4 ∧
      k4.uncachepage P p = .ok k5 ∧ Uncached p k4 k5 ∧ ∃ ch', Hashed P k5 ch' := by
  obtain ⟨k2, hRun2, hStep2, ch2, hHash2⟩ := uncachepage_spec (p := np) hHash hnp
  obtain ⟨hUser3, -, -, -, hChains3, -, hCopy3, hOthers3⟩ := hFill k2
  have hUser2 := hStep2.user
  -- the page that is filled has no image
  have hSame : ∀ q, q < k2.user → ((fill k2).pages q).image = (k2.pages q).image := by
    intro q _
    by_cases hq : q = np
    · rw [hq, hCopy3]
    · rw [hOthers3 q hq]
  have hHash3 : Hashed P (fill k2) ch2 := hHash2.congr hChains3 hUser3 hSame fun q _ hImage => by
    have hq : q ≠ np := by
      rintro rfl
      exact hImage hStep2.image
    rw [hOthers3 q hq]
  obtain ⟨k4, hRun4, hStep4, ch4, hHash4⟩ := cachepage_spec (p := np) (i := i) hHash3
    (by rw [hUser3, hUser2]; exact hnp) (by rw [hCopy3]; exact hStep2.image)
  obtain ⟨k5, hRun5, hStep5, hHash5⟩ := uncachepage_spec (p := p) hHash4
    (by rw [hStep4.user, hUser3, hUser2]; exact hp)
  exact ⟨k2, k4, k5, hRun2, hStep2, ⟨ch2, hHash2⟩, hRun4, hStep4, hRun5, hStep5, hHash5⟩

/-- The copy is ready to be cached when it has the address of its page. -/
theorem copypage_addressed (p np : PageId) (k : Palloc) :
    Addressed p np k ((k.setPage np fun pg =>
      { pg with va := (k.pages p).va, daddr := (k.pages p).daddr }).copypage p np) :=
  ⟨rfl, rfl, rfl, rfl, rfl, rfl, Function.update_self .., fun _ hq => Function.update_of_ne hq ..⟩

/-- `duppage` into `np`, when none of its three cache calls faults. -/
theorem dupInto_ok {np : PageId} {k2 k4 k5 : Palloc}
    (hUncache : ((k.pageunchain np).pagechaintail np).uncachepage P np = .ok k2)
    (hCache : ((k2.setPage np fun pg =>
        { pg with va := (k2.pages p).va, daddr := (k2.pages p).daddr }).copypage p np).cachepage P np
        (((k2.setPage np fun pg =>
          { pg with va := (k2.pages p).va, daddr := (k2.pages p).daddr }).copypage p np).pages
            p).image = .ok k4)
    (hOld : k4.uncachepage P p = .ok k5) :
    k.dupInto P p np = .ok (0, k5) := by
  simp only [Palloc.dupInto, hUncache, hCache, hOld]

/-- The free page takes the place of the page in the cache. -/
theorem dupInto_spec {np : PageId} {i : ImageId} (h : PageInv P k m held) (hList : FreeList k fl)
    (hnp : np ∈ fl) (hp : p < k.user) (hRef : (k.pages p).ref ≠ 0)
    (hImage : (k.pages p).image = some i) :
    ∃ k', k.dupInto P p np = .ok (0, k') ∧ Keeps P k k' (m.move p np) held := by
  obtain ⟨hnpUser, hnpRef⟩ := (hList.mem np).mp hnp
  have hne : np ≠ p := by
    rintro rfl
    exact hRef hnpRef
  -- the copy goes to the end of the free list, and loses its own key
  let k1 := (k.pageunchain np).pagechaintail np
  have hFree1 : FreeInv k1 held := h.free.requeue hList hnp
  have hCache1 : CacheInv P k1 m := h.cache.lists
  obtain ⟨ch, hHash⟩ := hCache1.hashed
  obtain ⟨k2, k4, k5, hRun2, hStep2, hHash2, hRun4, hStep4, hRun5, hStep5, hHash5⟩ :=
    dupCalls_spec hHash hnpUser hp hne i (copypage_addressed p np)
  have hCache2 : CacheInv P k2 (m.dropPage np) := hCache1.uncached hStep2 hHash2
  have hUser2 : k2.user = k.user := hStep2.user
  -- the copy gets the address and the contents of the original
  let k3 := (k2.setPage np fun pg =>
    { pg with va := (k2.pages p).va, daddr := (k2.pages p).daddr }).copypage p np
  obtain ⟨hUser3, -, -, -, -, -, hPage3, hSame3⟩ := copypage_addressed p np k2
  have hOthers3 : ∀ q, q ≠ np → k3.pages q = k.pages q := fun q hq =>
    (hSame3 q hq).trans (hStep2.others q hq)
  have hRef3 : ∀ q, (k3.pages q).ref = (k1.pages q).ref := by
    intro q
    by_cases hq : q = np
    · rw [hq, hPage3]
      exact hStep2.ref
    · rw [hOthers3 q hq]
      rfl
  have hImage3 : (k3.pages p).image = some i := by rw [hOthers3 p hne.symm, hImage]
  refine ⟨k5, ?_, ⟨?_, hHash5, ?_, ?_⟩, hStep5.user.trans (hStep4.user.trans hUser2), ?_⟩
  · have hCached : k3.cachepage P np (k3.pages p).image = .ok k4 := by rw [hImage3, hRun4]
    exact dupInto_ok hRun2 hCached hRun5
  · -- the cache calls do not touch the free list
    have hFree3 : FreeInv k3 held := hFree1.congr hStep2.free hStep2.freecount hStep2.user
      fun q _ => hRef3 q
    exact (hFree3.cacheStep hStep4.toCacheStep).cacheStep hStep5.toCacheStep
  · have hDaddr : (k3.pages np).daddr = (k.pages p).daddr := by
      have hSame : k2.pages p = k.pages p := hStep2.others p hne.symm
      rw [hPage3, ← hSame]
    exact h.cache.caches.moved hne hImage hStep4 hStep5 hUser2 hp hnpUser hDaddr hOthers3
  · intro j
    -- no call changes what an image has over its count
    have hCount3 : k2.iref j = imageCount k3.pages k3.user j :=
      (hCache2.blank (f := fun pg =>
        { pg with va := (k2.pages p).va, daddr := (k2.pages p).daddr }) hStep2.image
          hStep2.image).counted j
    have hCount4 : k4.iref j - imageCount k4.pages k4.user j =
        k2.iref j - imageCount k3.pages k3.user j := hStep4.iref j
    have hCount5 := hStep5.iref j
    omega
  · exact hStep5.highwater.trans (hStep4.highwater.trans hStep2.highwater)

/-- A `duppage` that gives up drops the key of the page. -/
theorem dupGiveUp_spec (h : PageInv P k m held) (hp : p < k.user) :
    ∃ k', k.dupGiveUp P p = .ok (1, k') ∧ Keeps P k k' (m.dropPage p) held := by
  obtain ⟨k', hRun, hStep, hCache⟩ := h.cache.uncachepage hp
  exact ⟨k', by rw [Palloc.dupGiveUp, hRun], ⟨h.free.cacheStep hStep, hCache⟩, hStep.user,
    hStep.highwater⟩

/-- `duppage` panics, does nothing, drops the key or moves it to the copy. -/
theorem duppage_spec (h : PageInv P k m held) (hp : p < k.user) (busy : Nat) :
    k.duppage P p busy = .error (.panic "duppage\n") ∨
    ∃ rc k' m', k.duppage P p busy = .ok (rc, k') ∧
      CacheEffect P m held (.duppage p busy) (.code rc) m' ∧ Keeps P k k' m' held := by
  cases hImage : (k.pages p).image with
  | none =>
    right
    refine ⟨0, k, m, ?_, ?_, .refl h⟩
    · simp only [Palloc.duppage, hImage]
    · refine Or.inr (Or.inl ⟨rfl, rfl, Or.inr fun i d hKey => ?_⟩)
      have hSome := ((h.cache.caches i d p).mp hKey).2.1
      simp [hImage] at hSome
  | some i =>
    simp only [Palloc.duppage, hImage]
    by_cases hSkip : (k.pages p).ref = 0 ∨ P.notext i = true
    · -- not worth a copy
      right
      refine ⟨0, k, m, if_pos hSkip, Or.inr (Or.inl ⟨rfl, rfl, ?_⟩), .refl h⟩
      rcases hSkip with hRef | hNotext
      · exact Or.inl (h.free.ledger p hp ▸ hRef)
      · refine Or.inr fun i' d hKey => ?_
        have hSome := ((h.cache.caches i' d p).mp hKey).2.1
        rw [hImage, Option.some.injEq] at hSome
        rwa [← hSome]
    rw [if_neg hSkip]
    have hGiveUp : ∀ k1 : Palloc, PageInv P k1 m held → k1.user = k.user →
        k1.highwater = k.highwater → ∃ k', k1.dupGiveUp P p = .ok (1, k') ∧
          Keeps P k k' (m.dropPage p) held := by
      intro k1 h1 hUser hHigh
      obtain ⟨k', hRun, hKeeps⟩ := dupGiveUp_spec h1 (hUser ▸ hp)
      exact ⟨k', hRun, hKeeps.inv, hKeeps.user.trans hUser, hKeeps.highwater.trans hHigh⟩
    by_cases hBusy : busy > k.dupretries
    · -- the retries are used up: a panic at the limit, else the page is given up
      rw [if_pos hBusy]
      by_cases hLimit : k.dupretries + 100 > 100000
      · exact Or.inl (if_pos hLimit)
      · right
        rw [if_neg hLimit]
        obtain ⟨k', hRun, hKeeps⟩ := hGiveUp { k with dupretries := k.dupretries + 100 }
          ⟨h.free.congr rfl rfl rfl fun _ _ => rfl, h.cache.congr rfl rfl rfl fun _ _ => ⟨rfl, rfl⟩⟩
          rfl rfl
        exact ⟨1, k', _, hRun, Or.inl ⟨rfl, rfl⟩, hKeeps⟩
    rw [if_neg hBusy]
    obtain ⟨k', hRun, hKeeps⟩ := hGiveUp k h rfl rfl
    by_cases hLow : k.freecount < k.highwater
    · rw [if_pos hLow]
      exact Or.inr ⟨1, k', _, hRun, Or.inl ⟨rfl, rfl⟩, hKeeps⟩
    rw [if_neg hLow]
    obtain ⟨fl, hList⟩ := h.free.free
    rw [firstOfColor_spec hList.links hList.length_le]
    cases hFind : fl.find? fun q => (k.pages q).color == getpgcolor (k.pages p).va with
    | none => exact Or.inr ⟨1, k', _, hRun, Or.inl ⟨rfl, rfl⟩, hKeeps⟩
    | some np =>
      right
      have hnp := List.mem_of_find?_eq_some hFind
      have hRef : (k.pages p).ref ≠ 0 := fun h => hSkip (Or.inl h)
      obtain ⟨hnpUser, hnpRef⟩ := (hList.mem np).mp hnp
      obtain ⟨k', hRun, hKeeps⟩ := dupInto_spec h hList hnp hp hRef hImage
      have hHeld : held p ≠ 0 := h.free.ledger p hp ▸ hRef
      have hKey : m i (k.pages p).daddr = some p :=
        (h.cache.caches i _ p).mpr ⟨hp, hImage, rfl⟩
      have hText : P.notext i = false := Bool.eq_false_iff.mpr fun h => hSkip (Or.inr h)
      refine ⟨0, k', _, hRun, Or.inr (Or.inr ⟨rfl, hHeld, ⟨i, _, hKey, hText⟩, np, ?_, ?_, rfl⟩),
        hKeeps⟩
      · rintro rfl
        exact hRef hnpRef
      · rw [← h.free.ledger np hnpUser, hnpRef]

/-! ## The tables of a segment -/

/-- The references to `p` in the slots `js` of a table. -/
def Pte.countIn (t : Pte) (js : List Nat) (p : PageId) : Nat :=
  js.countP fun j => t.pages[j]? == some (some (.page p))

/-- The slots are counted one by one. -/
theorem Pte.countIn_cons (t : Pte) (j : Nat) (js : List Nat) (q : PageId) :
    t.countIn (j :: js) q =
      t.countIn js q + if t.pages[j]? = some (some (.page q)) then 1 else 0 := by
  rw [countIn, countIn, List.countP_cons]
  simp

/-- Two calls keep what each of them keeps. -/
theorem Keeps.trans {k1 k2 : Palloc} {m1 m2 : CacheMap} {held1 held2 : PageId → Nat}
    (h1 : Keeps P k k1 m1 held1) (h2 : Keeps P k1 k2 m2 held2) : Keeps P k k2 m2 held2 :=
  ⟨h2.inv, h2.user.trans h1.user, h2.highwater.trans h1.highwater⟩

/-- A slot with a page. -/
theorem Pte.countIn_page {t : Pte} {j : Nat} {p : PageId} (h : t.pages[j]? = some (some (.page p)))
    (js : List Nat) (q : PageId) :
    t.countIn (j :: js) q = t.countIn js q + if q = p then 1 else 0 := by
  rw [countIn_cons, h]
  simp [eq_comm]

/-- The ledger with one reference more, and with one less. -/
theorem update_succ (held : PageId → Nat) (p q : PageId) :
    Function.update held p (held p + 1) q = held q + if q = p then 1 else 0 := by
  by_cases hq : q = p
  · rw [hq, Function.update_self, if_pos rfl]
  · rw [Function.update_of_ne hq, if_neg hq, Nat.add_zero]

/-- A reference less, counted for every page. -/
theorem update_pred (held : PageId → Nat) (p q : PageId) :
    Function.update held p (held p - 1) q = held q - if q = p then 1 else 0 := by
  by_cases hq : q = p
  · rw [hq, Function.update_self, if_pos rfl]
  · rw [Function.update_of_ne hq, if_neg hq, Nat.sub_zero]

/-- The loop of `ptecpy`: every page of the slots gets a reference more. -/
theorem copySlots_spec {old : Pte} {js : List Nat} {t : Pte} (h : PageInv P k m held)
    (hSlots : ∀ j ∈ js, j < PTEPERTAB ∧
      ∀ p, old.pages[j]? = some (some (.page p)) → 0 < held p) :
    ∃ t' k', js.foldlM (Palloc.copySlot old) (t, k) = .ok (t', k') ∧
      Keeps P k k' m fun p => held p + old.countIn js p := by
  induction js generalizing k held t with
  | nil => exact ⟨t, k, rfl, .refl h⟩
  | cons j js ih =>
    obtain ⟨hBound, hHeld⟩ := hSlots j (List.mem_cons_self ..)
    have hGet : ∃ e, old.pages[j]? = some e := ⟨_, Vector.getElem?_eq_getElem hBound⟩
    obtain ⟨e, hGet⟩ := hGet
    -- what is left to do after this slot
    have hRest : ∀ (held' : PageId → Nat) (t' : Pte) (k' : Palloc), PageInv P k' m held' →
        (∀ q, held q ≤ held' q) →
        ∃ t2 k2, js.foldlM (Palloc.copySlot old) (t', k') = .ok (t2, k2) ∧
          Keeps P k' k2 m fun p => held' p + old.countIn js p := by
      intro held' t' k' h' hMore
      refine ih h' fun j' hj' => ?_
      obtain ⟨hBound', hHeld'⟩ := hSlots j' (List.mem_cons_of_mem _ hj')
      exact ⟨hBound', fun p hp => lt_of_lt_of_le (hHeld' p hp) (hMore p)⟩
    -- the slot itself
    have hUnit : ∀ s s1 : Pte × Palloc, Palloc.copySlot old s j = .ok s1 →
        (j :: js).foldlM (Palloc.copySlot old) s = js.foldlM (Palloc.copySlot old) s1 := by
      intro s s1 hs
      rw [List.foldlM_cons, hs]
      rfl
    match e with
    | none =>
      obtain ⟨t2, k2, hRun, hKeeps⟩ := hRest held t k h fun _ => le_rfl
      refine ⟨t2, k2, ?_, ?_⟩
      · rw [hUnit (t, k) (t, k) (by rw [Palloc.copySlot, hGet]), hRun]
      · simpa [Pte.countIn_cons, hGet] using hKeeps
    | some (.swap n) =>
      obtain ⟨t2, k2, hRun, hKeeps⟩ := hRest held
        { t with last := j, pages := t.pages.setIfInBounds j (some (.swap n)) } k h fun _ => le_rfl
      refine ⟨t2, k2, ?_, ?_⟩
      · rw [hUnit (t, k) _ (by rw [Palloc.copySlot, hGet]), hRun]
      · simpa [Pte.countIn_cons, hGet] using hKeeps
    | some (.page p) =>
      have hPos := hHeld p hGet
      have hUser : p < k.user := h.free.lt_user hPos
      let k1 := k.setPage p fun pg => { pg with ref := pg.ref + 1 }
      have h1 : PageInv P k1 m (Function.update held p (held p + 1)) :=
        ⟨h.free.setRef (· + 1) hUser (by omega) (by omega),
          h.cache.setPage (fun _ => rfl) fun _ => rfl⟩
      have hMore : ∀ q, held q ≤ Function.update held p (held p + 1) q := by
        intro q
        rw [update_succ]
        exact Nat.le_add_right ..
      obtain ⟨t2, k2, hRun, hKeeps⟩ := hRest _
        { t with last := j, pages := t.pages.setIfInBounds j (some (.page p)) } k1 h1 hMore
      have hEq : (fun q => held q + old.countIn (j :: js) q) =
          fun q => Function.update held p (held p + 1) q + old.countIn js q := by
        funext q
        rw [Pte.countIn_page hGet, update_succ]
        omega
      refine ⟨t2, k2, ?_, ?_⟩
      · rw [hUnit (t, k) _ (by rw [Palloc.copySlot, hGet]), hRun]
      · rw [hEq]
        exact ⟨hKeeps.inv, hKeeps.user, hKeeps.highwater⟩

/-- The loop of `freepte`: every page of the slots loses a reference. -/
theorem freeSlots_spec {t : Pte} {js : List Nat} (h : PageInv P k m held)
    (hBound : ∀ j ∈ js, j < PTEPERTAB) (hHeld : ∀ p, t.countIn js p ≤ held p) :
    ∃ k', js.foldlM (Palloc.freeSlot P t) k = .ok k' ∧
      Keeps P k k' m fun p => held p - t.countIn js p := by
  induction js generalizing k held with
  | nil => exact ⟨k, rfl, .refl h⟩
  | cons j js ih =>
    have hGet : ∃ e, t.pages[j]? = some e :=
      ⟨_, Vector.getElem?_eq_getElem (hBound j (List.mem_cons_self ..))⟩
    obtain ⟨e, hGet⟩ := hGet
    have hBound' : ∀ j' ∈ js, j' < PTEPERTAB := fun j' hj' => hBound j' (List.mem_cons_of_mem _ hj')
    have hUnit : ∀ k1, Palloc.freeSlot P t k j = .ok k1 →
        (j :: js).foldlM (Palloc.freeSlot P t) k = js.foldlM (Palloc.freeSlot P t) k1 := by
      intro k1 hk1
      rw [List.foldlM_cons, hk1]
      rfl
    have hCons := fun q => t.countIn_cons j js q
    simp only [hGet, Option.some.injEq] at hCons
    match e with
    | none =>
      obtain ⟨k2, hRun, hKeeps⟩ := ih h hBound' fun q => by simpa [hCons] using hHeld q
      refine ⟨k2, ?_, by simpa [hCons] using hKeeps⟩
      rw [hUnit k (by rw [Palloc.freeSlot, hGet]), hRun]
    | some (.swap n) =>
      obtain ⟨k2, hRun, hKeeps⟩ := ih h hBound' fun q => by simpa [hCons] using hHeld q
      refine ⟨k2, ?_, by simpa [hCons] using hKeeps⟩
      rw [hUnit k (by rw [Palloc.freeSlot, hGet]; rfl), hRun]
    | some (.page p) =>
      have hp := hHeld p
      rw [Pte.countIn_page hGet, if_pos rfl] at hp
      obtain ⟨k1, hRun1, hKeeps1⟩ := putpage_spec (p := p) h (by omega)
      -- the ledger still covers the slots behind this one
      have hLeft : ∀ q, t.countIn js q ≤ Function.update held p (held p - 1) q := by
        intro q
        have hq := hHeld q
        rw [Pte.countIn_page hGet] at hq
        rw [update_pred]
        omega
      obtain ⟨k2, hRun, hKeeps⟩ := ih hKeeps1.inv hBound' hLeft
      have hEq : (fun q => held q - t.countIn (j :: js) q) =
          fun q => Function.update held p (held p - 1) q - t.countIn js q := by
        funext q
        rw [Pte.countIn_page hGet, update_pred]
        omega
      refine ⟨k2, ?_, ?_⟩
      · rw [hUnit k1 (by rw [Palloc.freeSlot, hGet]; exact hRun1), hRun]
      · rw [hEq]
        exact hKeeps1.trans hKeeps

/-- The loop over a physical segment touches no page of the pool. -/
theorem freePhysSlots_spec {es : List (Option PageEntry)} (h : PageInv P k m held)
    (hOut : ∀ e ∈ es, e = none ∨ ∃ p, e = some (.page p) ∧ k.user ≤ p) :
    ∃ k', es.foldlM Palloc.freePhysSlot k = .ok k' ∧ Keeps P k k' m held := by
  induction es generalizing k with
  | nil => exact ⟨k, rfl, .refl h⟩
  | cons e es ih =>
    have hRest : ∀ e ∈ es, e = none ∨ ∃ p, e = some (.page p) ∧ k.user ≤ p :=
      fun e' he' => hOut e' (List.mem_cons_of_mem _ he')
    rcases hOut e (List.mem_cons_self ..) with rfl | ⟨p, rfl, hp⟩
    · obtain ⟨k', hRun, hKeeps⟩ := ih h hRest
      exact ⟨k', hRun, hKeeps⟩
    -- the page is not of the pool: nobody counts its references
    · let k1 := k.setPage p fun pg => { pg with ref := pg.ref - 1 }
      have hSame : ∀ q, q < k.user → k1.pages q = k.pages q := fun q hq =>
        Function.update_of_ne (lt_of_lt_of_le hq hp).ne _ _
      have h1 : PageInv P k1 m held := by
        refine ⟨h.free.congr rfl rfl rfl fun q hq => by rw [hSame q hq],
          h.cache.congr rfl rfl rfl fun q hq => ?_⟩
        rw [hSame q hq]
        exact ⟨rfl, rfl⟩
      obtain ⟨k', hRun, hKeeps⟩ := ih h1 hRest
      exact ⟨k', hRun, hKeeps.inv, hKeeps.user, hKeeps.highwater⟩

/-- A table of any segment type, freed by a caller that has its references. -/
theorem freepte_spec {type : SegType} {pgfree : Bool} {t : Pte} (h : PageInv P k m held)
    (hLegal : Legal k held (.freepte type pgfree t)) :
    ∃ k', k.freepte P type pgfree t = .ok k' ∧
      Keeps P k k' m (heldAfter held (.freepte type pgfree t) .done) := by
  by_cases hType : type = .physical
  · subst hType
    cases pgfree with
    | true => exact ⟨k, rfl, .refl h⟩
    | false =>
      obtain ⟨k', hRun, hKeeps⟩ := freePhysSlots_spec h hLegal
      refine ⟨k', ?_, hKeeps⟩
      simp only [Palloc.freepte, Bool.false_eq_true, if_false, hRun]
  · -- all types but one are freed slot by slot
    have hSlots : (∀ j ∈ t.slots, j < PTEPERTAB) ∧ ∀ p, t.count p ≤ held p := by
      cases type <;> first | exact hLegal | exact absurd rfl hType
    obtain ⟨k', hRun, hKeeps⟩ := freeSlots_spec (P := P) h hSlots.1 hSlots.2
    cases type <;> first | exact ⟨k', hRun, hKeeps⟩ | exact absurd rfl hType

/-- The caller writes the address while the page has no image, and then caches it. -/
theorem PageInv.cachepage {i : ImageId} {d : Word} (h : PageInv P k m held) (hp : p < k.user)
    (hImage : (k.pages p).image = none)
    (hFresh : ∀ q, q < k.user → (k.pages q).image = some i → (k.pages q).daddr ≠ d) :
    ∃ k', (k.setPage p fun pg => { pg with daddr := d }).cachepage P p (some i) = .ok k' ∧
      Keeps P k k' (m.insert i d p) held := by
  have hCache := h.cache.blank (p := p) (f := fun pg => { pg with daddr := d }) hImage hImage
  let k1 := k.setPage p fun pg => { pg with daddr := d }
  have hPage : k1.pages p = { k.pages p with daddr := d } := Function.update_self ..
  have hRef : ∀ q, (k1.pages q).ref = (k.pages q).ref :=
    Palloc.setPage_field Page.ref fun _ => rfl
  -- no other page is cached under the key
  have hKey : m i (k1.pages p).daddr = none := by
    rw [hPage]
    cases hEntry : m i d with
    | none => rfl
    | some q =>
      obtain ⟨hq, hImageQ, hDaddrQ⟩ := (h.cache.caches i d q).mp hEntry
      exact absurd hDaddrQ (hFresh q hq hImageQ)
  obtain ⟨k', hRun, hStep, hCache'⟩ := CacheInv.cachepage (p := p) (i := i) hCache hp
    (by rw [hPage]; exact hImage) hKey
  rw [hPage] at hCache'
  have hFree : FreeInv k1 held := h.free.congr rfl rfl rfl fun q _ => hRef q
  exact ⟨k', hRun, ⟨hFree.cacheStep hStep, hCache'⟩, hStep.user, hStep.highwater⟩

/-! ## The step -/

/-- A legal call keeps the invariant and has its effect, or ends in one of the two faults. -/
theorem step_inv (h : PageInv P k m held) (op : PageOp) (hLegal : Legal k held op) :
    (∃ r k' m', k.step P op = .ok (r, k') ∧ CacheEffect P m held op r m' ∧
      Keeps P k k' m' (heldAfter held op r)) ∨
    k.step P op = .error (.panic "duppage\n") ∨
    k.highwater = 0 ∧ k.step P op = .error .nilDeref := by
  match op, hLegal with
  | .newpage kp clear seg va, _ =>
    left
    rcases newpage_spec h kp clear seg va with (hRun | hRun) | ⟨p, k', hRun, -, -, hKeeps⟩
    · exact ⟨.nopage, k, m, by rw [Palloc.step, hRun]; rfl, rfl, .refl h⟩
    · exact ⟨.asleep, k, m, by rw [Palloc.step, hRun]; rfl, rfl, .refl h⟩
    · exact ⟨.page p, k', _, by rw [Palloc.step, hRun]; rfl, rfl, hKeeps⟩
  -- auxpage reads the head of the list after it compared the count: with no highwater it may be
  -- nil
  | .auxpage, _ =>
    rcases auxpage_spec h with hRun | ⟨hHigh, hRun⟩ | ⟨p, k', hRun, -, -, hKeeps⟩
    · exact Or.inl ⟨.nopage, k, m, by rw [Palloc.step, hRun]; rfl, rfl, .refl h⟩
    · exact Or.inr (Or.inr ⟨hHigh, by rw [Palloc.step, hRun]; rfl⟩)
    · exact Or.inl ⟨.page p, k', _, by rw [Palloc.step, hRun]; rfl, rfl, hKeeps⟩
  | .putpage (.swap n), _ => exact Or.inl ⟨.done, k, m, rfl, rfl, .refl h⟩
  | .putpage (.page p), hHeld =>
    obtain ⟨k', hRun, hKeeps⟩ := putpage_spec h hHeld
    exact Or.inl ⟨.done, k', m, by rw [Palloc.step, hRun]; rfl, rfl, hKeeps⟩
  | .lookpage i d, _ =>
    obtain ⟨k', hRun, hKeeps⟩ := lookpage_spec h i d
    refine Or.inl ⟨.ofOption (m i d), k', m, by rw [Palloc.step, hRun]; rfl, ⟨rfl, rfl⟩, ?_⟩
    -- the caller of lookpage has one more reference, to the page of the key if there is one
    cases hKey : m i d with
    | none =>
      rw [hKey] at hKeeps
      exact hKeeps
    | some p =>
      rw [hKey] at hKeeps
      exact hKeeps
  | .duppage p busy, hp =>
    -- the panic is duppage's own, after its retries
    rcases duppage_spec h hp busy with hRun | ⟨rc, k', m', hRun, hEffect, hKeeps⟩
    · exact Or.inr (Or.inl (by rw [Palloc.step, hRun]; rfl))
    · exact Or.inl ⟨.code rc, k', m', by rw [Palloc.step, hRun]; rfl, hEffect, hKeeps⟩
  | .cachepage p i d, ⟨hp, hImage, hFresh⟩ =>
    obtain ⟨k', hRun, hKeeps⟩ := h.cachepage hp hImage hFresh
    exact Or.inl ⟨.done, k', _, by rw [Palloc.step, hRun]; rfl, rfl, hKeeps⟩
  | .uncachepage p, hp =>
    obtain ⟨k', hRun, hStep, hCache⟩ := h.cache.uncachepage hp
    exact Or.inl ⟨.done, k', _, by rw [Palloc.step, hRun]; rfl, rfl,
      ⟨h.free.cacheStep hStep, hCache⟩, hStep.user, hStep.highwater⟩
  | .cachedel i d, _ =>
    obtain ⟨k', f, hRun, hStep, hCache⟩ := h.cache.cachedel i d
    exact Or.inl ⟨.done, k', _, by rw [Palloc.step, hRun]; rfl, rfl,
      ⟨h.free.cacheStep hStep, hCache⟩, hStep.user, hStep.highwater⟩
  | .ptecpy old, hSlots =>
    obtain ⟨t', k', hRun, hKeeps⟩ :=
      copySlots_spec (t := { ptealloc with first := old.first }) h hSlots
    exact Or.inl ⟨.pte t', k', m, by rw [Palloc.step, Palloc.ptecpy, hRun]; rfl, rfl, hKeeps⟩
  | .freepte type pgfree t, hLegal =>
    obtain ⟨k', hRun, hKeeps⟩ := freepte_spec (P := P) h hLegal
    exact Or.inl ⟨.done, k', m, by rw [Palloc.step, hRun]; rfl, rfl, hKeeps⟩

end

end Glendum
