import Glendum.Lib.Chain
import Glendum.Lib.Dll
import Glendum.Kernel.Types

/-!
# Glendum — the page layer

`umpage.c` function by function: the free list with its counter, the page cache
with its hash chains, and the tables of a segment. One call runs to its end
before the next begins, so the locks are left out here; `PageLocks` has them.

`palloc.head`, `palloc.tail` and the pages' `next` and `prev` are the links of
the free list; `palloc.hash` and the pages' `hash` are the table of the cache.
A page number below `palloc.user` is a page of `palloc.pages`; the others are
`Page` structures of physical segments.

The memory is whole here, so that clearing and copying through `kmap` come to their end;
`PageBytes` has the faults.
-/

namespace Glendum

open Machine Lists

/-- What the port headers and the image layer settle for the page layer. -/
structure Port where
  PGHSIZE   : Nat
  swapimage : ImageId
  notext    : ImageId → Bool

def Port.pghash (P : Port) (daddr : Word) : Nat :=
  (daddr >>> PGSHIFT).toNat &&& (P.PGHSIZE - 1)

structure Pallocmem where
  base  : Word
  npage : Nat

/-- `palloc` and `swapalloc`, with the reference counts of the images. -/
structure Palloc where
  pages      : PageId → Page
  user       : Nat
  free       : Links PageId
  freecount  : Nat
  chains     : Buckets Nat PageId
  highwater  : Nat
  headroom   : Nat
  iref       : ImageId → Int
  dupretries : Nat := 15000
  mem        : Memory

def getpgcolor (_va : Word) : Nat := 0

/-- `kmap` maps nothing in this kernel and returns nil. -/
def kmap (_p : Page) : Word := 0

/-! ## pageinit -/

/-- The pages of one bank, from the colour `color` on. -/
def bankPages (pm : Pallocmem) (color : Nat) : List Page :=
  (List.range pm.npage).map fun j =>
    { pa := pm.base + BitVec.ofNat 32 (j * BY2PG), color := (color + j) % NCOLOR }

def banksPages : List Pallocmem → Nat → List Page
  | [], _ => []
  | pm :: banks, color => bankPages pm color ++ banksPages banks (color + pm.npage)

/-- The loop of `pageinit` over the pages of all banks, and what follows it.
`palloc.pages` is allocated zeroed, and `palloc` starts zeroed. -/
def chainPages (ps : List Page) (mem : Memory) : Palloc where
  pages p := ps.getD p { pa := 0 }
  user := ps.length
  free := {
    head := some 0
    tail := some (ps.length - 1)
    next := fun p => if p < ps.length - 1 then some (p + 1) else none
    prev := fun p => if 0 < p ∧ p < ps.length then some (p - 1) else none }
  freecount := ps.length
  chains := { heads := fun _ => none, next := fun _ => none }
  highwater := ps.length * 5 / 100
  headroom := ps.length * 5 / 100 + ps.length * 5 / 100 / 4
  iref _ := 0
  mem := mem

/-- In an empty pool the writes to `palloc.head` and `palloc.tail` fall outside the
array. -/
def pageinit (banks : List Pallocmem) (mem : Memory) : Except Fault Palloc :=
  let ps := banksPages banks 0
  if ps.length = 0 then .error .nilDeref else .ok (chainPages ps mem)

namespace Palloc

def setPage (k : Palloc) (p : PageId) (f : Page → Page) : Palloc :=
  { k with pages := Function.update k.pages p (f (k.pages p)) }

section

variable {k : Palloc} {p q : PageId} {f : Page → Page}

theorem setPage_self : (k.setPage p f).pages p = f (k.pages p) := Function.update_self ..

theorem setPage_of_ne (h : q ≠ p) : (k.setPage p f).pages q = k.pages q :=
  Function.update_of_ne h ..

/-- What the change of a page leaves alone is the same for all pages. -/
theorem setPage_field {β : Type*} (g : Page → β) (hf : ∀ pg, g (f pg) = g pg) (q : PageId) :
    g ((k.setPage p f).pages q) = g (k.pages q) := by
  by_cases hq : q = p
  · rw [hq, setPage_self, hf]
  · rw [setPage_of_ne hq]

end

/-! ## The free list -/

def pageunchain (p : PageId) (k : Palloc) : Palloc :=
  { k with free := k.free.unlink p, freecount := k.freecount - 1 }

def pagechaintail (p : PageId) (k : Palloc) : Palloc :=
  { k with free := k.free.pushBack p, freecount := k.freecount + 1 }

def pagechainhead (p : PageId) (k : Palloc) : Palloc :=
  { k with free := k.free.pushFront p, freecount := k.freecount + 1 }

/-- The first free page of a colour. -/
def firstOfColor (color : Nat) (k : Palloc) : Except Fault (Option PageId) :=
  match search k.free.next (fun p => (k.pages p).color == color) k.user k.free.head with
  | none => .error .endless
  | some r => .ok r

/-! ## The page cache -/

def incref (i : ImageId) (k : Palloc) : Palloc :=
  { k with iref := Function.update k.iref i (k.iref i + 1) }

def putimage (i : ImageId) (k : Palloc) : Palloc :=
  { k with iref := Function.update k.iref i (k.iref i - 1) }

def uncachepage (P : Port) (p : PageId) (k : Palloc) : Except Fault Palloc :=
  match (k.pages p).image with
  | none => .ok k
  | some i =>
    match k.chains.find (· == p) k.user (.bucket (P.pghash (k.pages p).daddr)) with
    | none => .error .endless
    | some r =>
      let k := match r with
        | some (l, _) => { k with chains := k.chains.set l (k.chains.next p) }
        | none => k
      .ok ((k.putimage i).setPage p fun pg => { pg with image := none, daddr := 0 })

/-- `i` is the image pointer of the call; `incref` reads through it. -/
def cachepage (P : Port) (p : PageId) (i : Option ImageId) (k : Palloc) : Except Fault Palloc :=
  if (k.pages p).image ≠ none then .error (.panic "cachepage") else
  match i with
  | none => .error .nilDeref
  | some i =>
    let k := (k.incref i).setPage p fun pg => { pg with image := some i }
    .ok { k with chains := k.chains.push (P.pghash (k.pages p).daddr) p }

/-- The test of `cachedel` and `lookpage`. -/
def isCached (k : Palloc) (i : ImageId) (daddr : Word) (f : PageId) : Bool :=
  (k.pages f).image == some i && (k.pages f).daddr == daddr

def cachedel (P : Port) (i : ImageId) (daddr : Word) (k : Palloc) : Except Fault Palloc :=
  match k.chains.find (k.isCached i daddr) k.user (.bucket (P.pghash daddr)) with
  | none => .error .endless
  | some none => .ok k
  | some (some (l, f)) =>
    -- the second test, with the page locked
    if k.isCached i daddr f then
      let k := { k with chains := k.chains.set l (k.chains.next f) }
      .ok ((k.putimage i).setPage f fun pg => { pg with image := none, daddr := 0 })
    else .ok k

def lookpage (P : Port) (i : ImageId) (daddr : Word) (k : Palloc) :
    Except Fault (Option PageId × Palloc) :=
  match k.chains.find (k.isCached i daddr) k.user (.bucket (P.pghash daddr)) with
  | none => .error .endless
  | some none => .ok (none, k)
  | some (some (_, f)) =>
    if k.isCached i daddr f then
      let k := k.setPage f fun pg => { pg with ref := pg.ref + 1 }
      .ok (some f, if (k.pages f).ref = 1 then k.pageunchain f else k)
    else .ok (none, k)

/-! ## Taking and giving back pages -/

/-- How a call of `newpage` goes on: with a page, with nil because the segment was
given up, or asleep until the pager has freed some. -/
inductive NewpageResult
  | page (p : PageId)
  | nil
  | asleep
deriving DecidableEq

/-- The rest of `newpage` once it has its page. -/
def claimPage (P : Port) (clear : Bool) (va : Word) (ct : CacheCtl) (p : PageId) (k : Palloc) :
    Except Fault (NewpageResult × Palloc) :=
  let k := k.pageunchain p
  if (k.pages p).ref ≠ 0 then .error (.panic "newpage") else
  match k.uncachepage P p with
  | .error e => .error e
  | .ok k =>
    let k := k.setPage p fun pg =>
      { pg with ref := pg.ref + 1, va := va, modref := 0,
                cachectl := List.replicate MAXMACH ct }
    let k := if clear then
        { k with mem := k.mem.write (kmap (k.pages p)) (List.replicate BY2PG 0) }
      else k
    .ok (.page p, k)

/-- `kp` is `up->kp`; `seg` tells whether the call passes a locked segment. -/
def newpage (P : Port) (kp clear seg : Bool) (va : Word) (k : Palloc) :
    Except Fault (NewpageResult × Palloc) :=
  let color := getpgcolor va
  if k.freecount > k.highwater ∨ (kp = true ∧ k.freecount > 0) then
    match k.firstOfColor color with
    | .error e => .error e
    | .ok (some p) => k.claimPage P clear va .noflush p
    | .ok none =>
      -- a page of another colour is recoloured
      match k.free.head with
      | none => .error .nilDeref
      | some p => (k.setPage p fun pg => { pg with color }).claimPage P clear va .newcol p
  -- the lock is dropped and the caller waits for the pager
  else if seg then .ok (.nil, k)
  else .ok (.asleep, k)

def putpage (P : Port) (e : PageEntry) (k : Palloc) : Except Fault Palloc :=
  match e with
  | .swap _ => .ok k  -- `putswap` drops a reference of the swap slot
  | .page p =>
    if (k.pages p).ref = 0 then .error (.panic "putpage") else
    let k := k.setPage p fun pg => { pg with ref := pg.ref - 1 }
    if (k.pages p).ref > 0 then .ok k
    else if (k.pages p).image ≠ none ∧ (k.pages p).image ≠ some P.swapimage then
      .ok (k.pagechaintail p)
    else .ok (k.pagechainhead p)

def auxpage (P : Port) (k : Palloc) : Except Fault (Option PageId × Palloc) :=
  let p := k.free.head
  if k.freecount < k.highwater then .ok (none, k) else
  match p with
  | none => .error .nilDeref
  | some p =>
    let k := k.pageunchain p
    if (k.pages p).ref ≠ 0 then .error (.panic "auxpage") else
    let k := k.setPage p fun pg => { pg with ref := pg.ref + 1 }
    match k.uncachepage P p with
    | .error e => .error e
    | .ok k => .ok (some p, k)

/-! ## duppage -/

def copypage (f t : PageId) (k : Palloc) : Palloc :=
  let ks := kmap (k.pages f)
  let kd := kmap (k.pages t)
  { k with mem := k.mem.write kd ((List.range BY2PG).map fun j => k.mem (ks + BitVec.ofNat 32 j)) }

/-- `duppage` gives its page up instead of copying it. -/
def dupGiveUp (P : Port) (p : PageId) (k : Palloc) : Except Fault (Nat × Palloc) :=
  match k.uncachepage P p with
  | .error e => .error e
  | .ok k => .ok (1, k)

/-- From the choice of the free page `np` on. -/
def dupInto (P : Port) (p np : PageId) (k : Palloc) : Except Fault (Nat × Palloc) :=
  let k := (k.pageunchain np).pagechaintail np
  match k.uncachepage P np with
  | .error e => .error e
  | .ok k =>
    -- cache the new version
    let k := k.setPage np fun pg => { pg with va := (k.pages p).va, daddr := (k.pages p).daddr }
    let k := k.copypage p np
    match k.cachepage P np (k.pages p).image with
    | .error e => .error e
    | .ok k =>
      match k.uncachepage P p with
      | .error e => .error e
      | .ok k => .ok (0, k)

/-- `busy` is how often `canlock` fails before it succeeds. The page does not
change meanwhile: nothing else runs. -/
def duppage (P : Port) (p : PageId) (busy : Nat) (k : Palloc) : Except Fault (Nat × Palloc) :=
  match (k.pages p).image with
  | none => .ok (0, k)
  | some i =>
    if (k.pages p).ref = 0 ∨ P.notext i = true then .ok (0, k)
    else if busy > k.dupretries then
      let k := { k with dupretries := k.dupretries + 100 }
      if k.dupretries > 100000 then .error (.panic "duppage\n") else k.dupGiveUp P p
    -- no free list cache when memory is very low
    else if k.freecount < k.highwater then k.dupGiveUp P p
    else
      match k.firstOfColor (getpgcolor (k.pages p).va) with
      | .error e => .error e
      | .ok none => k.dupGiveUp P p
      | .ok (some np) => k.dupInto P p np

end Palloc

/-! ## The tables of a segment -/

def ptealloc : Pte where
  pages := Vector.replicate PTEPERTAB none
  first := PTEPERTAB
  last := 0

/-- The slots from `first` to `last`. -/
def Pte.slots (t : Pte) : List Nat := List.range' t.first (t.last + 1 - t.first)

namespace Palloc

/-- One slot of the loop of `ptecpy`. -/
def copySlot (old : Pte) (s : Pte × Palloc) (j : Nat) : Except Fault (Pte × Palloc) :=
  match old.pages[j]? with
  | none => .error .nilDeref
  | some none => .ok s
  | some (some e) =>
    let k := match e with
      | .swap _ => s.2  -- `dupswap` counts the swap slot
      | .page p => s.2.setPage p fun pg => { pg with ref := pg.ref + 1 }
    .ok ({ s.1 with last := j, pages := s.1.pages.setIfInBounds j (some e) }, k)

def ptecpy (old : Pte) (k : Palloc) : Except Fault (Pte × Palloc) :=
  old.slots.foldlM (copySlot old) ({ ptealloc with first := old.first }, k)

/-- The loop of `freepte` over the slots of an ordinary segment. -/
def freeSlot (P : Port) (t : Pte) (k : Palloc) (j : Nat) : Except Fault Palloc :=
  match t.pages[j]? with
  | none => .error .nilDeref
  | some none => .ok k
  | some (some e) => k.putpage P e

/-- The loop over the slots of a physical segment whose device has no `pgfree`. -/
def freePhysSlot (k : Palloc) : Option PageEntry → Except Fault Palloc
  | none => .ok k
  | some (.swap _) => .error .swapEntry
  | some (.page p) => .ok (k.setPage p fun pg => { pg with ref := pg.ref - 1 })

/-- `pgfree` tells whether the segment's device has a function of that name; what
the device does with its pages is its own. -/
def freepte (P : Port) (type : SegType) (pgfree : Bool) (t : Pte) (k : Palloc) :
    Except Fault Palloc :=
  match type with
  | .physical => if pgfree then .ok k else t.pages.toList.foldlM freePhysSlot k
  | _ => t.slots.foldlM (freeSlot P t) k

end Palloc

end Glendum
