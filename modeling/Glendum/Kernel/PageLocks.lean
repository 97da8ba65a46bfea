import Glendum.Kernel.Page
import Glendum.Lib.Locks

/-!
# Glendum — the page layer with its locks

The functions of `umpage.c` cut at their lock operations. A process is at a
`Place`: the next `lock`, `unlock` or `canlock` it does, with the local variables
that are still needed. `advance` does what follows that operation, up to the next
one, on the same `Palloc` and with the same list and chain operations as in
`Kernel.Page`.

The locks are `palloc`, the lock of each page, and `palloc.hashlock`. The waits of
`newpage` for the pager hold none of them. A process that panics, or whose loop
does not end, stays where it is with the locks it holds.
-/

namespace Glendum

open Machine Lists Locks

inductive LockId
  | palloc
  | page (p : PageId)
  | hash
deriving DecidableEq

/-- The arguments of `newpage`, and `up->kp`. -/
structure NewArgs where
  kp    : Bool
  clear : Bool
  seg   : Bool
  va    : Word
deriving DecidableEq

/-- The call that `uncachepage` returns into. -/
inductive After
  | newpage (a : NewArgs) (ct : CacheCtl) (p : PageId)
  | auxpage (p : PageId)
  /-- `duppage` before it fills `np` -/
  | dupCopy (p np : PageId)
  /-- `duppage` before it returns -/
  | dupOut (p : PageId)
  /-- a caller that has the page locked -/
  | caller (p : PageId)
deriving DecidableEq

/-- The call that `cachepage` returns into. -/
inductive Fill
  | dup (p np : PageId)
  | caller (p : PageId)
deriving DecidableEq

inductive Place
  | idle
  -- newpage
  | newLock (a : NewArgs)                                 -- lock(&palloc)
  | newLow (a : NewArgs)                                  -- unlock(&palloc), to wait
  | newPage (a : NewArgs) (ct : CacheCtl) (p : PageId)    -- lock(p)
  | newDone (a : NewArgs) (p : PageId)                    -- unlock(p)
  | newReturn (a : NewArgs) (p : PageId)                  -- unlock(&palloc)
  -- putpage
  | putLock (p : PageId)
  | putPage (p : PageId)
  | putDone (p : PageId)
  | putReturn
  -- auxpage
  | auxLock
  | auxLow
  | auxPage (p : PageId)
  | auxDone (p : PageId)
  | auxReturn
  -- lookpage
  | lookHash (i : ImageId) (d : Word)                     -- lock(&palloc.hashlock)
  | lookMiss                                              -- its unlock, not found
  | lookHit (i : ImageId) (d : Word) (f : PageId)         -- its unlock, found
  | lookLock (i : ImageId) (d : Word) (f : PageId)        -- lock(&palloc)
  | lookPage (i : ImageId) (d : Word) (f : PageId)        -- lock(f)
  | lookStale (f : PageId)                                -- unlock(f), not i and daddr
  | lookStaleReturn                                       -- unlock(&palloc)
  | lookTaken (f : PageId)                                -- unlock(&palloc)
  | lookReturn (f : PageId)                               -- unlock(f)
  -- duppage
  | dupLock (p : PageId) (retries : Nat)                  -- lock(p)
  | dupTry (p : PageId) (retries : Nat)                   -- canlock(&palloc)
  | dupBack (p : PageId) (retries : Nat)                  -- unlock(p), to try again
  | dupLow (p : PageId)                                   -- unlock(&palloc), no copy
  | dupPage (p np : PageId)                               -- lock(np)
  | dupUnlock (p np : PageId)                             -- unlock(&palloc)
  | dupFilled (p np : PageId)                             -- unlock(np)
  | dupReturn (p : PageId)                                -- unlock(p), by the caller
  -- cachedel
  | delHash (i : ImageId) (d : Word)                      -- lock(&palloc.hashlock)
  | delPage (i : ImageId) (d : Word) (l : Loc Nat PageId) (f : PageId)  -- lock(f)
  | delDone (f : PageId)                                  -- unlock(f)
  | delReturn                                             -- unlock(&palloc.hashlock)
  -- uncachepage and cachepage
  | uncLock (c : After)
  | uncUnlock (c : After)
  | fillLock (c : Fill) (i : ImageId)
  | fillUnlock (c : Fill)
  -- a caller that locks a page for one of them
  | callUncache (p : PageId)
  | callCache (p : PageId) (i : ImageId) (d : Word)
  | callReturn (p : PageId)
  | halt (why : Fault) (held : List LockId)

/-- What the property of the page layer is about: a page handed over by `newpage`,
a reference taken by `lookpage`, a reference dropped by `putpage`. -/
inductive Event
  | handover (p : PageId)
  | look (p : PageId) (i : ImageId) (d : Word)
  | put (p : PageId)
deriving DecidableEq

/-! ## Locks of a place -/

def After.page : After → PageId
  | .newpage _ _ p | .auxpage p | .dupCopy _ p | .dupOut p | .caller p => p

def After.holds : After → List LockId
  | .newpage _ _ p | .auxpage p => [.page p, .palloc]
  | .dupCopy p np => [.page np, .page p]
  | .dupOut p | .caller p => [.page p]

def Fill.page : Fill → PageId
  | .dup _ np => np
  | .caller p => p

def Fill.holds : Fill → List LockId
  | .dup p np => [.page np, .page p]
  | .caller p => [.page p]

namespace Place

def holds : Place → List LockId
  | idle | newLock _ | putLock _ | auxLock | lookHash _ _ | lookLock _ _ _ | dupLock _ _
  | delHash _ _ | callUncache _ | callCache _ _ _ => []
  | newLow _ | newPage _ _ _ | newReturn _ _ | putPage _ | putReturn | auxLow | auxPage _
  | auxReturn | lookPage _ _ _ | lookStaleReturn => [.palloc]
  | newDone _ p | putDone p | auxDone p | lookStale p | lookTaken p => [.page p, .palloc]
  | lookReturn p | dupTry p _ | dupBack p _ | dupReturn p | callReturn p => [.page p]
  | lookMiss | lookHit _ _ _ | delPage _ _ _ _ | delReturn => [.hash]
  | dupLow p | dupPage p _ => [.palloc, .page p]
  | dupUnlock p np => [.page np, .palloc, .page p]
  | dupFilled p np => [.page np, .page p]
  | delDone f => [.page f, .hash]
  | uncLock c => c.holds
  | uncUnlock c => .hash :: c.holds
  | fillLock c _ => c.holds
  | fillUnlock c => .hash :: c.holds
  | halt _ held => held

def act : Place → Act LockId
  | idle | halt _ _ => .none
  | newLock _ | putLock _ | auxLock | lookLock _ _ _ => .acquire .palloc
  | newPage _ _ p | putPage p | auxPage p | lookPage _ _ p | dupLock p _ | dupPage _ p
  | delPage _ _ _ p | callUncache p | callCache p _ _ => .acquire (.page p)
  | lookHash _ _ | delHash _ _ | uncLock _ | fillLock _ _ => .acquire .hash
  | dupTry _ _ => .attempt .palloc
  | newLow _ | newReturn _ _ | putReturn | auxLow | auxReturn | lookStaleReturn | lookTaken _
  | dupLow _ | dupUnlock _ _ => .release .palloc
  | newDone _ p | putDone p | auxDone p | lookStale p | lookReturn p | dupBack p _ | dupFilled _ p
  | dupReturn p | delDone p | callReturn p => .release (.page p)
  | lookMiss | lookHit _ _ _ | delReturn | uncUnlock _ | fillUnlock _ => .release .hash

/-- `canlock` has failed. -/
def fail : Place → Place
  | dupTry p retries => dupBack p retries
  | c => c

end Place

namespace Palloc

/-! ## The code between two lock operations -/

/-- `cachepage` up to its lock of the hash chains. -/
def beginFill (c : Fill) (i : Option ImageId) (k : Palloc) : Place × Palloc :=
  if (k.pages c.page).image ≠ none then (.halt (.panic "cachepage") c.holds, k) else
  match i with
  | none => (.halt .nilDeref c.holds, k)
  | some i => (.fillLock c i, k.incref i)

/-- What follows a call of `uncachepage`. -/
def resume (k : Palloc) : After → Place × Palloc
  | .newpage a ct p =>
    (.newDone a p, k.setPage p fun pg =>
      { pg with ref := pg.ref + 1, va := a.va, modref := 0,
                cachectl := List.replicate MAXMACH ct })
  | .auxpage p => (.auxDone p, k)
  | .dupCopy p np =>
    let k := k.setPage np fun pg => { pg with va := (k.pages p).va, daddr := (k.pages p).daddr }
    let k := k.copypage p np
    k.beginFill (.dup p np) (k.pages p).image
  | .dupOut p => (.dupReturn p, k)
  | .caller p => (.callReturn p, k)

/-- A call of `uncachepage`, which returns at once when the page has no image. -/
def beginUncache (k : Palloc) (c : After) : Place × Palloc :=
  if (k.pages c.page).image = none then k.resume c else (.uncLock c, k)

/-- `newpage` with `palloc` locked, up to its lock of the page it chose. -/
def pickNew (a : NewArgs) (k : Palloc) : Place × Palloc :=
  let color := getpgcolor a.va
  if k.freecount > k.highwater ∨ (a.kp = true ∧ k.freecount > 0) then
    match k.firstOfColor color with
    | .error e => (.halt e [.palloc], k)
    | .ok (some p) => (.newPage a .noflush p, k.pageunchain p)
    | .ok none =>
      match k.free.head with
      | none => (.halt .nilDeref [.palloc], k)
      | some p => (.newPage a .newcol p, (k.setPage p fun pg => { pg with color }).pageunchain p)
  else (.newLow a, k)

def pickAux (k : Palloc) : Place × Palloc :=
  if k.freecount < k.highwater then (.auxLow, k) else
  match k.free.head with
  | none => (.halt .nilDeref [.palloc], k)
  | some p => (.auxPage p, k.pageunchain p)

/-- `putpage` with both locks. -/
def dropRef (P : Port) (p : PageId) (k : Palloc) : Place × Palloc :=
  if (k.pages p).ref = 0 then (.halt (.panic "putpage") [.page p, .palloc], k) else
  let k := k.setPage p fun pg => { pg with ref := pg.ref - 1 }
  if (k.pages p).ref > 0 then (.putDone p, k)
  else if (k.pages p).image ≠ none ∧ (k.pages p).image ≠ some P.swapimage then
    (.putDone p, k.pagechaintail p)
  else (.putDone p, k.pagechainhead p)

/-- `duppage` from `retry` to its `canlock`, with the page locked. -/
def dupRetry (P : Port) (p : PageId) (retries : Nat) (k : Palloc) : Place × Palloc :=
  if retries > k.dupretries then
    let k := { k with dupretries := k.dupretries + 100 }
    if k.dupretries > 100000 then (.halt (.panic "duppage\n") [.page p], k)
    else k.beginUncache (.dupOut p)
  else
    match (k.pages p).image with
    | none => (.dupReturn p, k)
    | some i =>
      if (k.pages p).ref = 0 ∨ P.notext i = true then (.dupReturn p, k)
      else (.dupTry p (retries + 1), k)

/-- `duppage` with `palloc` locked, up to its lock of the copy. -/
def dupPick (p : PageId) (k : Palloc) : Place × Palloc :=
  if k.freecount < k.highwater then (.dupLow p, k) else
  match k.firstOfColor (getpgcolor (k.pages p).va) with
  | .error e => (.halt e [.palloc, .page p], k)
  | .ok none => (.dupLow p, k)
  | .ok (some np) => (.dupPage p np, (k.pageunchain np).pagechaintail np)

/-- The loop of `lookpage`. -/
def lookWalk (P : Port) (i : ImageId) (d : Word) (k : Palloc) : Place :=
  match k.chains.find (k.isCached i d) k.user (.bucket (P.pghash d)) with
  | none => .halt .endless [.hash]
  | some none => .lookMiss
  | some (some (_, f)) => .lookHit i d f

/-- The loop of `cachedel`. -/
def delWalk (P : Port) (i : ImageId) (d : Word) (k : Palloc) : Place :=
  match k.chains.find (k.isCached i d) k.user (.bucket (P.pghash d)) with
  | none => .halt .endless [.hash]
  | some none => .delReturn
  | some (some (l, f)) => .delPage i d l f

/-- The loop of `uncachepage`. -/
def unchainCached (P : Port) (c : After) (k : Palloc) : Place × Palloc :=
  match k.chains.find (· == c.page) k.user (.bucket (P.pghash (k.pages c.page).daddr)) with
  | none => (.halt .endless (.hash :: c.holds), k)
  | some none => (.uncUnlock c, k)
  | some (some (l, _)) => (.uncUnlock c, { k with chains := k.chains.set l (k.chains.next c.page) })

/-- The end of `uncachepage`, once the chain is unlocked. -/
def dropImage (p : PageId) (k : Palloc) : Palloc :=
  let k := match (k.pages p).image with
    | some i => k.putimage i
    | none => k
  k.setPage p fun pg => { pg with image := none, daddr := 0 }

/-- `cachedel` with the page locked: the second test, and the removal. -/
def delCached (i : ImageId) (d : Word) (l : Loc Nat PageId) (f : PageId) (k : Palloc) : Palloc :=
  if k.isCached i d f then
    { k with chains := k.chains.set l (k.chains.next f) }.dropImage f
  else k

def advance (P : Port) (k : Palloc) : Place → Place × Palloc × Option Event
  | .idle => (.idle, k, none)
  | .newLock a => ((k.pickNew a).1, (k.pickNew a).2, none)
  | .newLow a => (if a.seg then .idle else .newLock a, k, none)
  | .newPage a ct p =>
    if (k.pages p).ref ≠ 0 then (.halt (.panic "newpage") [.page p, .palloc], k, none)
    else ((k.beginUncache (.newpage a ct p)).1, (k.beginUncache (.newpage a ct p)).2, none)
  | .newDone a p => (.newReturn a p, k, none)
  | .newReturn a p =>
    let k := if a.clear then
        { k with mem := k.mem.write (kmap (k.pages p)) (List.replicate BY2PG 0) }
      else k
    (.idle, k, some (.handover p))
  | .putLock p => (.putPage p, k, none)
  | .putPage p =>
    ((k.dropRef P p).1, (k.dropRef P p).2, if (k.pages p).ref = 0 then none else some (.put p))
  | .putDone _ => (.putReturn, k, none)
  | .putReturn => (.idle, k, none)
  | .auxLock => (k.pickAux.1, k.pickAux.2, none)
  | .auxLow => (.idle, k, none)
  | .auxPage p =>
    if (k.pages p).ref ≠ 0 then (.halt (.panic "auxpage") [.page p, .palloc], k, none)
    else
      let k := k.setPage p fun pg => { pg with ref := pg.ref + 1 }
      ((k.beginUncache (.auxpage p)).1, (k.beginUncache (.auxpage p)).2, none)
  | .auxDone _ => (.auxReturn, k, none)
  | .auxReturn => (.idle, k, none)
  | .lookHash i d => (k.lookWalk P i d, k, none)
  | .lookMiss => (.idle, k, none)
  | .lookHit i d f => (.lookLock i d f, k, none)
  | .lookLock i d f => (.lookPage i d f, k, none)
  | .lookPage i d f =>
    if k.isCached i d f then
      let k := k.setPage f fun pg => { pg with ref := pg.ref + 1 }
      (.lookTaken f, if (k.pages f).ref = 1 then k.pageunchain f else k, some (.look f i d))
    else (.lookStale f, k, none)
  | .lookStale _ => (.lookStaleReturn, k, none)
  | .lookStaleReturn => (.idle, k, none)
  | .lookTaken f => (.lookReturn f, k, none)
  | .lookReturn _ => (.idle, k, none)
  | .dupLock p retries => ((k.dupRetry P p retries).1, (k.dupRetry P p retries).2, none)
  | .dupTry p _ => ((k.dupPick p).1, (k.dupPick p).2, none)
  | .dupBack p retries => (.dupLock p retries, k, none)
  | .dupLow p => ((k.beginUncache (.dupOut p)).1, (k.beginUncache (.dupOut p)).2, none)
  | .dupPage p np => (.dupUnlock p np, k, none)
  | .dupUnlock p np =>
    ((k.beginUncache (.dupCopy p np)).1, (k.beginUncache (.dupCopy p np)).2, none)
  | .dupFilled p _ => ((k.beginUncache (.dupOut p)).1, (k.beginUncache (.dupOut p)).2, none)
  | .dupReturn _ => (.idle, k, none)
  | .delHash i d => (k.delWalk P i d, k, none)
  | .delPage i d l f => (.delDone f, k.delCached i d l f, none)
  | .delDone _ => (.delReturn, k, none)
  | .delReturn => (.idle, k, none)
  | .uncLock c => ((k.unchainCached P c).1, (k.unchainCached P c).2, none)
  | .uncUnlock c =>
    (((k.dropImage c.page).resume c).1, ((k.dropImage c.page).resume c).2, none)
  | .fillLock c i =>
    let k := k.setPage c.page fun pg => { pg with image := some i }
    (.fillUnlock c, { k with chains := k.chains.push (P.pghash (k.pages c.page).daddr) c.page },
      none)
  | .fillUnlock (.dup p np) => (.dupFilled p np, k, none)
  | .fillUnlock (.caller p) => (.callReturn p, k, none)
  | .callUncache p => ((k.beginUncache (.caller p)).1, (k.beginUncache (.caller p)).2, none)
  | .callCache p i d =>
    let k := k.setPage p fun pg => { pg with daddr := d }
    ((k.beginFill (.caller p) (some i)).1, (k.beginFill (.caller p) (some i)).2, none)
  | .callReturn _ => (.idle, k, none)
  | .halt why held => (.halt why held, k, none)

end Palloc

/-! ## The system -/

/-- The program of every process of the page layer. -/
def pageProgram (P : Port) : Program LockId Palloc Place Event where
  rest := .idle
  act := Place.act
  next k c := k.advance P c
  fail := Place.fail
  holds := Place.holds

/-- The first places of the calls that the page layer is asked for. A page that is
put is a page of the pool. -/
inductive Entry (k : Palloc) : Place → Prop
  | newpage (a : NewArgs) : Entry k (.newLock a)
  | auxpage : Entry k .auxLock
  | putpage (p : PageId) (pool : p < k.user) : Entry k (.putLock p)
  | lookpage (i : ImageId) (d : Word) : Entry k (.lookHash i d)
  | duppage (p : PageId) : Entry k (.dupLock p 0)
  | cachedel (i : ImageId) (d : Word) : Entry k (.delHash i d)
  | uncachepage (p : PageId) : Entry k (.callUncache p)

/-- The same, and `cachepage` from outside. -/
inductive EntryAny (k : Palloc) : Place → Prop
  | of {c : Place} (entry : Entry k c) : EntryAny k c
  | cachepage (p : PageId) (i : ImageId) (d : Word) : EntryAny k (.callCache p i d)

/-- The page layer with processes `T`. -/
abbrev PageSys (T : Type*) := Sys T LockId Palloc Place

/-- Every process is at rest and no lock is held. -/
structure Quiet {T : Type*} (s : PageSys T) : Prop where
  place : ∀ t, s.place t = .idle
  owner : ∀ l, s.owner l = none

/-! ## The table of held locks -/

section

variable {P : Port} {k : Palloc}

/-- To fill a key takes no lock yet: it keeps those of what comes after. -/
theorem holds_beginFill (c : Fill) (i : Option ImageId) : (k.beginFill c i).1.holds = c.holds := by
  unfold Palloc.beginFill
  split
  · rfl
  · cases i <;> rfl

/-- What comes after an uncached page has the locks it came with, some in another order. -/
theorem holds_resume (c : After) : (k.resume c).1.holds.Perm c.holds := by
  cases c with
  | dupCopy p np =>
    rw [Palloc.resume, holds_beginFill]
    rfl
  | newpage a ct p => exact List.Perm.refl _
  | auxpage p => exact List.Perm.refl _
  | dupOut p => exact List.Perm.refl _
  | caller p => exact List.Perm.refl _

/-- To uncache a page takes no lock yet. -/
theorem holds_beginUncache (c : After) : (k.beginUncache c).1.holds.Perm c.holds := by
  unfold Palloc.beginUncache
  split
  · exact holds_resume c
  · exact List.Perm.refl _

/-- While it picks a page, `newpage` has `palloc` only. -/
theorem holds_pickNew (a : NewArgs) : (k.pickNew a).1.holds = [.palloc] := by
  unfold Palloc.pickNew
  dsimp only
  split
  · split
    · rfl
    · rfl
    · split <;> rfl
  · rfl

/-- `auxpage` too. -/
theorem holds_pickAux : k.pickAux.1.holds = [.palloc] := by
  unfold Palloc.pickAux
  split
  · rfl
  · split <;> rfl

/-- `putpage` keeps the page's lock while it takes `palloc`. -/
theorem holds_dropRef (p : PageId) : (k.dropRef P p).1.holds = [.page p, .palloc] := by
  unfold Palloc.dropRef
  split
  · rfl
  · dsimp only
    split
    · rfl
    · split <;> rfl

/-- With the reference checked, `duppage` is left with the page's lock. -/
theorem holds_dupRetry (p : PageId) (retries : Nat) :
    (k.dupRetry P p retries).1.holds.Perm [.page p] := by
  unfold Palloc.dupRetry
  dsimp only
  split
  · split
    · exact List.Perm.refl _
    · exact holds_beginUncache (.dupOut p)
  · split
    · exact List.Perm.refl _
    · split <;> exact List.Perm.refl _

/-- `duppage` picks a page under `palloc` and the lock of the page that it copies. -/
theorem holds_dupPick (p : PageId) : (k.dupPick p).1.holds = [.palloc, .page p] := by
  unfold Palloc.dupPick
  split
  · rfl
  · split <;> rfl

/-- The walk of `lookpage` over a chain is under `hashlock` alone. -/
theorem holds_lookWalk (i : ImageId) (d : Word) : (k.lookWalk P i d).holds = [.hash] := by
  unfold Palloc.lookWalk
  split <;> rfl

/-- So is the one of `cachedel`. -/
theorem holds_delWalk (i : ImageId) (d : Word) : (k.delWalk P i d).holds = [.hash] := by
  unfold Palloc.delWalk
  split <;> rfl

/-- To take a page out of its chain `hashlock` comes on top of what is held. -/
theorem holds_unchainCached (c : After) :
    (k.unchainCached P c).1.holds = .hash :: c.holds := by
  unfold Palloc.unchainCached
  split <;> rfl

/-- A step that takes a lock adds it to the table. -/
theorem holds_take (c : Place) (l : LockId) (h : c.act = .acquire l ∨ c.act = .attempt l) :
    (k.advance P c).1.holds.Perm (l :: c.holds) := by
  -- each place asks for one lock, and the code behind it is run up to the next lock operation
  cases c with
  | newLock a =>
    obtain rfl : LockId.palloc = l := by simpa [Place.act] using h
    exact .of_eq (holds_pickNew a)
  -- the page may have been put back in between: then newpage only lets go of it
  | newPage a ct p =>
    obtain rfl : LockId.page p = l := by simpa [Place.act] using h
    simp only [Palloc.advance]
    split
    · exact List.Perm.refl _
    · exact holds_beginUncache (.newpage a ct p)
  | putLock p =>
    obtain rfl : LockId.palloc = l := by simpa [Place.act] using h
    exact List.Perm.refl _
  | putPage p =>
    obtain rfl : LockId.page p = l := by simpa [Place.act] using h
    exact .of_eq (holds_dropRef p)
  | auxLock =>
    obtain rfl : LockId.palloc = l := by simpa [Place.act] using h
    exact .of_eq holds_pickAux
  | auxPage p =>
    obtain rfl : LockId.page p = l := by simpa [Place.act] using h
    simp only [Palloc.advance]
    split
    · exact List.Perm.refl _
    · exact holds_beginUncache (.auxpage p)
  | lookHash i d =>
    obtain rfl : LockId.hash = l := by simpa [Place.act] using h
    exact .of_eq (holds_lookWalk i d)
  | lookLock i d f =>
    obtain rfl : LockId.palloc = l := by simpa [Place.act] using h
    exact List.Perm.refl _
  -- the key is looked at again, whichever way it goes the page's lock is held
  | lookPage i d f =>
    obtain rfl : LockId.page f = l := by simpa [Place.act] using h
    simp only [Palloc.advance]
    split <;> exact List.Perm.refl _
  | dupLock p retries =>
    obtain rfl : LockId.page p = l := by simpa [Place.act] using h
    exact holds_dupRetry p retries
  | dupTry p retries =>
    obtain rfl : LockId.palloc = l := by simpa [Place.act] using h
    exact .of_eq (holds_dupPick p)
  | dupPage p np =>
    obtain rfl : LockId.page np = l := by simpa [Place.act] using h
    exact List.Perm.refl _
  | delHash i d =>
    obtain rfl : LockId.hash = l := by simpa [Place.act] using h
    exact .of_eq (holds_delWalk i d)
  | delPage i d loc f =>
    obtain rfl : LockId.page f = l := by simpa [Place.act] using h
    exact List.Perm.refl _
  | uncLock c =>
    obtain rfl : LockId.hash = l := by simpa [Place.act] using h
    exact .of_eq (holds_unchainCached c)
  | fillLock c i =>
    obtain rfl : LockId.hash = l := by simpa [Place.act] using h
    exact List.Perm.refl _
  | callUncache p =>
    obtain rfl : LockId.page p = l := by simpa [Place.act] using h
    exact holds_beginUncache (.caller p)
  | callCache p i d =>
    obtain rfl : LockId.page p = l := by simpa [Place.act] using h
    exact .of_eq (holds_beginFill (.caller p) (some i))
  -- the other places let go of a lock or end the call
  | _ => simp [Place.act] at h

/-- A step that gives a lock back takes it out of the table. -/
theorem holds_release (c : Place) (l : LockId) (h : c.act = .release l) :
    c.holds.Perm (l :: (k.advance P c).1.holds) := by
  -- the places that only let go of a lock are one case for the page's lock and one for the others
  cases c with
  | newLow a =>
    obtain rfl : LockId.palloc = l := by simpa [Place.act] using h
    simp only [Palloc.advance]
    split <;> exact List.Perm.refl _
  | newDone a p | putDone p | auxDone p | lookStale f | lookReturn f | dupBack p retries
  | dupReturn p | delDone f | callReturn p =>
    obtain rfl : LockId.page _ = l := by simpa [Place.act] using h
    exact List.Perm.refl _
  | newReturn a p | putReturn | auxLow | auxReturn | lookStaleReturn | lookMiss | lookHit i d f
  | delReturn =>
    obtain rfl : _ = l := by simpa [Place.act] using h
    exact List.Perm.refl _
  -- the locks are let go in the order they were taken, not from the top
  | lookTaken f =>
    obtain rfl : LockId.palloc = l := by simpa [Place.act] using h
    exact List.Perm.swap ..
  | dupLow p =>
    obtain rfl : LockId.palloc = l := by simpa [Place.act] using h
    exact (holds_beginUncache (.dupOut p)).symm.cons _
  | dupUnlock p np =>
    obtain rfl : LockId.palloc = l := by simpa [Place.act] using h
    exact (List.Perm.swap ..).trans ((holds_beginUncache (.dupCopy p np)).symm.cons _)
  | dupFilled p np =>
    obtain rfl : LockId.page np = l := by simpa [Place.act] using h
    exact (holds_beginUncache (.dupOut p)).symm.cons _
  | uncUnlock c =>
    obtain rfl : LockId.hash = l := by simpa [Place.act] using h
    exact (holds_resume c).symm.cons _
  | fillUnlock c =>
    obtain rfl : LockId.hash = l := by simpa [Place.act] using h
    cases c <;> exact List.Perm.refl _
  | _ => simp [Place.act] at h

end

/-- The table of held locks is right for the page layer. -/
theorem pageProgram_sound (P : Port) : (pageProgram P).Sound EntryAny where
  rest := rfl
  entry s c h := by
    cases h with
    | of entry => cases entry <;> rfl
    | cachepage p i d => rfl
  take s c l h := holds_take c l h
  fail c l h := by
    cases c with
    | dupTry p retries => exact List.Perm.refl _
    | _ => simp [pageProgram, Place.act] at h
  release s c l h := holds_release c l h

/-- Where nothing has begun, nobody owns a lock, as nobody's place asks for one. -/
theorem Quiet.lockInv {T : Type*} {P : Port} {s : PageSys T} (h : Quiet s) :
    LockInv (pageProgram P) s where
  owner l t := by simp [h.owner, h.place, pageProgram, Place.holds]
  nodup t := by simp [h.place, pageProgram, Place.holds]

end Glendum
