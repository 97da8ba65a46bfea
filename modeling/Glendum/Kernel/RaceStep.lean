import Glendum.Kernel.PageLocks

/-!
# Glendum — what one step of the page layer can do

A process of the page layer may have a page in hand: a free page that it has taken
off the list (`transit`), a page that it is about to return from `newpage`
(`fresh`), or the free page that `duppage` fills (`filling`). `Effect` says once
what a step can do to the free list, the references and the images, together with
the page in hand; `advance_effect` is that statement, for every place of the
program at which `cachepage` is not called from outside.
-/

namespace Glendum

open Machine Lists Locks

/-! ## The page in hand -/

def After.transit : After → Option PageId
  | .newpage _ _ p => some p
  | _ => none

def After.filling : After → Option PageId
  | .dupCopy _ np => some np
  | _ => none

def Fill.filling : Fill → Option PageId
  | .dup _ np => some np
  | .caller _ => none

namespace Place

/-- A page off the free list that has no reference yet. -/
def transit : Place → Option PageId
  | newPage _ _ p | auxPage p => some p
  | uncLock c | uncUnlock c => c.transit
  | _ => none

/-- The page that `newpage` is about to return. -/
def fresh : Place → Option PageId
  | newDone _ p | newReturn _ p => some p
  | _ => none

/-- The page that `duppage` is about to cache. -/
def filling : Place → Option PageId
  | dupPage _ np | dupUnlock _ np => some np
  | uncLock c | uncUnlock c => c.filling
  | fillLock c _ => c.filling
  | _ => none

def putting : Place → Option PageId
  | putLock p | putPage p => some p
  | _ => none

/-- The process has a free page in hand, or has stopped with `palloc` locked. -/
def Keeps (c : Place) (p : PageId) : Prop :=
  c.transit = some p ∨ ∃ why held, c = halt why held ∧ LockId.palloc ∈ held

/-- Neither in a `cachepage` from outside, nor stopped by one of the panics. -/
def Sane : Place → Prop
  | callCache _ _ _ | fillLock (.caller _) _ => False
  | halt (.panic msg) _ => msg ≠ "newpage" ∧ msg ≠ "auxpage" ∧ msg ≠ "cachepage"
  | _ => True

/-- No page in hand. -/
structure Plain (c : Place) : Prop where
  transit : c.transit = none
  fresh   : c.fresh = none
  filling : c.filling = none

/-- A page off the free list without a reference is in hand under `palloc` only. -/
theorem palloc_of_transit {c : Place} {p : PageId} (h : c.transit = some p) :
    LockId.palloc ∈ c.holds := by
  cases c with
  | newPage a ct q | auxPage q => exact List.mem_cons_self ..
  | uncLock c | uncUnlock c =>
    cases c <;> simp [transit, After.transit] at h
    simp [holds, After.holds]
  | _ => simp [transit] at h

/-- So is the page of a process that has stopped with it. -/
theorem palloc_of_keeps {c : Place} {p : PageId} (h : c.Keeps p) : LockId.palloc ∈ c.holds := by
  rcases h with hTransit | ⟨why, held, rfl, hMem⟩
  · exact palloc_of_transit hTransit
  · exact hMem

/-- `newpage` has the page that it is about to return under `palloc`. -/
theorem palloc_of_fresh {c : Place} {p : PageId} (h : c.fresh = some p) :
    LockId.palloc ∈ c.holds := by
  cases c with
  | newDone a q | newReturn a q => simp [holds]
  | _ => simp [fresh] at h

/-- A process that has stopped has no page in hand. -/
theorem live_of_transit {c : Place} {p : PageId} (h : c.transit = some p) (why : Fault)
    (held : List LockId) : c ≠ halt why held := by
  rintro rfl
  simp [transit] at h

/-- A page that is about to be returned has its reference; no other one is in hand. -/
theorem not_keeps_of_fresh {c : Place} {p : PageId} (h : c.fresh = some p) (q : PageId) :
    ¬ c.Keeps q := by
  cases c with
  | newDone a r | newReturn a r => simp [Keeps, transit]
  | _ => simp [fresh] at h

/-- `duppage` has its copy locked, or is about to lock it with `palloc` locked. -/
theorem locked_of_filling {c : Place} {p : PageId} (h : c.filling = some p) :
    LockId.palloc ∈ c.holds ∨ LockId.page p ∈ c.holds := by
  cases c with
  | dupPage q np => exact Or.inl (List.mem_cons_self ..)
  | dupUnlock q np =>
    obtain rfl : np = p := by simpa [filling] using h
    exact Or.inr (List.mem_cons_self ..)
  | uncLock c | uncUnlock c =>
    cases c <;> simp [filling, After.filling] at h
    subst h
    simp [holds, After.holds]
  | fillLock c i =>
    cases c <;> simp [filling, Fill.filling] at h
    subst h
    simp [holds, Fill.holds]
  | _ => simp [filling] at h

end Place

/-! ## Effects -/

/-- The lists and the references are the same, and no page has got an image. -/
structure Fades (k k' : Palloc) : Prop where
  free      : k'.free = k.free
  freecount : k'.freecount = k.freecount
  user      : k'.user = k.user
  ref       : ∀ q, (k'.pages q).ref = (k.pages q).ref
  image     : ∀ q, (k'.pages q).image = none ∨ (k'.pages q).image = (k.pages q).image

/-- Nothing has changed. -/
theorem Fades.refl {k : Palloc} : Fades k k := ⟨rfl, rfl, rfl, fun _ => rfl, fun _ => Or.inr rfl⟩

/-- The page in hand at `c` is still in hand at `c'`, or was given up. -/
structure RolesKept (user : Nat) (c c' : Place) : Prop where
  keeps   : ∀ p, c.Keeps p → c'.Keeps p
  transit : ∀ p, c'.transit = some p → c.transit = some p
  fresh   : ∀ p, c'.fresh = some p → c.fresh = some p
  filling : ∀ p, c'.filling = some p → c.filling = some p
  putting : ∀ p, c'.putting = some p → p < user ∨ c.putting = some p

/-- What a step from the place `c` in the state `k` can lead to. -/
inductive Effect (k : Palloc) (c : Place) : Place → Palloc → Option Event → Prop
  /-- nothing that others can see, or the loss of images -/
  | quiet {c' : Place} {k' : Palloc} (fades : Fades k k') (roles : RolesKept k.user c c') :
      Effect k c c' k' none
  | handover {k' : Palloc} (p : PageId) (fresh : c.fresh = some p) (fades : Fades k k') :
      Effect k c .idle k' (some (.handover p))
  /-- a page is taken off the free list -/
  | pick {c' : Place} {k' : Palloc} (p : PageId) (found : ∀ fl, k.free.IsList fl → p ∈ fl)
      (links : k'.free = k.free.unlink p) (count : k'.freecount = k.freecount - 1)
      (user : k'.user = k.user) (ref : ∀ q, (k'.pages q).ref = (k.pages q).ref)
      (image : ∀ q, (k'.pages q).image = (k.pages q).image) (plain : ∀ q, ¬ c.Keeps q)
      (transit : c'.transit = some p) (fresh : c'.fresh = none) (filling : c'.filling = none)
      (putting : c'.putting = none) : Effect k c c' k' none
  /-- the page in hand gets its reference -/
  | claim {c' : Place} {k' : Palloc} (p : PageId) (inHand : c.transit = some p)
      (free : k'.free = k.free) (count : k'.freecount = k.freecount) (user : k'.user = k.user)
      (refP : (k'.pages p).ref = (k.pages p).ref + 1)
      (ref : ∀ q, q ≠ p → (k'.pages q).ref = (k.pages q).ref)
      (image : ∀ q, (k'.pages q).image = none ∨ (k'.pages q).image = (k.pages q).image)
      (transit : c'.transit = none)
      (fresh : ∀ q, c'.fresh = some q → q = p ∧ (k'.pages p).image = none ∧
        LockId.page p ∈ c'.holds ∧ LockId.palloc ∈ c'.holds)
      (filling : c'.filling = none) (putting : c'.putting = none) : Effect k c c' k' none
  /-- a reference is dropped; the last one puts the page on the free list -/
  | put {c' : Place} {k' : Palloc} (p : PageId) (inHand : c.putting = some p)
      (palloc : LockId.palloc ∈ c.holds) (refOld : (k.pages p).ref ≠ 0)
      (refP : (k'.pages p).ref = (k.pages p).ref - 1)
      (ref : ∀ q, q ≠ p → (k'.pages q).ref = (k.pages q).ref)
      (image : ∀ q, (k'.pages q).image = (k.pages q).image) (user : k'.user = k.user)
      (lists : if (k.pages p).ref = 1 then
          (k'.free = k.free.pushBack p ∨ k'.free = k.free.pushFront p) ∧
            k'.freecount = k.freecount + 1
        else k'.free = k.free ∧ k'.freecount = k.freecount)
      (plain : ∀ q, ¬ c.Keeps q) (plain' : c'.Plain) (putting : c'.putting = none) :
      Effect k c c' k' (some (.put p))
  /-- a cached page gets a reference; the first one takes it off the free list -/
  | look {c' : Place} {k' : Palloc} (f : PageId) (i : ImageId) (d : Word)
      (here : c = .lookPage i d f) (image : (k.pages f).image = some i)
      (daddr : (k'.pages f).daddr = d) (refF : (k'.pages f).ref = (k.pages f).ref + 1)
      (ref : ∀ q, q ≠ f → (k'.pages q).ref = (k.pages q).ref)
      (images : ∀ q, (k'.pages q).image = (k.pages q).image) (user : k'.user = k.user)
      (lists : if (k.pages f).ref = 0 then
          k'.free = k.free.unlink f ∧ k'.freecount = k.freecount - 1
        else k'.free = k.free ∧ k'.freecount = k.freecount)
      (plain' : c'.Plain) (putting : c'.putting = none) :
      Effect k c c' k' (some (.look f i d))
  /-- `duppage` puts the page it will fill to the end of the free list -/
  | requeue {c' : Place} {k' : Palloc} (np : PageId) (found : ∀ fl, k.free.IsList fl → np ∈ fl)
      (links : k'.free = (k.free.unlink np).pushBack np)
      (count : k'.freecount = k.freecount - 1 + 1) (user : k'.user = k.user)
      (ref : ∀ q, (k'.pages q).ref = (k.pages q).ref)
      (image : ∀ q, (k'.pages q).image = (k.pages q).image) (plain : ∀ q, ¬ c.Keeps q)
      (transit : c'.transit = none) (fresh : c'.fresh = none) (filling : c'.filling = some np)
      (putting : c'.putting = none) : Effect k c c' k' none
  /-- the copy gets its image -/
  | fill {c' : Place} {k' : Palloc} (np : PageId) (i : ImageId) (inHand : c.filling = some np)
      (free : k'.free = k.free) (count : k'.freecount = k.freecount) (user : k'.user = k.user)
      (ref : ∀ q, (k'.pages q).ref = (k.pages q).ref)
      (imageNp : (k'.pages np).image = some i)
      (image : ∀ q, q ≠ np → (k'.pages q).image = (k.pages q).image) (plain : ∀ q, ¬ c.Keeps q)
      (plain' : c'.Plain) (putting : c'.putting = none) : Effect k c c' k' none

/-! ## The effect of every step -/

section

variable {P : Port} {k : Palloc}

/-- The page that is found by its color is on the free list. -/
theorem firstOfColor_found {color : Nat} {p : PageId} (h : k.firstOfColor color = .ok (some p)) :
    ∀ fl, k.free.IsList fl → p ∈ fl := by
  intro fl hLinks
  unfold Palloc.firstOfColor at h
  cases hFind : search k.free.next (fun p => (k.pages p).color == color) k.user k.free.head with
  | none => simp [hFind] at h
  | some r =>
    obtain rfl : r = some p := by simpa [hFind] using h
    exact hLinks.chain.mem_of_search hFind

/-- The search by color fails only where the list has no end. -/
theorem firstOfColor_error {color : Nat} {e : Fault} (h : k.firstOfColor color = .error e) :
    e = .endless := by
  unfold Palloc.firstOfColor at h
  split at h <;> simp at h
  exact h.symm

/-- The head of the free list is on it. -/
theorem head_found {p : PageId} (h : k.free.head = some p) : ∀ fl, k.free.IsList fl → p ∈ fl := by
  intro fl hLinks
  rw [hLinks.head] at h
  exact List.mem_of_head? h

/-- What a step leads to is `Sane`, and its effect is one of the list. -/
def Steps (k : Palloc) (c : Place) (r : Place × Palloc) (e : Option Event) : Prop :=
  Effect k c r.1 r.2 e ∧ r.1.Sane

variable {c c' : Place}

/-- As long as a process goes on, it keeps the page that it has in hand. -/
theorem Place.keeps_of_live (hLive : ∀ why held, c ≠ .halt why held) {p : PageId} :
    c.Keeps p ↔ c.transit = some p :=
  or_iff_left fun ⟨why, held, h, _⟩ => hLive why held h

/-- From a place without a page in hand to another. -/
theorem RolesKept.plain {user : Nat} (hPlain : ∀ p, ¬ c.Keeps p) (hPlain' : c'.Plain)
    (hPut : ∀ p, c'.putting = some p → p < user ∨ c.putting = some p) : RolesKept user c c' where
  keeps p h := absurd h (hPlain p)
  transit p h := by simp [hPlain'.transit] at h
  fresh p h := by simp [hPlain'.fresh] at h
  filling p h := by simp [hPlain'.filling] at h
  putting := hPut

/-- The place `c` calls `uncachepage` and is returned into as `after` says. -/
structure Into (c : Place) (after : After) : Prop where
  transit : c.transit = after.transit
  fresh   : c.fresh = none
  filling : c.filling = after.filling
  live    : ∀ why held, c ≠ .halt why held

variable {after : After} {k0 : Palloc}

/-- Nothing is kept where nothing is in hand behind `uncachepage`. -/
theorem Into.not_keeps (h : Into c after) (hNone : after.transit = none) (p : PageId) :
    ¬ c.Keeps p := by
  rw [Place.keeps_of_live h.live, h.transit, hNone]
  simp

/-- Two such changes make one. -/
theorem Fades.trans {k1 k2 : Palloc} (h1 : Fades k k1) (h2 : Fades k1 k2) : Fades k k2 where
  free := h2.free.trans h1.free
  freecount := h2.freecount.trans h1.freecount
  user := h2.user.trans h1.user
  ref q := (h2.ref q).trans (h1.ref q)
  image q := (h2.image q).elim Or.inl fun h => h ▸ h1.image q

/-- So is a change of a page that keeps its reference and gives it no image. -/
theorem Fades.setPage {p : PageId} {f : Page → Page} (hRef : ∀ pg, (f pg).ref = pg.ref)
    (hImage : ∀ pg, (f pg).image = none ∨ (f pg).image = pg.image) : Fades k (k.setPage p f) := by
  refine ⟨rfl, rfl, rfl, Palloc.setPage_field Page.ref hRef, fun q => ?_⟩
  by_cases hq : q = p
  · rw [hq, Palloc.setPage_self]
    exact hImage _
  · exact Or.inr (by rw [Palloc.setPage_of_ne hq])

/-- A step between two places without a page in hand, for a state that fades. -/
theorem Steps.plain {k' : Palloc} (hFades : Fades k k') (hPlain : ∀ q, ¬ c.Keeps q)
    (hPlain' : c'.Plain) (hPut : ∀ p, c'.putting = some p → p < k.user ∨ c.putting = some p)
    (hSane : c'.Sane) : Steps k c (c', k') none :=
  ⟨.quiet hFades (.plain hPlain hPlain' hPut), hSane⟩

/-- `duppage` calls `cachepage` for a copy that has no image. -/
theorem beginFill_effect {p np : PageId} {i : Option ImageId} (hFades : Fades k0 k)
    (hPlain : ∀ q, ¬ c.Keeps q) (hFilling : c.filling = some np)
    (hNone : (k.pages np).image = none) : Steps k0 c (k.beginFill (.dup p np) i) none := by
  unfold Palloc.beginFill
  rw [if_neg (by simpa [Fill.page] using hNone)]
  cases i with
  | none =>
    -- a nil image is a fault, not one of the panics
    exact .plain hFades hPlain ⟨rfl, rfl, rfl⟩ (by simp [Place.putting]) trivial
  | some i =>
    have hRef : Fades k (k.incref i) := ⟨rfl, rfl, rfl, fun _ => rfl, fun _ => Or.inr rfl⟩
    refine ⟨.quiet (hFades.trans hRef) ⟨?_, ?_, ?_, ?_, ?_⟩, trivial⟩
    · exact fun q h => absurd h (hPlain q)
    · simp [Place.transit]
    · simp [Place.fresh]
    · intro q hq
      rw [hFilling]
      exact hq
    · simp [Place.putting]

/-- What follows `uncachepage`: only `newpage` gives its page a reference there, and
only `duppage` goes on to `cachepage`, for a page that has no image. -/
theorem resume_effect (hInto : Into c after) (hFades : Fades k0 k)
    (hNone : (k.pages after.page).image = none) : Steps k0 c (k.resume after) none := by
  cases after with
  | newpage a ct p =>
    have hPage : ∀ q, q ≠ p → (k.resume (.newpage a ct p)).2.pages q = k.pages q :=
      fun q hq => Function.update_of_ne hq _ _
    have hPageP : (k.resume (.newpage a ct p)).2.pages p = { k.pages p with
        ref := (k.pages p).ref + 1, va := a.va, modref := 0,
        cachectl := List.replicate MAXMACH ct } := Function.update_self ..
    refine ⟨.claim p hInto.transit hFades.free hFades.freecount hFades.user ?_ ?_ ?_ rfl ?_ rfl rfl,
      trivial⟩
    · rw [hPageP, ← hFades.ref p]
    · intro q hq
      rw [hPage q hq, hFades.ref q]
    · -- the page itself has no image left
      intro q
      by_cases hq : q = p
      · subst hq
        rw [hPageP]
        exact Or.inl hNone
      · rw [hPage q hq]
        exact hFades.image q
    · intro q hq
      obtain rfl : p = q := Option.some.inj hq
      refine ⟨rfl, ?_, List.mem_cons_self .., by simp [Palloc.resume, Place.holds]⟩
      rw [hPageP]
      exact hNone
  | auxpage p =>
    exact .plain hFades (hInto.not_keeps rfl) ⟨rfl, rfl, rfl⟩ (by simp [Place.putting]) trivial
  | dupOut p =>
    exact .plain hFades (hInto.not_keeps rfl) ⟨rfl, rfl, rfl⟩ (by simp [Place.putting]) trivial
  | caller p =>
    exact .plain hFades (hInto.not_keeps rfl) ⟨rfl, rfl, rfl⟩ (by simp [Place.putting]) trivial
  | dupCopy p np =>
    let f : Page → Page := fun pg => { pg with va := (k.pages p).va, daddr := (k.pages p).daddr }
    let k1 := (k.setPage np f).copypage p np
    have hSet : Fades k (k.setPage np f) := Fades.setPage (fun _ => rfl) fun _ => Or.inr rfl
    have hCopy : Fades (k.setPage np f) k1 := ⟨rfl, rfl, rfl, fun _ => rfl, fun _ => Or.inr rfl⟩
    have hFades1 := hSet.trans hCopy
    exact beginFill_effect (hFades.trans hFades1) (hInto.not_keeps rfl) hInto.filling
      ((hFades1.image np).elim id fun h => h.trans hNone)

/-- The start of `uncachepage` touches no list and no reference. -/
theorem beginUncache_effect (hInto : Into c after) (hFades : Fades k0 k) :
    Steps k0 c (k.beginUncache after) none := by
  unfold Palloc.beginUncache
  by_cases hNone : (k.pages after.page).image = none
  · rw [if_pos hNone]
    exact resume_effect hInto hFades hNone
  · -- it waits for `hashlock`, with the same pages in hand
    rw [if_neg hNone]
    refine ⟨.quiet hFades ⟨?_, ?_, ?_, ?_, ?_⟩, trivial⟩
    · intro q hq
      rw [Place.keeps_of_live hInto.live, hInto.transit] at hq
      exact Or.inl hq
    · intro q hq
      rw [hInto.transit]
      exact hq
    · simp [Place.fresh]
    · intro q hq
      rw [hInto.filling]
      exact hq
    · simp [Place.putting]

/-- `newpage` picks a page of the free list and takes it in hand, or waits. -/
theorem pickNew_effect (a : NewArgs) : Steps k (.newLock a) (k.pickNew a) none := by
  have hPlain : ∀ q, ¬ (Place.newLock a).Keeps q := by simp [Place.Keeps, Place.transit]
  have hQuiet : ∀ c', c'.Plain → c'.putting = none → c'.Sane → Steps k (.newLock a) (c', k) none :=
    fun c' hPlain' hPut hSane =>
      .plain Fades.refl hPlain hPlain' (by simp [hPut]) hSane
  unfold Palloc.pickNew
  dsimp only
  split
  · cases hFind : k.firstOfColor (getpgcolor a.va) with
    | error e =>
      obtain rfl := firstOfColor_error hFind
      exact hQuiet _ ⟨rfl, rfl, rfl⟩ rfl trivial
    | ok r =>
      cases r with
      | some p =>
        exact ⟨.pick p (firstOfColor_found hFind) rfl rfl rfl (fun _ => rfl) (fun _ => rfl) hPlain
          rfl rfl rfl rfl, trivial⟩
      | none =>
        dsimp only
        cases hHead : k.free.head with
        | none => exact hQuiet _ ⟨rfl, rfl, rfl⟩ rfl trivial
        | some p =>
          dsimp only
          -- recolouring the page leaves its reference and its image alone
          let f : Page → Page := fun pg => { pg with color := getpgcolor a.va }
          refine ⟨.pick p (head_found hHead) rfl rfl rfl ?_ ?_ hPlain rfl rfl rfl rfl, trivial⟩
          · exact Palloc.setPage_field (f := f) Page.ref fun _ => rfl
          · exact Palloc.setPage_field (f := f) Page.image fun _ => rfl
  · exact hQuiet _ ⟨rfl, rfl, rfl⟩ rfl trivial

/-- `auxpage` picks one, or gives up. -/
theorem pickAux_effect : Steps k .auxLock k.pickAux none := by
  have hPlain : ∀ q, ¬ Place.auxLock.Keeps q := by simp [Place.Keeps, Place.transit]
  unfold Palloc.pickAux
  split
  · exact .plain Fades.refl hPlain ⟨rfl, rfl, rfl⟩ (by simp [Place.putting]) trivial
  · cases hHead : k.free.head with
    | none => exact .plain Fades.refl hPlain ⟨rfl, rfl, rfl⟩ (by simp [Place.putting]) trivial
    | some p =>
      exact ⟨.pick p (head_found hHead) rfl rfl rfl (fun _ => rfl) (fun _ => rfl) hPlain
        rfl rfl rfl rfl, trivial⟩

/-- `putpage` stops at a reference of 0, and otherwise gives one back. -/
theorem dropRef_effect (p : PageId) : Steps k (.putPage p) (k.dropRef P p)
    (if (k.pages p).ref = 0 then none else some (.put p)) := by
  have hPlain : ∀ q, ¬ (Place.putPage p).Keeps q := by simp [Place.Keeps, Place.transit]
  unfold Palloc.dropRef
  by_cases hZero : (k.pages p).ref = 0
  · rw [if_pos hZero, if_pos hZero]
    exact .plain Fades.refl hPlain ⟨rfl, rfl, rfl⟩ (by simp [Place.putting]) (by simp [Place.Sane])
  rw [if_neg hZero, if_neg hZero]
  let down : Page → Page := fun pg => { pg with ref := pg.ref - 1 }
  have hRefP : ((k.setPage p down).pages p).ref = (k.pages p).ref - 1 :=
    congrArg Page.ref Palloc.setPage_self
  have hRef : ∀ q, q ≠ p → ((k.setPage p down).pages q).ref = (k.pages q).ref :=
    fun q hq => congrArg Page.ref (Palloc.setPage_of_ne hq)
  have hImage : ∀ q, ((k.setPage p down).pages q).image = (k.pages q).image :=
    Palloc.setPage_field Page.image fun _ => rfl
  change Steps k _ (if ((k.setPage p down).pages p).ref > 0 then _ else _) _
  rw [hRefP]
  by_cases hLast : (k.pages p).ref = 1
  · -- the last reference: the page goes to one of the ends of the free list
    rw [if_neg (by omega)]
    split
    · refine ⟨.put p rfl (List.mem_cons_self ..) hZero hRefP hRef hImage rfl ?_ hPlain
        ⟨rfl, rfl, rfl⟩ rfl, trivial⟩
      rw [if_pos hLast]
      exact ⟨Or.inl rfl, rfl⟩
    · refine ⟨.put p rfl (List.mem_cons_self ..) hZero hRefP hRef hImage rfl ?_ hPlain
        ⟨rfl, rfl, rfl⟩ rfl, trivial⟩
      rw [if_pos hLast]
      exact ⟨Or.inr rfl, rfl⟩
  · -- some references are left
    rw [if_pos (by omega)]
    refine ⟨.put p rfl (List.mem_cons_self ..) hZero hRefP hRef hImage rfl ?_ hPlain
      ⟨rfl, rfl, rfl⟩ rfl, trivial⟩
    rw [if_neg hLast]
    exact ⟨rfl, rfl⟩

/-- The first checks of `duppage` change its counter at most. -/
theorem dupRetry_effect (p : PageId) (retries : Nat) :
    Steps k (.dupLock p retries) (k.dupRetry P p retries) none := by
  have hPlain : ∀ q, ¬ (Place.dupLock p retries).Keeps q := by simp [Place.Keeps, Place.transit]
  have hCount : Fades k { k with dupretries := k.dupretries + 100 } :=
    ⟨rfl, rfl, rfl, fun _ => rfl, fun _ => Or.inr rfl⟩
  unfold Palloc.dupRetry
  dsimp only
  split
  · -- too many tries: a panic, or the page goes to `uncachepage`
    split
    · exact .plain hCount hPlain ⟨rfl, rfl, rfl⟩ (by simp [Place.putting]) (by simp [Place.Sane])
    · exact beginUncache_effect ⟨rfl, rfl, rfl, by simp⟩ hCount
  · split
    · exact .plain Fades.refl hPlain ⟨rfl, rfl, rfl⟩ (by simp [Place.putting]) trivial
    · split
      · exact .plain Fades.refl hPlain ⟨rfl, rfl, rfl⟩ (by simp [Place.putting]) trivial
      · exact .plain Fades.refl hPlain ⟨rfl, rfl, rfl⟩ (by simp [Place.putting]) trivial

/-- The page that `duppage` picks goes to the tail of the list, and nothing else moves. -/
theorem dupPick_effect (p : PageId) (retries : Nat) :
    Steps k (.dupTry p retries) (k.dupPick p) none := by
  have hPlain : ∀ q, ¬ (Place.dupTry p retries).Keeps q := by simp [Place.Keeps, Place.transit]
  -- without a page of the colour duppage gives up and has changed nothing
  have hQuiet : ∀ c' : Place, c'.Plain → c'.putting = none → c'.Sane →
      Steps k (.dupTry p retries) (c', k) none := fun c' hPlain' hPut hSane =>
    .plain Fades.refl hPlain hPlain' (by simp [hPut]) hSane
  unfold Palloc.dupPick
  split
  · exact hQuiet _ ⟨rfl, rfl, rfl⟩ rfl trivial
  cases hFind : k.firstOfColor (getpgcolor (k.pages p).va) with
  | error e =>
    obtain rfl := firstOfColor_error hFind
    exact hQuiet _ ⟨rfl, rfl, rfl⟩ rfl trivial
  | ok r =>
    cases r with
    | none => exact hQuiet _ ⟨rfl, rfl, rfl⟩ rfl trivial
    | some np =>
      exact ⟨.requeue np (firstOfColor_found hFind) rfl rfl rfl (fun _ => rfl) (fun _ => rfl)
        hPlain rfl rfl rfl rfl, trivial⟩

/-- The loop of `uncachepage` keeps the page in hand, also when it does not end. -/
theorem unchainCached_effect (after : After) :
    Steps k (.uncLock after) (k.unchainCached P after) none := by
  have hKeeps : ∀ q, (Place.uncLock after).Keeps q → after.transit = some q := by
    intro q hq
    rwa [Place.keeps_of_live (by simp)] at hq
  unfold Palloc.unchainCached
  split
  · -- stopped, with `palloc` locked when there is a page in hand
    refine ⟨.quiet Fades.refl ⟨?_, ?_, ?_, ?_, ?_⟩, trivial⟩
    · intro q hq
      refine Or.inr ⟨_, _, rfl, List.mem_cons_of_mem _ ?_⟩
      exact Place.palloc_of_transit (c := .uncLock after) (hKeeps q hq)
    · simp [Place.transit]
    · simp [Place.fresh]
    · simp [Place.filling]
    · simp [Place.putting]
  · refine ⟨.quiet Fades.refl ⟨fun q hq => Or.inl (hKeeps q hq), fun _ h => h, ?_, fun _ h => h,
      ?_⟩, trivial⟩
    · simp [Place.fresh]
    · simp [Place.putting]
  · refine ⟨.quiet ⟨rfl, rfl, rfl, fun _ => rfl, fun _ => Or.inr rfl⟩
      ⟨fun q hq => Or.inl (hKeeps q hq), fun _ h => h, ?_, fun _ h => h, ?_⟩, trivial⟩
    · simp [Place.fresh]
    · simp [Place.putting]

/-- The page has no image any more. -/
theorem dropImage_image (p : PageId) : ((k.dropImage p).pages p).image = none := by
  simp [Palloc.dropImage, Palloc.setPage]

/-- And that is all that has changed. -/
theorem dropImage_fades (p : PageId) : Fades k (k.dropImage p) := by
  have hSet : ∀ k' : Palloc, Fades k' (k'.setPage p fun pg => { pg with image := none, daddr := 0 }) :=
    fun _ => Fades.setPage (fun _ => rfl) fun _ => Or.inl rfl
  unfold Palloc.dropImage
  split
  · -- `putimage` only counts
    next i _ =>
    have hPut : Fades k (k.putimage i) := ⟨rfl, rfl, rfl, fun _ => rfl, fun _ => Or.inr rfl⟩
    exact hPut.trans (hSet _)
  · exact hSet k

/-- `cachedel` drops the key of one page at most. -/
theorem delCached_fades (i : ImageId) (d : Word) (l : Loc Nat PageId) (f : PageId) :
    Fades k (k.delCached i d l f) := by
  unfold Palloc.delCached
  split
  · have hChains : Fades k { k with chains := k.chains.set l (k.chains.next f) } :=
      ⟨rfl, rfl, rfl, fun _ => rfl, fun _ => Or.inr rfl⟩
    exact hChains.trans (dropImage_fades f)
  · exact Fades.refl

/-- `newpage` with the page it chose locked. -/
theorem newPage_effect (a : NewArgs) (ct : CacheCtl) (p : PageId) (hZero : (k.pages p).ref = 0) :
    Steps k (.newPage a ct p) ((k.advance P (.newPage a ct p)).1,
      (k.advance P (.newPage a ct p)).2.1) (k.advance P (.newPage a ct p)).2.2 := by
  have hRun : k.advance P (.newPage a ct p) =
      ((k.beginUncache (.newpage a ct p)).1, (k.beginUncache (.newpage a ct p)).2, none) :=
    if_neg (by simp [hZero])
  rw [hRun]
  exact beginUncache_effect ⟨rfl, rfl, rfl, by simp⟩ Fades.refl

/-- `auxpage` gives the page its reference before it calls `uncachepage`. -/
theorem auxPage_effect (p : PageId) (hZero : (k.pages p).ref = 0) :
    Steps k (.auxPage p) ((k.advance P (.auxPage p)).1, (k.advance P (.auxPage p)).2.1)
      (k.advance P (.auxPage p)).2.2 := by
  let f : Page → Page := fun pg => { pg with ref := pg.ref + 1 }
  have hRun : k.advance P (.auxPage p) = (((k.setPage p f).beginUncache (.auxpage p)).1,
      ((k.setPage p f).beginUncache (.auxpage p)).2, none) := if_neg (by simp [hZero])
  rw [hRun]
  -- one reference more, for this page only
  have hRefP : ((k.setPage p f).pages p).ref = (k.pages p).ref + 1 :=
    congrArg Page.ref Palloc.setPage_self
  have hRef : ∀ q, q ≠ p → ((k.setPage p f).pages q).ref = (k.pages q).ref :=
    fun q hq => congrArg Page.ref (Palloc.setPage_of_ne hq)
  have hImage : ∀ q, ((k.setPage p f).pages q).image = (k.pages q).image :=
    Palloc.setPage_field Page.image fun _ => rfl
  unfold Palloc.beginUncache
  split
  · exact ⟨.claim p rfl rfl rfl rfl hRefP hRef (fun q => Or.inr (hImage q)) rfl (by simp
      [Palloc.resume, Place.fresh]) rfl rfl, trivial⟩
  · exact ⟨.claim p rfl rfl rfl rfl hRefP hRef (fun q => Or.inr (hImage q)) rfl (by simp
      [Place.fresh]) rfl rfl, trivial⟩

/-- `lookpage` takes a reference when the page still has the key, and leaves it alone otherwise.
-/
theorem lookPage_effect (i : ImageId) (d : Word) (f : PageId) :
    Steps k (.lookPage i d f) ((k.advance P (.lookPage i d f)).1,
      (k.advance P (.lookPage i d f)).2.1) (k.advance P (.lookPage i d f)).2.2 := by
  have hPlain : ∀ q, ¬ (Place.lookPage i d f).Keeps q := by simp [Place.Keeps, Place.transit]
  let up : Page → Page := fun pg => { pg with ref := pg.ref + 1 }
  by_cases hHit : k.isCached i d f = true
  · have hRun : k.advance P (.lookPage i d f) = (.lookTaken f,
        if ((k.setPage f up).pages f).ref = 1 then (k.setPage f up).pageunchain f
          else k.setPage f up, some (.look f i d)) := if_pos hHit
    rw [hRun]
    obtain ⟨hImage, hDaddr⟩ : (k.pages f).image = some i ∧ (k.pages f).daddr = d := by
      simpa [Palloc.isCached] using hHit
    have hRefF : ((k.setPage f up).pages f).ref = (k.pages f).ref + 1 :=
      congrArg Page.ref Palloc.setPage_self
    have hRef : ∀ q, q ≠ f → ((k.setPage f up).pages q).ref = (k.pages q).ref :=
      fun q hq => congrArg Page.ref (Palloc.setPage_of_ne hq)
    have hImages : ∀ q, ((k.setPage f up).pages q).image = (k.pages q).image :=
      Palloc.setPage_field Page.image fun _ => rfl
    have hDaddr' : ((k.setPage f up).pages f).daddr = d :=
      (Palloc.setPage_field (f := up) Page.daddr (fun _ => rfl) f).trans hDaddr
    rw [hRefF]
    by_cases hFree : (k.pages f).ref = 0
    · -- the first reference takes the page off the free list
      rw [if_pos (by omega)]
      refine ⟨.look f i d rfl hImage hDaddr' hRefF hRef hImages rfl ?_ ⟨rfl, rfl, rfl⟩ rfl, trivial⟩
      rw [if_pos hFree]
      exact ⟨rfl, rfl⟩
    · rw [if_neg (by omega)]
      refine ⟨.look f i d rfl hImage hDaddr' hRefF hRef hImages rfl ?_ ⟨rfl, rfl, rfl⟩ rfl, trivial⟩
      rw [if_neg hFree]
      exact ⟨rfl, rfl⟩
  · -- the page was taken for something else meanwhile
    have hRun : k.advance P (.lookPage i d f) = (.lookStale f, k, none) := if_neg hHit
    rw [hRun]
    exact .plain Fades.refl hPlain ⟨rfl, rfl, rfl⟩ (by simp [Place.putting]) trivial

/-- The copy gets the image of its page. -/
theorem fillLock_effect (p np : PageId) (i : ImageId) :
    Steps k (.fillLock (.dup p np) i) ((k.advance P (.fillLock (.dup p np) i)).1,
      (k.advance P (.fillLock (.dup p np) i)).2.1)
      (k.advance P (.fillLock (.dup p np) i)).2.2 := by
  have hPlain : ∀ q, ¬ (Place.fillLock (.dup p np) i).Keeps q := by
    simp [Place.Keeps, Place.transit]
  have hImage : ∀ q, q ≠ np →
      ((k.setPage np fun pg => { pg with image := some i }).pages q).image = (k.pages q).image :=
    fun q hq => congrArg Page.image (Palloc.setPage_of_ne hq)
  have hRef : ∀ q, ((k.setPage np fun pg => { pg with image := some i }).pages q).ref =
      (k.pages q).ref := Palloc.setPage_field Page.ref fun _ => rfl
  refine ⟨.fill np i rfl rfl rfl rfl hRef ?_ hImage hPlain ⟨rfl, rfl, rfl⟩ rfl, trivial⟩
  simp [Palloc.advance, Palloc.setPage, Fill.page]

/-- From every place outside a `cachepage` call of its own, a step has one of the
effects, provided that the page in hand has no reference. -/
theorem advance_effect (hSane : c.Sane) (hAct : c.act ≠ .none)
    (hZero : ∀ p, c.transit = some p → (k.pages p).ref = 0) :
    Steps k c ((k.advance P c).1, (k.advance P c).2.1) (k.advance P c).2.2 := by
  cases c with
  | idle => exact absurd rfl hAct
  | halt why held => exact absurd rfl hAct
  | callCache p i d => exact hSane.elim
  -- the places that have something in hand
  | newLock a => exact pickNew_effect a
  | newPage a ct p => exact newPage_effect a ct p (hZero p rfl)
  | auxLock => exact pickAux_effect
  | auxPage p => exact auxPage_effect p (hZero p rfl)
  | putPage p => exact dropRef_effect p
  | lookPage i d f => exact lookPage_effect i d f
  | dupLock p retries => exact dupRetry_effect p retries
  | dupTry p retries => exact dupPick_effect p retries
  | uncLock after => exact unchainCached_effect after
  | uncUnlock after =>
    exact resume_effect ⟨rfl, rfl, rfl, by simp⟩ (dropImage_fades _) (dropImage_image _)
  | fillLock fill i =>
    cases fill with
    | dup p np => exact fillLock_effect p np i
    | caller p => exact hSane.elim
  | newDone a p =>
    -- the page stays the one that is about to be returned
    refine ⟨.quiet Fades.refl ⟨?_, ?_, fun _ h => h, ?_, ?_⟩, trivial⟩ <;>
      simp [Palloc.advance, Place.Keeps, Place.transit, Place.filling, Place.putting]
  | newReturn a p =>
    refine ⟨.handover p rfl ?_, trivial⟩
    dsimp only [Palloc.advance]
    split
    · exact ⟨rfl, rfl, rfl, fun _ => rfl, fun _ => Or.inr rfl⟩
    · exact Fades.refl
  | dupPage p np =>
    -- the copy is locked and stays in hand
    refine ⟨.quiet Fades.refl ⟨?_, ?_, ?_, fun _ h => h, ?_⟩, trivial⟩ <;>
      simp [Palloc.advance, Place.Keeps, Place.transit, Place.fresh, Place.putting]
  -- calls of `uncachepage`
  | dupUnlock p np => exact beginUncache_effect ⟨rfl, rfl, rfl, by simp⟩ Fades.refl
  | dupLow p => exact beginUncache_effect ⟨rfl, rfl, rfl, by simp⟩ Fades.refl
  | dupFilled p np => exact beginUncache_effect ⟨rfl, rfl, rfl, by simp⟩ Fades.refl
  | callUncache p => exact beginUncache_effect ⟨rfl, rfl, rfl, by simp⟩ Fades.refl
  -- the walks of the chains
  | lookHash i d =>
    change Steps k _ (k.lookWalk P i d, k) none
    unfold Palloc.lookWalk
    split <;> exact .plain Fades.refl (by simp [Place.Keeps, Place.transit]) ⟨rfl, rfl, rfl⟩
      (by simp [Place.putting]) trivial
  | delHash i d =>
    change Steps k _ (k.delWalk P i d, k) none
    unfold Palloc.delWalk
    split <;> exact .plain Fades.refl (by simp [Place.Keeps, Place.transit]) ⟨rfl, rfl, rfl⟩
      (by simp [Place.putting]) trivial
  | delPage i d l f =>
    exact .plain (delCached_fades i d l f) (by simp [Place.Keeps, Place.transit])
      ⟨rfl, rfl, rfl⟩ (by simp [Place.putting, Palloc.advance]) trivial
  -- nothing in hand, and nothing done
  | newLow a =>
    dsimp only [Palloc.advance]
    split <;> exact .plain Fades.refl (by simp [Place.Keeps, Place.transit]) ⟨rfl, rfl, rfl⟩
      (by simp [Place.putting]) trivial
  | fillUnlock fill =>
    cases fill <;> exact .plain Fades.refl (by simp [Place.Keeps, Place.transit]) ⟨rfl, rfl, rfl⟩
      (by simp [Place.putting, Palloc.advance]) trivial
  | putLock p =>
    exact .plain Fades.refl (by simp [Place.Keeps, Place.transit]) ⟨rfl, rfl, rfl⟩
      (fun _ h => Or.inr h) trivial
  | _ =>
    exact .plain Fades.refl (by simp [Place.Keeps, Place.transit]) ⟨rfl, rfl, rfl⟩
      (by simp [Place.putting, Palloc.advance]) trivial

end

/-! ## What an effect says about one page -/

namespace Effect

variable {k k' : Palloc} {c c' : Place} {e : Option Event} {p : PageId}

/-- No step changes how many pages there are. -/
theorem user (h : Effect k c c' k' e) : k'.user = k.user := by
  cases h with
  | quiet fades roles => exact fades.user
  | handover p fresh fades => exact fades.user
  | pick | claim | put | look | requeue | fill => assumption

/-- A reference changes when a page in hand gets its first one, or with an event. -/
theorem ref_of (h : Effect k c c' k' e) (p : PageId) : (k'.pages p).ref = (k.pages p).ref ∨
    c.transit = some p ∨ e = some (.put p) ∨ ∃ i, (k.pages p).image = some i := by
  -- claim, put and look are the steps that count
  cases h with
  | quiet fades roles => exact Or.inl (fades.ref p)
  | handover q fresh fades => exact Or.inl (fades.ref p)
  | pick q _ _ _ _ ref => exact Or.inl (ref p)
  | requeue np _ _ _ _ ref => exact Or.inl (ref p)
  | fill np i _ _ _ _ ref => exact Or.inl (ref p)
  | claim q inHand _ _ _ _ ref =>
    by_cases hp : p = q
    · exact Or.inr (Or.inl (hp ▸ inHand))
    · exact Or.inl (ref p hp)
  | put q _ _ _ _ ref =>
    by_cases hp : p = q
    · exact Or.inr (Or.inr (Or.inl (by rw [hp])))
    · exact Or.inl (ref p hp)
  | look f i d _ image _ _ ref =>
    by_cases hp : p = f
    · exact Or.inr (Or.inr (Or.inr ⟨i, hp ▸ image⟩))
    · exact Or.inl (ref p hp)

/-- References change with `palloc` locked. -/
theorem ref_of_unlocked (h : Effect k c c' k' e) (hPalloc : LockId.palloc ∉ c.holds)
    (p : PageId) : (k'.pages p).ref = (k.pages p).ref := by
  cases h with
  | quiet fades roles => exact fades.ref p
  | handover q fresh fades => exact fades.ref p
  | pick q _ _ _ _ ref => exact ref p
  | requeue np _ _ _ _ ref => exact ref p
  | fill np i _ _ _ _ ref => exact ref p
  | claim q inHand => exact absurd (Place.palloc_of_transit inHand) hPalloc
  | put q _ palloc => exact absurd palloc hPalloc
  | look f i d here =>
    subst here
    exact absurd (List.mem_cons_self ..) hPalloc

/-- Only the copy of a `duppage` gets an image. -/
theorem image_of (h : Effect k c c' k' e) {i : ImageId} (hi : (k'.pages p).image = some i) :
    (k.pages p).image = some i ∨ c.filling = some p := by
  -- a step that may clear an image gives no new one
  have hFade : (k'.pages p).image = none ∨ (k'.pages p).image = (k.pages p).image →
      (k.pages p).image = some i := by
    rintro (hNone | hSame)
    · simp [hNone] at hi
    · rw [← hSame, hi]
  cases h with
  | quiet fades roles => exact Or.inl (hFade (fades.image p))
  | handover q fresh fades => exact Or.inl (hFade (fades.image p))
  | pick q _ _ _ _ _ image => exact Or.inl (hFade (Or.inr (image p)))
  | claim q _ _ _ _ _ _ image => exact Or.inl (hFade (image p))
  | put q _ _ _ _ _ image => exact Or.inl (hFade (Or.inr (image p)))
  | look f j d _ _ _ _ _ images => exact Or.inl (hFade (Or.inr (images p)))
  | requeue np _ _ _ _ _ image => exact Or.inl (hFade (Or.inr (image p)))
  | fill np j inHand _ _ _ _ _ image =>
    by_cases hp : p = np
    · exact Or.inr (hp ▸ inHand)
    · exact Or.inl (hFade (Or.inr (image p hp)))

/-- A page in hand was in hand before, or comes from the free list. -/
theorem transit_of (h : Effect k c c' k' e) (hp : c'.transit = some p) :
    (c.transit = some p ∨ ∀ fl, k.free.IsList fl → p ∈ fl) ∧
      (k'.pages p).ref = (k.pages p).ref := by
  cases h with
  | quiet fades roles => exact ⟨Or.inl (roles.transit p hp), fades.ref p⟩
  | handover q fresh fades => simp [Place.transit] at hp
  | pick q found _ _ _ ref _ _ transit =>
    obtain rfl := Option.some.inj (transit.symm.trans hp)
    exact ⟨Or.inr found, ref q⟩
  | claim q _ _ _ _ _ _ _ transit => simp [transit] at hp
  | put q _ _ _ _ _ _ _ _ _ plain' => simp [plain'.transit] at hp
  | look f i d _ _ _ _ _ _ _ _ plain' => simp [plain'.transit] at hp
  | requeue np _ _ _ _ _ _ _ transit => simp [transit] at hp
  | fill np i _ _ _ _ _ _ _ _ plain' => simp [plain'.transit] at hp

/-- A page that `newpage` is about to return was already that, or has just got its
reference, with all images away. -/
theorem fresh_of (h : Effect k c c' k' e) (hp : c'.fresh = some p) :
    c.fresh = some p ∧ e = none ∨
    c.transit = some p ∧ e = none ∧ (k'.pages p).ref = (k.pages p).ref + 1 ∧
      (k'.pages p).image = none ∧ c'.filling = none ∧
      LockId.page p ∈ c'.holds ∧ LockId.palloc ∈ c'.holds := by
  cases h with
  | quiet fades roles => exact Or.inl ⟨roles.fresh p hp, rfl⟩
  | handover q fresh fades => simp [Place.fresh] at hp
  | pick q _ _ _ _ _ _ _ _ fresh => simp [fresh] at hp
  | claim q inHand _ _ _ refP _ _ _ fresh filling =>
    obtain ⟨rfl, hImage, hPage, hPalloc⟩ := fresh p hp
    exact Or.inr ⟨inHand, rfl, refP, hImage, filling, hPage, hPalloc⟩
  | put q _ _ _ _ _ _ _ _ _ plain' => simp [plain'.fresh] at hp
  | look f i d _ _ _ _ _ _ _ _ plain' => simp [plain'.fresh] at hp
  | requeue np _ _ _ _ _ _ _ _ fresh => simp [fresh] at hp
  | fill np i _ _ _ _ _ _ _ _ plain' => simp [plain'.fresh] at hp

/-- A page that `duppage` fills is one it has just taken from the free list, and put
back there. -/
theorem filling_of (h : Effect k c c' k' e) (hp : c'.filling = some p) :
    c.filling = some p ∨ ∀ fl, k.free.IsList fl → p ∈ fl := by
  cases h with
  | quiet fades roles => exact Or.inl (roles.filling p hp)
  | handover q fresh fades => simp [Place.filling] at hp
  | pick q _ _ _ _ _ _ _ _ _ filling => simp [filling] at hp
  | claim q _ _ _ _ _ _ _ _ _ filling => simp [filling] at hp
  | put q _ _ _ _ _ _ _ _ _ plain' => simp [plain'.filling] at hp
  | look f i d _ _ _ _ _ _ _ _ plain' => simp [plain'.filling] at hp
  | requeue np found _ _ _ _ _ _ _ _ filling =>
    obtain rfl := Option.some.inj (filling.symm.trans hp)
    exact Or.inr found
  | fill np i _ _ _ _ _ _ _ _ plain' => simp [plain'.filling] at hp

/-- What `putpage` is about to put back is a page of the pool. -/
theorem putting_of (h : Effect k c c' k' e) (hp : c'.putting = some p) :
    p < k.user ∨ c.putting = some p := by
  cases h with
  | quiet fades roles => exact roles.putting p hp
  | handover q fresh fades => simp [Place.putting] at hp
  | pick | claim | put | look | requeue | fill => simp_all

/-- A page is handed over by `newpage` at its end. -/
theorem fresh_of_handover (h : Effect k c c' k' (some (.handover p))) :
    c.fresh = some p ∧ c' = .idle := by
  cases h with
  | handover q fresh fades => exact ⟨fresh, rfl⟩

/-- A page goes back to the list under `palloc`. -/
theorem palloc_of_put (h : Effect k c c' k' (some (.put p))) : LockId.palloc ∈ c.holds := by
  cases h with
  | put q inHand palloc => exact palloc

/-- `lookpage` returns what it was asked for. -/
theorem cached_of_look {i : ImageId} {d : Word} (h : Effect k c c' k' (some (.look p i d))) :
    c = .lookPage i d p ∧ (k.pages p).image = some i ∧ (k'.pages p).image = some i ∧
      (k'.pages p).daddr = d ∧ (k'.pages p).ref = (k.pages p).ref + 1 := by
  cases h with
  | look f i d here image daddr refF ref images =>
    exact ⟨here, image, (images p).trans image, daddr, refF⟩

end Effect

end Glendum
