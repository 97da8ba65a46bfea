import Glendum.Kernel.Deadlock
import Glendum.Kernel.RaceStep

/-!
# Glendum — the race of `duppage`

`duppage` leaves the page that it fills on the free list, and gives `palloc` back
while it has no more than the page locked. Nothing comes of it: a `newpage` that
picks the page waits for its lock, and takes its image away again.

* `RaceInv` — the invariant of the locked page layer;
* `race_harmless` — what `newpage` hands over is exclusive until it is put, what
  `lookpage` returns is what was asked for, and the panics do not fire.
-/

namespace Glendum

open Machine Lists Locks

/-! ## Pages that are handed over -/

/-- `newpage` has handed `p` over, and it has not been put since. -/
def Owned (es : List Event) (p : PageId) : Prop :=
  ∃ es1 es2, es = es1 ++ .handover p :: es2 ∧ Event.put p ∉ es2

/-- A `newpage` or a `lookpage` gets the page. -/
def Event.obtains (p : PageId) : Event → Prop
  | .handover q => q = p
  | .look q _ _ => q = p
  | .put _ => False

/-- No page is obtained while it is owned. -/
def Exclusive (es : List Event) : Prop :=
  ∀ es1 e es2 p, es = es1 ++ e :: es2 → e.obtains p → ¬ Owned es1 p

/-- At the start nobody owns a page. -/
theorem not_owned_nil (p : PageId) : ¬ Owned [] p := by
  rintro ⟨es1, es2, h, -⟩
  simp at h

/-- And no page was given to two. -/
theorem exclusive_nil : Exclusive [] := by
  intro es1 e es2 p h
  simp at h

/-- A page is owned from its handover to its put. -/
theorem owned_append {es : List Event} {e : Event} {p : PageId} :
    Owned (es ++ [e]) p ↔ e = .handover p ∨ Owned es p ∧ e ≠ .put p := by
  constructor
  · rintro ⟨es1, es2, hSplit, hPut⟩
    -- the handover is the new event, or it is in the old ones
    rcases List.eq_nil_or_concat' es2 with rfl | ⟨es3, e', rfl⟩
    · obtain ⟨rfl, hLast⟩ := List.append_inj' hSplit rfl
      exact Or.inl (List.singleton_inj.mp hLast)
    · rw [← List.cons_append, ← List.append_assoc] at hSplit
      obtain ⟨rfl, hLast⟩ := List.append_inj' hSplit rfl
      obtain rfl := List.singleton_inj.mp hLast
      rw [List.mem_append, not_or, List.mem_singleton] at hPut
      exact Or.inr ⟨⟨es1, es3, rfl, hPut.1⟩, fun h => hPut.2 h.symm⟩
  · rintro (rfl | ⟨⟨es1, es2, rfl, hPut⟩, hne⟩)
    · exact ⟨es, [], rfl, by simp⟩
    · refine ⟨es1, es2 ++ [e], by simp, ?_⟩
      rw [List.mem_append, List.mem_singleton, not_or]
      exact ⟨hPut, fun h => hne h.symm⟩

/-- A page that nobody owns can be given away. -/
theorem Exclusive.append {es : List Event} {e : Event} (h : Exclusive es)
    (hFree : ∀ p, e.obtains p → ¬ Owned es p) : Exclusive (es ++ [e]) := by
  intro es1 e' es2 p hSplit hObtains
  rcases List.eq_nil_or_concat' es2 with rfl | ⟨es3, e'', rfl⟩
  · obtain ⟨rfl, hLast⟩ := List.append_inj' hSplit rfl
    obtain rfl := List.singleton_inj.mp hLast
    exact hFree p hObtains
  · rw [← List.cons_append, ← List.append_assoc] at hSplit
    obtain ⟨rfl, -⟩ := List.append_inj' hSplit rfl
    exact h es1 e' es3 p rfl hObtains

/-! ## The invariant -/

variable {T : Type*}

/-- The free list is `fl`: pages of the pool without a reference, and all of them but
those that a process keeps. -/
structure RaceFree (s : PageSys T) (fl : List PageId) : Prop where
  links   : s.shared.free.IsList fl
  count   : s.shared.freecount = fl.length
  clean   : ∀ p, p ∈ fl → p < s.shared.user ∧ (s.shared.pages p).ref = 0
  whole   : ∀ p, p < s.shared.user → (s.shared.pages p).ref = 0 →
    p ∈ fl ∨ ∃ t, (s.place t).Keeps p
  transit : ∀ t p, (s.place t).transit = some p → p ∉ fl

/-- One reference, no image, and no `duppage` on its way to give it one. -/
structure Private (s : PageSys T) (p : PageId) : Prop where
  ref    : (s.shared.pages p).ref = 1
  image  : (s.shared.pages p).image = none
  nobody : ∀ t, (s.place t).filling ≠ some p

structure RaceInv (P : Port) (es : List Event) (s : PageSys T) : Prop where
  lock      : LockInv (pageProgram P) s
  free      : ∃ fl, RaceFree s fl
  transit   : ∀ t p, (s.place t).transit = some p →
    p < s.shared.user ∧ (s.shared.pages p).ref = 0
  fresh     : ∀ t p, (s.place t).fresh = some p → Private s p ∧ ¬ Owned es p
  owned     : ∀ p, Owned es p → Private s p
  filling   : ∀ t p, (s.place t).filling = some p → p < s.shared.user
  putting   : ∀ t p, (s.place t).putting = some p → p < s.shared.user
  pool      : ∀ p i, (s.shared.pages p).image = some i → p < s.shared.user
  sane      : ∀ t, (s.place t).Sane
  exclusive : Exclusive es

variable [DecidableEq T] {P : Port} {s s' : PageSys T} {t : T} {e : Option Event}
  {es : List Event}

/-- Steps of the page layer without a `cachepage` from outside. -/
def RaceStep (P : Port) (s : PageSys T) (e : Option Event) (s' : PageSys T) : Prop :=
  ∃ t, Step (pageProgram P) Entry t s e s'

/-- A step of `t` as its effect, with the other processes where they were. -/
structure Moves (P : Port) (t : T) (s : PageSys T) (e : Option Event) (s' : PageSys T) :
    Prop where
  effect : Effect s.shared (s.place t) (s'.place t) s'.shared e
  sane   : (s'.place t).Sane
  others : ∀ u, u ≠ t → s'.place u = s.place u
  lock   : LockInv (pageProgram P) s
  lock'  : LockInv (pageProgram P) s'

/-- From the entries of the calls the locks are taken and given back as they should. -/
theorem pageProgram_sound_entry (P : Port) : (pageProgram P).Sound Entry where
  rest := rfl
  entry s c h := (pageProgram_sound P).entry s c (.of h)
  take := (pageProgram_sound P).take
  fail := (pageProgram_sound P).fail
  release := (pageProgram_sound P).release

/-- A call begins with nothing in hand. -/
theorem Entry.plain {k : Palloc} {c : Place} (h : Entry k c) :
    c.Plain ∧ c.Sane ∧ ∀ p, c.putting = some p → p < k.user := by
  cases h with
  | putpage p pool => exact ⟨⟨rfl, rfl, rfl⟩, trivial, fun q hq => Option.some.inj hq ▸ pool⟩
  | _ => exact ⟨⟨rfl, rfl, rfl⟩, trivial, by simp [Place.putting]⟩

/-- A step is one of the moves. -/
theorem RaceInv.moves (h : RaceInv P es s) (hStep : Step (pageProgram P) Entry t s e s') :
    Moves P t s e s' := by
  suffices hEffect : Effect s.shared (s.place t) (s'.place t) s'.shared e ∧ (s'.place t).Sane from
    ⟨hEffect.1, hEffect.2, fun u hu => hStep.place_of_ne hu, h.lock,
      h.lock.step (pageProgram_sound_entry P) hStep⟩
  have hAdvance : (s.place t).act ≠ .none → Steps s.shared (s.place t)
      ((s.shared.advance P (s.place t)).1, (s.shared.advance P (s.place t)).2.1)
      (s.shared.advance P (s.place t)).2.2 :=
    fun hAct => advance_effect (h.sane t) hAct fun p hp => (h.transit t p hp).2
  -- only where the process acts does it run on to its next place
  cases hStep with
  | @begin c atRest allowed =>
    obtain ⟨hPlain, hSane, hPut⟩ := allowed.plain
    have hRest : s.place t = .idle := atRest
    have hSelf : (s.goto t c).place t = c := Function.update_self ..
    rw [hSelf, hRest]
    exact Steps.plain Fades.refl (by simp [Place.Keeps, Place.transit]) hPlain
      (fun p hp => Or.inl (hPut p hp)) hSane
  | @take l act free =>
    have hSelf : (s.run (pageProgram P) t (Function.update s.owner l (some t))).place t =
        (s.shared.advance P (s.place t)).1 := Function.update_self ..
    rw [hSelf]
    refine hAdvance fun hNone => ?_
    rcases act with hAct | hAct <;> exact absurd (hAct.symm.trans hNone) (by simp)
  | @busy l act held =>
    have hSelf : (s.goto t ((pageProgram P).fail (s.place t))).place t = (s.place t).fail :=
      Function.update_self ..
    rw [hSelf]
    -- `duppage` is the only caller of `canlock`
    cases hPlace : s.place t with
    | dupTry p retries =>
      exact Steps.plain Fades.refl (by simp [Place.Keeps, Place.transit]) ⟨rfl, rfl, rfl⟩
        (by simp [Place.putting]) trivial
    | _ => simp [hPlace, pageProgram, Place.act] at act
  | @drop l act owned =>
    have hSelf : (s.run (pageProgram P) t (Function.update s.owner l none)).place t =
        (s.shared.advance P (s.place t)).1 := Function.update_self ..
    rw [hSelf]
    exact hAdvance fun hNone => absurd (act.symm.trans hNone) (by simp)

/-! ## The free list after a step -/

section

variable {fl : List PageId}

omit [DecidableEq T] in
/-- Only the process of the step can stop keeping a page. -/
theorem Moves.keeps_of_ne (hMove : Moves P t s e s') {p : PageId} (hNot : ¬ (s.place t).Keeps p)
    (hKeeps : ∃ u, (s.place u).Keeps p) : ∃ u, (s'.place u).Keeps p := by
  obtain ⟨u, hu⟩ := hKeeps
  have hne : u ≠ t := by
    rintro rfl
    exact hNot hu
  exact ⟨u, by rwa [hMove.others u hne]⟩

/-- A step that leaves the list alone. -/
theorem RaceFree.same (h : RaceFree s fl) (hMove : Moves P t s e s')
    (hFree : s'.shared.free = s.shared.free) (hCount : s'.shared.freecount = s.shared.freecount)
    (hRef : ∀ p, p ∈ fl → (s'.shared.pages p).ref = (s.shared.pages p).ref)
    (hRef' : ∀ p, (s'.shared.pages p).ref = 0 → (s.shared.pages p).ref = 0)
    (hKeeps : ∀ p, (s'.shared.pages p).ref = 0 → (s.place t).Keeps p → (s'.place t).Keeps p)
    (hTransit : ∀ p, (s'.place t).transit = some p → (s.place t).transit = some p) :
    RaceFree s' fl := by
  refine ⟨hFree ▸ h.links, hCount.trans h.count, ?_, ?_, ?_⟩
  · intro p hp
    rw [hMove.effect.user, hRef p hp]
    exact h.clean p hp
  · -- a page off the list that a process keeps is kept by the same process
    intro p hUser hZero
    rw [hMove.effect.user] at hUser
    rcases h.whole p hUser (hRef' p hZero) with hp | ⟨u, hu⟩
    · exact Or.inl hp
    · refine Or.inr ⟨u, ?_⟩
      by_cases hut : u = t
      · rw [hut] at hu ⊢
        exact hKeeps p hZero hu
      · rwa [hMove.others u hut]
  · intro u p hu
    by_cases hut : u = t
    · rw [hut] at hu
      exact h.transit t p (hTransit p hu)
    · rw [hMove.others u hut] at hu
      exact h.transit u p hu

/-- A step that leaves the list alone, and gives a page off the list another positive
reference count. -/
theorem RaceFree.counted (h : RaceFree s fl) (hMove : Moves P t s e s') {p : PageId}
    (hFree : s'.shared.free = s.shared.free) (hCount : s'.shared.freecount = s.shared.freecount)
    (hp : p ∉ fl) (hPos : 0 < (s'.shared.pages p).ref)
    (hRef : ∀ q, q ≠ p → (s'.shared.pages q).ref = (s.shared.pages q).ref)
    (hKeeps : ∀ q, q ≠ p → ¬ (s.place t).Keeps q)
    (hTransit : ∀ q, (s'.place t).transit = some q → (s.place t).transit = some q) :
    RaceFree s' fl := by
  have hOther : ∀ q, (s'.shared.pages q).ref = 0 → q ≠ p := by
    rintro q hq rfl
    omega
  refine h.same hMove hFree hCount (fun q hq => hRef q ?_)
    (fun q hq => (hRef q (hOther q hq)).symm.trans hq)
    (fun q hq hKeep => absurd hKeep (hKeeps q (hOther q hq))) hTransit
  rintro rfl
  exact hp hq

/-- A step that takes a page off the list. -/
theorem RaceFree.taken (h : RaceFree s fl) (hMove : Moves P t s e s') {p : PageId} (hp : p ∈ fl)
    (hFree : s'.shared.free = s.shared.free.unlink p)
    (hCount : s'.shared.freecount = s.shared.freecount - 1)
    (hRef : ∀ q, q ≠ p → (s'.shared.pages q).ref = (s.shared.pages q).ref)
    (hKept : (s'.shared.pages p).ref = 0 → (s'.place t).Keeps p)
    (hPlain : ∀ q, ¬ (s.place t).Keeps q)
    (hTransit : ∀ q, (s'.place t).transit = some q → q = p) : RaceFree s' (fl.erase p) := by
  have hMem : ∀ q, q ∈ fl.erase p ↔ q ≠ p ∧ q ∈ fl := fun q => h.links.nodup.mem_erase_iff
  refine ⟨hFree ▸ h.links.unlink_erase hp, ?_, ?_, ?_, ?_⟩
  · rw [hCount, h.count, List.length_erase_of_mem hp]
  · intro q hq
    rw [hMem] at hq
    rw [hMove.effect.user, hRef q hq.1]
    exact h.clean q hq.2
  · intro q hUser hZero
    rw [hMove.effect.user] at hUser
    by_cases hqp : q = p
    · -- the page that was taken is off the list, and without a reference it is kept
      subst hqp
      exact Or.inr ⟨t, hKept hZero⟩
    · rw [hRef q hqp] at hZero
      rcases h.whole q hUser hZero with hq | hKeeps
      · exact Or.inl ((hMem q).mpr ⟨hqp, hq⟩)
      · exact Or.inr (hMove.keeps_of_ne (hPlain q) hKeeps)
  · intro u q hu
    rw [hMem]
    by_cases hut : u = t
    · rw [hut] at hu
      exact fun hq => hq.1 (hTransit q hu)
    · rw [hMove.others u hut] at hu
      exact fun hq => h.transit u q hu hq.2

/-- A step that puts a page on the list, at one of its ends, with `palloc` locked. -/
theorem RaceFree.given (h : RaceFree s fl) (hMove : Moves P t s e s') {p : PageId}
    (hUser : p < s.shared.user) (hOld : (s.shared.pages p).ref ≠ 0)
    (hNew : (s'.shared.pages p).ref = 0)
    (hFree : s'.shared.free = s.shared.free.pushBack p ∨
      s'.shared.free = s.shared.free.pushFront p)
    (hCount : s'.shared.freecount = s.shared.freecount + 1)
    (hRef : ∀ q, q ≠ p → (s'.shared.pages q).ref = (s.shared.pages q).ref)
    (hPalloc : LockId.palloc ∈ (s.place t).holds) (hPlain : ∀ q, ¬ (s.place t).Keeps q)
    (hTransit : (s'.place t).transit = none) : ∃ fl', RaceFree s' fl' := by
  -- a page with a reference is not on the list, so it can be put there
  have hNotIn : p ∉ fl := fun hp => hOld (h.clean p hp).2
  obtain ⟨fl', hLinks, hLength, hMem⟩ : ∃ fl', s'.shared.free.IsList fl' ∧
      fl'.length = fl.length + 1 ∧ ∀ q, q ∈ fl' ↔ q = p ∨ q ∈ fl := by
    rcases hFree with hBack | hFront
    · refine ⟨fl ++ [p], hBack ▸ h.links.pushBack hNotIn, by simp, fun q => ?_⟩
      rw [List.mem_append, List.mem_singleton, or_comm]
    · exact ⟨p :: fl, hFront ▸ h.links.pushFront hNotIn, by simp, fun q => List.mem_cons⟩
  refine ⟨fl', hLinks, ?_, ?_, ?_, ?_⟩
  · rw [hCount, h.count, hLength]
  · intro q hq
    rw [hMove.effect.user]
    rcases (hMem q).mp hq with rfl | hOldMem
    · exact ⟨hUser, hNew⟩
    · have hqp : q ≠ p := by
        rintro rfl
        exact hNotIn hOldMem
      rw [hRef q hqp]
      exact h.clean q hOldMem
  · intro q hqUser hZero
    rw [hMove.effect.user] at hqUser
    by_cases hqp : q = p
    · exact Or.inl ((hMem q).mpr (Or.inl hqp))
    · rw [hRef q hqp] at hZero
      rcases h.whole q hqUser hZero with hq | hKeeps
      · exact Or.inl ((hMem q).mpr (Or.inr hq))
      · exact Or.inr (hMove.keeps_of_ne (hPlain q) hKeeps)
  · intro u q hu
    by_cases hut : u = t
    · rw [hut, hTransit] at hu
      cases hu
    · -- nobody else has a page in hand while this process has `palloc`
      rw [hMove.others u hut] at hu
      exact absurd (hMove.lock.unique (Place.palloc_of_transit hu) hPalloc) hut

/-- `duppage` moves its copy to the end of the list. -/
theorem RaceFree.moved (h : RaceFree s fl) (hMove : Moves P t s e s') {p : PageId} (hp : p ∈ fl)
    (hFree : s'.shared.free = (s.shared.free.unlink p).pushBack p)
    (hCount : s'.shared.freecount = s.shared.freecount - 1 + 1)
    (hRef : ∀ q, (s'.shared.pages q).ref = (s.shared.pages q).ref)
    (hPlain : ∀ q, ¬ (s.place t).Keeps q) (hTransit : (s'.place t).transit = none) :
    RaceFree s' (fl.erase p ++ [p]) := by
  -- the same pages are free as before, in another order
  have hMem : ∀ q, q ∈ fl.erase p ++ [p] ↔ q ∈ fl := by
    intro q
    rw [List.mem_append, h.links.nodup.mem_erase_iff, List.mem_singleton]
    by_cases hqp : q = p
    · simp [hqp, hp]
    · simp [hqp]
  have hNotIn : p ∉ fl.erase p := fun hIn => ((h.links.nodup.mem_erase_iff).mp hIn).1 rfl
  refine ⟨hFree ▸ (h.links.unlink_erase hp).pushBack hNotIn, ?_, ?_, ?_, ?_⟩
  · rw [hCount, h.count, List.length_append, List.length_erase_of_mem hp, List.length_singleton]
  · intro q hq
    rw [hMove.effect.user, hRef q]
    exact h.clean q ((hMem q).mp hq)
  · intro q hUser hZero
    rw [hMove.effect.user] at hUser
    rw [hRef q] at hZero
    rcases h.whole q hUser hZero with hq | hKeeps
    · exact Or.inl ((hMem q).mpr hq)
    · exact Or.inr (hMove.keeps_of_ne (hPlain q) hKeeps)
  · intro u q hu
    rw [hMem]
    by_cases hut : u = t
    · rw [hut, hTransit] at hu
      cases hu
    · rw [hMove.others u hut] at hu
      exact h.transit u q hu

/-- The free list survives every step. -/
theorem RaceInv.free_moves (h : RaceInv P es s) (hMove : Moves P t s e s') :
    ∃ fl', RaceFree s' fl' := by
  obtain ⟨fl, hFl⟩ := h.free
  have hPut := h.putting t
  have hEffect := hMove.effect
  generalize hk : s'.shared = k', hc : s'.place t = c' at hEffect
  -- the list changes where a page is picked, put, found in the cache, or requeued
  cases hEffect with
  | quiet fades roles =>
    subst hk hc
    exact ⟨fl, hFl.same hMove fades.free fades.freecount (fun p _ => fades.ref p)
      (fun p hp => (fades.ref p).symm.trans hp) (fun p _ => roles.keeps p) roles.transit⟩
  | handover p fresh fades =>
    have hNot : ∀ q, ¬ (s.place t).Keeps q := Place.not_keeps_of_fresh fresh
    subst hk
    exact ⟨fl, hFl.same hMove fades.free fades.freecount (fun p _ => fades.ref p)
      (fun p hp => (fades.ref p).symm.trans hp) (fun p _ hKeeps => absurd hKeeps (hNot p))
      (by simp [hc, Place.transit])⟩
  | pick p found links count user ref image plain transit =>
    subst hk hc
    refine ⟨_, hFl.taken hMove (found fl hFl.links) links count (fun q _ => ref q)
      (fun _ => Or.inl transit) plain ?_⟩
    intro q hq
    exact Option.some.inj (hq.symm.trans transit)
  | claim p inHand free count user refP ref image transit =>
    subst hk hc
    -- the page in hand is off the list, so its first reference takes nothing from it
    refine ⟨fl, hFl.counted hMove free count (hFl.transit t p inHand) (by omega) ref ?_
      (by simp [transit])⟩
    intro q hqp hKeeps
    rw [Place.keeps_of_live (Place.live_of_transit inHand), inHand] at hKeeps
    exact hqp (Option.some.inj hKeeps).symm
  | put p inHand palloc refOld refP ref image user lists plain plain' =>
    subst hk hc
    -- the last reference puts the page on the list
    by_cases hLast : (s.shared.pages p).ref = 1
    · rw [if_pos hLast] at lists
      exact hFl.given hMove (hPut p inHand) refOld (by omega) lists.1 lists.2 ref palloc plain
        plain'.transit
    · rw [if_neg hLast] at lists
      exact ⟨fl, hFl.counted hMove lists.1 lists.2 (fun hp => refOld (hFl.clean p hp).2)
        (by omega) ref (fun q _ => plain q) (by simp [plain'.transit])⟩
  | look f i d here image daddr refF ref images user lists plain' =>
    subst hk hc
    have hPalloc : LockId.palloc ∈ (s.place t).holds := by simp [here, Place.holds]
    have hPlain : ∀ q, ¬ (s.place t).Keeps q := by simp [here, Place.Keeps, Place.transit]
    by_cases hZero : (s.shared.pages f).ref = 0
    · rw [if_pos hZero] at lists
      -- a free page that nobody keeps is on the list
      have hf : f ∈ fl := by
        rcases hFl.whole f (h.pool f i image) hZero with hf | ⟨u, hu⟩
        · exact hf
        · rw [hMove.lock.unique (Place.palloc_of_keeps hu) hPalloc] at hu
          exact absurd hu (hPlain f)
      exact ⟨_, hFl.taken hMove hf lists.1 lists.2 ref (fun hf => by omega) hPlain
        (by simp [plain'.transit])⟩
    · rw [if_neg hZero] at lists
      exact ⟨fl, hFl.counted hMove lists.1 lists.2 (fun hf => hZero (hFl.clean f hf).2)
        (by omega) ref (fun q _ => hPlain q) (by simp [plain'.transit])⟩
  | requeue np found links count user ref image plain transit =>
    subst hk hc
    exact ⟨_, hFl.moved hMove (found fl hFl.links) links count ref plain transit⟩
  | fill np i inHand free count user ref imageNp image plain plain' =>
    subst hk hc
    exact ⟨fl, hFl.same hMove free count (fun p _ => ref p)
      (fun p hp => (ref p).symm.trans hp) (fun p _ hKeeps => absurd hKeeps (plain p))
      (by simp [plain'.transit])⟩

end

/-! ## The invariant after a step -/

/-- A page with one reference and no image stays so until it is put: `newpage` picks
free pages, `lookpage` pages with an image, and `duppage` fills free pages. -/
theorem RaceInv.private_moves (h : RaceInv P es s) (hMove : Moves P t s e s') {p : PageId}
    (hPrivate : Private s p) (hPut : e ≠ some (.put p)) : Private s' p := by
  obtain ⟨fl, hFl⟩ := h.free
  have hNotFree : ¬ ∀ fl, s.shared.free.IsList fl → p ∈ fl := by
    intro hFound
    have hClean := (hFl.clean p (hFound fl hFl.links)).2
    rw [hPrivate.ref] at hClean
    cases hClean
  refine ⟨?_, ?_, ?_⟩
  · -- the reference changes by `newpage`, by a put, or by `lookpage`
    rw [← hPrivate.ref]
    rcases hMove.effect.ref_of p with hSame | hInHand | hDropped | ⟨i, hi⟩
    · exact hSame
    · have hZero := (h.transit t p hInHand).2
      rw [hPrivate.ref] at hZero
      cases hZero
    · exact absurd hDropped hPut
    · simp [hPrivate.image] at hi
  · -- an image comes from a `duppage` that fills the page
    cases hImage : (s'.shared.pages p).image with
    | none => rfl
    | some i =>
      rcases hMove.effect.image_of hImage with hOld | hFilling
      · simp [hPrivate.image] at hOld
      · exact absurd hFilling (hPrivate.nobody t)
  · intro u hu
    by_cases hut : u = t
    · rw [hut] at hu
      rcases hMove.effect.filling_of hu with hOld | hFound
      · exact hPrivate.nobody t hOld
      · exact hNotFree hFound
    · rw [hMove.others u hut] at hu
      exact hPrivate.nobody u hu

/-- The page in hand keeps its promise: only its own process touches references. -/
theorem RaceInv.transit_moves (h : RaceInv P es s) (hMove : Moves P t s e s') (u : T) (p : PageId)
    (hu : (s'.place u).transit = some p) :
    p < s'.shared.user ∧ (s'.shared.pages p).ref = 0 := by
  rw [hMove.effect.user]
  by_cases hut : u = t
  · rw [hut] at hu
    obtain ⟨hOrigin, hRef⟩ := hMove.effect.transit_of hu
    rw [hRef]
    rcases hOrigin with hInHand | hFound
    · exact h.transit t p hInHand
    · obtain ⟨fl, hFl⟩ := h.free
      exact hFl.clean p (hFound fl hFl.links)
  · rw [hMove.others u hut] at hu
    have hPalloc : LockId.palloc ∉ (s.place t).holds := fun hHeld =>
      hut (hMove.lock.unique (Place.palloc_of_transit hu) hHeld)
    rw [hMove.effect.ref_of_unlocked hPalloc p]
    exact h.transit u p hu

/-- What `newpage` is about to return has one reference and no image. When the page
got its reference it was locked, so no `duppage` was filling it. -/
theorem RaceInv.fresh_moves (h : RaceInv P es s) (hMove : Moves P t s e s') (u : T) (p : PageId)
    (hu : (s'.place u).fresh = some p) : Private s' p ∧ ¬ Owned (es ++ e.toList) p := by
  by_cases hut : u = t
  · rw [hut] at hu
    rcases hMove.effect.fresh_of hu with ⟨hFresh, rfl⟩ |
      ⟨hInHand, rfl, hRef, hImage, hFilling, hPage, hPalloc⟩
    · obtain ⟨hPrivate, hOwned⟩ := h.fresh t p hFresh
      exact ⟨h.private_moves hMove hPrivate (by simp), by simpa using hOwned⟩
    · have hZero := (h.transit t p hInHand).2
      refine ⟨⟨by rw [hRef, hZero], hImage, ?_⟩, ?_⟩
      · -- who fills the page has it locked, or `palloc`; this process has both
        intro v hv
        by_cases hvt : v = t
        · rw [hvt, hFilling] at hv
          cases hv
        · rcases Place.locked_of_filling hv with hHeld | hHeld
          · exact hvt (hMove.lock'.unique hHeld hPalloc)
          · exact hvt (hMove.lock'.unique hHeld hPage)
      · -- an owned page has a reference, and this one had none
        intro hOwned
        rw [Option.toList_none, List.append_nil] at hOwned
        have hOne := (h.owned p hOwned).ref
        omega
  · rw [hMove.others u hut] at hu
    obtain ⟨hPrivate, hOwned⟩ := h.fresh u p hu
    have hPalloc : LockId.palloc ∉ (s.place t).holds := fun hHeld =>
      hut (hMove.lock.unique (Place.palloc_of_fresh hu) hHeld)
    -- `u` has `palloc`, so the step is no put and no handover
    have hPut : e ≠ some (.put p) := by
      rintro rfl
      exact hPalloc (hMove.effect.palloc_of_put)
    refine ⟨h.private_moves hMove hPrivate hPut, ?_⟩
    cases e with
    | none => simpa using hOwned
    | some e =>
      rw [Option.toList_some, owned_append]
      rintro (rfl | ⟨hOld, -⟩)
      · exact hPalloc (Place.palloc_of_fresh (hMove.effect.fresh_of_handover).1)
      · exact hOwned hOld

/-- A page that somebody owns is on no list. -/
theorem RaceInv.owned_moves (h : RaceInv P es s) (hMove : Moves P t s e s') (p : PageId)
    (hp : Owned (es ++ e.toList) p) : Private s' p := by
  cases e with
  | none =>
    rw [Option.toList_none, List.append_nil] at hp
    exact h.private_moves hMove (h.owned p hp) (by simp)
  | some e =>
    rw [Option.toList_some, owned_append] at hp
    rcases hp with rfl | ⟨hOld, hPut⟩
    · have hFresh := (hMove.effect.fresh_of_handover).1
      exact h.private_moves hMove (h.fresh t p hFresh).1 (by simp)
    · exact h.private_moves hMove (h.owned p hOld) (by simpa using hPut)

omit [DecidableEq T] in
/-- A page that is obtained was not owned: `newpage` returns pages that had no
reference, and `lookpage` pages with an image. -/
theorem RaceInv.exclusive_moves (h : RaceInv P es s) (hMove : Moves P t s e s') :
    Exclusive (es ++ e.toList) := by
  cases e with
  | none =>
    rw [Option.toList_none, List.append_nil]
    exact h.exclusive
  | some e =>
    refine h.exclusive.append fun p hObtains => ?_
    cases e with
    | handover q =>
      obtain rfl : q = p := hObtains
      exact (h.fresh t q (hMove.effect.fresh_of_handover).1).2
    | look q i d =>
      -- an owned page has no image
      obtain rfl : q = p := hObtains
      intro hOwned
      obtain ⟨-, hImage, -⟩ := hMove.effect.cached_of_look
      simp [(h.owned q hOwned).image] at hImage
    | put q => exact hObtains.elim

/-- A step keeps the invariant, whoever takes it. -/
theorem RaceInv.step (h : RaceInv P es s) (hStep : Step (pageProgram P) Entry t s e s') :
    RaceInv P (es ++ e.toList) s' := by
  have hMove := h.moves hStep
  have hUser := hMove.effect.user
  refine ⟨hMove.lock', h.free_moves hMove, h.transit_moves hMove, h.fresh_moves hMove,
    h.owned_moves hMove, ?_, ?_, ?_, ?_, h.exclusive_moves hMove⟩
  · intro u p hu
    rw [hUser]
    -- the other processes are where they were
    by_cases hut : u = t
    · rw [hut] at hu
      rcases hMove.effect.filling_of hu with hOld | hFound
      · exact h.filling t p hOld
      · obtain ⟨fl, hFl⟩ := h.free
        exact (hFl.clean p (hFound fl hFl.links)).1
    · rw [hMove.others u hut] at hu
      exact h.filling u p hu
  · intro u p hu
    rw [hUser]
    by_cases hut : u = t
    · rw [hut] at hu
      exact (hMove.effect.putting_of hu).elim id (h.putting t p)
    · rw [hMove.others u hut] at hu
      exact h.putting u p hu
  · intro p i hi
    rw [hUser]
    exact (hMove.effect.image_of hi).elim (h.pool p i) (h.filling t p)
  · intro u
    by_cases hut : u = t
    · rw [hut]
      exact hMove.sane
    · rw [hMove.others u hut]
      exact h.sane u

omit [DecidableEq T] in

/-- It holds where nothing has begun. -/
theorem Quiet.raceInv {fl : List PageId} (hQuiet : Quiet s) (hFree : FreeList s.shared fl)
    (hPool : ∀ p i, (s.shared.pages p).image = some i → p < s.shared.user) :
    RaceInv P [] s where
  lock := hQuiet.lockInv
  free := by
    refine ⟨fl, hFree.links, hFree.count, fun p => (hFree.mem p).mp, ?_, ?_⟩
    · exact fun p hUser hZero => Or.inl ((hFree.mem p).mpr ⟨hUser, hZero⟩)
    · simp [hQuiet.place, Place.transit]
  transit := by simp [hQuiet.place, Place.transit]
  fresh := by simp [hQuiet.place, Place.fresh]
  owned p h := absurd h (not_owned_nil p)
  filling := by simp [hQuiet.place, Place.filling]
  putting := by simp [hQuiet.place, Place.putting]
  pool := hPool
  sane t := by simp [hQuiet.place, Place.Sane]
  exclusive := exclusive_nil

/-! ## The race -/

/-- **The race of `duppage` is harmless.** From a state in which nothing is running,
any number of processes run the calls of the page layer but `cachepage`, in any order
at their lock operations. A page is obtained by `newpage` or `lookpage` only while no
one owns it. No panic of `newpage`, `auxpage` or `cachepage` fires. What a step hands
over has one reference and no image, and is off the free list; the reference that
`lookpage` takes is to a page that has what it was asked for. -/
theorem race_harmless {s0 : PageSys T} (hQuiet : Quiet s0)
    (hFree : ∃ fl, FreeList s0.shared fl)
    (hPool : ∀ p i, (s0.shared.pages p).image = some i → p < s0.shared.user)
    (hRun : Run (RaceStep P) s0 es s) :
    Exclusive es ∧
    (∀ t msg held, s.place t = .halt (.panic msg) held →
      msg ≠ "newpage" ∧ msg ≠ "auxpage" ∧ msg ≠ "cachepage") ∧
    (∀ p s', RaceStep P s (some (.handover p)) s' →
      (s'.shared.pages p).ref = 1 ∧ (s'.shared.pages p).image = none ∧
      ∃ fl, s'.shared.free.IsList fl ∧ p ∉ fl) ∧
    ∀ p i d s', RaceStep P s (some (.look p i d)) s' →
      (s'.shared.pages p).image = some i ∧ (s'.shared.pages p).daddr = d ∧
      (s'.shared.pages p).ref = (s.shared.pages p).ref + 1 := by
  obtain ⟨fl0, hFl0⟩ := hFree
  have hInv : RaceInv P es s := by
    refine hRun.invariant (I := RaceInv P) (hQuiet.raceInv hFl0 hPool) ?_
    rintro es s e s' hInv ⟨t, hStep⟩
    exact hInv.step hStep
  refine ⟨hInv.exclusive, ?_, ?_, ?_⟩
  · intro t msg held hHalt
    have hSane := hInv.sane t
    rwa [hHalt] at hSane
  · rintro p s' ⟨t, hStep⟩
    have hMove := hInv.moves hStep
    have hPrivate := hInv.owned_moves hMove p (owned_append.mpr (Or.inl rfl))
    obtain ⟨fl, hFl⟩ := hInv.free_moves hMove
    -- the pages of the list have no reference
    refine ⟨hPrivate.ref, hPrivate.image, fl, hFl.links, fun hp => ?_⟩
    have hZero := (hFl.clean p hp).2
    rw [hPrivate.ref] at hZero
    cases hZero
  · rintro p i d s' ⟨t, hStep⟩
    obtain ⟨-, -, hImage, hDaddr, hRef⟩ := (hInv.moves hStep).effect.cached_of_look
    exact ⟨hImage, hDaddr, hRef⟩

/-- A pool of two pages: page 0 is taken and cached, page 1 is free. -/
def oneCached : Palloc :=
  ((smallPool 2).stepTo takePage).stepTo (.cachepage 0 0 0x1000)

/-- One page, cached and free. -/
theorem oneCached_run : ∃ es held, PageRun smallPort (smallPool 2) es oneCached held := by
  have hRun1 := PageRun.start.next (n := 2) takePage (.page 0) trivial (by decide +kernel)
  have hRun2 := hRun1.next (.cachepage 0 0 0x1000) .done
    ⟨by decide +kernel, by decide +kernel, by decide +kernel⟩ (by decide +kernel)
  exact ⟨_, _, hRun2⟩

/-- Process 0 calls `duppage` for page 0, and process 1 calls `newpage`. -/
def bothCalled : PageSys Nat :=
  ((restSys oneCached).goto 0 (.dupLock 0 0)).goto 1 (.newLock plainArgs)

/-- Process 0 is left while it fills page 1; process 1 picks page 1 and waits for its
lock; process 0 runs on until it has given page 1 back. -/
def raceSchedule : List Nat :=
  [0, 0, 0, 0, 1, 1, 0, 0, 0, 1, 1, 1, 1, 1]

/-- The first of the two gets the page. -/
theorem race_run : ∃ s, Run (RaceStep smallPort) (restSys oneCached) [.handover 1] s := by
  have hRun0 : Run (RaceStep smallPort) (restSys oneCached) [] (restSys oneCached) := .start
  have hRun1 := hRun0.step
    ⟨0, .begin (c := .dupLock 0 0) rfl (.duppage 0)⟩
  have hRun2 : Run (RaceStep smallPort) (restSys oneCached) [] bothCalled := hRun1.step (e := none)
    ⟨1, .begin (c := Place.newLock plainArgs) rfl (Entry.newpage plainArgs)⟩
  have hRun3 := Run.play (fun _ t _ _ hStep => ⟨t, hStep⟩) raceSchedule hRun2
  have hEvents : (bothCalled.play (pageProgram smallPort) raceSchedule).1 = [.handover 1] := by
    decide +kernel
  rw [hEvents] at hRun3
  exact ⟨_, hRun3⟩

/-- The key is the one of a page of the pool. -/
theorem oneCached_pool : ∀ p i, (oneCached.pages p).image = some i → p < oneCached.user := by
  intro p i hi
  match p with
  | 0 | 1 => decide +kernel
  | n + 2 =>
    have hNone : (oneCached.pages (n + 2)).image = none := rfl
    simp [hNone] at hi

/-- A `newpage` that picks the copy of a `duppage` hands it over clean. -/
theorem race_harmless_copy : ∃ s, Run (RaceStep smallPort) (restSys oneCached) [.handover 1] s ∧
    Exclusive [.handover 1] := by
  obtain ⟨s, hRun⟩ := race_run
  obtain ⟨es, held, hCalls⟩ := oneCached_run
  have hInit : pageinit [{ base := 0x100000, npage := 2 }] (fun _ => 0) = .ok (smallPool 2) := rfl
  obtain ⟨m, -, hInv, -⟩ := hCalls.inv hInit
  exact ⟨s, hRun, (race_harmless (restSys_quiet _) hInv.free.free oneCached_pool hRun).1⟩

end Glendum
