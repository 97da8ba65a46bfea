import Glendum.Kernel.PageRun
import Mathlib.Data.List.Dedup

/-!
# Glendum — the check of the reference counts

`checkpagerefs` compares the counter of every page with the slots in which the page stands.
It walks the segments of all processes twice: the first time it counts, with a mark in each
segment that many processes share, and the second time it prints where the wrong pages are.

* `checkpagerefs_exact` — once `malloc` has the memory, the check finishes exactly when
  every entry is a page of the pool, and then it prints what the tables and the counters
  say, shared segments once;
* `report_print` — almost all of it goes through `iprint`, which shows nothing here;
* `checkpagerefs_run` — after any run of the page layer the pages that it finds wrong are
  those of which references are held elsewhere than in the segments.

The lock is left out. `mark` counts up from 0 in the first walk of each call.
-/

namespace Glendum

open Machine Lists

/-! ## Processes and their segments -/

abbrev SegId := Nat

/-- A segment with the fields that the check reads; many processes can have it. -/
structure Seg where
  ref : Nat
  map : List (Option Pte)

/-- For each process its pid and the array `seg`. -/
structure Proctab where
  procs : List (Nat × List (Option SegId))
  segs  : SegId → Seg

/-- The segments in the order in which the loops come to them. -/
def Proctab.uses (T : Proctab) : List SegId := T.procs.flatMap fun p => p.2.filterMap id

/-- A line that is formatted, with its values. -/
inductive Report
  /-- `"checkpagerefs: out of memory\n"` -/
  | outOfMemory
  /-- `"countpagerefs: ref:%08p, print:%d\n"` -/
  | countpagerefs (ref : Word) (prt : Bool)
  /-- `"%lud pages in %lud segments\n"` -/
  | counted (n ns : Nat)
  /-- `"segment %#p (used by proc %lud pid %lud) has bad ref count %lud actual %lud\n"` -/
  | badSegment (s : SegId) (i pid ref mark : Nat)
  /-- `"page %#.8lux ref %d actual %lud\n"` -/
  | badPage (pa : Word) (ref actual : Nat)
  /-- `"page %#.8lux in segment %#p\n"` -/
  | inSegment (pa : Word) (s : SegId)
  /-- `"%lud mistakes found\n"` -/
  | mistakes (nwrong : Nat)
deriving DecidableEq

/-- The function that is called for a line. -/
inductive Printer
  | print
  | iprint
deriving DecidableEq

def Report.printer : Report → Printer
  | .outOfMemory | .countpagerefs .. => .print
  | .counted .. | .badSegment .. | .badPage .. | .inSegment .. | .mistakes _ => .iprint

/-- The lines that come out. `iprint` only calls `screenputs`, when there is one; nothing
that is linked into this kernel sets it. -/
def shown (screenputs : Bool) (out : List Report) : List Report :=
  out.filter fun r => r.printer = .print || screenputs

/-- An access outside of `pte->pages` or outside of `ref`. -/
inductive Stray
  | slot
  | page
deriving DecidableEq

/-! ## portcountpagerefs -/

structure Counts where
  mark : SegId → Nat
  ref  : PageId → Nat
  n    : Nat
  ns   : Nat
  out  : List Report

/-- A page in a slot. -/
def tallyPage (k : Palloc) (print : Bool) (s : SegId) (c : Counts) (p : PageId) : Counts :=
  if print = true then
    if c.ref p ≠ 0 then { c with out := c.out ++ [.inSegment (k.pages p).pa s] } else c
  else
    { c with ref := Function.update c.ref p (c.ref p + 1), n := if c.ref p = 0 then c.n + 1 else c.n }

def countEntry (k : Palloc) (print : Bool) (s : SegId) (c : Counts) :
    Option (Option PageEntry) → Except Stray Counts
  | none => .error .slot
  -- `pagedout(entry)`
  | some none | some (some (.swap _)) => .ok c
  | some (some (.page p)) => if k.user ≤ p then .error .page else .ok (tallyPage k print s c p)

def countPte (k : Palloc) (print : Bool) (s : SegId) (c : Counts) :
    Option Pte → Except Stray Counts
  | none => .ok c
  | some t => t.slots.foldlM (fun c j => countEntry k print s c t.pages[j]?) c

def countSegment (T : Proctab) (k : Palloc) (print : Bool) (c : Counts) (s : SegId) :
    Except Stray Counts :=
  let marked := c.mark s
  let c := { c with mark := Function.update c.mark s (marked + 1) }
  if marked ≠ 0 then .ok c
  else (T.segs s).map.foldlM (countPte k print s) { c with ns := c.ns + 1 }

def badSegments (T : Proctab) (mark : SegId → Nat) : List Report :=
  T.procs.zipIdx.flatMap fun (p, i) => (p.2.filterMap id).filterMap fun s =>
    if (T.segs s).ref ≠ mark s then some (.badSegment s i p.1 (T.segs s).ref (mark s)) else none

def portcountpagerefs (T : Proctab) (k : Palloc) (ref : PageId → Nat) (print : Bool)
    (out : List Report) : Except Stray ((PageId → Nat) × List Report) :=
  (T.uses.foldlM (countSegment T k print) { mark := fun _ => 0, ref, n := 0, ns := 0, out }).map
    fun c => (c.ref, if print = true then c.out
      else c.out ++ [.counted c.n c.ns] ++ badSegments T c.mark)

/-! ## checkpagerefs -/

/-- The loop over the pages; `ref` becomes a flag. -/
def comparePage (k : Palloc) (c : (PageId → Nat) × List Report × Nat) (i : PageId) :
    (PageId → Nat) × List Report × Nat :=
  if (k.pages i).ref ≠ c.1 i then
    (Function.update c.1 i 1, c.2.1 ++ [.badPage (k.pages i).pa (k.pages i).ref (c.1 i)], c.2.2 + 1)
  else (Function.update c.1 i 0, c.2.1, c.2.2)

/-- The port's own counts: this one has none, and prints its arguments. -/
def countpagerefs (ref : Word) (prt : Bool) (out : List Report) : List Report :=
  out ++ [.countpagerefs ref prt]

/-- `mem` is what `malloc` answers for `ref`, which is cleared. -/
def checkpagerefs (T : Proctab) (k : Palloc) (mem : Option Word) : Except Stray (List Report) :=
  match mem with
  | none => .ok [.outOfMemory]
  | some addr =>
    match portcountpagerefs T k (fun _ => 0) false (countpagerefs addr false []) with
    | .error e => .error e
    | .ok (ref, out) =>
      let (ref, out, nwrong) := (List.range k.user).foldl (comparePage k) (ref, out, 0)
      match portcountpagerefs T k ref true (countpagerefs addr true out) with
      | .error e => .error e
      | .ok (_, out) => .ok (out ++ [.mistakes nwrong])

/-! ## What the tables say -/

/-- Each value once, where it comes first. -/
def firsts {α : Type*} [DecidableEq α] (l : List α) : List α := l.reverse.dedup.reverse

/-- The slots that are looked at. -/
def Seg.entries (s : Seg) : List (Option (Option PageEntry)) :=
  s.map.flatMap fun t => (t.map fun t => t.slots.map fun j => t.pages[j]?).getD []

def slotPage : Option (Option PageEntry) → Option PageId
  | some (some (.page p)) => some p
  | _ => none

/-- The pages of a segment, once for each slot. -/
def Seg.held (s : Seg) : List PageId := s.entries.filterMap slotPage

/-- Every slot is one of a table, and every page is in the pool. -/
def Seg.Sound (s : Seg) (k : Palloc) : Prop :=
  ∀ e ∈ s.entries, e ≠ none ∧ ∀ p, slotPage e = some p → p < k.user

/-- The pages of the segments, each segment once. -/
def Proctab.held (T : Proctab) : List PageId := (firsts T.uses).flatMap fun s => (T.segs s).held

/-- The slots in which the page stands. -/
def Proctab.holders (T : Proctab) (p : PageId) : Nat := T.held.count p

/-- The pages whose counter is wrong. -/
def Proctab.wrong (T : Proctab) (k : Palloc) : List PageId :=
  (List.range k.user).filter fun p => decide ((k.pages p).ref ≠ T.holders p)

/-- Where pages are. -/
def located (k : Palloc) (s : SegId) (l : List PageId) : List Report :=
  l.map fun p => .inSegment (k.pages p).pa s

/-- What the counting is to print: how much there is, and the segments that are wrong. -/
def Proctab.counted (T : Proctab) : List Report :=
  [.counted T.held.toFinset.card (firsts T.uses).length] ++
    badSegments T (fun s => T.uses.count s)

/-- The pages that are wrong, and where they are. -/
def Proctab.badPages (T : Proctab) (k : Palloc) : List Report :=
  (T.wrong k).map fun p => .badPage (k.pages p).pa (k.pages p).ref (T.holders p)

def Proctab.places (T : Proctab) (k : Palloc) : List Report :=
  (firsts T.uses).flatMap fun s =>
    located k s ((T.segs s).held.filter fun p => decide (p ∈ T.wrong k))

/-- What is to be printed, before the number of mistakes, with the array at `addr`. -/
def Proctab.findings (T : Proctab) (k : Palloc) (addr : Word) : List Report :=
  [.countpagerefs addr false] ++ T.counted ++ T.badPages k ++ [.countpagerefs addr true] ++ T.places k

def Proctab.report (T : Proctab) (k : Palloc) (addr : Word) : List Report :=
  T.findings k addr ++ [.mistakes (T.wrong k).length]

/-! ## Folds -/

section

/-- A value that comes again is not listed again. -/
theorem firsts_append {α : Type*} [DecidableEq α] (l : List α) (a : α) :
    firsts (l ++ [a]) = if a ∈ l then firsts l else firsts l ++ [a] := by
  unfold firsts
  rw [List.reverse_append, List.reverse_singleton, List.singleton_append]
  by_cases ha : a ∈ l
  · rw [if_pos ha, List.dedup_cons_of_mem (List.mem_reverse.mpr ha)]
  · rw [if_neg ha, List.dedup_cons_of_notMem (fun h => ha (List.mem_reverse.mp h)),
      List.reverse_cons]

/-- The list has all values. -/
theorem mem_firsts {α : Type*} [DecidableEq α] {l : List α} {a : α} : a ∈ firsts l ↔ a ∈ l := by
  unfold firsts
  rw [List.mem_reverse, List.mem_dedup, List.mem_reverse]

variable {T : Proctab} {k : Palloc} {print : Bool} {s : SegId} {c : Counts}

/-- The two inner loops are one loop over the slots. -/
theorem countPte_entries (ts : List (Option Pte)) :
    ts.foldlM (countPte k print s) c =
      (ts.flatMap fun t => (t.map fun t => t.slots.map fun j => t.pages[j]?).getD []).foldlM
        (countEntry k print s) c := by
  induction ts generalizing c with
  | nil => rfl
  | cons t ts ih =>
    rw [List.foldlM_cons, List.flatMap_cons, List.foldlM_append]
    have hHead : countPte k print s c t =
        ((t.map fun t => t.slots.map fun j => t.pages[j]?).getD []).foldlM (countEntry k print s) c := by
      cases t with
      | none => rfl
      | some t => exact (List.foldlM_map ..).symm
    rw [hHead]
    exact bind_congr fun c' => ih

/-- Sound slots are counted one after the other. -/
theorem countEntry_sound {es : List (Option (Option PageEntry))}
    (h : ∀ e ∈ es, e ≠ none ∧ ∀ p, slotPage e = some p → p < k.user) :
    es.foldlM (countEntry k print s) c = .ok ((es.filterMap slotPage).foldl (tallyPage k print s) c) := by
  induction es generalizing c with
  | nil => rfl
  | cons e es ih =>
    obtain ⟨⟨hSome, hPage⟩, hRest⟩ := List.forall_mem_cons.mp h
    rw [List.foldlM_cons]
    match e, hSome, hPage with
    | some none, _, _ => exact ih hRest
    | some (some (.swap slot)), _, _ => exact ih hRest
    | some (some (.page p)), _, hPage =>
      have hLt : p < k.user := hPage p rfl
      have hHere : countEntry k print s c (some (some (.page p))) = .ok (tallyPage k print s c p) :=
        if_neg (Nat.not_le.mpr hLt)
      rw [hHere]
      exact ih hRest

/-- A slot that is not sound ends the walk. -/
theorem countEntry_stray (print : Bool) (s : SegId) (c : Counts) {es : List (Option (Option PageEntry))}
    (h : ¬ ∀ e ∈ es, e ≠ none ∧ ∀ p, slotPage e = some p → p < k.user) :
    ∃ e, es.foldlM (countEntry k print s) c = .error e := by
  -- the walk ends at the first slot that is not sound
  induction es generalizing c with
  | nil => exact absurd (fun e he => absurd he List.not_mem_nil) h
  | cons e es ih =>
    rw [List.foldlM_cons]
    rw [List.forall_mem_cons] at h
    match e with
    | none => exact ⟨_, rfl⟩
    | some none => exact ih _ fun hRest => h ⟨⟨Option.some_ne_none _, fun p hp => nomatch hp⟩, hRest⟩
    | some (some (.swap slot)) =>
      exact ih _ fun hRest => h ⟨⟨Option.some_ne_none _, fun p hp => nomatch hp⟩, hRest⟩
    | some (some (.page p)) =>
      by_cases hLt : p < k.user
      · have hHere : countEntry k print s c (some (some (.page p))) = .ok (tallyPage k print s c p) :=
          if_neg (Nat.not_le.mpr hLt)
        rw [hHere]
        refine ih _ fun hRest => h ⟨⟨Option.some_ne_none _, fun q hq => ?_⟩, hRest⟩
        obtain rfl := Option.some.inj hq
        exact hLt
      · have hHere : countEntry k print s c (some (some (.page p))) = .error .page :=
          if_pos (Nat.not_lt.mp hLt)
        rw [hHere]
        exact ⟨_, rfl⟩

/-- A segment that has a mark is only counted. -/
theorem countSegment_seen (h : c.mark s ≠ 0) : countSegment T k print c s =
    .ok { c with mark := Function.update c.mark s (c.mark s + 1) } := if_pos h

/-- The first time, all its pages are looked at. -/
theorem countSegment_new (h : c.mark s = 0) (hSound : (T.segs s).Sound k) :
    countSegment T k print c s = .ok ((T.segs s).held.foldl (tallyPage k print s)
      { c with mark := Function.update c.mark s 1, ns := c.ns + 1 }) := by
  unfold countSegment
  dsimp only
  rw [h, if_neg (fun hNe => hNe rfl), countPte_entries]
  exact countEntry_sound hSound

/-! ## One walk -/

/-- The marks and the count of the segments make no difference to a page. -/
theorem tallyPage_marks (l : List PageId) (mark : SegId → Nat) (ns : Nat) :
    l.foldl (tallyPage k print s) { c with mark, ns } =
      { l.foldl (tallyPage k print s) c with mark, ns } := by
  induction l generalizing c with
  | nil => rfl
  | cons p l ih =>
    have hHere : tallyPage k print s { c with mark, ns } p = { tallyPage k print s c p with mark, ns } := by
      unfold tallyPage
      split
      · split <;> rfl
      · rfl
    rw [List.foldl_cons, List.foldl_cons, hHere, ih]

/-- What the walk does to the counts, apart from marks and segments. -/
def tallies (T : Proctab) (k : Palloc) (print : Bool) (us : List SegId) (c : Counts) : Counts :=
  us.foldl (fun c s => (T.segs s).held.foldl (tallyPage k print s) c) c

/-- Each segment is counted where it comes first, and marked every time. -/
theorem walk_sound {us : List SegId} (hSound : ∀ s ∈ us, (T.segs s).Sound k)
    (hMark : c.mark = fun _ => 0) (hNs : c.ns = 0) :
    us.foldlM (countSegment T k print) c = .ok { tallies T k print (firsts us) c with
      mark := fun s => us.count s, ns := (firsts us).length } := by
  induction us using List.reverseRecOn with
  | nil =>
    obtain ⟨mark, ref, n, ns, out⟩ := c
    obtain rfl := hMark
    obtain rfl := hNs
    rfl
  | append_singleton us s ih =>
    rw [List.foldlM_append, ih fun t ht => hSound t (List.mem_append_left _ ht)]
    show (countSegment T k print _ s >>= pure) = _
    rw [bind_pure]
    -- one mark more
    have hCount : Function.update (fun t => us.count t) s (us.count s + 1) =
        fun t => (us ++ [s]).count t := by
      funext t
      rw [List.count_append]
      by_cases ht : t = s
      · rw [ht, Function.update_self, List.count_singleton_self]
      · rw [Function.update_of_ne ht, List.count_singleton, if_neg (by simpa using Ne.symm ht),
          Nat.add_zero]
    rw [firsts_append]
    by_cases hs : s ∈ us
    · have hMarked : us.count s ≠ 0 := (List.count_pos_iff.mpr hs).ne'
      rw [countSegment_seen hMarked, if_pos hs]
      dsimp only
      rw [hCount]
    · have hMarked : us.count s = 0 := List.count_eq_zero.mpr hs
      rw [countSegment_new hMarked (hSound s (List.mem_append_right _ (List.mem_singleton_self s))),
        if_neg hs, List.length_append, List.length_singleton]
      rw [hMarked] at hCount
      dsimp only
      rw [hCount, tallyPage_marks]
      unfold tallies
      rw [List.foldl_append]
      rfl

/-- A segment that is not sound ends the walk. -/
theorem walk_stray (print : Bool) {us : List SegId} (h : ¬ ∀ s ∈ us, (T.segs s).Sound k)
    (hMark : c.mark = fun _ => 0) (hNs : c.ns = 0) :
    ∃ e, us.foldlM (countSegment T k print) c = .error e := by
  induction us using List.reverseRecOn with
  | nil => exact absurd (fun s hs => absurd hs List.not_mem_nil) h
  | append_singleton us s ih =>
    rw [List.foldlM_append]
    by_cases hBefore : ∀ t ∈ us, (T.segs t).Sound k
    · rw [walk_sound hBefore hMark hNs]
      -- so it is the last one, which was not met before
      have hLast : ¬ (T.segs s).Sound k := fun hs => h fun t ht => by
        rcases List.mem_append.mp ht with hIn | hEq
        · exact hBefore t hIn
        · rw [List.mem_singleton.mp hEq]
          exact hs
      have hNew : us.count s = 0 := List.count_eq_zero.mpr fun hs => hLast (hBefore s hs)
      obtain ⟨e, hStray⟩ := countEntry_stray (k := k) print s
        { tallies T k print (firsts us) c with
          mark := Function.update (fun t => us.count t) s (us.count s + 1),
          ns := (firsts us).length + 1 } hLast
      refine ⟨e, ?_⟩
      show (countSegment T k print _ s >>= pure) = _
      rw [bind_pure]
      unfold countSegment
      dsimp only
      rw [if_neg (fun hNe => hNe hNew), countPte_entries]
      exact hStray
    · obtain ⟨e, hError⟩ := ih hBefore
      rw [hError]
      exact ⟨e, rfl⟩

/-! ## The two walks -/

/-- The pages in the slots of the segments. -/
def heldOf (T : Proctab) (us : List SegId) : List PageId := us.flatMap fun s => (T.segs s).held

/-- Counting: every slot adds one to its page, and `n` counts the pages. -/
theorem tallyPage_count (l h : List PageId) :
    l.foldl (tallyPage k false s) { c with ref := fun p => h.count p, n := h.toFinset.card } =
      { c with ref := fun p => (h ++ l).count p, n := (h ++ l).toFinset.card } := by
  induction l generalizing h with
  | nil => rw [List.foldl_nil, List.append_nil]
  | cons p l ih =>
    -- the table is the count of the pages met so far
    have hRef : Function.update (fun q => h.count q) p (h.count p + 1) =
        fun q => (h ++ [p]).count q := by
      funext q
      rw [List.count_append]
      by_cases hq : q = p
      · rw [hq, Function.update_self, List.count_singleton_self]
      · rw [Function.update_of_ne hq, List.count_singleton, if_neg (by simpa using Ne.symm hq),
          Nat.add_zero]
    -- and a page is new when its count was 0
    have hN : (if h.count p = 0 then h.toFinset.card + 1 else h.toFinset.card) =
        (h ++ [p]).toFinset.card := by
      have hInsert : (h ++ [p]).toFinset = insert p h.toFinset := by
        ext q
        simp
      rw [hInsert]
      by_cases hp : p ∈ h
      · rw [if_neg (List.count_pos_iff.mpr hp).ne', Finset.insert_eq_of_mem (List.mem_toFinset.mpr hp)]
      · rw [if_pos (List.count_eq_zero.mpr hp),
          Finset.card_insert_of_notMem fun hIn => hp (List.mem_toFinset.mp hIn)]
    have hHere : tallyPage k false s { c with ref := fun p => h.count p, n := h.toFinset.card } p =
        { c with ref := fun q => (h ++ [p]).count q, n := (h ++ [p]).toFinset.card } := by
      rw [← hRef, ← hN]
      rfl
    rw [List.foldl_cons, hHere, ih, List.append_assoc, List.singleton_append]

/-- The first walk counts the slots of every page. -/
theorem tallies_count (us : List SegId) (h : List PageId) :
    tallies T k false us { c with ref := fun p => h.count p, n := h.toFinset.card } =
      { c with ref := fun p => (h ++ heldOf T us).count p, n := (h ++ heldOf T us).toFinset.card } := by
  induction us generalizing h with
  | nil =>
    show ({ c with ref := _, n := _ } : Counts) = _
    rw [heldOf, List.flatMap_nil, List.append_nil]
  | cons s us ih =>
    have hSplit : h ++ heldOf T (s :: us) = (h ++ (T.segs s).held) ++ heldOf T us := by
      rw [heldOf, List.flatMap_cons, ← List.append_assoc, heldOf]
    show tallies T k false us ((T.segs s).held.foldl _ _) = _
    rw [tallyPage_count, ih, hSplit]

/-- Printing: the slots with a page that is flagged. -/
theorem tallyPage_print (l : List PageId) : l.foldl (tallyPage k true s) c =
    { c with out := c.out ++ located k s (l.filter fun p => decide (c.ref p ≠ 0)) } := by
  induction l generalizing c with
  | nil =>
    show c = { c with out := c.out ++ [] }
    rw [List.append_nil]
  | cons p l ih =>
    rw [List.foldl_cons, ih]
    by_cases hp : c.ref p ≠ 0
    · have hHere : tallyPage k true s c p = { c with out := c.out ++ [.inSegment (k.pages p).pa s] } :=
        if_pos hp
      rw [hHere, List.filter_cons_of_pos (by simpa using hp), List.append_assoc]
      rfl
    · have hHere : tallyPage k true s c p = c := if_neg hp
      rw [hHere, List.filter_cons_of_neg (by simpa using hp)]

/-- The second walk prints where the wrong pages are. -/
theorem tallies_print (us : List SegId) : tallies T k true us c =
    { c with out := c.out ++ us.flatMap fun s =>
               located k s ((T.segs s).held.filter fun p => decide (c.ref p ≠ 0)) } := by
  induction us generalizing c with
  | nil =>
    show c = { c with out := c.out ++ [] }
    rw [List.append_nil]
  | cons s us ih =>
    show tallies T k true us ((T.segs s).held.foldl _ _) = _
    rw [tallyPage_print, ih, List.flatMap_cons, List.append_assoc]

/-! ## The comparison -/

/-- The pages of the list that do not have as many references as were counted. -/
def differing (k : Palloc) (ref : PageId → Nat) (l : List PageId) : List PageId :=
  l.filter fun p => decide ((k.pages p).ref ≠ ref p)

/-- `ref` when the pages of the list have been compared. -/
def flags (k : Palloc) (ref : PageId → Nat) (l : List PageId) : PageId → Nat := fun i =>
  if i ∈ l then if i ∈ differing k ref l then 1 else 0 else ref i

/-- A page is compared with the number of its slots. -/
theorem comparePage_eq {flag : PageId → Nat} {out : List Report} {n r : Nat} {i : PageId}
    (h : flag i = r) : comparePage k (flag, out, n) i =
      if (k.pages i).ref ≠ r then
        (Function.update flag i 1, out ++ [.badPage (k.pages i).pa (k.pages i).ref r], n + 1)
      else (Function.update flag i 0, out, n) := by
  subst h
  rfl

/-- The loop leaves a flag for each wrong page. -/
theorem compare_fold {ref : PageId → Nat} {out : List Report} {l : List PageId} (hNodup : l.Nodup) :
    l.foldl (comparePage k) (ref, out, 0) =
      (flags k ref l, out ++ (differing k ref l).map fun p => .badPage (k.pages p).pa (k.pages p).ref (ref p),
        (differing k ref l).length) := by
  induction l using List.reverseRecOn with
  | nil =>
    show (ref, out, 0) = _
    rw [differing, List.filter_nil, List.map_nil, List.append_nil]
    rfl
  | append_singleton l i ih =>
    obtain ⟨hNodup', -, hApart⟩ := List.nodup_append.mp hNodup
    have hNew : i ∉ l := fun hi => hApart i hi i (List.mem_singleton_self i) rfl
    -- the counter of this page has not been turned into a flag yet
    have hFlag : flags k ref l i = ref i := if_neg hNew
    rw [List.foldl_append, ih hNodup', List.foldl_cons, List.foldl_nil, comparePage_eq hFlag]
    by_cases hBad : (k.pages i).ref ≠ ref i
    · have hMore : differing k ref (l ++ [i]) = differing k ref l ++ [i] := by
        unfold differing
        rw [List.filter_append, List.filter_cons_of_pos (by simpa using hBad), List.filter_nil]
      rw [if_pos hBad, hMore, List.map_append, List.length_append, ← List.append_assoc]
      refine Prod.ext (funext fun j => ?_) rfl
      by_cases hj : j = i
      · subst hj
        simp [flags, hMore]
      · simp [flags, hMore, hj]
    · have hSame : differing k ref (l ++ [i]) = differing k ref l := by
        unfold differing
        rw [List.filter_append, List.filter_cons_of_neg (by simpa using hBad), List.filter_nil,
          List.append_nil]
      have hOut : i ∉ differing k ref l := fun hi => hNew (List.mem_of_mem_filter hi)
      rw [if_neg hBad, hSame]
      refine Prod.ext (funext fun j => ?_) rfl
      by_cases hj : j = i
      · subst hj
        simp [flags, hSame, hOut]
      · simp [flags, hSame, hj]

/-! ## The whole check -/

/-- The segments of the processes are sound. -/
def Proctab.Sound (T : Proctab) (k : Palloc) : Prop := ∀ s ∈ T.uses, (T.segs s).Sound k

/-- The first call counts, behind what was printed before. -/
theorem portcount_first {out : List Report} (hSound : T.Sound k) :
    portcountpagerefs T k (fun _ => 0) false out = .ok (T.holders, out ++ T.counted) := by
  unfold portcountpagerefs
  rw [walk_sound hSound rfl rfl]
  have hCount := tallies_count (T := T) (k := k)
    (c := { mark := fun _ => 0, ref := fun _ => 0, n := 0, ns := 0, out }) (firsts T.uses) []
  rw [List.nil_append] at hCount
  have hStart : tallies T k false (firsts T.uses)
      { mark := fun _ => 0, ref := fun _ => 0, n := 0, ns := 0, out } = _ := hCount
  rw [hStart, Proctab.counted, ← List.append_assoc]
  rfl

/-- The second call prints where the pages are that have a flag. -/
theorem portcount_second {ref : PageId → Nat} {out : List Report} (hSound : T.Sound k) :
    portcountpagerefs T k ref true out = .ok (ref, out ++ (firsts T.uses).flatMap fun s =>
      located k s ((T.segs s).held.filter fun p => decide (ref p ≠ 0))) := by
  unfold portcountpagerefs
  rw [walk_sound hSound rfl rfl, tallies_print]
  rfl

/-- The pages of a sound segment are in the pool. -/
theorem Seg.Sound.lt_user {g : Seg} (h : g.Sound k) {p : PageId} (hp : p ∈ g.held) : p < k.user := by
  obtain ⟨e, he, hPage⟩ := List.mem_filterMap.mp hp
  exact (h e he).2 p hPage

/-- With sound segments the check comes to its end. -/
theorem checkpagerefs_sound (addr : Word) (hSound : T.Sound k) :
    checkpagerefs T k (some addr) = .ok (T.report k addr) := by
  unfold checkpagerefs
  dsimp only
  rw [portcount_first hSound]
  dsimp only
  rw [compare_fold List.nodup_range]
  dsimp only
  rw [portcount_second hSound]
  -- a page has its flag when it is wrong
  have hFlag : ∀ s ∈ firsts T.uses, located k s ((T.segs s).held.filter fun p =>
        decide (flags k T.holders (List.range k.user) p ≠ 0)) =
      located k s ((T.segs s).held.filter fun p => decide (p ∈ T.wrong k)) := by
    intro s hs
    refine congrArg _ (List.filter_congr fun p hp => ?_)
    have hLt := (hSound s (mem_firsts.mp hs)).lt_user hp
    rw [decide_eq_decide, flags, if_pos (List.mem_range.mpr hLt)]
    show _ ↔ p ∈ differing k T.holders (List.range k.user)
    split
    · rename_i hIn
      exact iff_of_true Nat.one_ne_zero hIn
    · rename_i hOut
      exact iff_of_false (fun h => h rfl) hOut
  rw [List.flatMap_congr hFlag]
  rfl

/-- With a segment that is not sound the first walk already goes astray. -/
theorem checkpagerefs_stray (addr : Word) (hStray : ¬ T.Sound k) :
    ∃ e, checkpagerefs T k (some addr) = .error e := by
  obtain ⟨e, hError⟩ := walk_stray (T := T) (k := k)
    (c := { mark := fun _ => 0, ref := fun _ => 0, n := 0, ns := 0,
            out := countpagerefs addr false [] }) false hStray rfl rfl
  refine ⟨e, ?_⟩
  have hFirst : portcountpagerefs T k (fun _ => 0) false (countpagerefs addr false []) =
      .error e := by
    unfold portcountpagerefs
    rw [hError]
    rfl
  unfold checkpagerefs
  dsimp only
  rw [hFirst]

/-- When `malloc` has the memory, the check finishes when every entry is a page of the
pool, and otherwise it goes astray; without memory it says so, whatever the entries are. -/
theorem checkpagerefs_exact (T : Proctab) (k : Palloc) (mem : Option Word) (out : List Report) :
    checkpagerefs T k mem = .ok out ↔
      match mem with
      | none => out = [.outOfMemory]
      | some addr => T.Sound k ∧ out = T.report k addr := by
  cases mem with
  | none => exact ⟨fun h => (Except.ok.inj h).symm, fun h => congrArg Except.ok h.symm⟩
  | some addr =>
    constructor
    · intro h
      by_cases hSound : T.Sound k
      · rw [checkpagerefs_sound addr hSound] at h
        exact ⟨hSound, (Except.ok.inj h).symm⟩
      · obtain ⟨e, hError⟩ := checkpagerefs_stray addr hSound
        rw [hError] at h
        cases h
    · rintro ⟨hSound, rfl⟩
      exact checkpagerefs_sound addr hSound

/-- What the check has to say goes through `iprint`. -/
theorem report_print (T : Proctab) (k : Palloc) (addr : Word) :
    shown false (T.report k addr) = [.countpagerefs addr false, .countpagerefs addr true] := by
  -- the lines of each part have one printer
  have hCounted : ∀ r ∈ T.counted, r.printer = .iprint := by
    intro r hr
    rw [Proctab.counted, List.mem_append, List.mem_singleton] at hr
    rcases hr with rfl | hr
    · rfl
    · simp only [badSegments, List.mem_flatMap, List.mem_filterMap] at hr
      obtain ⟨_, -, s, -, hHere⟩ := hr
      split at hHere
      · cases hHere
        rfl
      · cases hHere
  have hPages : ∀ r ∈ T.badPages k, r.printer = .iprint := by
    intro r hr
    obtain ⟨p, -, rfl⟩ := List.mem_map.mp hr
    rfl
  have hPlaces : ∀ r ∈ T.places k, r.printer = .iprint := by
    intro r hr
    obtain ⟨s, -, hr⟩ := List.mem_flatMap.mp hr
    obtain ⟨p, -, rfl⟩ := List.mem_map.mp hr
    rfl
  have hNone : ∀ {l : List Report}, (∀ r ∈ l, r.printer = .iprint) → shown false l = [] :=
    fun h => List.filter_eq_nil_iff.mpr fun r hr => by simp [h r hr]
  have hSplit : ∀ l l' : List Report, shown false (l ++ l') = shown false l ++ shown false l' :=
    fun l l' => List.filter_append l l'
  rw [Proctab.report, Proctab.findings, hSplit, hSplit, hSplit, hSplit, hSplit, hNone hCounted,
    hNone hPages, hNone hPlaces]
  rfl

/-- In a run the counters are those of the ledger, so that a page is found wrong when somebody
else holds references to it, or when a slot holds one that nobody has taken. -/
theorem checkpagerefs_run {P : Port} {banks : List Pallocmem} {mem : Machine.Memory} {k0 : Palloc}
    {es : List PageEvent} {held : PageId → Nat} (T : Proctab) (addr : Word)
    (hInit : pageinit banks mem = .ok k0) (hRun : PageRun P k0 es k held) :
    (∀ p, p ∈ T.wrong k ↔ p < k.user ∧ held p ≠ T.holders p) ∧
    ((∃ out, checkpagerefs T k (some addr) = .ok (out ++ [.mistakes 0])) ↔
      T.Sound k ∧ ∀ p < k.user, held p = T.holders p) := by
  obtain ⟨m, -, hInv, -, -⟩ := hRun.inv hInit
  have hWrong : ∀ p, p ∈ T.wrong k ↔ p < k.user ∧ held p ≠ T.holders p := by
    intro p
    unfold Proctab.wrong
    rw [List.mem_filter, List.mem_range, decide_eq_true_iff]
    exact and_congr_right fun hLt => by rw [hInv.free.ledger p hLt]
  refine ⟨hWrong, ?_⟩
  -- no mistakes are printed when no page is wrong
  have hNone : T.wrong k = [] ↔ ∀ p < k.user, held p = T.holders p := by
    rw [List.eq_nil_iff_forall_not_mem]
    refine forall_congr' fun p => ?_
    rw [hWrong, not_and, not_not]
  constructor
  · rintro ⟨out, hOut⟩
    by_cases hSound : T.Sound k
    · refine ⟨hSound, hNone.mp ?_⟩
      have hReport := Except.ok.inj ((checkpagerefs_sound addr hSound).symm.trans hOut)
      have hLast := (List.append_inj' hReport rfl).2
      injection hLast with hLast
      injection hLast with hLast
      exact List.eq_nil_of_length_eq_zero hLast
    · obtain ⟨e, hError⟩ := checkpagerefs_stray addr hSound
      rw [hError] at hOut
      cases hOut
  · rintro ⟨hSound, hLedger⟩
    have hZero := hNone.mpr hLedger
    refine ⟨T.findings k addr, (checkpagerefs_sound addr hSound).trans ?_⟩
    rw [Proctab.report, hZero]
    rfl

end

/-! ## Two processes with one segment -/

theorem slots_pos : 0 < PTEPERTAB := by
  decide

/-- A table with the page in its first slot. -/
def oneSlot (p : PageId) : Pte where
  pages := (Vector.replicate PTEPERTAB none).set 0 (some (.page p)) slots_pos
  first := 0
  last := 0

def sharing (p : PageId) : Proctab where
  procs := [(1, [none, some 7]), (2, [some 7])]
  segs _ := { ref := 2, map := [none, some (oneSlot p)] }

theorem sharing_sound {k : Palloc} (hUser : 0 < k.user) : (sharing 0).Sound k := by
  have hEntries : (((sharing 0).segs 7).entries) = [some (some (.page 0))] := by
    decide
  intro s hs e he
  have hSeven : (sharing 0).segs s = (sharing 0).segs 7 := rfl
  rw [hSeven, hEntries, List.mem_singleton] at he
  subst he
  refine ⟨Option.some_ne_none _, fun p hp => ?_⟩
  obtain rfl := Option.some.inj hp
  exact hUser

/-- The page that is taken stands in a slot that both processes see, and is counted once. -/
theorem checkpagerefs_run_sharing : ∃ es k held,
    PageRun smallPort (smallPool 20) es k held ∧ held 0 = 1 ∧
    ∃ out, checkpagerefs (sharing 0) k (some 0x400000) = .ok (out ++ [.mistakes 0]) := by
  have hRun := PageRun.start.next (n := 20) takePage (.page 0) trivial (by decide)
  have hInit : pageinit [{ base := 0x100000, npage := 20 }] (fun _ => 0) = .ok (smallPool 20) := rfl
  refine ⟨_, _, _, hRun, by decide, ?_⟩
  refine (checkpagerefs_run (sharing 0) 0x400000 hInit hRun).2.mpr ⟨sharing_sound (by decide), ?_⟩
  have hAll : ∀ p ∈ List.range ((smallPool 20).stepTo takePage).user,
      heldAfter (fun _ => 0) takePage (.page 0) p = (sharing 0).holders p := by
    decide
  exact fun p hp => hAll p (List.mem_range.mpr hp)

end Glendum
