import Glendum.Kernel.PageStep
import Mathlib.Data.List.Nodup

/-!
# Glendum — copying and freeing a page table

`ptecpy` walks the window of the old table from `first` to `last`, takes a reference
for every page it finds, and trims the window of the new table to what it stored.
`freepte` walks the window of the new table and gives the references back.

* `copySlots_copied` — after each slot of the window the new table agrees with the
  old one so far, and the pages have one reference more for each slot passed;
* `freeSlots_addRefs` — the loop of `freepte` takes them away again, and no page
  runs out of references on the way;
* `ptecpy_freepte` — together they leave the pool exactly as it was.
-/

namespace Glendum

/-- The references that an entry of a table stands for. -/
def entryRefs (e : Option PageEntry) (p : PageId) : Nat := if e = some (.page p) then 1 else 0

theorem entryRefs_none : entryRefs none = fun _ => 0 := by
  funext p
  simp [entryRefs]

theorem entryRefs_swap (slot : Nat) : entryRefs (some (.swap slot)) = fun _ => 0 := by
  funext p
  simp [entryRefs]

/-- The references of every page `q` raised by `n q`. -/
def Palloc.addRefs (k : Palloc) (n : PageId → Nat) : Palloc :=
  { k with pages := fun q => { k.pages q with ref := (k.pages q).ref + n q } }

/-- The slots of a table that hold the page `p`. -/
def Pte.holders (t : Pte) (p : PageId) : Nat := t.countIn (List.range PTEPERTAB) p

/-- Everything in the table lies between `first` and `last`, and `last` is a slot. -/
structure Pte.Windowed (t : Pte) : Prop where
  last_lt : t.last < PTEPERTAB
  inside : ∀ j e, t.pages[j]? = some (some e) → t.first ≤ j ∧ j ≤ t.last

namespace Palloc

variable {P : Port} {k : Palloc} {p : PageId} {n n' : PageId → Nat}

theorem addRefs_zero : k.addRefs (fun _ => 0) = k := rfl

theorem addRefs_add : (k.addRefs n).addRefs n' = k.addRefs fun q => n q + n' q := by
  simp only [addRefs, Nat.add_assoc]

/-- A reference taken on one page. -/
theorem setPage_incr :
    (k.setPage p fun pg => { pg with ref := pg.ref + 1 }) =
      k.addRefs (entryRefs (some (.page p))) := by
  unfold setPage addRefs
  congr 1
  funext q
  by_cases hq : q = p
  · subst hq
    simp [entryRefs]
  · simp [entryRefs, Ne.symm hq, Function.update_of_ne hq]

/-- `putpage` of a page that others hold only takes the reference away. -/
theorem putpage_shared (hRef : 0 < (k.pages p).ref) :
    (k.addRefs (entryRefs (some (.page p)))).putpage P (.page p) = .ok k := by
  rw [← setPage_incr]
  have hDown : ((k.setPage p fun pg => { pg with ref := pg.ref + 1 }).setPage p
      fun pg => { pg with ref := pg.ref - 1 }) = k := by
    simp [setPage]
  have hSome : ((k.setPage p fun pg => { pg with ref := pg.ref + 1 }).pages p).ref ≠ 0 := by
    rw [setPage_self]
    exact Nat.succ_ne_zero _
  simp only [putpage, if_neg hSome, hDown, gt_iff_lt, if_pos hRef]

/-- A slot of `freepte` takes the references of its entry away, when each page has
others. -/
theorem freeSlot_shared {t : Pte} {j : Nat} {e : Option PageEntry} (hGet : t.pages[j]? = some e)
    (hRef : ∀ p, e = some (.page p) → 0 < (k.pages p).ref) :
    freeSlot P t (k.addRefs (entryRefs e)) j = .ok k := by
  match e with
  | none => simp only [freeSlot, hGet, entryRefs_none, addRefs_zero]
  | some (.swap slot) => simp only [freeSlot, hGet, entryRefs_swap, addRefs_zero, putpage]
  | some (.page p) =>
    simp only [freeSlot, hGet]
    exact putpage_shared (hRef p rfl)

end Palloc

/-- The references in a list of slots, the last slot apart. -/
theorem Pte.countIn_append_one {t : Pte} {js : List Nat} {j : Nat} {e : Option PageEntry}
    (hGet : t.pages[j]? = some e) :
    t.countIn (js ++ [j]) = fun q => t.countIn js q + entryRefs e q := by
  funext q
  simp [countIn, List.countP_append, hGet, entryRefs]

/-- The references in a list of slots, the first slot apart. -/
theorem Pte.countIn_cons_eq {t : Pte} {j : Nat} {e : Option PageEntry}
    (hGet : t.pages[j]? = some e) (js : List Nat) :
    t.countIn (j :: js) = fun q => t.countIn js q + entryRefs e q := by
  funext q
  simp [countIn_cons, hGet, entryRefs]

/-! ## The window of a table -/

theorem Pte.mem_slots {t : Pte} {j : Nat} : j ∈ t.slots ↔ t.first ≤ j ∧ j ≤ t.last := by
  rw [slots, List.mem_range'_1]
  omega

/-- Walking the window finds every page of the table. -/
theorem Pte.Windowed.count_eq {t : Pte} (h : t.Windowed) (p : PageId) :
    t.count p = t.holders p := by
  have hLast := h.last_lt
  -- the slots outside the window hold nothing
  have hFilter : (List.range PTEPERTAB).countP
        (fun j => t.pages[j]? == some (some (PageEntry.page p))) =
      ((List.range PTEPERTAB).filter fun j => decide (t.first ≤ j ∧ j ≤ t.last)).countP
        (fun j => t.pages[j]? == some (some (PageEntry.page p))) := by
    rw [List.countP_filter]
    refine List.countP_congr fun j _ => ?_
    constructor
    · intro hj
      have hEntry : t.pages[j]? = some (some (PageEntry.page p)) := by simpa using hj
      simp [hEntry, h.inside j _ hEntry]
    · intro hj
      simp only [Bool.and_eq_true] at hj
      exact hj.1
  have hPerm : ((List.range PTEPERTAB).filter
      fun j => decide (t.first ≤ j ∧ j ≤ t.last)).Perm t.slots := by
    refine (List.perm_ext_iff_of_nodup (List.nodup_range.filter _) List.nodup_range').mpr
      fun j => ?_
    rw [List.mem_filter, List.mem_range, decide_eq_true_eq, ← Pte.slots, Pte.mem_slots]
    omega
  rw [Pte.count, Pte.holders, Pte.countIn, hFilter]
  exact (hPerm.countP_eq _).symm

/-! ## The loop of `ptecpy` -/

/-- The new table after `n` slots of the window of `old`. -/
structure Copied (old : Pte) (n : Nat) (t : Pte) : Prop where
  first : t.first = old.first
  last_lt : t.last < PTEPERTAB
  pages : ∀ j, j < PTEPERTAB → t.pages[j]? =
    if old.first ≤ j ∧ j < old.first + n then old.pages[j]? else some none
  /-- the window reaches to the last entry that was stored -/
  last : ∀ j e, t.pages[j]? = some (some e) → j ≤ t.last

theorem Copied.start (old : Pte) : Copied old 0 { ptealloc with first := old.first } where
  first := rfl
  last_lt := show 0 < PTEPERTAB by decide
  pages j hj := by
    rw [if_neg (by omega)]
    simp [ptealloc, hj]
  last j e h := by
    simp only [ptealloc, Vector.getElem?_replicate] at h
    split at h <;> simp at h

/-- An empty slot leaves the new table alone. -/
theorem Copied.skip {old t : Pte} {n : Nat} (h : Copied old n t)
    (hNone : old.pages[old.first + n]? = some none) : Copied old (n + 1) t where
  first := h.first
  last_lt := h.last_lt
  pages j hj := by
    rw [h.pages j hj]
    by_cases hLast : j = old.first + n
    · rw [hLast, if_neg (by omega), if_pos (by omega), hNone]
    · by_cases hIn : old.first ≤ j ∧ j < old.first + n
      · rw [if_pos hIn, if_pos (by omega)]
      · rw [if_neg hIn, if_neg (by omega)]
  last := h.last

/-- An entry is stored in its slot, which is the last one so far. -/
theorem Copied.store {old t : Pte} {n : Nat} {e : PageEntry} (h : Copied old n t)
    (hBound : old.first + n < PTEPERTAB) (hEntry : old.pages[old.first + n]? = some (some e)) :
    Copied old (n + 1) { t with
      last := old.first + n
      pages := t.pages.setIfInBounds (old.first + n) (some e) } where
  first := h.first
  last_lt := hBound
  pages j hj := by
    rw [Vector.getElem?_setIfInBounds]
    by_cases hLast : old.first + n = j
    · subst hLast
      rw [if_pos rfl, if_pos hj, if_pos (by omega), hEntry]
    · rw [if_neg hLast, h.pages j hj]
      by_cases hIn : old.first ≤ j ∧ j < old.first + n
      · rw [if_pos hIn, if_pos (by omega)]
      · rw [if_neg hIn, if_neg (by omega)]
  last j e' hj := by
    rw [Vector.getElem?_setIfInBounds] at hj
    split at hj
    · next hEq => exact hEq.ge
    · -- an entry stored before is in a slot before
      have hLt : j < PTEPERTAB := by
        by_contra hOut
        rw [Vector.getElem?_eq_none (by omega)] at hj
        cases hj
      have hOld := h.pages j hLt
      rw [hj] at hOld
      split at hOld
      · next hIn => exact hIn.2.le
      · simp at hOld

/-- The loop of `ptecpy` up to any slot of the window. -/
theorem copySlots_copied {old : Pte} (k : Palloc) {n : Nat} (hFits : old.first + n ≤ PTEPERTAB) :
    ∃ t, (List.range' old.first n).foldlM (Palloc.copySlot old)
        ({ ptealloc with first := old.first }, k) =
          .ok (t, k.addRefs (old.countIn (List.range' old.first n))) ∧
      Copied old n t := by
  -- induction on the slots copied; the copy agrees with the table below them
  induction n with
  | zero => exact ⟨_, rfl, .start old⟩
  | succ n ih =>
    obtain ⟨t, hRun, hCopied⟩ := ih (by omega)
    obtain ⟨e, hGet⟩ : ∃ e, old.pages[old.first + n]? = some e :=
      ⟨_, Vector.getElem?_eq_getElem (show old.first + n < PTEPERTAB by omega)⟩
    have hNext : ∀ t', Palloc.copySlot old
          (t, k.addRefs (old.countIn (List.range' old.first n))) (old.first + n) =
            .ok (t', (k.addRefs (old.countIn (List.range' old.first n))).addRefs (entryRefs e)) →
        (List.range' old.first (n + 1)).foldlM (Palloc.copySlot old)
          ({ ptealloc with first := old.first }, k) =
            .ok (t', k.addRefs (old.countIn (List.range' old.first (n + 1)))) := by
      intro t' hSlot
      rw [List.range'_1_concat, Pte.countIn_append_one hGet, ← Palloc.addRefs_add,
        List.foldlM_append, hRun]
      simp only [bind, Except.bind, List.foldlM_cons, List.foldlM_nil, hSlot]
      rfl
    match e with
    | none =>
      refine ⟨t, hNext _ ?_, hCopied.skip hGet⟩
      simp only [Palloc.copySlot, hGet, entryRefs_none, Palloc.addRefs_zero]
    -- a swap entry is copied without a reference: its count is of code outside
    | some (.swap slot) =>
      refine ⟨_, hNext _ ?_, hCopied.store (by omega) hGet⟩
      simp only [Palloc.copySlot, hGet, entryRefs_swap, Palloc.addRefs_zero]
    | some (.page p) =>
      refine ⟨_, hNext _ ?_, hCopied.store (by omega) hGet⟩
      simp only [Palloc.copySlot, hGet, Palloc.setPage_incr]

/-- A copy of the whole window of a table. -/
theorem Copied.window {old t : Pte} (hWin : old.Windowed)
    (h : Copied old (old.last + 1 - old.first) t) : t.pages = old.pages ∧ t.Windowed := by
  have hLast := hWin.last_lt
  have hSame : ∀ j, j < PTEPERTAB → t.pages[j]? = old.pages[j]? := by
    intro j hj
    rw [h.pages j hj]
    split
    · rfl
    · next hOut =>
      -- outside of its window the old table is empty
      have hGet : old.pages[j]? = some old.pages[j] := Vector.getElem?_eq_getElem hj
      cases hEntry : old.pages[j] with
      | none => rw [hGet, hEntry]
      | some e =>
        have hIn := hWin.inside j e (by rw [hGet, hEntry])
        exact absurd (show old.first ≤ j ∧ j < old.first + (old.last + 1 - old.first) by omega) hOut
  have hPages : t.pages = old.pages := by
    refine Vector.ext fun j hj => ?_
    have hj' := hSame j hj
    rwa [Vector.getElem?_eq_getElem hj, Vector.getElem?_eq_getElem hj, Option.some.injEq] at hj'
  refine ⟨hPages, h.last_lt, fun j e he => ⟨?_, h.last j e he⟩⟩
  rw [h.first]
  rw [hPages] at he
  exact (hWin.inside j e he).1

/-! ## The loop of `freepte` -/

/-- Giving the references of some slots back. -/
theorem freeSlots_addRefs (P : Port) {t : Pte} {k : Palloc} (js : List Nat)
    (hBound : ∀ j ∈ js, j < PTEPERTAB) (hRef : ∀ p, t.countIn js p ≤ (k.pages p).ref) :
    js.foldlM (Palloc.freeSlot P t) (k.addRefs (t.countIn js)) = .ok k := by
  induction js with
  | nil => rfl
  | cons j js ih =>
    obtain ⟨e, hGet⟩ : ∃ e, t.pages[j]? = some e :=
      ⟨_, Vector.getElem?_eq_getElem (hBound j (List.mem_cons_self ..))⟩
    have hCount := Pte.countIn_cons_eq hGet js
    rw [hCount] at hRef
    rw [hCount, ← Palloc.addRefs_add, List.foldlM_cons,
      Palloc.freeSlot_shared hGet fun p hp => ?_]
    · exact ih (fun j' hj' => hBound j' (List.mem_cons_of_mem _ hj')) fun q =>
        le_trans (Nat.le_add_right ..) (hRef q)
    · -- the page has a reference besides the one that goes
      have hOne := hRef p
      simp only [entryRefs, hp, if_true] at hOne
      exact Nat.add_pos_left (by omega) _

/-! ## Copy, then free -/

/-- **Copying and freeing a page table balance.** A copy has the same entries in the
same slots inside its own window, and raised the references of every page by the
number of its slots; freeing the copy in an ordinary segment brings the pool back
exactly: the references, the free list and all the rest. -/
theorem ptecpy_freepte (P : Port) {old : Pte} {k : Palloc} {type : SegType} (pgfree : Bool)
    (hWin : old.Windowed) (hRef : ∀ p, old.holders p ≤ (k.pages p).ref)
    (hType : type ≠ .physical) :
    ∃ new k', k.ptecpy old = .ok (new, k') ∧ new.pages = old.pages ∧ new.Windowed ∧
      k' = k.addRefs old.holders ∧ k'.freepte P type pgfree new = .ok k := by
  have hLast := hWin.last_lt
  have hSlots : ∀ p, old.countIn old.slots p = old.holders p := hWin.count_eq
  -- a table whose window is empty has nothing to copy
  obtain ⟨new, hRun, hCopied⟩ : ∃ t, k.ptecpy old =
      .ok (t, k.addRefs (old.countIn old.slots)) ∧ Copied old (old.last + 1 - old.first) t := by
    by_cases hEmpty : old.last + 1 ≤ old.first
    · have hNone : old.slots = [] := by
        rw [Pte.slots, Nat.sub_eq_zero_of_le hEmpty, List.range'_zero]
      rw [Nat.sub_eq_zero_of_le hEmpty, Palloc.ptecpy, hNone]
      exact ⟨_, rfl, .start old⟩
    · exact copySlots_copied k (by omega)
  obtain ⟨hPages, hNew⟩ := hCopied.window hWin
  have hSame : ∀ p, new.countIn new.slots p = old.holders p := by
    intro p
    rw [show new.countIn new.slots p = new.holders p from hNew.count_eq p, Pte.holders, Pte.countIn,
      hPages]
    rfl
  refine ⟨new, _, hRun, hPages, hNew, by rw [funext hSlots], ?_⟩
  have hFree := freeSlots_addRefs P (t := new) (k := k) new.slots
    (fun j hj => lt_of_le_of_lt (Pte.mem_slots.mp hj).2 hNew.last_lt)
    fun p => by rw [hSame p]; exact hRef p
  rw [funext hSame, ← funext hSlots] at hFree
  cases type with
  | physical => exact absurd rfl hType
  | text | data | bss | stack | shared => exact hFree

/-- A table with one page in two slots and a hole between them. -/
def holedTable : Pte where
  pages := ((Vector.replicate PTEPERTAB none).set 3 (some (.page 0)) (by decide)).set 5
    (some (.page 0)) (by decide)
  first := 3
  last := 5

theorem holedTable_windowed : holedTable.Windowed where
  last_lt := by decide
  inside j e h := by
    simp only [holedTable, Vector.getElem?_set] at h ⊢
    split at h
    · omega
    · split at h
      · omega
      · simp [Vector.getElem?_replicate] at h

/-- A pool whose pages have a reference for every slot there can be. -/
def referencedPool : Palloc where
  pages _ := { pa := 0x1000, ref := PTEPERTAB }
  user := 1
  free := { head := none, tail := none, next := fun _ => none, prev := fun _ => none }
  freecount := 0
  chains := { heads := fun _ => none, next := fun _ => none }
  highwater := 0
  headroom := 0
  iref _ := 0
  mem _ := 0

/-- The holed table, copied and freed. -/
theorem ptecpy_freepte_holed :
    ∃ new k', referencedPool.ptecpy holedTable = .ok (new, k') ∧
      new.pages = holedTable.pages ∧ new.Windowed ∧
      k' = referencedPool.addRefs holedTable.holders ∧
      k'.freepte ⟨1, 0, fun _ => false⟩ .data false new = .ok referencedPool :=
  ptecpy_freepte ⟨1, 0, fun _ => false⟩ false holedTable_windowed
    (fun p => by
      unfold Pte.holders Pte.countIn
      exact le_trans List.countP_le_length (by simp [referencedPool]))
    (by decide)

end Glendum
