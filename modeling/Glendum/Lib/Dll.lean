import Glendum.Lib.Chain
import Mathlib.Data.List.Basic
import Mathlib.Data.List.Nodup
import Mathlib.Logic.Function.Basic
import Mathlib.Tactic.Common

/-!
# Doubly linked lists in a heap

Nodes carry a `next` and a `prev` pointer, and two more pointers hold the ends
of one list. `Links.IsList s l` says that the pointers of `s` spell the list
`l`: around every node of `l` they name its two neighbours, and the end pointers
name its ends. The three edits — `unlink`, `pushBack`, `pushFront` — are written
pointer by pointer, and each has one rule:

* `IsList.unlink` — a node taken out from anywhere: front, back, middle or the
  only one;
* `IsList.pushBack`, `IsList.pushFront` — a node put at an end, of an empty list
  or not;
* `IsList.chain` — read forwards, the list is a chain.
-/

namespace Lists

/-- The pointers of one doubly linked list over nodes `α`. -/
structure Links (α : Type*) where
  head : Option α
  tail : Option α
  next : α → Option α
  prev : α → Option α

namespace Links

variable {α : Type*} [DecidableEq α]

/-! ## The edits -/

def unlink (s : Links α) (p : α) : Links α :=
  let s := match s.prev p with
    | some q => { s with next := Function.update s.next q (s.next p) }
    | none => { s with head := s.next p }
  let s := match s.next p with
    | some q => { s with prev := Function.update s.prev q (s.prev p) }
    | none => { s with tail := s.prev p }
  { s with prev := Function.update s.prev p none, next := Function.update s.next p none }

def pushBack (s : Links α) (p : α) : Links α :=
  let s := match s.tail with
    | some q => { s with prev := Function.update s.prev p (some q),
                         next := Function.update s.next q (some p) }
    | none => { s with head := some p, prev := Function.update s.prev p none }
  { s with tail := some p, next := Function.update s.next p none }

def pushFront (s : Links α) (p : α) : Links α :=
  let s := match s.head with
    | some q => { s with next := Function.update s.next p (some q),
                         prev := Function.update s.prev q (some p) }
    | none => { s with tail := some p, next := Function.update s.next p none }
  { s with head := some p, prev := Function.update s.prev p none }

/-! ## The list a heap spells -/

/-- The pointers of `s` spell the list `l`. -/
structure IsList (s : Links α) (l : List α) : Prop where
  nodup : l.Nodup
  head : s.head = l.head?
  tail : s.tail = l.getLast?
  around : ∀ xs a ys, l = xs ++ a :: ys → s.prev a = xs.getLast? ∧ s.next a = ys.head?

omit [DecidableEq α] in
theorem IsList.chain {s : Links α} {l : List α} (h : s.IsList l) :
    Chain s.next s.head l := by
  rw [h.head]
  -- the nodes behind any prefix of the list are a chain
  have hTails : ∀ ys xs, l = xs ++ ys → Chain s.next ys.head? ys := by
    intro ys
    induction ys with
    | nil => exact fun _ _ => rfl
    | cons a ys ih =>
      intro xs hl
      refine ⟨rfl, ?_⟩
      rw [(h.around xs a ys hl).2]
      exact ih (xs ++ [a]) (by simp [hl])
  exact hTails l [] rfl

/-! ## Taking a node out -/

/-- The second write of `unlink` reads the node's own pointer unchanged. -/
theorem update_read (f : α → Option α) (p q : α) : Function.update f q (f p) p = f p := by
  by_cases h : p = q <;> simp [h]

theorem unlink_next (s : Links α) (p a : α) :
    (s.unlink p).next a =
      if a = p then none else if s.prev p = some a then s.next p else s.next a := by
  unfold unlink
  cases hPrev : s.prev p with
  | none => cases hNext : s.next p <;> simp [hNext, Function.update_apply]
  | some q =>
    have hqa : (some q = some a) ↔ (a = q) := by rw [Option.some.injEq, eq_comm]
    cases hNext : s.next p <;> simp [hNext, hqa, Function.update_apply]

theorem unlink_prev (s : Links α) (p a : α) :
    (s.unlink p).prev a =
      if a = p then none else if s.next p = some a then s.prev p else s.prev a := by
  unfold unlink
  cases hPrev : s.prev p with
  | none =>
    cases hNext : s.next p with
    | none => simp [hNext, Function.update_apply]
    | some q =>
      have hqa : (some q = some a) ↔ (a = q) := by rw [Option.some.injEq, eq_comm]
      simp [hNext, hPrev, hqa, Function.update_apply]
  | some r =>
    cases hNext : s.next p with
    | none => simp [hNext, Function.update_apply]
    | some q =>
      have hqa : (some q = some a) ↔ (a = q) := by rw [Option.some.injEq, eq_comm]
      simp [hNext, hPrev, hqa, Function.update_apply]

theorem unlink_head (s : Links α) (p : α) :
    (s.unlink p).head = if s.prev p = none then s.next p else s.head := by
  unfold unlink
  cases hPrev : s.prev p with
  | none => cases hNext : s.next p <;> simp [hNext]
  | some q =>
    -- the second write tests a pointer that the first has stored to
    cases hNext : Function.update s.next q (s.next p) p <;> simp [hNext]

theorem unlink_tail (s : Links α) (p : α) :
    (s.unlink p).tail = if s.next p = none then s.prev p else s.tail := by
  unfold unlink
  cases hPrev : s.prev p with
  | none => cases hNext : s.next p <;> simp [hNext, hPrev]
  | some q =>
    have hRead := update_read s.next p q
    cases hNext : s.next p <;> rw [hNext] at hRead <;> simp [hPrev, hRead]

omit [DecidableEq α] in
/-- The node a list ends with, when the list has no repetition, has nothing of
the list behind it. -/
theorem getLast?_split {us vs : List α} {a : α} (h : (us ++ a :: vs).Nodup) :
    (us ++ a :: vs).getLast? = some a ↔ vs = [] := by
  constructor
  · intro hLast
    by_contra hne
    obtain ⟨ws, b, rfl⟩ := List.eq_nil_or_concat' vs |>.resolve_left hne
    have hba : b = a := by
      rw [← List.cons_append, ← List.append_assoc, List.getLast?_concat] at hLast
      exact Option.some.inj hLast
    have hNot : a ∉ ws ++ [b] := by
      simpa using (List.nodup_cons.mp (List.nodup_append.mp h).2.1).1
    exact hNot (by simp [hba])
  · rintro rfl
    simp

omit [DecidableEq α] in
theorem head?_split {us vs : List α} {a : α} (h : (us ++ a :: vs).Nodup) :
    (us ++ a :: vs).head? = some a ↔ us = [] := by
  cases us with
  | nil => simp
  | cons b us =>
    have hba : b ≠ a := by
      rintro rfl
      simp at h
    simp [hba]

/-- Taking out a node of the list leaves the others in order. -/
theorem IsList.unlink {s : Links α} {xs ys : List α} {p : α} (h : s.IsList (xs ++ p :: ys)) :
    (s.unlink p).IsList (xs ++ ys) := by
  obtain ⟨hPrev, hNext⟩ := h.around xs p ys rfl
  have hNodup := h.nodup
  have hpx : p ∉ xs := by
    intro hMem
    exact (List.nodup_append.mp hNodup).2.2 p hMem p (List.mem_cons_self ..) rfl
  have hpy : p ∉ ys := (List.nodup_cons.mp (List.nodup_append.mp hNodup).2.1).1
  have hApart : ∀ a ∈ xs, a ∉ ys := fun a hx hy =>
    (List.nodup_append.mp hNodup).2.2 a hx a (List.mem_cons_of_mem _ hy) rfl
  refine ⟨?_, ?_, ?_, ?_⟩
  · exact hNodup.sublist ((List.sublist_cons_self p ys).append_left xs)
  · -- the head moves only when the node was the first one
    rw [unlink_head, hPrev, hNext, h.head]
    cases xs with
    | nil => simp
    | cons x xs => simp
  · -- and the tail only when it was the last
    rw [unlink_tail, hPrev, hNext, h.tail]
    cases ys with
    | nil => simp
    | cons y ys => simp [List.getLast?_append]
  · intro us a vs hSplit
    rcases List.append_eq_append_iff.mp hSplit with ⟨as, hus, hys⟩ | ⟨as, hxs, hvs⟩
    · -- the node lies behind the one taken out
      have hay : a ∈ ys := by simp [hys]
      have hap : a ≠ p := fun h => hpy (h ▸ hay)
      have hax : a ∉ xs := fun hx => hApart a hx hay
      have hNotLast : xs.getLast? ≠ some a := fun h => hax (List.mem_of_getLast? h)
      obtain ⟨hPrevA, hNextA⟩ := h.around (xs ++ p :: as) a vs (by simp [hys])
      have hys' : ys.Nodup := (List.nodup_cons.mp (List.nodup_append.mp hNodup).2.1).2
      rw [unlink_prev, unlink_next, if_neg hap, if_neg hap, hPrev, hNext, if_neg hNotLast]
      refine ⟨?_, hNextA⟩
      subst hys hus
      by_cases hFirst : as = []
      · simp [hFirst]
      · rw [if_neg (mt (head?_split hys').mp hFirst), hPrevA]
        obtain ⟨b, hb⟩ := Option.isSome_iff_exists.mp (List.getLast?_isSome.mpr hFirst)
        simp [List.getLast?_append, List.getLast?_cons, hb]
    · cases as with
      | nil =>
        -- the node is the first one behind it
        rw [List.append_nil] at hxs
        rw [List.nil_append] at hvs
        subst hxs hvs
        have hap : a ≠ p := fun h => hpy (by simp [h])
        have hNotLast : xs.getLast? ≠ some a := fun h =>
          hApart a (List.mem_of_getLast? h) (List.mem_cons_self ..)
        obtain ⟨-, hNextA⟩ := h.around (xs ++ [p]) a vs (by simp)
        rw [unlink_prev, unlink_next, if_neg hap, if_neg hap, hPrev, hNext, if_neg hNotLast]
        exact ⟨by simp, hNextA⟩
      | cons b as =>
        -- the node lies before it
        rw [List.cons_append, List.cons.injEq] at hvs
        obtain ⟨rfl, rfl⟩ := hvs
        have hax : a ∈ xs := by simp [hxs]
        have hap : a ≠ p := fun h => hpx (h ▸ hax)
        have hNotFirst : ys.head? ≠ some a := fun h =>
          hApart a hax (List.mem_of_head? h)
        have hxs' : xs.Nodup := (List.nodup_append.mp hNodup).1
        obtain ⟨hPrevA, hNextA⟩ := h.around us a (as ++ p :: ys) (by simp [hxs])
        rw [unlink_prev, unlink_next, if_neg hap, if_neg hap, hPrev, hNext, if_neg hNotFirst]
        refine ⟨hPrevA, ?_⟩
        subst hxs
        by_cases hLast : as = []
        · simp [hLast]
        · rw [if_neg (mt (getLast?_split hxs').mp hLast), hNextA]
          cases as with
          | nil => exact absurd rfl hLast
          | cons c as => simp

theorem IsList.unlink_erase {s : Links α} {l : List α} {p : α} (h : s.IsList l) (hp : p ∈ l) :
    (s.unlink p).IsList (l.erase p) := by
  obtain ⟨xs, ys, rfl⟩ := List.append_of_mem hp
  have hpx : p ∉ xs := by
    intro hMem
    exact (List.nodup_append.mp h.nodup).2.2 p hMem p (List.mem_cons_self ..) rfl
  rw [List.erase_append_right _ hpx, List.erase_cons_head]
  exact h.unlink

/-! ## Putting a node at an end -/

/-- A node that is not in the list goes behind its last one. -/
theorem IsList.pushBack {s : Links α} {l : List α} {p : α} (h : s.IsList l) (hp : p ∉ l) :
    (s.pushBack p).IsList (l ++ [p]) := by
  have hNodup : (l ++ [p]).Nodup := by
    rw [List.nodup_append]
    refine ⟨h.nodup, by simp, ?_⟩
    intro a ha b hb hab
    rw [List.mem_singleton] at hb
    exact hp (hb ▸ hab ▸ ha)
  rcases List.eq_nil_or_concat' l with rfl | ⟨xs, q, rfl⟩
  · -- an empty list: the node becomes both ends
    have hTail : s.tail = none := h.tail
    refine ⟨hNodup, ?_, ?_, ?_⟩
    · simp [Links.pushBack, hTail]
    · simp [Links.pushBack, hTail]
    · intro us a vs hSplit
      rw [List.nil_append, List.singleton_eq_append_iff] at hSplit
      simp only [List.cons.injEq, reduceCtorEq, and_false, or_false] at hSplit
      obtain ⟨rfl, rfl, rfl⟩ := hSplit
      simp [Links.pushBack, hTail]
  · -- only the node, the old tail `q` and the tail pointer change
    have hTail : s.tail = some q := by simpa using h.tail
    have hqp : q ≠ p := by
      rintro rfl
      simp at hp
    have hQ := h.around xs q [] (by simp)
    refine ⟨hNodup, ?_, ?_, ?_⟩
    · rw [show (s.pushBack p).head = s.head by simp [Links.pushBack, hTail], h.head]
      cases xs <;> simp
    · simp [Links.pushBack, hTail]
    · intro us a vs hSplit
      have hNext : ∀ a, (s.pushBack p).next a =
          if a = p then none else if a = q then some p else s.next a := by
        intro a
        simp [Links.pushBack, hTail, Function.update_apply]
      have hPrev : ∀ a, (s.pushBack p).prev a = if a = p then some q else s.prev a := by
        intro a
        simp [Links.pushBack, hTail, Function.update_apply]
      rcases List.eq_nil_or_concat' vs with rfl | ⟨ws, b, rfl⟩
      · -- the new node
        obtain ⟨rfl, hpa⟩ := List.append_inj' hSplit rfl
        obtain rfl : p = a := by simpa using hpa
        rw [hNext, hPrev]
        simp
      · -- a node of the old list, with `ws` behind it there
        rw [← List.cons_append, ← List.append_assoc] at hSplit
        obtain ⟨hOld, hpb⟩ := List.append_inj' hSplit rfl
        obtain rfl : p = b := by simpa using hpb
        have hap : a ≠ p := by
          rintro rfl
          exact hp (by simp [hOld])
        obtain ⟨hPrevA, hNextA⟩ := h.around us a ws (by simpa using hOld)
        rw [hNext, hPrev, if_neg hap, if_neg hap, hPrevA]
        refine ⟨rfl, ?_⟩
        have hLast := getLast?_split (hOld ▸ (by simpa using h.nodup : (xs ++ [q]).Nodup))
        rw [← hOld] at hLast
        by_cases haq : a = q
        · have hWs : ws = [] := hLast.mp (by simp [haq])
          simp [haq, hWs]
        · have hWs : ws ≠ [] := fun h => haq (by simpa [eq_comm] using hLast.mpr h)
          rw [if_neg haq, hNextA]
          cases ws with
          | nil => exact absurd rfl hWs
          | cons c ws => simp

/-- A node that is not in the list goes before its first one. -/
theorem IsList.pushFront {s : Links α} {l : List α} {p : α} (h : s.IsList l) (hp : p ∉ l) :
    (s.pushFront p).IsList (p :: l) := by
  have hNodup : (p :: l).Nodup := List.nodup_cons.mpr ⟨hp, h.nodup⟩
  cases l with
  | nil =>
    -- an empty list: the node becomes both ends
    have hHead : s.head = none := h.head
    refine ⟨hNodup, ?_, ?_, ?_⟩
    · simp [Links.pushFront, hHead]
    · simp [Links.pushFront, hHead]
    · intro us a vs hSplit
      rw [List.singleton_eq_append_iff] at hSplit
      simp only [List.cons.injEq, reduceCtorEq, and_false, or_false] at hSplit
      obtain ⟨rfl, rfl, rfl⟩ := hSplit
      simp [Links.pushFront, hHead]
  | cons q xs =>
    -- only the node, the old head `q` and the head pointer change
    have hHead : s.head = some q := by simpa using h.head
    have hqp : q ≠ p := by
      rintro rfl
      simp at hp
    have hNext : ∀ a, (s.pushFront p).next a = if a = p then some q else s.next a := by
      intro a
      simp [Links.pushFront, hHead, Function.update_apply]
    have hPrev : ∀ a, (s.pushFront p).prev a
        = if a = p then none else if a = q then some p else s.prev a := by
      intro a
      simp [Links.pushFront, hHead, Function.update_apply]
    refine ⟨hNodup, ?_, ?_, ?_⟩
    · simp [Links.pushFront, hHead]
    · rw [show (s.pushFront p).tail = s.tail by simp [Links.pushFront, hHead], h.tail]
      simp
    · intro us a vs hSplit
      cases us with
      | nil =>
        -- the new node
        rw [List.nil_append, List.cons.injEq] at hSplit
        obtain ⟨rfl, rfl⟩ := hSplit
        rw [hNext, hPrev]
        simp
      | cons b us =>
        -- a node of the old list, with `us` before it there
        rw [List.cons_append, List.cons.injEq] at hSplit
        obtain ⟨rfl, hOld⟩ := hSplit
        have hap : a ≠ p := by
          rintro rfl
          exact hp (by simp [hOld])
        obtain ⟨hPrevA, hNextA⟩ := h.around us a vs hOld
        rw [hNext, hPrev, if_neg hap, if_neg hap, hNextA]
        refine ⟨?_, rfl⟩
        have hFirst := head?_split (hOld ▸ h.nodup)
        rw [← hOld] at hFirst
        by_cases haq : a = q
        · have hUs : us = [] := hFirst.mp (by simp [haq])
          simp [haq, hUs]
        · have hUs : us ≠ [] := fun h => haq (by simpa [eq_comm] using hFirst.mpr h)
          rw [if_neg haq, hPrevA]
          obtain ⟨c, hc⟩ := Option.isSome_iff_exists.mp (List.getLast?_isSome.mpr hUs)
          simp [List.getLast?_cons, hc]

end Links

end Lists
