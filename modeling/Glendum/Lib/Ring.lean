import Mathlib.Data.List.Basic
import Mathlib.Logic.Function.Iterate
import Mathlib.Order.Fin.Basic
import Mathlib.Tactic.Common

/-!
# Ring buffers

A buffer of `N` places with a position to write to and a position to read from. Both
walk upwards and start again at place 0 behind the last one. The ring is empty when
they meet, so that one place always stays free and a ring holds at most `N - 1` values;
a value that finds the ring full is dropped.

A reader that wants arrays takes the contents as one or two of them, cut where the
ring wraps.

A program in C keeps two pointers, and nothing but its own tests holds them inside
the buffer; its stores and loads fault outside (`RingPtrs`).

* `contents_put` — a value comes behind what the ring holds;
* `flatten_pieces` — the arrays put one behind the other are the contents;
* `contents_readTo` — a reader that goes on takes a first part of the contents;
* `contents_readTo_next` — one that takes a value takes the oldest one;
* `ptrs_store` — the pointers do what the positions do.
-/

/-- `iw` is the next place to write, `ir` the next one to read. -/
@[ext]
structure RingBuf (α : Type*) (N : Nat) where
  buf : Vector α N
  iw  : Fin N
  ir  : Fin N

namespace RingBuf

variable {α : Type*} {N : Nat}

/-- The place behind `i`. -/
def next (i : Fin N) : Fin N :=
  if h : i.val + 1 < N then ⟨i.val + 1, h⟩ else ⟨0, Nat.zero_lt_of_lt i.isLt⟩

/-- The values at the places `i`, …, `j - 1`. -/
def seg (buf : Vector α N) (i j : Nat) : List α := (buf.toList.take j).drop i

def put (r : RingBuf α N) (a : α) : RingBuf α N :=
  if next r.iw = r.ir then r
  else { r with buf := r.buf.set r.iw a r.iw.isLt, iw := next r.iw }

/-- What was put and not read yet, oldest first. -/
def contents (r : RingBuf α N) : List α :=
  if r.ir ≤ r.iw then seg r.buf r.ir r.iw else seg r.buf r.ir N ++ seg r.buf 0 r.iw

/-- The contents as the arrays that lie in the buffer. -/
def pieces (r : RingBuf α N) : List (List α) :=
  if r.iw = r.ir then []
  else if r.iw < r.ir then
    seg r.buf r.ir N :: if r.iw.val = 0 then [] else [seg r.buf 0 r.iw]
  else [seg r.buf r.ir r.iw]

/-- All that was put has been read. -/
def drain (r : RingBuf α N) : RingBuf α N := { r with ir := r.iw }

/-! ## Segments -/

/-- The next place, with the wrap at the end of the buffer. -/
theorem val_next (i : Fin N) : (next i).val = if i.val + 1 < N then i.val + 1 else 0 := by
  unfold next
  split
  · rfl
  · rfl

/-- Between a place and itself there is nothing. -/
@[simp] theorem seg_self (buf : Vector α N) (i : Nat) : seg buf i i = [] := by
  rw [seg, List.drop_eq_nil_iff, List.length_take]
  omega

@[simp] theorem length_seg (buf : Vector α N) (i j : Nat) :
    (seg buf i j).length = min j N - i := by
  simp [seg]

/-- A segment grows by what is written at its end. -/
theorem seg_set_last {buf : Vector α N} {i j : Nat} (hi : i ≤ j) (hj : j < N) (a : α) :
    seg (buf.set j a hj) i (j + 1) = seg buf i j ++ [a] := by
  have hLen : j < (buf.toList.set j a).length := by simpa using hj
  rw [seg, seg, Vector.toList_set, List.take_add_one, List.getElem?_eq_getElem hLen,
    List.getElem_set_self, Option.toList_some, List.take_set_of_le (Nat.le_refl j)]
  -- the new value is the last of the segment, and the segment is not empty
  rw [List.drop_append_of_le_length]
  simpa using ⟨hi, by omega⟩

/-- A write outside a segment is not seen in it. -/
theorem seg_set_apart {buf : Vector α N} {i j k : Nat} (hk : k < N) (hOut : j ≤ k ∨ k < i) (a : α) :
    seg (buf.set k a hk) i j = seg buf i j := by
  rw [seg, seg, Vector.toList_set]
  rcases hOut with hOut | hOut
  · rw [List.take_set_of_le hOut]
  · rw [List.take_set, List.drop_set_of_lt hOut]

/-! ## Contents -/

/-- What is put comes last, or is dropped when the ring is full. -/
theorem contents_put (r : RingBuf α N) (a : α) :
    (r.put a).contents = if next r.iw = r.ir then r.contents else r.contents ++ [a] := by
  obtain ⟨buf, ⟨iw, hiw⟩, ⟨ir, hir⟩⟩ := r
  by_cases hFull : next ⟨iw, hiw⟩ = (⟨ir, hir⟩ : Fin N)
  · rw [if_pos hFull, put, if_pos hFull]
  rw [if_neg hFull, put, if_neg hFull]
  have hNext := val_next (⟨iw, hiw⟩ : Fin N)
  have hNe : (next (⟨iw, hiw⟩ : Fin N)).val ≠ ir := fun h => hFull (Fin.ext h)
  simp only [contents, Fin.le_def]
  rw [hNext] at hNe ⊢
  by_cases hWrap : iw + 1 < N
  · simp only [if_pos hWrap] at hNe ⊢
    by_cases hOrder : ir ≤ iw
    · rw [if_pos hOrder, if_pos (by omega), seg_set_last hOrder]
    · -- the places behind the reader are not touched
      rw [if_neg hOrder, if_neg (by omega), seg_set_apart hiw (Or.inr (by omega)),
        seg_set_last (Nat.zero_le _), List.append_assoc]
  · -- the value goes to the last place, and the writer starts again at place 0
    simp only [if_neg hWrap] at hNe ⊢
    have hLast : N = iw + 1 := by omega
    rw [if_pos (show ir ≤ iw by omega), if_neg (by omega), seg_self, List.append_nil]
    subst hLast
    rw [seg_set_last (by omega)]

/-- The pieces are the contents, in order. -/
theorem flatten_pieces (r : RingBuf α N) : r.pieces.flatten = r.contents := by
  unfold pieces contents
  by_cases hEmpty : r.iw = r.ir
  · rw [if_pos hEmpty, if_pos (le_of_eq hEmpty.symm), hEmpty, seg_self]
    rfl
  rw [if_neg hEmpty]
  by_cases hOrder : r.iw < r.ir
  · -- the first piece ends with the buffer; a second one is at its start
    rw [if_pos hOrder, if_neg (not_le.mpr hOrder)]
    by_cases hZero : r.iw.val = 0
    · simp [hZero]
    · simp [hZero]
  · rw [if_neg hOrder, if_pos (not_lt.mp hOrder)]
    simp

/-- A piece that is handed out has something in it. -/
theorem pieces_ne_nil {r : RingBuf α N} {p : List α} (h : p ∈ r.pieces) : p ≠ [] := by
  have hir := r.ir.isLt
  have hiw := r.iw.isLt
  unfold pieces at h
  apply List.ne_nil_of_length_pos
  split at h
  · simp at h
  · next hNe =>
    have hNe' : r.iw.val ≠ r.ir.val := fun e => hNe (Fin.ext e)
    split at h
    · -- wrapped: the end of the array, then its beginning unless that is empty
      next hLt =>
      rw [Fin.lt_def] at hLt
      rcases List.mem_cons.mp h with rfl | h
      · rw [length_seg]
        omega
      · split at h
        · simp at h
        · obtain rfl := List.mem_singleton.mp h
          rw [length_seg]
          omega
    · next hLt =>
      rw [Fin.lt_def] at hLt
      obtain rfl := List.mem_singleton.mp h
      rw [length_seg]
      omega

/-- There are two pieces at most, as the contents wrap once. -/
theorem length_pieces (r : RingBuf α N) : r.pieces.length ≤ 2 := by
  unfold pieces
  split
  · exact Nat.zero_le _
  · split
    · split
      · exact Nat.le_succ 1
      · exact Nat.le_refl 2
    · exact Nat.le_succ 1

/-- A ring that was drained is empty. -/
@[simp] theorem contents_drain (r : RingBuf α N) : r.drain.contents = [] := by
  simp [contents, drain]

/-- There is nothing to read in a ring whose positions meet. -/
theorem drain_of_empty {r : RingBuf α N} (h : r.iw = r.ir) : r.drain = r :=
  RingBuf.ext rfl rfl h

/-- The positions meet only in an empty ring. -/
theorem contents_eq_nil {r : RingBuf α N} : r.contents = [] ↔ r.iw = r.ir := by
  constructor
  · intro h
    by_contra hNe
    cases hPieces : r.pieces with
    | nil =>
      unfold pieces at hPieces
      rw [if_neg hNe] at hPieces
      split at hPieces <;> cases hPieces
    | cons p ps =>
      -- a ring whose positions differ has a piece, and pieces are not empty
      have hIn : p ∈ r.pieces := hPieces ▸ List.mem_cons_self ..
      have hFlat := flatten_pieces r
      rw [h, hPieces, List.flatten_cons, List.append_eq_nil_iff] at hFlat
      exact pieces_ne_nil hIn hFlat.1
  · intro h
    rw [contents, if_pos (le_of_eq h.symm), h, seg_self]

/-! ## Room -/

/-- How many more values the ring takes. -/
def room (r : RingBuf α N) : Nat := N - 1 - r.contents.length

/-- The number of bytes, from the two places. -/
theorem length_contents (r : RingBuf α N) :
    r.contents.length = if r.ir ≤ r.iw then r.iw.val - r.ir.val else N - r.ir.val + r.iw.val := by
  have hir := r.ir.isLt
  have hiw := r.iw.isLt
  unfold contents
  split
  · rw [length_seg, Nat.min_eq_left (Nat.le_of_lt hiw)]
  · rw [List.length_append, length_seg, length_seg]
    omega

/-- A ring is full when its writer would meet its reader. -/
theorem room_eq_zero {r : RingBuf α N} : r.room = 0 ↔ next r.iw = r.ir := by
  have hir := r.ir.isLt
  have hiw := r.iw.isLt
  rw [room, length_contents, Fin.ext_iff, val_next]
  simp only [Fin.le_def]
  by_cases hOrder : r.ir.val ≤ r.iw.val
  · rw [if_pos hOrder]
    split
    · omega
    · omega
  · rw [if_neg hOrder, if_pos (by omega)]
    omega

/-- A full ring leaves one place free. -/
theorem length_contents_of_full {r : RingBuf α N} (h : next r.iw = r.ir) :
    r.contents.length = N - 1 := by
  have hRoom := room_eq_zero.mpr h
  have hir := r.ir.isLt
  have hiw := r.iw.isLt
  have hLen := length_contents r
  rw [room] at hRoom
  simp only [Fin.le_def] at hLen
  by_cases hOrder : r.ir.val ≤ r.iw.val
  · rw [if_pos hOrder] at hLen
    omega
  · rw [if_neg hOrder] at hLen
    omega

/-- A full ring stays as it is. -/
theorem puts_full {r : RingBuf α N} (h : next r.iw = r.ir) (as : List α) : as.foldl put r = r := by
  induction as with
  | nil => rfl
  | cons a as ih => rw [List.foldl_cons, put, if_pos h, ih]

/-- Of values put one behind the other a ring takes as many as it has room for. -/
theorem contents_puts (r : RingBuf α N) (as : List α) :
    (as.foldl put r).contents = r.contents ++ as.take r.room := by
  induction as generalizing r with
  | nil => simp
  | cons a as ih =>
    rw [List.foldl_cons, ih]
    by_cases hFull : next r.iw = r.ir
    · -- nothing is taken from here on
      have hPut : r.put a = r := by rw [put, if_pos hFull]
      rw [hPut, room_eq_zero.mpr hFull, List.take_zero, List.take_zero]
    · -- one value is taken, and the room gets less by one
      have hSome : r.room ≠ 0 := fun h => hFull (room_eq_zero.mp h)
      have hRoom : r.room = (r.put a).room + 1 := by
        unfold room at hSome ⊢
        rw [contents_put, if_neg hFull, List.length_append, List.length_singleton]
        omega
      rw [contents_put, if_neg hFull, hRoom, List.take_succ_cons, List.append_assoc]
      rfl

/-! ## Positions -/

/-- The place before `i`. -/
def prev (i : Fin N) : Fin N :=
  if h : i.val = 0 then ⟨N - 1, Nat.sub_one_lt_of_lt i.isLt⟩ else ⟨i.val - 1, by omega⟩

/-- What comes after the place before is the place itself. -/
theorem next_prev : Function.LeftInverse (next (N := N)) prev := by
  intro i
  have hi := i.isLt
  apply Fin.ext
  rw [val_next, prev]
  split
  · next h => rw [if_neg (by simp only; omega), h]
  · next h =>
    rw [if_pos (by simp only; omega)]
    simp only
    omega

/-- Any place is reached from some place in a number of steps. -/
theorem exists_iterate_next (k : Nat) (q : Fin N) : ∃ p, next^[k] p = q :=
  ⟨prev^[k] q, next_prev.iterate k q⟩

/-- A ring that does not wrap lies in one array. -/
theorem pieces_eq_singleton {r : RingBuf α N} (hNe : r.iw ≠ r.ir)
    (hFlat : r.ir < r.iw ∨ r.iw.val = 0) : r.pieces = [r.contents] := by
  have hir := r.ir.isLt
  unfold pieces contents
  rw [if_neg hNe]
  by_cases hOrder : r.iw < r.ir
  · have hZero : r.iw.val = 0 := hFlat.resolve_left (fun h => absurd (lt_trans h hOrder) (lt_irrefl _))
    rw [if_pos hOrder, if_neg (not_le.mpr hOrder), if_pos hZero, hZero, seg_self, List.append_nil]
  · rw [if_neg hOrder, if_pos (not_lt.mp hOrder)]

/-- Who puts does not move the place of the reader. -/
theorem ir_put (r : RingBuf α N) (a : α) : (r.put a).ir = r.ir := by
  unfold put
  split
  · rfl
  · rfl

/-- The writer moves on by one place, if there is one. -/
theorem iw_put {r : RingBuf α N} (h : next r.iw ≠ r.ir) (a : α) : (r.put a).iw = next r.iw := by
  rw [put, if_neg h]

/-! ## Reading a part -/

/-- How far `j` lies ahead of `i` when one walks upwards. -/
def ahead (i j : Fin N) : Nat := if i ≤ j then j.val - i.val else N - i.val + j.val

/-- The reader goes on to `j`. -/
def readTo (r : RingBuf α N) (j : Fin N) : RingBuf α N := { r with ir := j }

theorem ahead_of_le {i j : Fin N} (h : i ≤ j) : ahead i j = j.val - i.val := if_pos h

theorem ahead_of_lt {i j : Fin N} (h : j < i) : ahead i j = N - i.val + j.val :=
  if_neg (not_le.mpr h)

theorem contents_of_le {r : RingBuf α N} (h : r.ir ≤ r.iw) : r.contents = seg r.buf r.ir r.iw :=
  if_pos h

theorem contents_of_lt {r : RingBuf α N} (h : r.iw < r.ir) :
    r.contents = seg r.buf r.ir N ++ seg r.buf 0 r.iw := if_neg (not_le.mpr h)

/-- The contents are as many as the writer is ahead. -/
theorem length_contents_ahead (r : RingBuf α N) : r.contents.length = ahead r.ir r.iw :=
  length_contents r

/-- A segment without its beginning. -/
theorem drop_seg {i j : Nat} (h : i ≤ j) (buf : Vector α N) (k : Nat) :
    (seg buf i k).drop (j - i) = seg buf j k := by
  rw [seg, seg, List.drop_drop, Nat.add_sub_cancel' h]

/-- A segment without its end. -/
theorem take_seg {i j k : Nat} (h : i ≤ j) (h' : j ≤ k) (buf : Vector α N) :
    (seg buf i k).take (j - i) = seg buf i j := by
  rw [seg, seg, List.take_drop, Nat.add_sub_cancel' h, List.take_take, Nat.min_eq_left h']

/-- A ring that has its contents beyond the end of the array has the writer behind
the reader. -/
theorem wrapped_of_length {r : RingBuf α N} (h : N - r.ir.val ≤ r.contents.length) : r.iw < r.ir := by
  have hir := r.ir.isLt
  have hiw := r.iw.isLt
  by_contra hOrder
  rw [length_contents_ahead, ahead_of_le (not_lt.mp hOrder)] at h
  omega

/-- An array from the reader on that is not longer than the contents is their start. -/
theorem seg_eq_take {r : RingBuf α N} {k : Nat} (hk : r.ir.val ≤ k) (hN : k ≤ N)
    (h : k - r.ir.val ≤ r.contents.length) : seg r.buf r.ir k = r.contents.take (k - r.ir.val) := by
  have hiw := r.iw.isLt
  rcases lt_or_ge r.iw r.ir with hWrap | hOrder
  · rw [contents_of_lt hWrap, List.take_append_of_le_length, take_seg hk hN]
    rw [length_seg, Nat.min_self]
    omega
  · rw [length_contents_ahead, ahead_of_le hOrder] at h
    have hOrder' : r.ir.val ≤ r.iw.val := hOrder
    have hLe : k ≤ r.iw.val := by omega
    rw [contents_of_le hOrder, take_seg hk hLe]

/-- A reader that moves on leaves the rest. -/
theorem contents_readTo {r : RingBuf α N} {j : Fin N} (h : ahead r.ir j ≤ r.contents.length) :
    (r.readTo j).contents = r.contents.drop (ahead r.ir j) := by
  have hir := r.ir.isLt
  have hTail : (seg r.buf r.ir N).length = N - r.ir.val := by rw [length_seg, Nat.min_self]
  rcases lt_or_ge j r.ir with hTurn | hOn
  · -- the reader passes the end of the array, so the contents do
    rw [ahead_of_lt hTurn] at h ⊢
    have hWrap : r.iw < r.ir := wrapped_of_length (by omega)
    have hLen := length_contents_ahead r
    rw [ahead_of_lt hWrap] at hLen
    have hLe : j ≤ r.iw := Fin.le_def.mpr (by omega)
    have hTo : (r.readTo j).contents = seg r.buf j r.iw := contents_of_le hLe
    rw [hTo, contents_of_lt hWrap, ← List.drop_drop, ← hTail, List.drop_left]
    exact (drop_seg (Nat.zero_le _) r.buf r.iw).symm
  · rw [ahead_of_le hOn] at h ⊢
    rcases lt_or_ge r.iw r.ir with hWrap | hOrder
    · have hTo : (r.readTo j).contents = seg r.buf j N ++ seg r.buf 0 r.iw :=
        contents_of_lt (lt_of_lt_of_le hWrap hOn)
      rw [hTo, contents_of_lt hWrap, List.drop_append_of_le_length (by omega), drop_seg hOn]
    · have hLen := length_contents_ahead r
      rw [ahead_of_le hOrder] at hLen
      have hOrder' : r.ir.val ≤ r.iw.val := hOrder
      have hLe : j ≤ r.iw := Fin.le_def.mpr (by omega)
      have hTo : (r.readTo j).contents = seg r.buf j r.iw := contents_of_le hLe
      rw [hTo, contents_of_le hOrder, drop_seg hOn]

/-! ## Reading one value -/

/-- The reader stands at the oldest value. -/
theorem getElem?_ir {r : RingBuf α N} (h : r.contents ≠ []) :
    r.buf[r.ir.val]? = r.contents.head? := by
  have hir := r.ir.isLt
  have hPos := List.length_pos_of_ne_nil h
  have hFirst := seg_eq_take (r := r) (k := r.ir.val + 1) (by omega) hir (by omega)
  have hLen : r.ir.val < r.buf.toList.length := by rwa [Vector.length_toList]
  rw [seg, List.take_add_one, List.getElem?_eq_getElem hLen, Option.toList_some,
    List.drop_append_of_le_length (by rw [List.length_take]; omega),
    List.drop_eq_nil_iff.mpr (by rw [List.length_take]; omega), List.nil_append,
    Nat.add_sub_cancel_left] at hFirst
  rw [Vector.getElem?_eq_getElem hir]
  cases hContents : r.contents with
  | nil => exact absurd hContents h
  | cons a as =>
    rw [hContents, List.take_succ_cons, List.take_zero, List.cons.injEq] at hFirst
    exact congrArg some hFirst.1

/-- The reader takes the oldest value. -/
theorem contents_readTo_next {r : RingBuf α N} (h : r.contents ≠ []) :
    (r.readTo (next r.ir)).contents = r.contents.tail := by
  have hir := r.ir.isLt
  have hPos := List.length_pos_of_ne_nil h
  have hLen := length_contents_ahead r
  -- one place further on, since the positions differ
  have hOne : ahead r.ir (next r.ir) = 1 := by
    have hNext := val_next r.ir
    by_cases hWrap : r.ir.val + 1 < N
    · rw [if_pos hWrap] at hNext
      rw [ahead_of_le (Fin.le_def.mpr (by omega))]
      omega
    · rw [if_neg hWrap] at hNext
      have hNe : r.iw ≠ r.ir := fun hEq => h (contents_eq_nil.mpr hEq)
      have hTurn : next r.ir < r.ir := by
        have hiw := r.iw.isLt
        have hNe' : r.iw.val ≠ r.ir.val := fun hEq => hNe (Fin.ext hEq)
        rw [Fin.lt_def]
        omega
      rw [ahead_of_lt hTurn]
      omega
  rw [contents_readTo (by omega), hOne, List.drop_one]

end RingBuf

/-! ## Pointers -/

/-- The ring of a program in C, with its pointers as offsets into the buffer. -/
structure RingPtrs (α : Type*) (N : Nat) where
  buf : Vector α N
  iw  : Nat
  ir  : Nat

namespace RingPtrs

variable {α : Type*} {N : Nat}

/-- The pointer behind `iw`; at the end of the buffer it is set to the start. -/
def next (r : RingPtrs α N) : Nat := if N ≤ r.iw + 1 then 0 else r.iw + 1

/-- `*iw = a; iw = next`; `none` is a store outside the buffer. -/
def store (r : RingPtrs α N) (a : α) : Option (RingPtrs α N) :=
  if h : r.iw < N then some { r with buf := r.buf.set r.iw a h, iw := r.next } else none

/-- The array from `i` to `j`; `none` when that does not lie in the buffer. -/
def load (r : RingPtrs α N) (i j : Nat) : Option (List α) :=
  if i ≤ j ∧ j ≤ N then some (RingBuf.seg r.buf i j) else none

/-- The values from the reader on up to the writer. -/
def contents (r : RingPtrs α N) : List α :=
  if r.ir ≤ r.iw then RingBuf.seg r.buf r.ir r.iw
  else RingBuf.seg r.buf r.ir N ++ RingBuf.seg r.buf 0 r.iw

end RingPtrs

namespace RingBuf

variable {α : Type*} {N : Nat}

def ptrs (r : RingBuf α N) : RingPtrs α N := ⟨r.buf, r.iw, r.ir⟩

@[simp] theorem ptrs_iw (r : RingBuf α N) : r.ptrs.iw = r.iw := rfl

@[simp] theorem ptrs_ir (r : RingBuf α N) : r.ptrs.ir = r.ir := rfl

@[simp] theorem ptrs_contents (r : RingBuf α N) : r.ptrs.contents = r.contents := rfl

/-- The next place of the writer, by pointers. -/
theorem ptrs_next (r : RingBuf α N) : r.ptrs.next = next r.iw := by
  rw [RingPtrs.next, val_next, ptrs_iw]
  by_cases h : r.iw.val + 1 < N
  · rw [if_pos h, if_neg (not_le.mpr h)]
  · rw [if_neg h, if_pos (not_lt.mp h)]

/-- The test for a full ring, by pointers. -/
theorem ptrs_full {r : RingBuf α N} : r.ptrs.next = r.ptrs.ir ↔ next r.iw = r.ir := by
  rw [ptrs_next, ptrs_ir, Fin.ext_iff]

/-- A store into a ring that is not full. -/
theorem ptrs_store {r : RingBuf α N} (h : next r.iw ≠ r.ir) (a : α) :
    r.ptrs.store a = some (r.put a).ptrs := by
  rw [RingPtrs.store, dif_pos (show r.ptrs.iw < N from r.iw.isLt), ptrs_next, put, if_neg h]
  rfl

/-- A block from the reader's pointer has the contents up to there. -/
theorem ptrs_load {r : RingBuf α N} {k : Nat} (hk : r.ir.val ≤ k) (hN : k ≤ N)
    (h : k - r.ir.val ≤ r.contents.length) :
    r.ptrs.load r.ptrs.ir k = some (r.contents.take (k - r.ir.val)) := by
  rw [RingPtrs.load, if_pos ⟨hk, hN⟩, ← seg_eq_take hk hN h]
  rfl

end RingBuf
