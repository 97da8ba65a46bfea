import Mathlib.Algebra.Ring.Nat
import Mathlib.Data.List.Basic
import Mathlib.Tactic.Common

/-!
# Positional reads of a text that is made piece by piece

A reader asks for `n` items at an offset. The text is never built: its pieces are made one
after the other, those before the offset are skipped, and copying stops as soon as nothing
is wanted any more. `Reading` says what a request has become behind some of the text.

* `Reads.foldlM` — a loop whose rounds deal with their pieces deals with all of the text;
* `consecutive_eq` — reads that go on where the last one ended give the text.
-/

namespace Positional

variable {α β : Type*}

/-- What is still wanted, how much is to be skipped before, and what was copied. -/
structure Request (α : Type*) where
  n      : Int
  offset : Int
  buf    : List α

/-- The items of the text from an offset on, `n` at most. -/
def slice (n off : Nat) (text : List α) : List α := (text.drop off).take n

/-- Behind the text `done` the request is open. -/
structure Reading (n off : Nat) (done : List α) (r : Request α) : Prop where
  buf    : r.buf = slice n off done
  n      : r.n = (n : Int) - r.buf.length
  offset : r.offset = ((off - done.length : Nat) : Int)

/-- Within the text `done` the request was met. -/
structure Finished (n off : Nat) (done : List α) (r : Request α) : Prop where
  buf    : r.buf = slice n off done
  length : r.buf.length = n

/-- A step deals with the piece `text`. It ends early when the request is met. -/
def Reads (n off : Nat) (text : List α) (f : Request α → Except (Request α) (Request α)) :
    Prop :=
  ∀ done r, Reading n off done r →
    match f r with
    | .ok r' => Reading n off (done ++ text) r'
    | .error r' => Finished n off (done ++ text) r'

/-! ## Pieces -/

section

variable {n off : Nat} {done text : List α} {r : Request α}

theorem slice_append : slice n off (done ++ text) =
    slice n off done ++ slice (n - (slice n off done).length) (off - done.length) text := by
  rw [slice, slice, slice, List.drop_append, List.take_append, List.length_take]
  congr 2
  omega

theorem reading_start (n off : Nat) : Reading n off ([] : List α) ⟨n, off, []⟩ := by
  refine ⟨?_, ?_, ?_⟩ <;> simp [slice]

theorem Reading.length_le (h : Reading n off done r) : r.buf.length ≤ n := by
  rw [h.buf, slice, List.length_take]
  omega

/-- A piece that ends before the offset is skipped, and nothing is copied. -/
theorem Reading.skip (h : Reading n off done r) (hSkip : text.length ≤ r.offset) :
    Reading n off (done ++ text) { r with offset := r.offset - text.length } := by
  obtain ⟨hBuf, hN, hOffset⟩ := h
  have hPast : text.drop (off - done.length) = [] := List.drop_of_length_le (by omega)
  have hSame : slice n off (done ++ text) = slice n off done := by
    rw [slice_append, slice, slice, hPast, List.take_nil, List.append_nil]
  refine ⟨hBuf.trans hSame.symm, hN, ?_⟩
  show r.offset - text.length = _
  rw [List.length_append]
  omega

/-- More text does not change a request that was met. -/
theorem Finished.append (h : Finished n off done r) (text : List α) :
    Finished n off (done ++ text) r := by
  refine ⟨?_, h.length⟩
  rw [slice_append, ← h.buf, h.length, Nat.sub_self, slice, List.take_zero, List.append_nil]

theorem Reads.nil : Reads n off ([] : List α) .ok := by
  intro done r h
  rw [List.append_nil]
  exact h

theorem Reads.bind {text' : List α} {f g : Request α → Except (Request α) (Request α)}
    (hf : Reads n off text f) (hg : Reads n off text' g) :
    Reads n off (text ++ text') fun r => f r >>= g := by
  intro done r h
  have hFirst := hf done r h
  rw [← List.append_assoc]
  cases hRun : f r with
  | ok r' =>
    rw [hRun] at hFirst
    simp only [hRun]
    exact hg _ r' hFirst
  | error r' =>
    -- `g` is not run, its piece is behind what was asked for
    rw [hRun] at hFirst
    simp only [hRun]
    exact Finished.append hFirst text'

/-- The rule for loops. -/
theorem Reads.foldlM {piece : β → List α} {f : Request α → β → Except (Request α) (Request α)}
    (h : ∀ x, Reads n off (piece x) fun r => f r x) (xs : List β) :
    Reads n off (xs.flatMap piece) fun r => xs.foldlM f r := by
  induction xs with
  | nil => exact Reads.nil
  | cons x xs ih =>
    simp only [List.flatMap_cons, List.foldlM_cons]
    exact (h x).bind ih

end

/-! ## Consecutive reads -/

/-- The bytes of reads with the given counts, each at the offset that the returned values
lead to. -/
def consecutive (read : Nat → Nat → Option (Int × List α)) (off : Nat) :
    List Nat → Option (List α)
  | [] => some []
  | n :: ns => do
    let (count, bs) ← read n off
    let rest ← consecutive read (off + count.toNat) ns
    some (bs ++ rest)

theorem slice_add (n k off : Nat) (text : List α) : slice (n + k) off text =
    slice n off text ++ slice k (off + (slice n off text).length) text := by
  rw [slice, slice, slice, List.take_add, List.length_take, List.length_drop, ← List.drop_drop]
  congr 2
  -- the second read starts at the end of the text if the first one was cut short
  rcases Nat.le_total n (text.length - off) with h | h
  · rw [Nat.min_eq_left h]
  · rw [Nat.min_eq_right h, List.drop_of_length_le (by simpa using h),
      List.drop_of_length_le (by simp)]

theorem consecutive_eq {read : Nat → Nat → Option (Int × List α)} {text : List α}
    (h : ∀ n off, read n off = some (((slice n off text).length : Int), slice n off text))
    (ns : List Nat) :
    ∀ off, consecutive read off ns = some (slice ns.sum off text) := by
  induction ns with
  | nil =>
    intro off
    rw [consecutive, List.sum_nil, slice, List.take_zero]
  | cons n ns ih =>
    intro off
    rw [consecutive, h]
    simp only [Option.bind_eq_bind, Option.bind_some, Int.toNat_natCast, ih]
    rw [List.sum_cons, slice_add]

/-- Reads that ask for enough give the whole text. -/
theorem slice_all {n : Nat} {text : List α} (h : text.length ≤ n) : slice n 0 text = text := by
  rw [slice, List.drop_zero, List.take_of_length_le h]

end Positional
