import Mathlib.Data.List.Perm.Basic
import Mathlib.Tactic.Common

/-!
# Clients of a server

Any number of clients reach a server, each through a channel of its own. A client
joins with a channel, operations change its channel, and it leaves. The state of the
server is right when it follows how many channels are of some kind; this module has
the arithmetic of these numbers.

* `count_join`, `count_turn`, `count_leave` — how each of the three changes a number;
* `count_first` — the same for the first request of a client, which has nothing before.
-/

namespace Clients

variable {C : Type*}

/-- How many channels are of the kind `q`. -/
def count (q : C → Bool) (cs : List C) : Nat := cs.countP q

@[simp] theorem count_nil (q : C → Bool) : count q [] = 0 := rfl

@[simp] theorem count_join (q : C → Bool) (cs : List C) (c : C) :
    count q (cs ++ [c]) = count q cs + (q c).toNat := by
  rw [count, List.countP_append]
  cases h : q c with
  | false => simp [count, h]
  | true => simp [count, h]

/-- Who leaves is not counted any more. -/
theorem count_leave {q : C → Bool} {cs : List C} {i : Nat} {c : C} (h : cs[i]? = some c) :
    count q (cs.eraseIdx i) + (q c).toNat = count q cs := by
  obtain ⟨hi, rfl⟩ := List.getElem?_eq_some_iff.mp h
  have hPerm := (List.getElem_cons_eraseIdx_perm hi).countP_eq q
  rw [List.countP_cons] at hPerm
  rw [count, count, ← hPerm]
  cases q cs[i] with
  | false => rfl
  | true => rfl

/-- Who changes is counted as it is now. -/
theorem count_turn {q : C → Bool} {cs : List C} {i : Nat} {c : C} (h : cs[i]? = some c) (c' : C) :
    count q (cs.set i c') + (q c).toNat = count q cs + (q c').toNat := by
  induction cs generalizing i with
  | nil => simp at h
  | cons d cs ih =>
    cases i with
    | zero =>
      -- the client that turns is the head
      obtain rfl : d = c := by simpa using h
      simp only [List.set_cons_zero, count, List.countP_cons]
      cases q d <;> cases q c' <;> simp
    | succ i =>
      have hTail := ih (i := i) (by simpa using h)
      simp only [List.set_cons_succ, count, List.countP_cons] at hTail ⊢
      omega

/-- A channel of the kind is counted. -/
theorem count_pos {q : C → Bool} {cs : List C} {i : Nat} {c : C} (h : cs[i]? = some c)
    (hq : q c = true) : 0 < count q cs :=
  List.countP_pos_iff.mpr ⟨c, List.mem_of_getElem? h, hq⟩

/-! ## Clients that have not asked

A client has nothing before its first request.
-/

section

variable {asked has q : C → Bool} {cs : List C} {c c' : C} {i : Nat}

/-- A client that comes without anything is fresh. -/
theorem fresh_join (h : ∀ d ∈ cs, asked d = false → has d = false) (hc : has c = false) :
    ∀ d ∈ cs ++ [c], asked d = false → has d = false := by
  intro d hd hAsked
  rcases List.mem_append.mp hd with hd | hd
  · exact h d hd hAsked
  · rw [List.mem_singleton.mp hd]
    exact hc

/-- A client that has asked need not be. -/
theorem fresh_turn (h : ∀ d ∈ cs, asked d = false → has d = false) (hc : asked c' = true) :
    ∀ d ∈ cs.set i c', asked d = false → has d = false := by
  intro d hd hAsked
  rcases List.mem_or_eq_of_mem_set hd with hd | rfl
  · exact h d hd hAsked
  · rw [hc] at hAsked
    cases hAsked

/-- Those who stay are as they were. -/
theorem fresh_leave (h : ∀ d ∈ cs, asked d = false → has d = false) :
    ∀ d ∈ cs.eraseIdx i, asked d = false → has d = false :=
  fun d hd => h d (List.mem_of_mem_eraseIdx hd)

/-- The client that asks was not counted before. -/
theorem count_first (h : ∀ d ∈ cs, asked d = false → has d = false) (hi : cs[i]? = some c)
    (hAsked : asked c = false) (hKind : has c = false → q c = false) (c' : C) :
    count q (cs.set i c') = count q cs + (q c').toNat := by
  have hTurn := count_turn (q := q) hi c'
  rw [hKind (h c (List.mem_of_getElem? hi) hAsked)] at hTurn
  simpa using hTurn

end

end Clients
