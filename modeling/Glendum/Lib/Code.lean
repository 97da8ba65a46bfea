import Mathlib.Data.List.Basic
import Mathlib.Data.List.Infix
import Mathlib.Tactic.Common

/-!
# Prefix codes

A code gives each symbol a word. When no word begins another one, a text of words one
behind the other can be read from its start on, and a part of a word is no text.

* `PrefixCode.spelled_append` — behind a text, what makes the whole a text is a text;
* `PrefixCode.spelled_prefix` — of the beginnings of a word, the empty one and the word
  itself are texts;
* `PrefixCode.spelled_cut` — a word that is cut off is no text;
* `Spelled.eq_append` — a text that is not empty ends with a word.
-/

namespace Codes

variable {α β : Type*}

/-- No word is empty, and none begins another. -/
structure PrefixCode (enc : α → List β) : Prop where
  ne_nil : ∀ a, enc a ≠ []
  unique : ∀ a b, enc a <+: enc b → a = b

/-- The words of some symbols, one behind the other. -/
def Spelled (enc : α → List β) (bs : List β) : Prop := ∃ as : List α, bs = as.flatMap enc

section

variable {enc : α → List β} {s t p : List β} {a : α}

theorem Spelled.nil : Spelled enc [] := ⟨[], rfl⟩

theorem Spelled.word (a : α) : Spelled enc (enc a) := ⟨[a], by simp⟩

theorem Spelled.append (hs : Spelled enc s) (ht : Spelled enc t) : Spelled enc (s ++ t) := by
  obtain ⟨as, rfl⟩ := hs
  obtain ⟨bs, rfl⟩ := ht
  exact ⟨as ++ bs, List.flatMap_append.symm⟩

/-- The last word of a text. -/
theorem Spelled.eq_append (hs : Spelled enc s) (hNe : s ≠ []) :
    ∃ t a, s = t ++ enc a ∧ Spelled enc t := by
  obtain ⟨as, rfl⟩ := hs
  rcases List.eq_nil_or_concat as with rfl | ⟨init, a, rfl⟩
  · exact absurd rfl hNe
  · exact ⟨init.flatMap enc, a, by simp, init, rfl⟩

theorem PrefixCode.spelled_append (h : PrefixCode enc) (hs : Spelled enc s) :
    Spelled enc (s ++ t) ↔ Spelled enc t := by
  refine ⟨fun hAll => ?_, hs.append⟩
  obtain ⟨as, rfl⟩ := hs
  induction as with
  | nil => exact hAll
  | cons a as ih =>
    obtain ⟨bs, hbs⟩ := hAll
    rw [List.flatMap_cons, List.append_assoc] at hbs
    cases bs with
    | nil =>
      rw [List.flatMap_nil, List.append_eq_nil_iff] at hbs
      exact absurd hbs.1 (h.ne_nil a)
    | cons b bs =>
      rw [List.flatMap_cons] at hbs
      -- both words begin the text, so one of them begins the other
      have ha : enc a <+: enc b ++ bs.flatMap enc := hbs ▸ List.prefix_append ..
      have hb : enc b <+: enc b ++ bs.flatMap enc := List.prefix_append ..
      obtain rfl : a = b := by
        rcases List.prefix_or_prefix_of_prefix ha hb with hab | hba
        · exact h.unique a b hab
        · exact (h.unique b a hba).symm
      exact ih ⟨bs, List.append_cancel_left hbs⟩

theorem PrefixCode.spelled_prefix (h : PrefixCode enc) (hp : p <+: enc a) :
    Spelled enc p ↔ p = [] ∨ p = enc a := by
  constructor
  · rintro ⟨as, rfl⟩
    cases as with
    | nil => exact Or.inl rfl
    | cons b as =>
      rw [List.flatMap_cons] at hp ⊢
      obtain rfl : b = a := h.unique b a ((List.prefix_append ..).trans hp)
      -- what is as long as the word is the word
      right
      exact List.IsPrefix.eq_of_length_le hp (by rw [List.length_append]; omega)
  · rintro (rfl | rfl)
    · exact Spelled.nil
    · exact Spelled.word a

/-- Behind a text the first places of a word, at least one of them, are a text when they are all
of the word. -/
theorem PrefixCode.spelled_cut {k : Nat} (h : PrefixCode enc) (hs : Spelled enc s) (hPos : 0 < k) :
    Spelled enc (s ++ (enc a).take k) ↔ (enc a).length ≤ k := by
  rw [h.spelled_append hs, h.spelled_prefix (List.take_prefix _ _), List.take_eq_nil_iff,
    List.take_eq_self_iff]
  refine ⟨?_, Or.inr⟩
  rintro ((hZero | hNil) | hAll)
  · omega
  · exact absurd hNil (h.ne_nil a)
  · exact hAll

/-- A text that loses its last place is a text when its last word has no other place. -/
theorem PrefixCode.spelled_dropLast (h : PrefixCode enc) (hs : Spelled enc s) :
    Spelled enc (s ++ enc a).dropLast ↔ (enc a).length = 1 := by
  have hPos := List.length_pos_of_ne_nil (h.ne_nil a)
  rw [List.dropLast_append_of_ne_nil (h.ne_nil a), List.dropLast_eq_take]
  by_cases hOne : (enc a).length = 1
  · rw [hOne, Nat.sub_self, List.take_zero, List.append_nil]
    exact iff_of_true hs rfl
  · -- some of the word is left, and its last place is missing
    rw [h.spelled_cut hs (by omega)]
    exact iff_of_false (by omega) hOne

end

end Codes
