import Mathlib.Tactic.Common

/-!
# Programs that stop when they fail

A program in `Except ε` ends with a result or stops with a reason. `Ends allowed x
post` is the statement that `x` ends well: its result satisfies `post`, or its reason
to stop is an allowed one.

* `Ends.bind` — the rule for two programs in a row;
* `Ends.bind_congr` — when they end well is settled part by part.
-/

namespace FailStop

universe u

variable {ε : Type*} {α β : Type u} {allowed : ε → Prop}

def Ends (allowed : ε → Prop) (x : Except ε α) (post : α → Prop) : Prop :=
  match x with
  | .ok a => post a
  | .error e => allowed e

instance {x : Except ε α} {post : α → Prop} [DecidablePred allowed] [DecidablePred post] :
    Decidable (Ends allowed x post) :=
  match x with
  | .ok a => inferInstanceAs (Decidable (post a))
  | .error e => inferInstanceAs (Decidable (allowed e))

/-- A program that has come to its result. -/
theorem Ends.ok {a : α} {post : α → Prop} (h : post a) : Ends allowed (.ok a) post := h

/-- A program that has stopped. -/
theorem Ends.error {e : ε} {post : α → Prop} (h : allowed e) :
    Ends allowed (.error e : Except ε α) post := h

/-- A program that ends well does so for whatever follows from its result. -/
theorem Ends.mono {x : Except ε α} {post post' : α → Prop} (h : Ends allowed x post)
    (hPost : ∀ a, post a → post' a) : Ends allowed x post' := by
  cases x with
  | error e => exact h
  | ok a => exact hPost a h

/-- What the first program establishes is there for the second. -/
theorem Ends.bind {x : Except ε α} {f : α → Except ε β} {mid : α → Prop} {post : β → Prop}
    (hFirst : Ends allowed x mid) (hSecond : ∀ a, mid a → Ends allowed (f a) post) :
    Ends allowed (x >>= f) post := by
  cases x with
  | error e => exact hFirst
  | ok a => exact hSecond a hFirst

/-- Two programs in a row end well exactly when `x` ends well in the other sense. For the
first one the two senses need to agree on the reasons that it can have (`proper`), and for
the second one on the results that it can start from. -/
theorem Ends.bind_congr {x : Except ε α} {f : α → Except ε β} {allowed' proper : ε → Prop}
    {mid post' : α → Prop} {post : β → Prop} (hFirst : Ends proper x mid)
    (hStop : ∀ e, proper e → (allowed e ↔ allowed' e))
    (hGo : ∀ a, mid a → (Ends allowed (f a) post ↔ post' a)) :
    Ends allowed (x >>= f) post ↔ Ends allowed' x post' := by
  cases x with
  | error e => exact hStop e hFirst
  | ok a => exact hGo a hFirst

/-- A program that stops when `c` holds, and goes on otherwise. -/
theorem Ends.guard {c : Prop} [Decidable c] {e : ε} {x : Except ε α} {post : α → Prop}
    (hStop : allowed e) (hGo : ¬ c → Ends allowed x post) :
    Ends allowed (if c then .error e else x) post := by
  by_cases h : c
  · rw [if_pos h]
    exact hStop
  · rw [if_neg h]
    exact hGo h

/-- A first program that has come to its result. -/
theorem ok_bind (a : α) (f : α → Except ε β) : ((.ok a : Except ε α) >>= f) = f a := rfl

/-- Both parts of a program that comes to its result do. -/
theorem bind_ok {x : Except ε α} {f : α → Except ε β} {b : β} (h : x >>= f = .ok b) :
    ∃ a, x = .ok a ∧ f a = .ok b := by
  cases x with
  | error e => cases h
  | ok a => exact ⟨a, rfl, h⟩

end FailStop
