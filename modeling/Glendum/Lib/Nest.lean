import Glendum.Lib.Trace
import Mathlib.Data.List.Infix

/-!
# Nested contexts

A program that can be interrupted, also while it works on an interruption: the registers of
what was interrupted are kept in a frame, and come back when the work is done. The frames
that are kept form a stack. The program may edit what is in them.

* `below_step` — as long as the stack is not taken down to it, what is kept of a frame
  stays;
* `leave_below` — so that the interrupted program gets back what was kept of it.
-/

namespace Machine

/-- What was interrupted: the place of its frame, and its registers. -/
structure Context (F R : Type*) where
  frame : F
  regs  : R

/-- The registers of the program, and its frames, the last one first. -/
structure Nest (F R : Type*) where
  regs : R
  live : List (Context F R)

namespace Nest

variable {F R X : Type*}

inductive Op (F R : Type*)
  /-- the program goes on, and edits the frames -/
  | go (regs : R) (edit : F → R → R)
  /-- it is interrupted, and works on the interruption -/
  | enter (frame : F) (regs : R)
  /-- the last frame is left, its registers come back -/
  | leave (back : R → R)
  /-- its registers come back, but the frame is kept -/
  | stay (keep back : R → R)

def step (s : Nest F R) : Op F R → Option (Nest F R)
  | .go regs edit => some { regs, live := s.live.map fun c => { c with regs := edit c.frame c.regs } }
  | .enter frame regs => some { regs, live := { frame, regs := s.regs } :: s.live }
  | .leave back =>
    match s.live with
    | [] => none
    | c :: cs => some { regs := back c.regs, live := cs }
  | .stay keep back =>
    match s.live with
    | [] => none
    | c :: cs => some { regs := back (keep c.regs), live := { c with regs := keep c.regs } :: cs }

/-! ## What is kept of the registers -/

/-- The frames, with what is of interest in their registers. -/
def view (φ : R → X) (s : Nest F R) : List (F × X) := s.live.map fun c => (c.frame, φ c.regs)

/-- The operation does not touch what is of interest in a frame. -/
def Keeps (φ : R → X) (s : Nest F R) : Op F R → Prop
  | .go _ edit => ∀ c ∈ s.live, φ (edit c.frame c.regs) = φ c.regs
  | .stay keep _ => ∀ c ∈ s.live, φ (keep c.regs) = φ c.regs
  | .enter _ _ | .leave _ => True

variable {φ : R → X} {base : List (F × X)} {s s' t : Nest F R} {o : Op F R}

@[simp] theorem length_view : (s.view φ).length = s.live.length := List.length_map ..

theorem below_step (hBelow : base <:+ s.view φ) (hKeeps : Keeps φ s o)
    (hDeep : base.length ≤ s'.live.length) (h : step s o = some s') : base <:+ s'.view φ := by
  cases o with
  | go regs edit =>
    obtain rfl := Option.some.inj h
    -- the frames are the ones before, with the same in them
    have hSame : view φ ⟨regs, s.live.map fun c => { c with regs := edit c.frame c.regs }⟩ =
        s.view φ := by
      unfold view
      rw [List.map_map]
      refine List.map_congr_left fun c hc => ?_
      show (c.frame, φ (edit c.frame c.regs)) = (c.frame, φ c.regs)
      rw [hKeeps c hc]
    rw [hSame]
    exact hBelow
  | enter frame regs =>
    obtain rfl := Option.some.inj h
    exact hBelow.trans (List.suffix_cons _ _)
  | leave back =>
    obtain ⟨regs, live⟩ := s
    cases live with
    | nil => cases h
    | cons c cs =>
      obtain rfl := Option.some.inj h
      -- the frame that goes is not one of those below
      rcases List.suffix_cons_iff.mp hBelow with hAll | hRest
      · rw [hAll, List.length_cons, List.length_map] at hDeep
        exact absurd hDeep (Nat.not_succ_le_self _)
      · exact hRest
  | stay keep back =>
    obtain ⟨regs, live⟩ := s
    cases live with
    | nil => cases h
    | cons c cs =>
      obtain rfl := Option.some.inj h
      have hKept : φ (keep c.regs) = φ c.regs := hKeeps c List.mem_cons_self
      show base <:+ (c.frame, φ (keep c.regs)) :: _
      rw [hKept]
      exact hBelow

/-- When the stack is down to the frame, the registers that come back are those that were kept. -/
theorem leave_below {f : F} {x : X} {back : R → R} (hBelow : (f, x) :: base <:+ s.view φ)
    (hDown : s.live.length = base.length + 1) (h : step s (.leave back) = some s') :
    ∃ r, φ r = x ∧ s'.regs = back r ∧ s'.view φ = base := by
  have hEq : (f, x) :: base = s.view φ := by
    refine hBelow.eq_of_length ?_
    rw [length_view, List.length_cons, hDown]
  obtain ⟨regs, live⟩ := s
  cases live with
  | nil => cases h
  | cons c cs =>
    obtain rfl := Option.some.inj h
    obtain ⟨hFirst, hRest⟩ := List.cons.inj hEq
    exact ⟨c.regs, (congrArg Prod.snd hFirst).symm, rfl, hRest.symm⟩

end Nest

end Machine
