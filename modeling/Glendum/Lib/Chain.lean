import Mathlib.Data.List.Basic
import Mathlib.Data.List.Nodup
import Mathlib.Data.List.Lattice
import Mathlib.Logic.Function.Basic
import Mathlib.Tactic.Common

/-!
# Chains of pointers and hash tables built from them

`Chain next o l` says that following `next` from the pointer `o` visits the nodes
`l` and then ends. A search over a chain takes fuel, and comes back with an
answer when the fuel covers the chain (`Chain.search`).

A table `Buckets β α` has one chain for every bucket in `β`. Its removal loop
walks a pointer to the pointer that names the current node (`Loc`), so that a
node is unchained by one write wherever it stands.

* `Buckets.Spells.find` — the walk over a bucket finds the first node that
  passes the test, with the place that points to it;
* `Buckets.Spells.remove` — writing the node's successor to that place takes the
  node out of its bucket and leaves the other buckets alone;
* `Buckets.Spells.push` — a new node goes to the head of a bucket.
-/

namespace Lists

/-! ## Chains -/

section Chains

variable {α : Type*}

/-- Following `next` from `o` visits `l`. -/
def Chain (next : α → Option α) : Option α → List α → Prop
  | o, [] => o = none
  | o, a :: l => o = some a ∧ Chain next (next a) l

variable {next next' : α → Option α} {o : Option α} {l : List α}

theorem Chain.congr (h : Chain next o l) (hNext : ∀ a ∈ l, next' a = next a) :
    Chain next' o l := by
  induction l generalizing o with
  | nil => exact h
  | cons a l ih =>
    refine ⟨h.1, ?_⟩
    rw [hNext a (List.mem_cons_self ..)]
    exact ih h.2 fun b hb => hNext b (List.mem_cons_of_mem _ hb)

/-- The first node from `o` that passes `test`; `none` when the fuel runs out. -/
def search (next : α → Option α) (test : α → Bool) : Nat → Option α → Option (Option α)
  | _, none => some none
  | 0, some _ => none
  | n + 1, some a => if test a then some (some a) else search next test n (next a)

theorem Chain.search {n : Nat} (test : α → Bool) (h : Chain next o l) (hFuel : l.length ≤ n) :
    search next test n o = some (l.find? test) := by
  induction l generalizing o n with
  | nil =>
    obtain rfl : o = none := h
    cases n <;> rfl
  | cons a l ih =>
    obtain ⟨rfl, hRest⟩ := h
    obtain ⟨n, rfl⟩ : ∃ m, n = m + 1 := ⟨n - 1, by simp at hFuel; omega⟩
    rw [Lists.search, List.find?_cons]
    cases test a with
    | true => rfl
    | false => exact ih hRest (by simpa using hFuel)

/-- What a search answers with is a node of the chain, whatever its fuel. -/
theorem Chain.mem_of_search {n : Nat} {test : α → Bool} {a : α} (h : Chain next o l)
    (hFound : Lists.search next test n o = some (some a)) : a ∈ l := by
  induction l generalizing o n with
  | nil =>
    obtain rfl : o = none := h
    cases n <;> simp [Lists.search] at hFound
  | cons b l ih =>
    obtain ⟨rfl, hRest⟩ := h
    cases n with
    | zero => simp [Lists.search] at hFound
    | succ n =>
      rw [Lists.search] at hFound
      by_cases hTest : test b = true
      · have hba : b = a := by simpa [hTest] using hFound
        exact hba ▸ List.mem_cons_self ..
      · exact List.mem_cons_of_mem _ (ih hRest (by simpa [hTest] using hFound))

end Chains

/-! ## Tables of chains -/

/-- The places that hold a pointer of a table: the head of a bucket, or the link
of a node. -/
inductive Loc (β α : Type*)
  | bucket (b : β)
  | after (a : α)

structure Buckets (β α : Type*) where
  heads : β → Option α
  next  : α → Option α

namespace Buckets

variable {β α : Type*}

def get (s : Buckets β α) : Loc β α → Option α
  | .bucket b => s.heads b
  | .after a => s.next a

/-- The walk of a removal loop from the place `l`: the first node that passes
`test`, and the place that points to it. -/
def find (s : Buckets β α) (test : α → Bool) : Nat → Loc β α → Option (Option (Loc β α × α))
  | 0, l => if (s.get l).isNone then some none else none
  | n + 1, l => match s.get l with
    | none => some none
    | some f => if test f then some (some (l, f)) else s.find test n (.after f)

section Edits

variable [DecidableEq β] [DecidableEq α]

def set (s : Buckets β α) : Loc β α → Option α → Buckets β α
  | .bucket b, o => { s with heads := Function.update s.heads b o }
  | .after a, o => { s with next := Function.update s.next a o }

def push (s : Buckets β α) (b : β) (a : α) : Buckets β α where
  next := Function.update s.next a (s.heads b)
  heads := Function.update s.heads b (some a)

end Edits

/-- The buckets of the table are the lists `ch`, and no node is twice in them. -/
structure Spells (s : Buckets β α) (ch : β → List α) : Prop where
  chain : ∀ b, Chain s.next (s.heads b) (ch b)
  nodup : ∀ b, (ch b).Nodup
  apart : ∀ b b' a, a ∈ ch b → a ∈ ch b' → b = b'

/-- The place that points to a node when the nodes `xs` stand between it and `p`. -/
def Loc.behind (p : Loc β α) (xs : List α) : Loc β α :=
  match xs.getLast? with
  | none => p
  | some a => .after a

/-- The walk from a place that points to the chain `l`. -/
theorem find_of_chain {s : Buckets β α} (test : α → Bool) {n : Nat} {p : Loc β α} {l : List α}
    (h : Chain s.next (s.get p) l) (hFuel : l.length ≤ n) :
    ∃ r, s.find test n p = some r ∧ r.map Prod.snd = l.find? test ∧
      ∀ q f, r = some (q, f) → ∃ xs ys, l = xs ++ f :: ys ∧ q = Loc.behind p xs := by
  induction l generalizing n p with
  | nil =>
    have hGet : s.get p = none := h
    refine ⟨none, ?_, rfl, by simp⟩
    cases n <;> simp [find, hGet]
  | cons a l ih =>
    obtain ⟨hGet, hRest⟩ := h
    obtain ⟨n, rfl⟩ : ∃ m, n = m + 1 := ⟨n - 1, by simp at hFuel; omega⟩
    simp only [find, hGet, List.find?_cons]
    by_cases hTest : test a = true
    · -- found where the walk stands
      refine ⟨some (p, a), by simp [hTest], by simp [hTest], ?_⟩
      rintro q f hqf
      obtain ⟨rfl, rfl⟩ : p = q ∧ a = f := by simpa using hqf
      exact ⟨[], l, rfl, rfl⟩
    · -- further on, from the link of the node passed
      obtain ⟨r, hFind, hFound, hPlace⟩ := ih (n := n) (p := .after a) hRest (by simpa using hFuel)
      refine ⟨r, by simpa [hTest] using hFind, by simpa [hTest] using hFound, ?_⟩
      intro q f hqf
      obtain ⟨xs, ys, rfl, rfl⟩ := hPlace q f hqf
      refine ⟨a :: xs, ys, rfl, ?_⟩
      rw [Loc.behind, Loc.behind, List.getLast?_cons]
      cases xs.getLast? <;> rfl

variable {s : Buckets β α} {ch : β → List α}

/-- The walk over a bucket answers with the first node that passes the test. -/
theorem Spells.find (h : s.Spells ch) (b : β) (test : α → Bool) {n : Nat}
    (hFuel : (ch b).length ≤ n) :
    ∃ r, s.find test n (.bucket b) = some r ∧ r.map Prod.snd = (ch b).find? test := by
  obtain ⟨r, hFind, hFound, -⟩ := find_of_chain test (p := .bucket b) (h.chain b) hFuel
  exact ⟨r, hFind, hFound⟩

variable [DecidableEq β] [DecidableEq α]

omit [DecidableEq β] in
/-- A chain with the link into a node redirected to the node's successor. -/
theorem chain_skip {next : α → Option α} {o : Option α} {xs ys : List α} {a f : α}
    (h : Chain next o (xs ++ a :: f :: ys)) (hNodup : (xs ++ a :: f :: ys).Nodup) :
    Chain (Function.update next a (next f)) o (xs ++ a :: ys) := by
  induction xs generalizing o with
  | nil =>
    -- the redirected link itself: what follows it does not change
    obtain ⟨hHead, -, hRest⟩ := h
    refine ⟨hHead, ?_⟩
    rw [Function.update_self]
    refine hRest.congr fun b hb => Function.update_of_ne ?_ _ _
    rintro rfl
    simp [hb] at hNodup
  | cons x xs ih =>
    obtain ⟨hHead, hRest⟩ := h
    have hxa : x ≠ a := by
      rintro rfl
      simp at hNodup
    refine ⟨hHead, ?_⟩
    rw [Function.update_of_ne hxa]
    exact ih hRest (List.nodup_cons.mp hNodup).2

/-- Redirecting the place found by the walk takes the node out of its bucket. -/
theorem Spells.remove (h : s.Spells ch) {b : β} {test : α → Bool} {n : Nat} {q : Loc β α} {f : α}
    (hFuel : (ch b).length ≤ n) (hFind : s.find test n (.bucket b) = some (some (q, f))) :
    (s.set q (s.next f)).Spells (Function.update ch b ((ch b).erase f)) := by
  obtain ⟨r, hWalk, -, hPlace⟩ := find_of_chain test (p := .bucket b) (h.chain b) hFuel
  obtain ⟨xs, ys, hl, hq⟩ := hPlace q f (Option.some.inj (hWalk.symm.trans hFind))
  have hNodup := h.nodup b
  have hChain := h.chain b
  have hErase : (ch b).erase f = xs ++ ys := by
    have hfx : f ∉ xs := by
      intro hMem
      rw [hl] at hNodup
      exact (List.nodup_append.mp hNodup).2.2 f hMem f (List.mem_cons_self ..) rfl
    rw [hl, List.erase_append_right _ hfx, List.erase_cons_head]
  refine ⟨?_, ?_, ?_⟩
  · intro c
    rw [hErase]
    rcases List.eq_nil_or_concat' xs with rfl | ⟨us, a, rfl⟩
    · -- the bucket's head pointed to the node
      obtain rfl : q = .bucket b := hq
      rw [hl, List.nil_append] at hChain
      by_cases hc : c = b
      · subst hc
        simpa [Buckets.set] using hChain.2
      · simpa [Buckets.set, Function.update_of_ne hc] using h.chain c
    · -- the node before it did
      obtain rfl : q = .after a := by simpa [Loc.behind] using hq
      rw [List.append_assoc] at hl
      rw [hl] at hChain hNodup
      by_cases hc : c = b
      · subst hc
        rw [Function.update_self, List.append_assoc]
        exact chain_skip hChain hNodup
      · -- no other bucket has the node `a` in it
        rw [Function.update_of_ne hc]
        refine (h.chain c).congr fun d hd => Function.update_of_ne ?_ _ _
        rintro rfl
        exact hc (h.apart c b d hd (by simp [hl]))
  · intro c
    by_cases hc : c = b
    · subst hc
      rw [Function.update_self]
      exact hNodup.erase f
    · rw [Function.update_of_ne hc]
      exact h.nodup c
  · have hSub : ∀ c d, d ∈ Function.update ch b ((ch b).erase f) c → d ∈ ch c := by
      intro c d hd
      by_cases hc : c = b
      · subst hc
        rw [Function.update_self] at hd
        exact List.mem_of_mem_erase hd
      · rwa [Function.update_of_ne hc] at hd
    intro c c' d hd hd'
    exact h.apart c c' d (hSub c d hd) (hSub c' d hd')

/-- A node that is in no bucket goes to the head of one. -/
theorem Spells.push (h : s.Spells ch) {b : β} {a : α} (ha : ∀ c, a ∉ ch c) :
    (s.push b a).Spells (Function.update ch b (a :: ch b)) := by
  -- the only link that is written is that of the new node
  have hOthers : ∀ c, ∀ d ∈ ch c, Function.update s.next a (s.heads b) d = s.next d := by
    intro c d hd
    refine Function.update_of_ne ?_ _ _
    rintro rfl
    exact ha c hd
  refine ⟨?_, ?_, ?_⟩
  · intro c
    by_cases hc : c = b
    · subst hc
      simp only [Buckets.push, Function.update_self]
      refine ⟨rfl, ?_⟩
      rw [Function.update_self]
      exact (h.chain c).congr (hOthers c)
    · simp only [Buckets.push, Function.update_of_ne hc]
      exact (h.chain c).congr (hOthers c)
  · intro c
    by_cases hc : c = b
    · subst hc
      rw [Function.update_self]
      exact List.nodup_cons.mpr ⟨ha c, h.nodup c⟩
    · rw [Function.update_of_ne hc]
      exact h.nodup c
  · have hSub : ∀ c d, d ∈ Function.update ch b (a :: ch b) c → d ∈ ch c ∨ d = a ∧ c = b := by
      intro c d hd
      by_cases hc : c = b
      · subst hc
        rw [Function.update_self, List.mem_cons] at hd
        exact hd.symm.imp_right fun h => ⟨h, rfl⟩
      · rw [Function.update_of_ne hc] at hd
        exact Or.inl hd
    intro c c' d hd hd'
    rcases hSub c d hd with hOld | ⟨rfl, rfl⟩ <;> rcases hSub c' d hd' with hOld' | ⟨hEq, rfl⟩
    · exact h.apart c c' d hOld hOld'
    · exact absurd (hEq ▸ hOld) (ha c)
    · exact absurd hOld' (ha c')
    · rfl

end Buckets

end Lists
