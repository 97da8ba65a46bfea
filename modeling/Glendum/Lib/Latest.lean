import Mathlib.Data.List.Dedup
import Mathlib.Data.List.Induction
import Mathlib.Data.List.Perm.Subperm
import Mathlib.Data.List.Nodup
import Mathlib.Tactic.Common

/-!
# The latest value of each key

A table that has a value for each key: a new value takes the place of the one with its key, or
comes behind all others.

* `find?_assign` — what is found for a key after an assignment;
* `mem_latest` — after any number of them the table has the last value of each key;
* `length_latest` — and as many values as there are keys.
-/

namespace Machine

variable {A K : Type*} [DecidableEq K] {key : A → K} {a b : A} {k : K} {l as : List A}

def assign (key : A → K) (a : A) (l : List A) : List A :=
  match l.findIdx? fun b => key b = key a with
  | some i => l.set i a
  | none => l ++ [a]

def latest (key : A → K) (as : List A) : List A := as.foldl (fun l a => assign key a l) []

/-- What is in the list was there, or is the new one. -/
theorem mem_assign (h : b ∈ assign key a l) : b ∈ l ∨ b = a := by
  unfold assign at h
  split at h
  · exact List.mem_or_eq_of_mem_set h
  · rcases List.mem_append.mp h with hOld | hLast
    · exact Or.inl hOld
    · exact Or.inr (List.mem_singleton.mp hLast)

/-- The list grows only by a new key. -/
theorem length_assign : (assign key a l).length =
    if (l.findIdx? fun b => key b = key a).isSome = true then l.length else l.length + 1 := by
  unfold assign
  cases l.findIdx? fun b => decide (key b = key a) with
  | some i => exact List.length_set
  | none => exact List.length_append

/-- The first of the key is replaced, and no other one. -/
theorem assign_cons : assign key a (b :: l) = if key b = key a then a :: l else b :: assign key a l := by
  unfold assign
  rw [List.findIdx?_cons]
  by_cases hKey : key b = key a
  · rw [if_pos hKey, if_pos (decide_eq_true hKey)]
    rfl
  · rw [if_neg hKey, if_neg (by rw [decide_eq_false hKey]; exact Bool.false_ne_true)]
    cases l.findIdx? fun b => decide (key b = key a) with
    | none => rfl
    | some i => rfl

/-- A key is found with its new value, and the others as before. -/
theorem find?_assign : (assign key a l).find? (fun b => key b = k) =
    if key a = k then some a else l.find? fun b => key b = k := by
  induction l with
  | nil =>
    show [a].find? _ = _
    rw [List.find?_singleton]
    by_cases hKey : key a = k
    · rw [if_pos hKey, if_pos (decide_eq_true hKey)]
    · rw [if_neg hKey, if_neg (by rw [decide_eq_false hKey]; exact Bool.false_ne_true)]
      rfl
  | cons b l ih =>
    rw [assign_cons]
    -- the entry of the key is replaced where it stands
    by_cases hHere : key b = key a
    · rw [if_pos hHere, List.find?_cons, List.find?_cons, hHere]
      by_cases hKey : key a = k
      · rw [if_pos hKey, decide_eq_true hKey]
      · rw [if_neg hKey, decide_eq_false hKey]
    · rw [if_neg hHere, List.find?_cons, List.find?_cons, ih]
      by_cases hKey : key a = k
      · rw [if_pos hKey, if_pos hKey, decide_eq_false fun hb => hHere (hb.trans hKey.symm)]
      · rw [if_neg hKey, if_neg hKey]

/-- A new key comes last. -/
theorem keys_assign : (assign key a l).map key =
    if key a ∈ l.map key then l.map key else l.map key ++ [key a] := by
  induction l with
  | nil => rfl
  | cons b l ih =>
    rw [assign_cons, List.map_cons]
    by_cases hHere : key b = key a
    · rw [if_pos hHere, List.map_cons, if_pos (by rw [hHere]; exact List.mem_cons_self), hHere]
    · rw [if_neg hHere, List.map_cons, ih]
      have hIff : key a ∈ key b :: l.map key ↔ key a ∈ l.map key :=
        List.mem_cons.trans (or_iff_right fun h => hHere h.symm)
      by_cases hMem : key a ∈ l.map key
      · rw [if_pos hMem, if_pos (hIff.mpr hMem)]
      · rw [if_neg hMem, if_neg fun h => hMem (hIff.mp h)]
        rfl

/-- One assignment more. -/
theorem latest_concat : latest key (as ++ [a]) = assign key a (latest key as) := by
  unfold latest
  rw [List.foldl_append]
  rfl

/-- No key is there twice. -/
theorem nodup_latest : ((latest key as).map key).Nodup := by
  induction as using List.reverseRec with
  | nil => exact List.nodup_nil
  | append_singleton as a ih =>
    rw [latest_concat, keys_assign]
    split
    · exact ih
    · rename_i hNew
      exact List.nodup_append.mpr ⟨ih, List.nodup_singleton _, fun x hx y hy hxy => hNew (by
        rw [← List.mem_singleton.mp hy, ← hxy]
        exact hx)⟩

/-- The keys are those that were assigned. -/
theorem mem_keys_latest : k ∈ (latest key as).map key ↔ k ∈ as.map key := by
  induction as using List.reverseRec with
  | nil => exact Iff.rfl
  | append_singleton as a ih =>
    rw [latest_concat, keys_assign, List.map_append, List.mem_append, ← ih]
    split
    · rename_i hOld
      refine ⟨Or.inl, fun h => h.elim id fun hNew => ?_⟩
      rw [List.mem_singleton.mp hNew]
      exact hOld
    · exact List.mem_append

/-- There are as many as different keys. -/
theorem length_latest : (latest key as).length = (as.map key).dedup.length := by
  rw [← List.length_map (f := key)]
  refine List.Perm.length_eq ((List.perm_ext_iff_of_nodup nodup_latest (List.nodup_dedup _)).mpr ?_)
  intro k
  rw [mem_keys_latest, List.mem_dedup]

/-- More values have no fewer keys. -/
theorem length_latest_le {bs : List A} : (latest key as).length ≤ (latest key (as ++ bs)).length := by
  have hLength : ∀ cs : List A, (latest key cs).length = ((latest key cs).map key).length :=
    fun cs => (List.length_map key).symm
  rw [hLength, hLength]
  refine (List.subperm_of_subset nodup_latest fun k hk => ?_).length_le
  rw [mem_keys_latest, List.map_append]
  exact List.mem_append_left _ (mem_keys_latest.mp hk)

/-- A key has the value that was assigned last. -/
theorem find?_latest : (latest key as).find? (fun b => key b = k) =
    as.reverse.find? fun b => key b = k := by
  induction as using List.reverseRec with
  | nil => rfl
  | append_singleton as a ih =>
    rw [latest_concat, find?_assign, ih, List.reverse_append, List.reverse_singleton,
      List.singleton_append, List.find?_cons]
    by_cases hKey : key a = k
    · rw [if_pos hKey, decide_eq_true hKey]
    · rw [if_neg hKey, decide_eq_false hKey]

/-- Where keys differ, what is in the table is what is found. -/
theorem mem_iff_find? (h : (l.map key).Nodup) : a ∈ l ↔ l.find? (fun b => key b = key a) = some a := by
  refine ⟨fun hMem => ?_, fun hFind => List.mem_of_find?_eq_some hFind⟩
  induction l with
  | nil => cases hMem
  | cons b l ih =>
    obtain ⟨hFirst, hRest⟩ := List.nodup_cons.mp h
    rw [List.find?_cons]
    rcases List.mem_cons.mp hMem with rfl | hLater
    · rw [decide_eq_true rfl]
    · have hNot : key b ≠ key a := fun hEq => hFirst (hEq ▸ List.mem_map_of_mem hLater)
      rw [decide_eq_false hNot]
      exact ih hRest hLater

/-- What is in the list was the last one of its key. -/
theorem mem_latest : a ∈ latest key as ↔ as.reverse.find? (fun b => key b = key a) = some a := by
  rw [mem_iff_find? nodup_latest, find?_latest]

end Machine
