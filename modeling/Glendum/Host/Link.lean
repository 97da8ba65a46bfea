import Glendum.Host.Symtab

/-!
# Glendum — host linking

`hostlink` walks the symbol table of the kernel and writes the addresses of host
functions into the stubs of the kernel's text. This module has the table `ptt`,
`patchcode`, and the loop with its cursor; the file operations around the loop are
in `Host.Loader`.

* `hostlink_exact_iff` — over a well-formed table, the cursor visits the starts of
  the entries and the stubs are linked exactly when the table is not empty and no
  path on the way slips.
-/

namespace Glendum

open Machine

/-! ## The table of patches -/

inductive HostFun
  | malloc | free | hwrite | getmhz | vprintf | getconf | hostmem | confmem | ustktop | timeres
  | kpool | _exit | mkmemfile | fork | traceme | wpid | peek_sys | peek_eax | peek_eip | peek_esp
  | poke_sys | poke_eax | poke_eip | poke_esp | ptrace_cont | peek_user | poke_user | is_trap
  | is_sysc | is_segv | is_exit | host_mmap
deriving DecidableEq

/-- Where the host's functions are; no function is at the null pointer. -/
abbrev HostAddr := HostFun → { a : Word // a ≠ 0 }

structure Patch where
  symname : String
  funaddr : Word

def pttNames : List (String × HostFun) := [
  ("host_alloc", .malloc), ("host_free", .free), ("host_write", .hwrite),
  ("host_cpufreq", .getmhz), ("kprintf", .vprintf), ("host_getconf", .getconf),
  ("host_memsize", .hostmem), ("host_confmem", .confmem), ("host_ustktop", .ustktop),
  ("host_timeres", .timeres), ("host_kpool", .kpool), ("host_abort", ._exit),
  ("host_memfd", .mkmemfile), ("host_uthread", .fork), ("host_traceme", .traceme),
  ("host_waitpid", .wpid), ("peek_sys", .peek_sys), ("peek_eax", .peek_eax),
  ("peek_eip", .peek_eip), ("peek_esp", .peek_esp), ("poke_sys", .poke_sys),
  ("poke_eax", .poke_eax), ("poke_eip", .poke_eip), ("poke_esp", .poke_esp),
  ("ptrace_cont", .ptrace_cont), ("peek_user", .peek_user), ("poke_user", .poke_user),
  ("is_trap", .is_trap), ("is_sysc", .is_sysc), ("is_segv", .is_segv), ("is_exit", .is_exit),
  ("host_mmap", .host_mmap)]

/-- The last patch has no function. -/
def ptt (A : HostAddr) : List Patch :=
  (pttNames.map fun n => { symname := n.1, funaddr := A n.2 }) ++ [{ symname := "", funaddr := 0 }]

/-! ## The loop -/

/-- The memory that the host's program can read and write. -/
structure Access where
  readable : Word → Bool
  writable : Word → Bool

/-- The memory that is linked, and the slots that were written so far. -/
structure Linking where
  text  : Memory
  slots : List Word

/-- `none` is a fault. The second byte is read only when the first is right. -/
def patchcode (acc : Access) (addr funaddr : Word) (st : Linking) : Option Linking :=
  if acc.readable addr = false then none
  else if st.text addr ≠ 0xFF then some st
  else if acc.readable (addr + 1) = false then none
  else if st.text (addr + 1) ≠ 0x25 then some st
  else if (acc.writable (addr + 6) && acc.writable (addr + 7) && acc.writable (addr + 8) &&
      acc.writable (addr + 9)) = false then none
  else some { text := st.text.store32 (addr + 6) funaddr, slots := st.slots ++ [addr + 6] }

/-- The loop over `ptt`. -/
def linkSym (acc : Access) (A : HostAddr) (r : SymRead) (st : Linking) : Option Linking :=
  ((ptt A).takeWhile fun p => p.funaddr != 0).foldlM (fun st p =>
    if ascii p.symname = cstring r.symname then patchcode acc r.addr p.funaddr st else some st) st

/-- The loop of `hostlink`, from the cursor `symp` on; it answers with the places of
the cursor. `symt` is the memory from the table on, of which the table is the first
`ssyms` bytes. -/
def linkLoop (acc : Access) (A : HostAddr) (symt : List Byte) (ssyms : Nat) :
    Nat → Nat → Bool → Linking → Option (List Nat × Linking)
  | 0, _, _, _ => none
  | n + 1, symp, active, st =>
    match readSym (symt.drop symp) with
    | none => none
    | some r =>
      let active := active || r.isText "__hostlink_begin"
      if active && r.isText "__hostlink_end" then some ([symp], st)
      else
        match if active && r.stype == ch 'T' then linkSym acc A r st else some st with
        | none => none
        | some st =>
          if symp + r.symsize ≥ ssyms then some ([symp], st)
          else
            match linkLoop acc A symt ssyms n (symp + r.symsize) active st with
            | none => none
            | some (visited, st) => some (symp :: visited, st)

/-- A turn moves the cursor on, so there are no more turns than bytes in the table. -/
def linkTable (acc : Access) (A : HostAddr) (symt : List Byte) (ssyms : Nat) (text : Memory) :
    Option (List Nat × Linking) :=
  linkLoop acc A symt ssyms (ssyms + 1) 0 false { text, slots := [] }

/-! ## What is to be linked -/

/-- An entry of type `T` with the given name. -/
def SymEntry.isText (name : String) : SymEntry → Bool
  | .name s => s.type == ch 'T' && s.name == ascii name
  | .path _ => false

/-- A function of the host, and the code that is to jump to it. -/
structure Stub where
  addr : Word
  fn   : HostFun
deriving DecidableEq

def SymEntry.stub : SymEntry → Option Stub
  | .name s =>
    if s.type = ch 'T' then
      (pttNames.find? fun n => ascii n.1 = s.name).map fun n => { addr := s.addr, fn := n.2 }
    else none
  | .path _ => none

/-- The entries up to the first `__hostlink_end` after a `__hostlink_begin`. -/
def walked : Bool → List SymEntry → List SymEntry
  | _, [] => []
  | active, e :: es =>
    let active := active || e.isText "__hostlink_begin"
    if active && e.isText "__hostlink_end" then [e] else e :: walked active es

/-- The stubs between the two. -/
def stubs : Bool → List SymEntry → List Stub
  | _, [] => []
  | active, e :: es =>
    let active := active || e.isText "__hostlink_begin"
    if active && e.isText "__hostlink_end" then []
    else (if active then e.stub else none).toList ++ stubs active es

/-- Where the entries begin, when the first begins at `p`. -/
def starts : Nat → List SymEntry → List Nat
  | _, [] => []
  | p, e :: es => p :: starts (p + e.encode.length) es

/-- A jump through memory, FF 25. -/
def Stub.Jumps (s : Stub) (text : Memory) : Prop := text s.addr = 0xFF ∧ text (s.addr + 1) = 0x25

instance (s : Stub) (text : Memory) : Decidable (s.Jumps text) :=
  inferInstanceAs (Decidable (_ ∧ _))

/-- The stub linked, if it is one. -/
def Linking.link (A : HostAddr) (st : Linking) (s : Stub) : Linking :=
  if s.Jumps st.text then
    { text := st.text.store32 (s.addr + 6) (A s.fn), slots := st.slots ++ [s.addr + 6] }
  else st

/-- Two stubs of ten bytes each that do not overlap, or one stub twice. -/
def StubsApart (ss : List Stub) : Prop :=
  ∀ s ∈ ss, ∀ s' ∈ ss, s = s' ∨ 10 ≤ (s.addr - s'.addr).toNat ∧ 10 ≤ (s'.addr - s.addr).toNat

/-- What `hostlink` is for, over the table `es` with the bytes `above` after it: the
cursor has visited the starts of the entries; the stubs were linked one after another;
and when they do not overlap, the stubs that jump have their address and nothing else
has changed. -/
structure LinksExactly (acc : Access) (A : HostAddr) (es : List SymEntry) (above : List Byte)
    (text : Memory) (visited : List Nat) (st : Linking) : Prop where
  run     : linkTable acc A (encodeAll es ++ above) (encodeAll es).length text = some (visited, st)
  visited : visited = starts 0 (walked false es)
  linked  : st = (stubs false es).foldl (Linking.link A) { text, slots := [] }
  stubs   : StubsApart (stubs false es) → ∀ s ∈ Glendum.stubs false es, s.Jumps text →
    st.text.load32 (s.addr + 6) = A s.fn
  others  : StubsApart (Glendum.stubs false es) → ∀ x,
    (∀ s ∈ Glendum.stubs false es, s.Jumps text → 4 ≤ (x - (s.addr + 6)).toNat) →
    st.text x = text x

/-! ## Stubs that do not overlap -/

section

variable {A : HostAddr} {all done : List Stub} {text : Memory} {st : Linking} {s s' : Stub}

/-- Linking one stub leaves the opcode of every stub alone. -/
theorem jumps_store (hApart : s = s' ∨
    10 ≤ (s.addr - s'.addr).toNat ∧ 10 ≤ (s'.addr - s.addr).toNat) (m : Memory) (v : Word) :
    s'.Jumps (m.store32 (s.addr + 6) v) ↔ s'.Jumps m := by
  -- the two bytes of the opcode are outside the slot, also of the stub's own
  have hFar : 4 ≤ (s'.addr - (s.addr + 6)).toNat ∧ 4 ≤ (s'.addr + 1 - (s.addr + 6)).toNat := by
    rcases hApart with rfl | ⟨hLeft, hRight⟩
    · constructor <;> bv_omega
    · constructor <;> bv_omega
  unfold Stub.Jumps Memory.store32
  rw [Memory.write_apart (by simpa using hFar.1), Memory.write_apart (by simpa using hFar.2)]

/-- The stubs `done` of the list `all` are linked, and nothing else has changed. -/
structure LinkInv (A : HostAddr) (all : List Stub) (text : Memory) (done : List Stub)
    (st : Linking) : Prop where
  jumps  : ∀ s ∈ all, s.Jumps st.text ↔ s.Jumps text
  stubs  : ∀ s ∈ done, s.Jumps text → st.text.load32 (s.addr + 6) = A s.fn
  others : ∀ x, (∀ s ∈ done, s.Jumps text → 4 ≤ (x - (s.addr + 6)).toNat) → st.text x = text x

/-- One stub more is linked, apart from the others. -/
theorem LinkInv.link (h : LinkInv A all text done st) (hApart : StubsApart all)
    (hDone : ∀ s ∈ done, s ∈ all) (hs : s ∈ all) :
    LinkInv A all text (done ++ [s]) (st.link A s) := by
  unfold Linking.link
  by_cases hJumps : s.Jumps st.text
  · rw [if_pos hJumps]
    refine ⟨fun s' hs' => ?_, fun s' hs' hText => ?_, fun x hx => ?_⟩
    · rw [jumps_store (hApart s hs s' hs')]
      exact h.jumps s' hs'
    · -- the slot that was just written, or one of those before it
      rw [List.mem_append, List.mem_singleton] at hs'
      by_cases hSame : s' = s
      · subst hSame
        exact Memory.load32_store32 _ _ _
      · -- an older stub keeps its address
        have hOld : s' ∈ done := hs'.resolve_right hSame
        obtain ⟨hLeft, hRight⟩ := (hApart s hs s' (hDone s' hOld)).resolve_left (Ne.symm hSame)
        have hSlots : Memory.Apart (s.addr + 6) (s'.addr + 6) := by
          constructor <;> bv_omega
        exact (Memory.load32_store32_apart hSlots).trans (h.stubs s' hOld hText)
    · -- a byte away from all slots, this one included
      have hHere := hx s (by simp) ((h.jumps s hs).mp hJumps)
      have hFar : ((Memory.le32 (A s.fn)).length) ≤ (x - (s.addr + 6)).toNat := hHere
      exact (Memory.write_apart hFar).trans
        (h.others x fun s' hs' => hx s' (List.mem_append_left _ hs'))
  · -- no jump through memory, so nothing is patched
    rw [if_neg hJumps]
    refine ⟨h.jumps, fun s' hs' hText => ?_, fun x hx => ?_⟩
    · rw [List.mem_append, List.mem_singleton] at hs'
      rcases hs' with hOld | rfl
      · exact h.stubs s' hOld hText
      · exact absurd ((h.jumps s' hs).mpr hText) hJumps
    · exact h.others x fun s' hs' => hx s' (List.mem_append_left _ hs')

/-- And so all stubs of the table, one after the other. -/
theorem LinkInv.run {ss : List Stub} (h : LinkInv A all text done st) (hApart : StubsApart all)
    (hDone : ∀ s ∈ done, s ∈ all) (hAll : ∀ s ∈ ss, s ∈ all) :
    LinkInv A all text (done ++ ss) (ss.foldl (Linking.link A) st) := by
  induction ss generalizing done st with
  | nil => simpa using h
  | cons s ss ih =>
    have hs : s ∈ all := hAll s (List.mem_cons_self ..)
    have hNext := ih (h.link hApart hDone hs)
      (fun s' hs' => (List.mem_append.mp hs').elim (hDone s')
        fun hLast => List.mem_singleton.mp hLast ▸ hs)
      fun s' hs' => hAll s' (List.mem_cons_of_mem _ hs')
    rwa [List.append_assoc, List.singleton_append] at hNext

/-- Stubs that do not overlap can be linked in any order. -/
theorem foldl_link (hApart : StubsApart all) :
    LinkInv A all text all (all.foldl (Linking.link A) { text, slots := [] }) := by
  have hStart : LinkInv A all text [] { text, slots := [] } :=
    ⟨fun _ _ => Iff.rfl, by simp, fun _ _ => rfl⟩
  simpa using hStart.run hApart (by simp) fun s hs => hs

end

/-! ## The table of patches as a function -/

/-- A list that is searched for one key by going through all of it. -/
theorem foldlM_of_find {α β : Type*} {key : α → List Byte} {k : List Byte}
    {f : α → β → Option β} {l : List α}
    (hNodup : (l.map key).Nodup) (b : β) :
    l.foldlM (fun b a => if key a = k then f a b else some b) b =
      (l.find? fun a => key a = k).elim (some b) fun a => f a b := by
  induction l generalizing b with
  | nil => rfl
  | cons a l ih =>
    rw [List.map_cons, List.nodup_cons] at hNodup
    rw [List.foldlM_cons]
    by_cases hKey : key a = k
    · -- the rest of the list does not have the key
      have hRest : l.find? (fun a => key a = k) = none := by
        rw [List.find?_eq_none]
        intro a' ha' hKey'
        refine hNodup.1 ?_
        rw [hKey, ← of_decide_eq_true hKey']
        exact List.mem_map_of_mem ha'
      rw [if_pos hKey, List.find?_cons_of_pos (by simpa using hKey)]
      cases hf : f a b with
      | none => simp [hf]
      | some b' =>
        have hSkip := ih hNodup.2 b'
        rw [hRest] at hSkip
        simpa [hf] using hSkip
    · rw [if_neg hKey, List.find?_cons_of_neg (by simpa using hKey)]
      simpa using ih hNodup.2 b

/-- No name is in the table of patches twice. -/
theorem pttNames_nodup : (pttNames.map fun n => ascii n.1).Nodup := by
  decide +kernel

/-- The loop over the table ends at its end mark only, as every function has an address. -/
theorem takeWhile_ptt (A : HostAddr) : (ptt A).takeWhile (fun p => p.funaddr != 0) =
    pttNames.map fun n => { symname := n.1, funaddr := A n.2 } := by
  unfold ptt
  rw [List.takeWhile_append_of_pos]
  · simp
  · intro p hp
    obtain ⟨n, -, rfl⟩ := List.mem_map.mp hp
    simpa using (A n.2).2

/-- `linkSym` patches once, for the function that has the name. -/
theorem linkSym_eq (acc : Access) (A : HostAddr) (r : SymRead) (st : Linking) :
    linkSym acc A r st =
      (pttNames.find? fun n => ascii n.1 = cstring r.symname).elim (some st)
        fun n => patchcode acc r.addr (A n.2) st := by
  unfold linkSym
  rw [takeWhile_ptt, List.foldlM_map]
  exact foldlM_of_find (k := cstring r.symname)
    (f := fun (n : String × HostFun) st => patchcode acc r.addr (A n.2) st) pttNames_nodup st

/-! ## One turn over an entry -/

/-- The bytes of a stub that `patchcode` may touch are mapped. -/
structure Access.Covers (acc : Access) (addr : Word) : Prop where
  opcode : acc.readable addr = true ∧ acc.readable (addr + 1) = true
  slot   : acc.writable (addr + 6) = true ∧ acc.writable (addr + 7) = true ∧
    acc.writable (addr + 8) = true ∧ acc.writable (addr + 9) = true

section

variable {acc : Access} {A : HostAddr} {e : SymEntry} {es : List SymEntry} {rest above symt : List Byte}
  {ssyms symp n : Nat} {active : Bool} {st : Linking}

/-- Where the stub is covered, its slot is written when it begins with the jump. -/
theorem patchcode_covered {s : Stub} (h : acc.Covers s.addr) :
    patchcode acc s.addr (A s.fn) st = some (st.link A s) := by
  obtain ⟨⟨hOp, hOp1⟩, hSlot, hSlot1, hSlot2, hSlot3⟩ := h
  unfold patchcode
  -- the opcode of a jump through memory has two bytes
  rw [if_neg (by rw [hOp]; simp)]
  by_cases hFirst : st.text s.addr = 0xFF
  · rw [if_neg (not_not.mpr hFirst), if_neg (by rw [hOp1]; simp)]
    by_cases hSecond : st.text (s.addr + 1) = 0x25
    · rw [if_neg (not_not.mpr hSecond), if_neg (by rw [hSlot, hSlot1, hSlot2, hSlot3]; simp),
        Linking.link, if_pos ⟨hFirst, hSecond⟩]
    · rw [if_pos hSecond, Linking.link, if_neg fun h => hSecond h.2]
  · rw [if_pos hFirst, Linking.link, if_neg fun h => hFirst h.1]

/-- What the loop reads at an entry is the entry. -/
structure Turn (r : SymRead) (e : SymEntry) : Prop where
  size : r.symsize = e.encode.length
  text : ∀ name, r.isText name = e.isText name
  link : ∀ acc A st, (∀ s, e.stub = some s → acc.Covers s.addr) →
    (if r.stype == ch 'T' then linkSym acc A r st else some st) =
      some (e.stub.toList.foldl (Linking.link A) st)

/-- The stub of the entry is linked when the loop is active. -/
theorem Turn.linked {r : SymRead} (h : Turn r e)
    (hCovers : ∀ s ∈ (if active then e.stub else none).toList, acc.Covers s.addr) :
    (if active && r.stype == ch 'T' then linkSym acc A r st else some st) =
      some ((if active then e.stub else none).toList.foldl (Linking.link A) st) := by
  cases active with
  | false => rfl
  | true =>
    rw [Bool.true_and, if_pos rfl]
    refine h.link acc A st fun s hs => hCovers s ?_
    simp [hs]

/-- A path is no text symbol. -/
theorem isText_path {r : SymRead} (hType : r.stype = ch 'Z' ∨ r.stype = ch 'z') (name : String) :
    r.isText name = false := by
  unfold SymRead.isText
  rcases hType with h | h <;> rw [h] <;> rfl

/-- Nor is it by its type. -/
theorem notText_path {t : Byte} (hType : t = ch 'Z' ∨ t = ch 'z') : (t == ch 'T') = false := by
  rcases hType with rfl | rfl <;> rfl

/-- A turn on an entry that does not slip reads this entry. -/
theorem readSym_entry (rest : List Byte) (hSlips : e.slips = false) :
    ∃ r, readSym (e.encode ++ rest) = some r ∧ Turn r e := by
  cases e with
  | name s =>
    refine ⟨_, readSym_name s rest, rfl, fun name => ?_, fun acc A st hCovers => ?_⟩
    · simp only [SymRead.isText, SymEntry.isText, cstring_append s.noNul]
    · by_cases hText : s.type = ch 'T'
      · -- the name is looked up in `ptt`
        have hStub : (SymEntry.name s).stub =
            (pttNames.find? fun n => ascii n.1 = s.name).map fun n =>
              { addr := s.addr, fn := n.2 } := if_pos hText
        rw [if_pos (by simpa using hText), linkSym_eq, cstring_append s.noNul]
        cases hFind : pttNames.find? fun n => ascii n.1 = s.name with
        | none => simp [hStub, hFind]
        | some n =>
          rw [hFind, Option.map_some] at hStub
          rw [hStub]
          exact patchcode_covered (s := { addr := s.addr, fn := n.2 }) (hCovers _ hStub)
      · have hStub : (SymEntry.name s).stub = none := if_neg hText
        rw [if_neg (by simpa using hText), hStub]
        rfl
  | path p =>
    refine ⟨_, readSym_path p rest hSlips, rfl, fun name => ?_, fun acc A st hCovers => ?_⟩
    · exact isText_path p.isPath name
    · rw [if_neg (by simpa using notText_path p.isPath)]
      rfl

/-! ## The loop over a well-formed table -/

/-- No entry is empty. -/
theorem encode_length_pos (e : SymEntry) : 0 < e.encode.length := by
  cases e <;> simp only [SymEntry.encode, List.length_append, length_be32] <;> omega

/-- Entries follow each other. -/
theorem encodeAll_cons : encodeAll (e :: es) = e.encode ++ encodeAll es := rfl

/-- There are no more entries than bytes. -/
theorem length_le_encodeAll (es : List SymEntry) : es.length ≤ (encodeAll es).length := by
  induction es with
  | nil => exact Nat.le_refl _
  | cons e es ih =>
    have hPos := encode_length_pos e
    rw [encodeAll_cons, List.length_cons, List.length_append]
    omega

/-- The memory at the cursor, once the cursor has moved over an entry. -/
theorem drop_entry (hMem : symt.drop symp = encodeAll (e :: es) ++ above) :
    symt.drop (symp + e.encode.length) = encodeAll es ++ above := by
  rw [← List.drop_drop, hMem, encodeAll_cons, List.append_assoc, List.drop_left]

/-- The turn of the loop at the start of an entry. -/
theorem linkLoop_entry {active' : Bool} (hSlips : e.slips = false)
    (hMem : symt.drop symp = encodeAll (e :: es) ++ above)
    (hActive : (active || e.isText "__hostlink_begin") = active')
    (hCovers : ¬ (active' && e.isText "__hostlink_end") = true →
      ∀ s ∈ (if active' then e.stub else none).toList, acc.Covers s.addr) :
    linkLoop acc A symt ssyms (n + 1) symp active st =
      if (active' && e.isText "__hostlink_end") = true then some ([symp], st)
      else
        let st' := (if active' then e.stub else none).toList.foldl (Linking.link A) st
        if symp + e.encode.length ≥ ssyms then some ([symp], st')
        else
          (linkLoop acc A symt ssyms n (symp + e.encode.length) active' st').map
            fun r => (symp :: r.1, r.2) := by
  obtain ⟨r, hRead, hTurn⟩ := readSym_entry (encodeAll es ++ above) hSlips
  rw [encodeAll_cons, List.append_assoc] at hMem
  rw [linkLoop, hMem, hRead]
  dsimp only
  rw [hTurn.text, hTurn.text, hActive]
  -- at the end mark the loop stops before it links anything
  by_cases hEnd : (active' && e.isText "__hostlink_end") = true
  · rw [if_pos hEnd, if_pos hEnd]
  rw [if_neg hEnd, if_neg hEnd, hTurn.linked (hCovers hEnd)]
  dsimp only
  rw [hTurn.size]
  by_cases hLast : symp + e.encode.length ≥ ssyms
  · rw [if_pos hLast, if_pos hLast]
  rw [if_neg hLast, if_neg hLast]
  cases linkLoop acc A symt ssyms n (symp + e.encode.length) active' _ with
  | none => rfl
  | some r => rfl

/-- The table goes on behind an entry that is not its last. -/
theorem more_entries (hMore : es ≠ []) (hSize : ssyms = symp + (encodeAll (e :: es)).length) :
    ¬ symp + e.encode.length ≥ ssyms := by
  have hRest := length_le_encodeAll es
  have hSome := List.length_pos_of_ne_nil hMore
  rw [hSize, encodeAll_cons, List.length_append]
  omega

/-- From the start of an entry on, the cursor visits the starts of the entries that
are walked, and the stubs among them are linked. -/
theorem linkLoop_walk (hEntries : es ≠ []) (hMem : symt.drop symp = encodeAll es ++ above)
    (hSize : ssyms = symp + (encodeAll es).length) (hFuel : es.length ≤ n)
    (hAligned : ∀ e ∈ walked active es, e.slips = false)
    (hCovers : ∀ s ∈ stubs active es, acc.Covers s.addr) :
    linkLoop acc A symt ssyms n symp active st =
      some (starts symp (walked active es), (stubs active es).foldl (Linking.link A) st) := by
  induction es generalizing n symp active st with
  | nil => exact absurd rfl hEntries
  | cons e es ih =>
    obtain ⟨n, rfl⟩ : ∃ m, n = m + 1 := ⟨n - 1, by rw [List.length_cons] at hFuel; omega⟩
    -- an entry that the cursor stands on is walked over, whatever comes behind it
    have hHere : e.slips = false := by
      refine hAligned e ?_
      rw [walked]
      split <;> exact List.mem_cons_self ..
    rw [walked] at hAligned
    rw [stubs] at hCovers
    rw [walked, stubs]
    generalize hActive : (active || e.isText "__hostlink_begin") = active' at hAligned hCovers ⊢
    rw [linkLoop_entry hHere hMem hActive fun hEnd s hs => by
      rw [if_neg hEnd] at hCovers
      exact hCovers s (List.mem_append_left _ hs)]
    by_cases hEnd : (active' && e.isText "__hostlink_end") = true
    · -- the walk ends here
      rw [if_pos hEnd, if_pos hEnd, if_pos hEnd]
      rfl
    rw [if_neg hEnd] at hAligned hCovers
    rw [if_neg hEnd, if_neg hEnd, if_neg hEnd, List.foldl_append]
    by_cases hLast : es = []
    · -- the cursor is at the end of the table
      subst hLast
      rw [if_pos (by rw [hSize]; simp [encodeAll])]
      rfl
    · have hSize' : ssyms = symp + e.encode.length + (encodeAll es).length := by
        rw [hSize, encodeAll_cons, List.length_append, Nat.add_assoc]
      rw [List.length_cons] at hFuel
      rw [if_neg (more_entries hLast hSize), ih hLast (drop_entry hMem) hSize' (by omega)
        (fun e' he' => hAligned e' (List.mem_cons_of_mem _ he'))
        fun s hs => hCovers s (List.mem_append_right _ hs)]
      rfl

/-! ## The loop over any table -/

/-- Only the slots that were written have changed. -/
def Linking.Frame (st st' : Linking) : Prop :=
  ∃ more, st'.slots = st.slots ++ more ∧
    ∀ x, (∀ slot ∈ more, 4 ≤ (x - slot).toNat) → st'.text x = st.text x

/-- Nothing was written. -/
theorem Linking.Frame.refl (st : Linking) : st.Frame st := ⟨[], by simp, fun _ _ => rfl⟩

/-- What two turns have written. -/
theorem Linking.Frame.trans {st1 st2 st3 : Linking} (h : st1.Frame st2) (h' : st2.Frame st3) :
    st1.Frame st3 := by
  obtain ⟨more, hSlots, hText⟩ := h
  obtain ⟨more', hSlots', hText'⟩ := h'
  refine ⟨more ++ more', by rw [hSlots', hSlots, List.append_assoc], fun x hx => ?_⟩
  rw [hText' x fun slot hSlot => hx slot (List.mem_append_right _ hSlot),
    hText x fun slot hSlot => hx slot (List.mem_append_left _ hSlot)]

/-- `patchcode` writes its slot, or nothing. -/
theorem patchcode_frame {addr funaddr : Word} {st' : Linking}
    (h : patchcode acc addr funaddr st = some st') : st.Frame st' := by
  unfold patchcode at h
  split at h
  · cases h
  split at h
  · obtain rfl := Option.some.inj h
    exact Linking.Frame.refl st
  split at h
  · cases h
  split at h
  · obtain rfl := Option.some.inj h
    exact Linking.Frame.refl st
  split at h
  · cases h
  obtain rfl := Option.some.inj h
  refine ⟨[addr + 6], rfl, fun x hx => Memory.write_apart ?_⟩
  exact hx _ (List.mem_singleton_self _)

/-- A symbol is patched once at most, as its name is in the table once. -/
theorem linkSym_frame {r : SymRead} {st' : Linking} (h : linkSym acc A r st = some st') :
    st.Frame st' := by
  rw [linkSym_eq] at h
  cases hFind : pttNames.find? fun n => ascii n.1 = cstring r.symname with
  | none =>
    rw [hFind] at h
    obtain rfl := Option.some.inj h
    exact Linking.Frame.refl st
  | some n =>
    rw [hFind] at h
    exact patchcode_frame h

/-- What a run of the loop has done: one turn, and either nothing more or a run from
the next place of the cursor on. -/
theorem linkLoop_cases {visited : List Nat} {st' : Linking}
    (h : linkLoop acc A symt ssyms (n + 1) symp active st = some (visited, st')) :
    visited = [symp] ∧ st' = st ∨
    ∃ r st1, readSym (symt.drop symp) = some r ∧
      (st1 = st ∨ linkSym acc A r st = some st1) ∧
      (visited = [symp] ∧ st' = st1 ∨
        ∃ later, visited = symp :: later ∧
          linkLoop acc A symt ssyms n (symp + r.symsize) (active || r.isText "__hostlink_begin") st1 =
            some (later, st')) := by
  rw [linkLoop] at h
  cases hRead : readSym (symt.drop symp) with
  | none => simp [hRead] at h
  | some r =>
    rw [hRead] at h
    dsimp only at h
    -- the loop looks at the end mark with the flag that this entry has set
    generalize hActive : (active || r.isText "__hostlink_begin") = active' at h
    by_cases hEnd : (active' && r.isText "__hostlink_end") = true
    · rw [if_pos hEnd] at h
      obtain ⟨rfl, rfl⟩ := Prod.mk.inj (Option.some.inj h)
      exact Or.inl ⟨rfl, rfl⟩
    rw [if_neg hEnd] at h
    cases hLink : (if active' && r.stype == ch 'T' then linkSym acc A r st else some st) with
    | none =>
      rw [hLink] at h
      cases h
    | some st1 =>
      have hTurn : st1 = st ∨ linkSym acc A r st = some st1 := by
        split at hLink
        · exact Or.inr hLink
        · exact Or.inl (Option.some.inj hLink).symm
      refine Or.inr ⟨r, st1, rfl, hTurn, ?_⟩
      rw [hLink] at h
      dsimp only at h
      -- behind the table the loop ends whatever the entry was
      by_cases hLast : symp + r.symsize ≥ ssyms
      · rw [if_pos hLast] at h
        obtain ⟨rfl, rfl⟩ := Prod.mk.inj (Option.some.inj h)
        exact Or.inl ⟨rfl, rfl⟩
      rw [if_neg hLast] at h
      cases hNext : linkLoop acc A symt ssyms n (symp + r.symsize) active' st1 with
      | none => simp [hNext] at h
      | some run =>
        rw [hNext] at h
        obtain ⟨rfl, rfl⟩ := Prod.mk.inj (Option.some.inj h)
        exact Or.inr ⟨run.1, rfl, hActive ▸ hNext⟩

/-- The cursor moves on. -/
theorem readSym_pos {symp : List Byte} {r : SymRead} (h : readSym symp = some r) :
    0 < r.symsize := by
  unfold readSym at h
  split at h
  · obtain ⟨size, hSize, rfl⟩ := Option.map_eq_some_iff.mp h
    split at hSize
    · obtain ⟨len, -, rfl⟩ := Option.map_eq_some_iff.mp hSize
      exact Nat.succ_pos _
    · obtain ⟨len, -, rfl⟩ := Option.map_eq_some_iff.mp hSize
      exact Nat.succ_pos _
  · cases h

/-- The turns that `linkTable` allows are enough: with more of them the loop does the
same. -/
theorem linkLoop_fuel {m : Nat} (hCursor : symp < ssyms ∨ symp = 0) (hn : ssyms < symp + n)
    (hm : ssyms < symp + m) :
    linkLoop acc A symt ssyms n symp active st = linkLoop acc A symt ssyms m symp active st := by
  induction n generalizing m symp active st with
  | zero => omega
  | succ n ih =>
    obtain ⟨m, rfl⟩ : ∃ m', m = m' + 1 := ⟨m - 1, by omega⟩
    rw [linkLoop, linkLoop]
    cases hRead : readSym (symt.drop symp) with
    | none => rfl
    | some r =>
      have hPos := readSym_pos hRead
      dsimp only
      split
      · rfl
      split
      · rfl
      split
      · rfl
      · rw [ih (m := m) (Or.inl (by omega)) (by omega) (by omega)]

/-- Over any bytes, the loop changes memory in the slots that it writes down. -/
theorem linkLoop_frame {visited : List Nat} {st' : Linking}
    (h : linkLoop acc A symt ssyms n symp active st = some (visited, st')) : st.Frame st' := by
  induction n generalizing symp active st visited with
  | zero => simp [linkLoop] at h
  | succ n ih =>
    rcases linkLoop_cases h with ⟨-, rfl⟩ | ⟨r, st1, -, hTurn, hRest⟩
    · exact Linking.Frame.refl st'
    -- this turn, and then the rest of the run
    have hFrame : st.Frame st1 := by
      rcases hTurn with rfl | hLink
      · exact Linking.Frame.refl st1
      · exact linkSym_frame hLink
    rcases hRest with ⟨-, rfl⟩ | ⟨later, -, hNext⟩
    · exact hFrame
    · exact hFrame.trans (ih hNext)

/-! ## A path that slips -/

/-- The cursor visits the place it starts from. -/
theorem linkLoop_head {visited : List Nat} {st' : Linking}
    (h : linkLoop acc A symt ssyms n symp active st = some (visited, st')) :
    ∃ later, visited = symp :: later := by
  cases n with
  | zero => simp [linkLoop] at h
  | succ n =>
    rcases linkLoop_cases h with ⟨rfl, -⟩ | ⟨r, st1, -, -, ⟨rfl, -⟩ | ⟨later, rfl, -⟩⟩
    · exact ⟨[], rfl⟩
    · exact ⟨[], rfl⟩
    · exact ⟨later, rfl⟩

/-- A path is neither of the marks. -/
theorem isText_of_slips (h : e.slips = true) (name : String) : e.isText name = false := by
  cases e with
  | name s => simp [SymEntry.slips] at h
  | path p => rfl

/-- The turn over a path that slips leaves the cursor inside the path. -/
theorem linkLoop_slip {visited : List Nat} {st' : Linking} (hSlips : e.slips = true)
    (hMem : symt.drop symp = encodeAll (e :: es) ++ above)
    (hSize : ssyms = symp + (encodeAll (e :: es)).length)
    (h : linkLoop acc A symt ssyms n symp active st = some (visited, st')) :
    ∃ size later, size < e.encode.length ∧ visited = symp :: (symp + size) :: later := by
  cases e with
  | name s => simp [SymEntry.slips] at hSlips
  | path p =>
    obtain ⟨r, hRead, hType, hShort⟩ := readSym_slip p (encodeAll es ++ above) hSlips
    have hPathType : r.stype = ch 'Z' ∨ r.stype = ch 'z' := hType ▸ p.isPath
    -- the table does not end inside an entry
    have hMore : ¬ symp + r.symsize ≥ ssyms := by
      rw [hSize, encodeAll_cons, List.length_append]
      omega
    rw [encodeAll_cons, List.append_assoc] at hMem
    cases n with
    | zero => simp [linkLoop] at h
    | succ n =>
      rw [linkLoop, hMem, hRead] at h
      dsimp only at h
      rw [isText_path hPathType, isText_path hPathType, notText_path hPathType, Bool.or_false,
        Bool.and_false, if_neg (by simp), if_neg (by simp)] at h
      dsimp only at h
      rw [if_neg hMore] at h
      cases hLater : linkLoop acc A symt ssyms n (symp + r.symsize) active st with
      | none => simp [hLater] at h
      | some run =>
        obtain ⟨later, hHead⟩ := linkLoop_head hLater
        simp only [hLater, Option.some.injEq, Prod.mk.injEq] at h
        exact ⟨r.symsize, later, hShort, by rw [← h.1, hHead]⟩

/-- A cursor that visits the starts of the entries has found no path that slips. -/
theorem aligned_of_starts {st' : Linking} (hMem : symt.drop symp = encodeAll es ++ above)
    (hSize : ssyms = symp + (encodeAll es).length)
    (hCovers : ∀ s ∈ stubs active es, acc.Covers s.addr)
    (h : linkLoop acc A symt ssyms n symp active st = some (starts symp (walked active es), st')) :
    ∀ e ∈ walked active es, e.slips = false := by
  induction es generalizing n symp active st with
  | nil => simp [walked]
  | cons e es ih =>
    by_cases hSlips : e.slips = true
    · -- the cursor goes on inside the path, where no entry begins
      obtain ⟨size, later, hShort, hVisited⟩ := linkLoop_slip hSlips hMem hSize h
      rw [walked, isText_of_slips hSlips, isText_of_slips hSlips, Bool.or_false, Bool.and_false,
        if_neg (by simp), starts, List.cons.injEq] at hVisited
      cases hNext : walked active es with
      | nil => simp [hNext, starts] at hVisited
      | cons e' es' =>
        rw [hNext, starts, List.cons.injEq] at hVisited
        have hStart := hVisited.2.1
        omega
    rw [Bool.not_eq_true] at hSlips
    cases n with
    | zero => simp [linkLoop] at h
    | succ n =>
      rw [walked] at h ⊢
      rw [stubs] at hCovers
      generalize hActive : (active || e.isText "__hostlink_begin") = active' at h hCovers ⊢
      rw [linkLoop_entry hSlips hMem hActive fun hEnd s hs => by
        rw [if_neg hEnd] at hCovers
        exact hCovers s (List.mem_append_left _ hs)] at h
      by_cases hEnd : (active' && e.isText "__hostlink_end") = true
      · rw [if_pos hEnd]
        simpa using hSlips
      rw [if_neg hEnd] at hCovers ⊢
      rw [if_neg hEnd, if_neg hEnd] at h
      intro e' he'
      rcases List.mem_cons.mp he' with rfl | hLater
      · exact hSlips
      -- a later entry is walked, so the run goes on behind this one
      have hSome : es ≠ [] := by
        rintro rfl
        simp [walked] at hLater
      dsimp only at h
      rw [if_neg (more_entries hSome hSize)] at h
      obtain ⟨run, hRun, hEq⟩ := Option.map_eq_some_iff.mp h
      simp only [Prod.mk.injEq, starts, List.cons.injEq, true_and] at hEq
      obtain ⟨hVisited, hState⟩ := hEq
      rw [← Prod.eta run, hVisited, hState] at hRun
      have hSize' : ssyms = symp + e.encode.length + (encodeAll es).length := by
        rw [hSize, encodeAll_cons, List.length_append, Nat.add_assoc]
      exact ih (drop_entry hMem) hSize' (fun s hs => hCovers s (List.mem_append_right _ hs)) hRun
        e' hLater

end

/-- **Host linking.** Over the bytes of a well-formed table whose stubs are mapped,
`hostlink` does what it is for exactly when the table has an entry and no path that
it walks over slips: then the cursor visits the starts of the entries, the stubs
between the two marks get their addresses, and nothing else changes. -/
theorem hostlink_exact_iff (acc : Access) (A : HostAddr) (es : List SymEntry) (above : List Byte)
    (text : Memory) (hMapped : ∀ s ∈ stubs false es, acc.Covers s.addr) :
    (∃ visited st, LinksExactly acc A es above text visited st) ↔
      es ≠ [] ∧ ∀ e ∈ walked false es, e.slips = false := by
  have hMem : (encodeAll es ++ above).drop 0 = encodeAll es ++ above := rfl
  have hSize : (encodeAll es).length = 0 + (encodeAll es).length := (Nat.zero_add _).symm
  constructor
  · rintro ⟨visited, st, hLinks⟩
    have hRun := hLinks.run
    rw [hLinks.visited] at hRun
    refine ⟨?_, aligned_of_starts hMem hSize hMapped hRun⟩
    rintro rfl
    -- the cursor is at the start of an empty table all the same
    obtain ⟨later, hHead⟩ := linkLoop_head hRun
    simp [walked, starts] at hHead
  · rintro ⟨hEntries, hAligned⟩
    have hFuel : es.length ≤ (encodeAll es).length + 1 :=
      Nat.le_succ_of_le (length_le_encodeAll es)
    refine ⟨_, _, linkLoop_walk hEntries hMem hSize hFuel hAligned hMapped, rfl, rfl, ?_, ?_⟩
    · intro hApart s hs hJumps
      exact (foldl_link hApart).stubs s hs hJumps
    · intro hApart x hx
      exact (foldl_link hApart).others x hx

/-! ## Two small tables -/

/-- A symbol of type `T`. -/
def textEntry (addr : Word) (name : String) (noNul : (0 : Byte) ∉ ascii name) : SymEntry :=
  .name { addr, type := ch 'T', name := ascii name, typeLow := by decide, notPath := by decide, noNul }

/-- A path of one unit, and the stub of `host_free` at `0x100030`. -/
def smallTable (unit : Byte × Byte) (nonzero : (0, 0) ∉ [unit]) : List SymEntry := [
  textEntry 0x100020 "__hostlink_begin" (by decide +kernel),
  .path { addr := 1, type := ch 'z', units := [unit], isPath := Or.inr rfl, nonzero },
  textEntry 0x100030 "host_free" (by decide +kernel),
  textEntry 0x100040 "__hostlink_end" (by decide +kernel)]

def openAccess : Access := { readable := fun _ => true, writable := fun _ => true }

def smallAddr : HostAddr := fun _ => ⟨0x70001000, by decide⟩

def stubText : Memory := Memory.write (fun _ => 0) 0x100030 [0xFF, 0x25]

/-- The path is the index 1: the stub is linked. -/
theorem hostlink_exact_iff_free : ∃ visited st,
    LinksExactly openAccess smallAddr (smallTable (0, 1) (by decide)) [] stubText visited st :=
  (hostlink_exact_iff openAccess smallAddr (smallTable (0, 1) (by decide)) [] stubText
    fun _ _ => ⟨⟨rfl, rfl⟩, rfl, rfl, rfl, rfl⟩).mpr ⟨by simp [smallTable], by decide +kernel⟩

/-- The path is the index 256: the cursor visits 31, where no entry begins, and the
stub keeps what it had. -/
theorem hostlink_misses_stub :
    (linkTable openAccess smallAddr (encodeAll (smallTable (1, 0) (by decide)))
      (encodeAll (smallTable (1, 0) (by decide))).length stubText).map
        (fun r => (r.1, r.2.text.load32 0x100036)) = some ([0, 22, 31, 47], 0) ∧
    ¬ ∃ visited st,
      LinksExactly openAccess smallAddr (smallTable (1, 0) (by decide)) [] stubText visited st := by
  have hRun : (linkTable openAccess smallAddr (encodeAll (smallTable (1, 0) (by decide)))
      (encodeAll (smallTable (1, 0) (by decide))).length stubText).map
        (fun r => (r.1, r.2.text.load32 0x100036)) = some ([0, 22, 31, 47], 0) := by
    decide +kernel
  refine ⟨hRun, ?_⟩
  rintro ⟨visited, st, hLinks⟩
  have hSome := hLinks.run
  rw [List.append_nil] at hSome
  rw [hSome, Option.map_some, Option.some.injEq, Prod.mk.injEq, hLinks.visited] at hRun
  have hStarts : starts 0 (walked false (smallTable (1, 0) (by decide))) = [0, 22, 32, 47] := by
    decide +kernel
  rw [hStarts] at hRun
  have hPlaces : [0, 22, 32, 47] = [0, 22, 31, 47] := hRun.1
  exact absurd hPlaces (by decide)

end Glendum
