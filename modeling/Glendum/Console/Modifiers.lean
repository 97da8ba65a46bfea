import Glendum.Console.Scan
import Glendum.Lib.Trace

/-!
# Glendum — modifiers

A modifier is set when one of its keys goes down, and cleared when the code of a key that
goes up is decoded to it. The table for that is the one that the modifiers select when
the key goes up, which need not be the one of its press: under `altgr`, the codes 0x38
and 0x3a do not stand for `Latin` and `Ctrl`. And 0x60 and 0x61 with the bit 0x80 are the
prefixes 0xe0 and 0xe1.

* `looks_make` — the keys that set a modifier;
* `looks_break` — the keys that clear it, and the two that miss;
* `modifiers_exact` — the runs in which a modifier is set only while one of its keys is
  down.
-/

namespace Glendum

open Machine Trace

/-! ## Keys -/

/-- A key: whether its codes come behind 0xe0, and its make code. -/
structure Key where
  e0   : Bool
  code : BitVec 7
deriving DecidableEq

/-- What is sent when the key goes down. -/
def Key.makeCodes (key : Key) : List Byte :=
  (if key.e0 then [0xe0] else []) ++ [key.code.setWidth 8]

/-- What is sent when the key goes up. -/
def Key.breakCodes (key : Key) : List Byte :=
  (if key.e0 then [0xe0] else []) ++ [key.code.setWidth 8 ||| 0x80]

inductive Modifier
  | shift | ctl | alt | altgr

/-- The entry of the tables that stands for the modifier. -/
def Modifier.rune : Modifier → Rune
  | .shift => Shift
  | .ctl => Ctrl
  | .alt => Latin
  | .altgr => Altgr

/-- The keys that have this entry in the tables they are pressed with. -/
def Modifier.keys : Modifier → List Key
  | .shift => [⟨false, 0x2a⟩, ⟨false, 0x36⟩, ⟨true, 0x2a⟩]
  | .ctl => [⟨false, 0x1d⟩, ⟨true, 0x1d⟩, ⟨false, 0x3a⟩]
  | .alt => [⟨false, 0x38⟩]
  | .altgr => [⟨true, 0x38⟩]

def Kbscan.on (k : Kbscan) : Modifier → Bool
  | .shift => k.shift
  | .ctl => k.ctl
  | .alt => k.alt
  | .altgr => k.altgr

/-! ## A keyboard -/

/-- One source of scan codes, and the keys that are down. -/
structure Keyboard where
  k    : Kbscan := {}
  g    : KbGlobals := {}
  down : List Key := []

inductive KeyOp
  /-- a key goes down, or repeats while it is down -/
  | make (key : Key)
  /-- a key that is down goes up -/
  | break_ (key : Key)

/-- The codes one after the other. -/
def sends (latin1 : List Rune → Int) : Kbscan → KbGlobals → List Byte → Option (Kbscan × KbGlobals)
  | k, g, [] => some (k, g)
  | k, g, c :: cs => (kbdputsc defaultTabs latin1 k g c).bind fun r => sends latin1 r.1 r.2.1 cs

def Keyboard.step (latin1 : List Rune → Int) (s : Keyboard) : KeyOp → Option Keyboard
  | .make key => (sends latin1 s.k s.g key.makeCodes).map fun r => ⟨r.1, r.2, s.down.insert key⟩
  | .break_ key =>
    if key ∈ s.down then
      (sends latin1 s.k s.g key.breakCodes).map fun r => ⟨r.1, r.2, s.down.filter fun key' => key' ≠ key⟩
    else none

/-- No prefix is left over, and a modifier that is set has a key that is down. -/
structure Keyboard.Held (s : Keyboard) : Prop where
  esc1 : s.k.esc1 = false
  esc2 : s.k.esc2 = 0
  keys : ∀ m, s.k.on m = true → ∃ key ∈ m.keys, key ∈ s.down

/-- The key that goes up is not decoded from the wrong table, or does not matter: it is
not the key of `Latin`, nor the last one of `Ctrl`, under `altgr`. Its code is none that
becomes a prefix. -/
def Keyboard.Found (s : Keyboard) : KeyOp → Prop
  | .make _ => True
  | .break_ key =>
    key.code ≠ 0x60 ∧ key.code ≠ 0x61 ∧
    (s.k.altgr = true → s.k.shift = false →
      ¬ (key = ⟨false, 0x38⟩ ∧ s.k.alt = true) ∧
      ¬ (key = ⟨false, 0x3a⟩ ∧ s.k.ctl = true ∧
        (⟨false, 0x1d⟩ : Key) ∉ s.down ∧ (⟨true, 0x1d⟩ : Key) ∉ s.down))

/-- No modifier is set, and keys are looked up in the plain table. -/
structure Kbscan.Rest (k : Kbscan) : Prop where
  off  : ∀ m, k.on m = false
  esc1 : k.esc1 = false
  esc2 : k.esc2 = 0
  tab  : k.tab defaultTabs = defaultTabs.kbtab

/-! ## Single codes -/

/-- The rune of a key. -/
def Kbscan.looks (k : Kbscan) (key : Key) : Rune :=
  ({ k with esc1 := key.e0 } : Kbscan).decode defaultTabs (key.code.setWidth 8)

section

variable {latin1 : List Rune → Int} {k k' : Kbscan} {g g' : KbGlobals} {key : Key} {r : Rune} {c : Byte}
  {rs : List Rune} {m : Modifier}

/-- The code of a press is no prefix and no release. -/
theorem make_byte : ∀ c : BitVec 7, (c.setWidth 8 : Byte) ≠ 0xe0 ∧ (c.setWidth 8 : Byte) ≠ 0xe1 ∧
    (c.setWidth 8 : Byte) &&& 0x80 = 0 := by decide

/-- Nor is the one of a release, but for two keys. -/
theorem break_byte : ∀ c : BitVec 7, c ≠ 0x60 → c ≠ 0x61 →
    (c.setWidth 8 ||| 0x80 : Byte) ≠ 0xe0 ∧ (c.setWidth 8 ||| 0x80 : Byte) ≠ 0xe1 := by decide

/-- A make code and its break code stand for the same entry. -/
theorem break_index : ∀ c : BitVec 7, (c.setWidth 8 ||| 0x80 : Byte) &&& 0x80 ≠ 0 ∧
    scanIndex (c.setWidth 8 ||| 0x80) = scanIndex (c.setWidth 8) := by decide

/-- A release is decoded as the press. -/
theorem decode_break (k : Kbscan) (c : BitVec 7) :
    k.decode defaultTabs (c.setWidth 8 ||| 0x80) = k.decode defaultTabs (c.setWidth 8) := by
  rw [Kbscan.decode, Kbscan.decode, (break_index c).2]

/-- Capital letters are no modifiers. -/
theorem decode_eq_rune : k.decode defaultTabs c = m.rune ↔
    (k.tab defaultTabs).get (scanIndex c) = m.rune := by
  -- the caps lock moves letters only, and the runes of modifiers lie above these
  have hHigh : rune 'z' < m.rune := by cases m <;> decide
  generalize hr : (k.tab defaultTabs).get (scanIndex c) = r
  simp only [Kbscan.decode, hr]
  split
  · rename_i hCaps
    obtain ⟨-, hLast, hFirst⟩ := hCaps
    have hz : (rune 'z').toNat = 122 := rfl
    have ha : (rune 'a').toNat = 97 := rfl
    have hA : (rune 'A' - rune 'a').toNat = 65504 := rfl
    rw [BitVec.le_def] at hLast hFirst
    rw [BitVec.lt_def] at hHigh
    refine iff_of_false (fun h => ?_) fun h => ?_
    · have hNat := congrArg BitVec.toNat h
      rw [BitVec.toNat_add] at hNat
      omega
    · rw [h] at hLast
      omega
  · exact Iff.rfl

/-- The runes that are not a modifier's. -/
theorem not_rune (h : ¬ ∃ m : Modifier, r = m.rune) :
    r ≠ Latin ∧ r ≠ Shift ∧ r ≠ Ctrl ∧ r ≠ Altgr :=
  ⟨fun hr => h ⟨.alt, hr⟩, fun hr => h ⟨.shift, hr⟩, fun hr => h ⟨.ctl, hr⟩, fun hr => h ⟨.altgr, hr⟩⟩

/-- A release ends its modifier and leaves the rest. -/
theorem keyup_spec (k : Kbscan) (g : KbGlobals) (r : Rune) :
    (∀ m, (k.keyup g r).1.on m = if r = m.rune then false else k.on m) ∧
      (k.keyup g r).1.esc1 = k.esc1 ∧ (k.keyup g r).1.esc2 = k.esc2 ∧
      (k.keyup g r).2.exiting = g.exiting := by
  by_cases hMod : ∃ m : Modifier, r = m.rune
  · obtain ⟨m, rfl⟩ := hMod
    cases m with
    | shift => exact ⟨fun m => by cases m <;> rfl, rfl, rfl, rfl⟩
    | ctl => exact ⟨fun m => by cases m <;> rfl, rfl, rfl, rfl⟩
    | alt => exact ⟨fun m => by cases m <;> rfl, rfl, rfl, rfl⟩
    | altgr => exact ⟨fun m => by cases m <;> rfl, rfl, rfl, rfl⟩
  · -- at most a button of the mouse
    obtain ⟨hLatin, hShift, hCtrl, hAltgr⟩ := not_rune hMod
    simp only [Kbscan.keyup, if_neg hLatin, if_neg hShift, if_neg hCtrl, if_neg hAltgr]
    split
    · exact ⟨fun m => by rw [if_neg fun h => hMod ⟨m, h⟩]; cases m <;> rfl, rfl, rfl, rfl⟩
    · exact ⟨fun m => by rw [if_neg fun h => hMod ⟨m, h⟩], rfl, rfl, rfl⟩

/-- A press starts its modifier and leaves the rest. -/
theorem special_spec (k : Kbscan) (g : KbGlobals) (r : Rune) :
    (∀ m, (k.special g r).1.on m = if r = m.rune then true else k.on m) ∧
      (k.special g r).1.esc1 = k.esc1 ∧ (k.special g r).1.esc2 = k.esc2 ∧
      (k.special g r).2.1.exiting = g.exiting := by
  by_cases hMod : ∃ m : Modifier, r = m.rune
  · obtain ⟨m, rfl⟩ := hMod
    cases m with
    | shift => exact ⟨fun m => by cases m <;> rfl, rfl, rfl, rfl⟩
    | ctl => exact ⟨fun m => by cases m <;> rfl, rfl, rfl, rfl⟩
    | alt =>
      -- with `Ctrl` down it starts no compose sequence
      have hAlt : k.special g Modifier.alt.rune = if k.ctl then ({ k with alt := true }, g, [])
          else ({ k with alt := true, collecting := true, nk := 0 }, g, []) := rfl
      rw [hAlt]
      split
      · exact ⟨fun m => by cases m <;> rfl, rfl, rfl, rfl⟩
      · exact ⟨fun m => by cases m <;> rfl, rfl, rfl, rfl⟩
    | altgr => exact ⟨fun m => by cases m <;> rfl, rfl, rfl, rfl⟩
  · obtain ⟨hLatin, hShift, hCtrl, hAltgr⟩ := not_rune hMod
    have hOther : ∀ m : Modifier, (if r = m.rune then true else k.on m) = k.on m :=
      fun m => if_neg fun h => hMod ⟨m, h⟩
    simp only [Kbscan.special, if_neg hLatin, if_neg hShift, if_neg hCtrl, if_neg hAltgr, hOther]
    -- locks, buttons of the mouse and function keys
    split
    · exact ⟨fun m => by cases m <;> rfl, rfl, rfl, rfl⟩
    split
    · exact ⟨fun m => by cases m <;> rfl, rfl, rfl, rfl⟩
    split
    · exact ⟨fun m => by cases m <;> rfl, rfl, rfl, rfl⟩
    split
    · exact ⟨fun m => rfl, rfl, rfl, rfl⟩
    split
    · exact ⟨fun m => rfl, rfl, rfl, rfl⟩
    · exact ⟨fun m => rfl, rfl, rfl, rfl⟩

/-- A normal character moves no modifier; it needs `Alt` to end the session. -/
theorem normal_spec (h : k.normal latin1 g r = some (k', g', rs)) :
    (∀ m, k'.on m = k.on m) ∧ k'.esc1 = k.esc1 ∧ k'.esc2 = k.esc2 ∧
      (k.alt = false → g'.exiting = g.exiting) := by
  have hExit : k.alt = false → (if k.ctl = true ∧ k.alt = true ∧ r = Del then
      { g with exiting := true } else g).exiting = g.exiting := by
    intro hAlt
    rw [if_neg fun hAll => by rw [hAlt] at hAll; cases hAll.2.1]
  -- what changes is the compose sequence, and at most the end of the session
  unfold Kbscan.normal at h
  dsimp only at h
  generalize (if k.ctl = true ∧ k.alt = true ∧ r = Del then { g with exiting := true } else g) = g1
    at h hExit
  split at h
  · split at h
    · split at h
      · obtain ⟨rfl, rfl, -⟩ := h
        exact ⟨fun m => by cases m <;> rfl, rfl, rfl, hExit⟩
      · obtain ⟨rfl, rfl, -⟩ := h
        exact ⟨fun m => by cases m <;> rfl, rfl, rfl, hExit⟩
    · cases h
  · obtain ⟨rfl, rfl, -⟩ := h
    exact ⟨fun m => rfl, rfl, rfl, hExit⟩

/-! ## Keys that go down and up -/

/-- A code that comes behind no prefix, or behind 0xe0. -/
theorem kbdputsc_code (hOne : c ≠ 0xe0) (hTwo : c ≠ 0xe1) (hEsc2 : k.esc2 = 0) (e0 : Bool) :
    kbdputsc defaultTabs latin1 { k with esc1 := e0 } g c =
      let r := ({ k with esc1 := e0 } : Kbscan).decode defaultTabs c
      let k := { k with esc1 := false }
      if c &&& 0x80 ≠ 0 then some ((k.keyup g r).1, (k.keyup g r).2, [])
      else if r &&& (Spec ||| KF) = 0 then k.normal latin1 g r
      else some (k.special g r) := by
  unfold kbdputsc
  rw [if_neg hOne, if_neg hTwo, if_neg fun h => h.2 hEsc2]

/-- Without a prefix there is none to forget. -/
theorem esc1_eta (h : k.esc1 = false) : { k with esc1 := false } = k := by
  cases k
  cases h
  rfl

/-- The codes of a key are one code, looked up behind its prefix. -/
theorem sends_key (hEsc1 : k.esc1 = false) (e0 : Bool) :
    sends latin1 k g ((if e0 then [0xe0] else []) ++ [c]) =
      (kbdputsc defaultTabs latin1 { k with esc1 := e0 } g c).map fun r => (r.1, r.2.1) := by
  have hOne : ∀ k : Kbscan, sends latin1 k g [c] =
      (kbdputsc defaultTabs latin1 k g c).map fun r => (r.1, r.2.1) := by
    intro k
    rw [sends, Option.map_eq_bind]
    rfl
  cases e0 with
  | false =>
    rw [esc1_eta hEsc1]
    exact hOne k
  | true =>
    rw [← hOne]
    rfl

/-- A key of one code is released. -/
theorem sends_break (hEsc1 : k.esc1 = false) (hEsc2 : k.esc2 = 0) (hCode : key.code ≠ 0x60)
    (hCode' : key.code ≠ 0x61) :
    sends latin1 k g key.breakCodes = some (k.keyup g (k.looks key)) := by
  obtain ⟨hOne, hTwo⟩ := break_byte key.code hCode hCode'
  rw [Key.breakCodes, sends_key hEsc1, kbdputsc_code hOne hTwo hEsc2]
  simp only [decode_break]
  rw [if_pos (break_index key.code).1, esc1_eta hEsc1]
  rfl

/-- The other two codes leave a prefix over. -/
theorem sends_prefix (hEsc1 : k.esc1 = false) (hCode : key.code = 0x60 ∨ key.code = 0x61)
    (h : sends latin1 k g key.breakCodes = some (k', g')) : k'.esc1 = true ∨ k'.esc2 ≠ 0 := by
  rw [Key.breakCodes, sends_key hEsc1] at h
  rcases hCode with hCode | hCode
  · rw [hCode] at h
    obtain ⟨rfl, -⟩ := h
    exact Or.inl rfl
  · rw [hCode] at h
    obtain ⟨rfl, -⟩ := h
    exact Or.inr (Nat.succ_ne_zero 1)

/-- A key that goes down sets the modifier that it stands for, and nothing else. -/
theorem sends_make (hEsc1 : k.esc1 = false) (hEsc2 : k.esc2 = 0)
    (h : sends latin1 k g key.makeCodes = some (k', g')) :
    (∀ m, k'.on m = true → k.on m = true ∨ k.looks key = m.rune) ∧ k'.esc1 = false ∧ k'.esc2 = 0 := by
  obtain ⟨hOne, hTwo, hDown⟩ := make_byte key.code
  rw [Key.makeCodes, sends_key hEsc1, kbdputsc_code hOne hTwo hEsc2] at h
  simp only [hDown, esc1_eta hEsc1] at h
  rw [if_neg fun h => h rfl, Option.map_eq_some_iff] at h
  obtain ⟨⟨k1, g1, rs⟩, hPut, hEq⟩ := h
  obtain ⟨rfl, rfl⟩ := Prod.mk.inj hEq
  split at hPut
  -- an ordinary character
  · obtain ⟨hOn, hFirst, hSecond, -⟩ := normal_spec hPut
    exact ⟨fun m hm => Or.inl ((hOn m).symm.trans hm), hFirst.trans hEsc1, hSecond.trans hEsc2⟩
  -- a special key, which may be the one of a modifier
  · obtain ⟨hOn, hFirst, hSecond, -⟩ := special_spec k g (k.looks key)
    obtain rfl : (k.special g (k.looks key)).1 = k1 := congrArg Prod.fst (Option.some.inj hPut)
    refine ⟨fun m hm => ?_, hFirst.trans hEsc1, hSecond.trans hEsc2⟩
    rw [hOn m] at hm
    split at hm
    · exact Or.inr ‹_›
    · exact Or.inl hm

/-! ## The tables -/

/-- The entries of a table that stand for modifiers. -/
def modEntries (tab : Vector Rune Nscan) : List (Rune × Nat) :=
  tab.toList.zipIdx.filter fun e => e.1 ∈ [Shift, Ctrl, Latin, Altgr]

/-- The modifiers of the plain table. -/
theorem kbtab_mods : modEntries defaultTabs.kbtab =
    [(Ctrl, 0x1d), (Shift, 0x2a), (Shift, 0x36), (Latin, 0x38), (Ctrl, 0x3a)] := by decide +kernel

/-- The modifiers of the table for `Shift`. -/
theorem kbtabshift_mods : modEntries defaultTabs.kbtabshift =
    [(Ctrl, 0x1d), (Shift, 0x2a), (Shift, 0x36), (Latin, 0x38), (Ctrl, 0x3a)] := by decide +kernel

/-- The modifiers of the table for `Ctrl`. -/
theorem kbtabctrl_mods : modEntries defaultTabs.kbtabctrl =
    [(Ctrl, 0x1d), (Shift, 0x2a), (Shift, 0x36), (Latin, 0x38), (Ctrl, 0x3a)] := by decide +kernel

/-- The modifiers behind the prefix 0xe0. -/
theorem kbtabesc1_mods : modEntries defaultTabs.kbtabesc1 =
    [(Ctrl, 0x1d), (Shift, 0x2a), (Altgr, 0x38)] := by decide +kernel

/-- A key that is decoded to a modifier is one of the list. -/
theorem mem_modEntries {tab : Vector Rune Nscan} {c : BitVec 7}
    (h : tab.get (scanIndex (c.setWidth 8)) = m.rune) : (m.rune, c.toNat) ∈ modEntries tab := by
  have hIndex : ∀ c : BitVec 7, (scanIndex (c.setWidth 8)).val = c.toNat := by decide
  have hMod : m.rune ∈ [Shift, Ctrl, Latin, Altgr] := by cases m <;> decide
  rw [modEntries, List.mem_filter, List.mk_mem_zipIdx_iff_getElem?]
  refine ⟨?_, decide_eq_true hMod⟩
  rw [← hIndex c, Vector.getElem?_toList, Vector.getElem?_eq_getElem (scanIndex _).isLt, ← h]
  rfl

/-- The rune of a key is a modifier's when its entry is. -/
theorem looks_eq_rune : k.looks key = m.rune ↔
    (if key.e0 then defaultTabs.kbtabesc1
      else if k.shift then defaultTabs.kbtabshift
      else if k.altgr then defaultTabs.kbtabaltgr
      else if k.ctl then defaultTabs.kbtabctrl
      else defaultTabs.kbtab).get (scanIndex (key.code.setWidth 8)) = m.rune :=
  decode_eq_rune

/-- A key that goes down and is decoded to a modifier is one of its keys, or finds it set:
`altgr` has an entry in the table that it selects. -/
theorem looks_make (h : k.looks key = m.rune) : key ∈ m.keys ∨ k.on m = true := by
  obtain ⟨e0, c⟩ := key
  have hCode : BitVec.ofNat 7 c.toNat = c := by simp
  -- the keys that the entries of a table are for
  have hPlain : ∀ e ∈ [(Ctrl, 0x1d), (Shift, 0x2a), (Shift, 0x36), (Latin, 0x38), (Ctrl, 0x3a)],
      e.1 = m.rune → ⟨false, BitVec.ofNat 7 e.2⟩ ∈ m.keys := by
    cases m <;> decide
  have hEsc1 : ∀ e ∈ [(Ctrl, 0x1d), (Shift, 0x2a), (Altgr, 0x38)],
      e.1 = m.rune → ⟨true, BitVec.ofNat 7 e.2⟩ ∈ m.keys := by
    cases m <;> decide
  have hAltgr : ∀ e ∈ [(Ctrl, 0x1d), (Shift, 0x2a), (Altgr, 0x38)],
      e.1 = m.rune → ⟨false, BitVec.ofNat 7 e.2⟩ ∈ m.keys ∨ m.rune = Altgr := by
    cases m <;> decide
  rw [looks_eq_rune] at h
  have hEntry := mem_modEntries h
  cases e0 with
  | true =>
    rw [if_pos rfl, kbtabesc1_mods] at hEntry
    exact Or.inl (hCode ▸ hEsc1 _ hEntry rfl)
  | false =>
    rw [if_neg Bool.false_ne_true] at hEntry
    split at hEntry
    · rw [kbtabshift_mods] at hEntry
      exact Or.inl (hCode ▸ hPlain _ hEntry rfl)
    · split at hEntry
      · rename_i hOn
        -- the two tables have the same entries
        have hSame : modEntries defaultTabs.kbtabaltgr = modEntries defaultTabs.kbtabesc1 := rfl
        rw [hSame, kbtabesc1_mods] at hEntry
        refine (hAltgr _ hEntry rfl).imp (fun hKey => hCode ▸ hKey) fun hRune => ?_
        cases m with
        | altgr => exact hOn
        | shift => exact absurd hRune (by decide)
        | ctl => exact absurd hRune (by decide)
        | alt => exact absurd hRune (by decide)
      · split at hEntry
        · rw [kbtabctrl_mods] at hEntry
          exact Or.inl (hCode ▸ hPlain _ hEntry rfl)
        · rw [kbtab_mods] at hEntry
          exact Or.inl (hCode ▸ hPlain _ hEntry rfl)

/-- A key of a modifier that is set is decoded to it when it goes up, but for the keys that
`altgr` has another entry for. -/
theorem looks_break (hOn : k.on m = true) (hKey : key ∈ m.keys) : k.looks key = m.rune ↔
    ¬ (k.altgr = true ∧ k.shift = false ∧ (key = ⟨false, 0x38⟩ ∨ key = ⟨false, 0x3a⟩)) := by
  rw [looks_eq_rune]
  cases m with
  | shift =>
    have hShift : k.shift = true := hOn
    simp only [Modifier.keys, List.mem_cons, List.not_mem_nil, or_false] at hKey
    -- with `shift` set the table of `altgr` is not looked at
    simp only [hShift, Bool.true_eq_false, false_and, and_false, not_false_iff, iff_true]
    rcases hKey with rfl | rfl | rfl <;> rfl
  | altgr =>
    simp only [Modifier.keys, List.mem_singleton] at hKey
    subst hKey
    -- behind 0xe0 there is one table only
    refine iff_of_true rfl ?_
    rintro ⟨-, -, hBad⟩
    revert hBad
    decide
  | alt =>
    simp only [Modifier.keys, List.mem_singleton] at hKey
    subst hKey
    -- `Latin` is missing from the table of `altgr`, and from no other one
    cases hShift : k.shift <;> cases hAltgr : k.altgr <;> cases hCtl : k.ctl <;> decide
  | ctl =>
    have hCtl : k.ctl = true := hOn
    simp only [Modifier.keys, List.mem_cons, List.not_mem_nil, or_false] at hKey
    rw [hCtl]
    rcases hKey with rfl | rfl | rfl
    · cases hShift : k.shift <;> cases hAltgr : k.altgr <;> decide
    · refine iff_of_true rfl ?_
      rintro ⟨-, -, hBad⟩
      revert hBad
      decide
    · cases hShift : k.shift <;> cases hAltgr : k.altgr <;> decide

end

/-! ## One key -/

section

variable {latin1 : List Rune → Int} {s s' : Keyboard} {key : Key} {o : KeyOp} {m : Modifier}

/-- A press keeps the modifiers true to the keys. -/
theorem Keyboard.Held.make (h : s.Held) (hStep : s.step latin1 (.make key) = some s') : s'.Held := by
  rw [Keyboard.step, Option.map_eq_some_iff] at hStep
  obtain ⟨⟨k', g'⟩, hSends, rfl⟩ := hStep
  obtain ⟨hOn, hEsc1, hEsc2⟩ := sends_make h.esc1 h.esc2 hSends
  refine ⟨hEsc1, hEsc2, fun m hm => ?_⟩
  -- the keys that were down are down
  have hDown : s.k.on m = true → ∃ key' ∈ m.keys, key' ∈ s.down.insert key := by
    intro hOld
    obtain ⟨key', hKey, hMem⟩ := h.keys m hOld
    exact ⟨key', hKey, List.mem_insert_of_mem hMem⟩
  rcases hOn m hm with hOld | hLooks
  · exact hDown hOld
  · rcases looks_make hLooks with hKey | hOld
    · exact ⟨key, hKey, List.mem_insert_self⟩
    · exact hDown hOld

/-- What is left of a modifier when a key goes up. -/
theorem Keyboard.Held.break_ (h : s.Held) (hCode : key.code ≠ 0x60) (hCode' : key.code ≠ 0x61)
    (hStep : s.step latin1 (.break_ key) = some s') :
    key ∈ s.down ∧ s'.down = s.down.filter (fun key' => key' ≠ key) ∧ s'.k.esc1 = false ∧
      s'.k.esc2 = 0 ∧ ∀ m, s'.k.on m = true ↔ s.k.on m = true ∧ s.k.looks key ≠ m.rune := by
  rw [Keyboard.step, Option.ite_none_right_eq_some, Option.map_eq_some_iff] at hStep
  obtain ⟨hDown, r, hSends, rfl⟩ := hStep
  rw [sends_break h.esc1 h.esc2 hCode hCode', Option.some.injEq] at hSends
  obtain ⟨hOn, hEsc1, hEsc2, -⟩ := keyup_spec s.k s.g (s.k.looks key)
  rw [hSends] at hOn hEsc1 hEsc2
  refine ⟨hDown, rfl, hEsc1.trans h.esc1, hEsc2.trans h.esc2, fun m => ?_⟩
  rw [hOn m]
  split
  · rename_i hLooks
    exact iff_of_false Bool.false_ne_true fun hAll => hAll.2 hLooks
  · rename_i hLooks
    exact ⟨fun hm => ⟨hm, hLooks⟩, fun hAll => hAll.1⟩

/-- So does every step that finds the rune it began with. -/
theorem Keyboard.Held.step (h : s.Held) (hFound : s.Found o) (hStep : s.step latin1 o = some s') :
    s'.Held := by
  cases o with
  | make key => exact h.make hStep
  | break_ key =>
    obtain ⟨hCode, hCode', hAltgr⟩ := hFound
    obtain ⟨-, hDown, hEsc1, hEsc2, hOn⟩ := h.break_ hCode hCode' hStep
    refine ⟨hEsc1, hEsc2, fun m hm => ?_⟩
    obtain ⟨hOld, hLooks⟩ := (hOn m).mp hm
    rw [hDown]
    -- a key that stays down
    have hStays : ∀ key', key' ∈ m.keys → key' ∈ s.down → key' ≠ key →
        ∃ key' ∈ m.keys, key' ∈ s.down.filter (fun key' => key' ≠ key) := fun key' hKey hMem hNe =>
      ⟨key', hKey, List.mem_filter.mpr ⟨hMem, decide_eq_true hNe⟩⟩
    by_cases hKey : key ∈ m.keys
    · rw [ne_eq, looks_break hOld hKey, not_not] at hLooks
      obtain ⟨hOnAltgr, hNoShift, hBad⟩ := hLooks
      obtain ⟨hAlt, hCtl⟩ := hAltgr hOnAltgr hNoShift
      rcases hBad with rfl | rfl
      · cases m with
        | alt => exact absurd ⟨rfl, hOld⟩ hAlt
        | shift => exact absurd hKey (by decide)
        | ctl => exact absurd hKey (by decide)
        | altgr => exact absurd hKey (by decide)
      · cases m with
        | ctl =>
          -- another key of `Ctrl` is down
          by_cases hLeft : (⟨false, 0x1d⟩ : Key) ∈ s.down
          · exact hStays _ (by decide) hLeft (by decide)
          · by_cases hRight : (⟨true, 0x1d⟩ : Key) ∈ s.down
            · exact hStays _ (by decide) hRight (by decide)
            · exact absurd ⟨rfl, hOld, hLeft, hRight⟩ hCtl
        | shift => exact absurd hKey (by decide)
        | alt => exact absurd hKey (by decide)
        | altgr => exact absurd hKey (by decide)
    · obtain ⟨key', hKey', hMem⟩ := h.keys m hOld
      exact hStays key' hKey' hMem fun hEq => hKey (hEq ▸ hKey')

/-- The keys that are not found leave a modifier set, or a prefix. -/
theorem Keyboard.Held.stuck (h : s.Held) (hNot : ¬ s.Found o) (hStep : s.step latin1 o = some s') :
    ¬ s'.Held := by
  intro hHeld
  cases o with
  | make key => exact hNot trivial
  | break_ key =>
    by_cases hCode : key.code = 0x60 ∨ key.code = 0x61
    · rw [Keyboard.step, Option.ite_none_right_eq_some, Option.map_eq_some_iff] at hStep
      obtain ⟨-, r, hSends, rfl⟩ := hStep
      rcases sends_prefix h.esc1 hCode hSends with hEsc1 | hEsc2
      · exact Bool.false_ne_true (hHeld.esc1.symm.trans hEsc1)
      · exact hEsc2 hHeld.esc2
    rw [not_or] at hCode
    obtain ⟨-, hDown, -, -, hOn⟩ := h.break_ hCode.1 hCode.2 hStep
    -- the modifier stays set, and its key is up
    have hStuck : ∀ m, s.k.on m = true → key ∈ m.keys → (key = ⟨false, 0x38⟩ ∨ key = ⟨false, 0x3a⟩) →
        s.k.altgr = true → s.k.shift = false → ∃ key' ∈ m.keys, key' ∈ s.down ∧ key' ≠ key := by
      intro m hm hKey hBad hAltgr hShift
      have hStays : s'.k.on m = true := by
        rw [hOn m, ne_eq, looks_break hm hKey, not_not]
        exact ⟨hm, hAltgr, hShift, hBad⟩
      obtain ⟨key', hKey', hMem⟩ := hHeld.keys m hStays
      rw [hDown, List.mem_filter, decide_eq_true_iff] at hMem
      exact ⟨key', hKey', hMem⟩
    refine hNot ⟨hCode.1, hCode.2, fun hAltgr hShift => ⟨?_, ?_⟩⟩
    · rintro ⟨rfl, hAlt⟩
      obtain ⟨key', hKey', -, hNe⟩ := hStuck .alt hAlt (by decide) (by decide) hAltgr hShift
      simp only [Modifier.keys, List.mem_singleton] at hKey'
      exact hNe hKey'
    · rintro ⟨rfl, hCtl, hLeft, hRight⟩
      obtain ⟨key', hKey', hMem, hNe⟩ := hStuck .ctl hCtl (by decide) (by decide) hAltgr hShift
      simp only [Modifier.keys, List.mem_cons, List.not_mem_nil, or_false] at hKey'
      rcases hKey' with rfl | rfl | rfl
      · exact hLeft hMem
      · exact hRight hMem
      · exact hNe rfl

/-- With all keys up, no modifier is set. -/
theorem Keyboard.Held.rest (h : s.Held) (hUp : s.down = []) : s.k.Rest := by
  have hOff : ∀ m, s.k.on m = false := by
    intro m
    by_contra hOn
    obtain ⟨key, -, hMem⟩ := h.keys m (Bool.eq_true_of_not_eq_false hOn)
    rw [hUp] at hMem
    exact List.not_mem_nil hMem
  have hShift : s.k.shift = false := hOff .shift
  have hAltgr : s.k.altgr = false := hOff .altgr
  have hCtl : s.k.ctl = false := hOff .ctl
  refine ⟨hOff, h.esc1, h.esc2, ?_⟩
  rw [Kbscan.tab, h.esc1, hShift, hAltgr, hCtl]
  rfl

/-- Only with `Alt` does a scan code end the session. -/
theorem kbdputsc_exiting {k : Kbscan} {g : KbGlobals} {c : Byte} {r : Kbscan × KbGlobals × List Rune}
    (hAlt : k.alt = false) (h : kbdputsc defaultTabs latin1 k g c = some r) :
    r.2.1.exiting = g.exiting := by
  obtain ⟨k', g', rs⟩ := r
  unfold kbdputsc at h
  split at h
  · obtain ⟨-, rfl, -⟩ := h
    rfl
  split at h
  · obtain ⟨-, rfl, -⟩ := h
    rfl
  split at h
  · obtain ⟨-, rfl, -⟩ := h
    rfl
  -- past the prefixes: a key that goes up, a character, or a special key
  dsimp only at h
  split at h
  · obtain ⟨-, rfl, -⟩ := Prod.mk.inj (Option.some.inj h)
    exact (keyup_spec _ _ _).2.2.2
  split at h
  · exact (normal_spec h).2.2.2 hAlt
  · have hG := congrArg (fun r => r.2.1.exiting) (Option.some.inj h)
    exact hG.symm.trans (special_spec _ _ _).2.2.2

/-- Nothing is pressed. -/
theorem keyboard_start : Keyboard.Held {} where
  esc1 := rfl
  esc2 := rfl
  keys m hOn := by cases m <;> cases hOn

end

/-- A modifier is set only while one of its keys is down, and no prefix is left over, in
exactly the runs in which every key that goes up is found. Then with all keys up no modifier
is set and keys are looked up in the plain table, and while `Alt` is up no scan code ends the
session. -/
theorem modifiers_exact {latin1 : List Rune → Int} {os : List KeyOp} {t : Keyboard}
    (h : run (Keyboard.step latin1) {} os = some t) :
    (Throughout (Keyboard.step latin1) Keyboard.Held {} os ↔
      Always (Keyboard.step latin1) Keyboard.Found {} os) ∧
    (Always (Keyboard.step latin1) Keyboard.Found {} os →
      (t.down = [] → t.k.Rest) ∧
      ((⟨false, 0x38⟩ : Key) ∉ t.down → ∀ c r, kbdputsc defaultTabs latin1 t.k t.g c = some r →
        r.2.1.exiting = t.g.exiting)) := by
  refine ⟨throughout_iff_always (fun _ _ _ hHeld hFound hStep => hHeld.step hFound hStep)
    (fun _ hHeld => hHeld) (fun _ _ _ hHeld hNot hStep => hHeld.stuck hNot hStep) keyboard_start h,
    fun hAlways => ?_⟩
  have hHeld := run_invariant (fun _ _ _ hHeld hFound hStep => Keyboard.Held.step hHeld hFound hStep)
    keyboard_start hAlways h
  refine ⟨hHeld.rest, fun hUp c r hPut => kbdputsc_exiting ?_ hPut⟩
  by_contra hOn
  obtain ⟨key, hKey, hMem⟩ := hHeld.keys .alt (Bool.eq_true_of_not_eq_false hOn)
  rw [Modifier.keys, List.mem_singleton] at hKey
  exact hUp (hKey ▸ hMem)

/-- `Shift` with a letter, and the keys up in the order of their press. -/
theorem modifiers_exact_shift : ∃ t,
    run (Keyboard.step fun _ => -1) {} [.make ⟨false, 0x2a⟩, .make ⟨false, 0x1e⟩,
      .break_ ⟨false, 0x2a⟩, .break_ ⟨false, 0x1e⟩] = some t ∧ t.k.Rest := by
  have hRun : ∃ t, run (Keyboard.step fun _ => -1) {} [.make ⟨false, 0x2a⟩, .make ⟨false, 0x1e⟩,
      .break_ ⟨false, 0x2a⟩, .break_ ⟨false, 0x1e⟩] = some t ∧ t.down = [] := ⟨_, rfl, rfl⟩
  obtain ⟨t, hT, hUp⟩ := hRun
  refine ⟨t, hT, ((modifiers_exact hT).2 ⟨trivial, ?_⟩).1 hUp⟩
  rintro _ ⟨⟩
  refine ⟨trivial, ?_⟩
  rintro _ ⟨⟩
  refine ⟨⟨by decide, by decide, fun hAltgr => absurd hAltgr Bool.false_ne_true⟩, ?_⟩
  rintro _ ⟨⟩
  exact ⟨⟨by decide, by decide, fun hAltgr => absurd hAltgr Bool.false_ne_true⟩, fun _ _ => trivial⟩

/-- `Alt`, then `Altgr`, and the keys up in the same order: `alt` stays set. -/
theorem alt_stuck : ∃ t,
    run (Keyboard.step fun _ => -1) {} [.make ⟨false, 0x38⟩, .make ⟨true, 0x38⟩,
      .break_ ⟨false, 0x38⟩, .break_ ⟨true, 0x38⟩] = some t ∧
    t.down = [] ∧ t.k.alt = true ∧ ¬ t.k.Rest := by
  refine ⟨_, rfl, rfl, rfl, fun hRest => ?_⟩
  exact Bool.false_ne_true (hRest.off .alt).symm

end Glendum
