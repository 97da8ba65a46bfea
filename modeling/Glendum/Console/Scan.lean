import Glendum.Console.Echo

/-!
# Glendum — scan codes

`kbdputsc` of `kbd.c` with its key tables: a scan code from the keyboard or from
`kbin` moves the state of its source, and may give runes to `kbdputc`, which puts
their UTF-8 bytes on the staging ring. `latin1` is code of the original kernel; the
mouse (`kbdmouse`) and the prints under `kdebug` are left out.
-/

namespace Glendum

open Machine

abbrev Rune := BitVec 16

/-! ## Constants and tables -/

def Spec : Rune := 0xF800
def View : Rune := Spec ||| 0x00
def KF : Rune := 0xF000
def Shift : Rune := Spec ||| 0x60
def Break : Rune := Spec ||| 0x61
def Ctrl : Rune := Spec ||| 0x62
def Latin : Rune := Spec ||| 0x63
def Caps : Rune := Spec ||| 0x64
def Num : Rune := Spec ||| 0x65
def Altgr : Rune := Spec ||| 0x67
def Kmouse : Rune := Spec ||| 0x100
def No : Rune := 0x00

def Home : Rune := KF ||| 13
def Up : Rune := KF ||| 14
def Pgup : Rune := KF ||| 15
def Print : Rune := KF ||| 16
def Left : Rune := KF ||| 17
def Right : Rune := KF ||| 18
def End : Rune := KF ||| 24
def Down : Rune := View
def Pgdown : Rune := KF ||| 19
def Ins : Rune := KF ||| 20
def Del : Rune := 0x7F
def Scroll : Rune := KF ||| 21

def Nscan : Nat := 128

/-- The rune of a character. -/
def rune (c : Char) : Rune := BitVec.ofNat 16 c.toNat

/-- `KF|n`. -/
def kf (n : Nat) : Rune := KF ||| BitVec.ofNat 16 n

structure Kbtabs where
  kbtab      : Vector Rune Nscan
  kbtabshift : Vector Rune Nscan
  kbtabesc1  : Vector Rune Nscan
  kbtabaltgr : Vector Rune Nscan
  kbtabctrl  : Vector Rune Nscan

/-- Eight keys for which the tables have nothing. -/
def noKeys : List Rune := [No, No, No, No, No, No, No, No]

def kbtab : List Rune :=
  [No, 0x1b, rune '1', rune '2', rune '3', rune '4', rune '5', rune '6'] ++
  [rune '7', rune '8', rune '9', rune '0', rune '-', rune '=', 0x08, rune '\t'] ++
  [rune 'q', rune 'w', rune 'e', rune 'r', rune 't', rune 'y', rune 'u', rune 'i'] ++
  [rune 'o', rune 'p', rune '[', rune ']', rune '\n', Ctrl, rune 'a', rune 's'] ++
  [rune 'd', rune 'f', rune 'g', rune 'h', rune 'j', rune 'k', rune 'l', rune ';'] ++
  [0x27, 0x60, Shift, 0x5c, rune 'z', rune 'x', rune 'c', rune 'v'] ++
  [rune 'b', rune 'n', rune 'm', rune ',', rune '.', rune '/', Shift, rune '*'] ++
  [Latin, rune ' ', Ctrl, kf 1, kf 2, kf 3, kf 4, kf 5] ++
  [kf 6, kf 7, kf 8, kf 9, kf 10, Num, Scroll, rune '7'] ++
  [rune '8', rune '9', rune '-', rune '4', rune '5', rune '6', rune '+', rune '1'] ++
  [rune '2', rune '3', rune '0', rune '.', No, No, No, kf 11] ++
  [kf 12, No, No, No, No, No, No, No] ++
  noKeys ++ noKeys ++ noKeys ++
  [No, View, No, Up, No, No, No, No]

def kbtabshift : List Rune :=
  [No, 0x1b, rune '!', rune '@', rune '#', rune '$', rune '%', rune '^'] ++
  [rune '&', rune '*', rune '(', rune ')', rune '_', rune '+', 0x08, rune '\t'] ++
  [rune 'Q', rune 'W', rune 'E', rune 'R', rune 'T', rune 'Y', rune 'U', rune 'I'] ++
  [rune 'O', rune 'P', 0x7b, 0x7d, rune '\n', Ctrl, rune 'A', rune 'S'] ++
  [rune 'D', rune 'F', rune 'G', rune 'H', rune 'J', rune 'K', rune 'L', rune ':'] ++
  [0x22, rune '~', Shift, rune '|', rune 'Z', rune 'X', rune 'C', rune 'V'] ++
  [rune 'B', rune 'N', rune 'M', rune '<', rune '>', rune '?', Shift, rune '*'] ++
  [Latin, rune ' ', Ctrl, kf 1, kf 2, kf 3, kf 4, kf 5] ++
  [kf 6, kf 7, kf 8, kf 9, kf 10, Num, Scroll, rune '7'] ++
  [rune '8', rune '9', rune '-', rune '4', rune '5', rune '6', rune '+', rune '1'] ++
  [rune '2', rune '3', rune '0', rune '.', No, No, No, kf 11] ++
  [kf 12, No, No, No, No, No, No, No] ++
  noKeys ++ noKeys ++ noKeys ++
  [No, Up, No, Up, No, No, No, No]

/-- The tables `kbtabesc1` and `kbtabaltgr` have the same entries. -/
def kbtabesc1 : List Rune :=
  noKeys ++ noKeys ++ noKeys ++
  [No, No, No, No, rune '\n', Ctrl, No, No] ++
  noKeys ++
  [No, No, Shift, No, No, No, No, No] ++
  [No, No, No, No, No, rune '/', No, Print] ++
  [Altgr, No, No, No, No, No, No, No] ++
  [No, No, No, No, No, No, Break, Home] ++
  [Up, Pgup, No, Left, No, Right, No, End] ++
  [Down, Pgdown, Ins, Del, No, No, No, No] ++
  noKeys ++ noKeys ++ noKeys ++ noKeys ++
  [No, Up, No, No, No, No, No, No]

def kbtabaltgr : List Rune := kbtabesc1

def kbtabctrl : List Rune :=
  [No, 0x1b, 0x11, 0x12, 0x13, 0x14, 0x15, 0x16] ++
  [0x17, 0x18, 0x19, 0x10, 0x0d, 0x1d, 0x08, 0x09] ++
  [0x11, 0x17, 0x05, 0x12, 0x14, 0x19, 0x15, 0x09] ++
  [0x0f, 0x10, 0x1b, 0x1d, 0x0a, Ctrl, 0x01, 0x13] ++
  [0x04, 0x06, 0x07, 0x08, 0x0a, 0x0b, 0x0c, 0x1b] ++
  [0x07, No, Shift, 0x1c, 0x1a, 0x18, 0x03, 0x16] ++
  [0x02, 0x0e, 0x0d, 0x0c, 0x0e, 0x0f, Shift, 0x0a] ++
  [Latin, No, Ctrl, 0x05, 0x06, 0x07, 0x04, 0x05] ++
  [0x06, 0x07, 0x0c, 0x0d, 0x0e, 0x05, 0x06, 0x17] ++
  [0x18, 0x19, 0x0d, 0x14, 0x15, 0x16, 0x0b, 0x11] ++
  [0x12, 0x13, 0x10, 0x0e, No, No, No, 0x0f] ++
  [0x0c, No, No, No, No, No, No, No] ++
  noKeys ++ noKeys ++ noKeys ++
  [No, 0x07, No, 0x08, No, No, No, No]

/-- The tables as they are before any `kbdputmap`. -/
def defaultTabs : Kbtabs where
  kbtab := ⟨kbtab.toArray, rfl⟩
  kbtabshift := ⟨kbtabshift.toArray, rfl⟩
  kbtabesc1 := ⟨kbtabesc1.toArray, rfl⟩
  kbtabaltgr := ⟨kbtabaltgr.toArray, rfl⟩
  kbtabctrl := ⟨kbtabctrl.toArray, rfl⟩

/-! ## `kbdputsc` -/

/-- `sizeof kc / sizeof kc[0]`. -/
def NKC : Nat := 5

structure Kbscan where
  esc1       : Bool := false
  esc2       : Nat := 0
  alt        : Bool := false
  altgr      : Bool := false
  caps       : Bool := false
  ctl        : Bool := false
  num        : Bool := false
  shift      : Bool := false
  collecting : Bool := false
  nk         : Nat := 0
  kc         : Vector Rune NKC := .replicate NKC 0
  buttons    : BitVec 32 := 0

/-- What the two sources share. `exiting` tells that `exit` was called. -/
structure KbGlobals where
  mouseshifted : Bool := false
  kdebug       : Bool := false
  exiting      : Bool := false

/-- The index of a scan code in the tables, `c & 0x7f`: it is below `Nscan`, so the
test for an unknown key never holds. -/
def scanIndex (c : Byte) : Fin Nscan :=
  ⟨(c &&& 0x7f).toNat, by
    rw [BitVec.toNat_and]
    exact Nat.lt_of_le_of_lt Nat.and_le_right (by decide)⟩

/-- The table that the modifiers select. -/
def Kbscan.tab (k : Kbscan) (tabs : Kbtabs) : Vector Rune Nscan :=
  if k.esc1 then tabs.kbtabesc1
  else if k.shift then tabs.kbtabshift
  else if k.altgr then tabs.kbtabaltgr
  else if k.ctl then tabs.kbtabctrl
  else tabs.kbtab

/-- The rune that a scan code is decoded to. -/
def Kbscan.decode (k : Kbscan) (tabs : Kbtabs) (c : Byte) : Rune :=
  let r := (k.tab tabs).get (scanIndex c)
  if k.caps = true ∧ r ≤ rune 'z' ∧ rune 'a' ≤ r then r + (rune 'A' - rune 'a') else r

/-- The bit of the mouse button `Kmouse|i`, for `i` from 1 to 5. -/
def buttonBit (r : Rune) : Option (BitVec 32) :=
  if Kmouse < r ∧ r ≤ Kmouse ||| 5 then some (1#32 <<< (r - Kmouse - 1).toNat) else none

/-- A key goes up: this is only important for shifts. -/
def Kbscan.keyup (k : Kbscan) (g : KbGlobals) (r : Rune) : Kbscan × KbGlobals :=
  if r = Latin then ({ k with alt := false }, g)
  else if r = Shift then ({ k with shift := false }, { g with mouseshifted := false })
  else if r = Ctrl then ({ k with ctl := false }, g)
  else if r = Altgr then ({ k with altgr := false }, g)
  else
    match buttonBit r with
    | some b => ({ k with buttons := k.buttons &&& ~~~ b }, g)
    | none => (k, g)

/-- A key other than a normal character goes down. -/
def Kbscan.special (k : Kbscan) (g : KbGlobals) (r : Rune) : Kbscan × KbGlobals × List Rune :=
  if r = Caps then ({ k with caps := !k.caps }, g, [])
  else if r = Num then ({ k with num := !k.num }, g, [])
  else if r = Shift then ({ k with shift := true }, { g with mouseshifted := true }, [])
  else if r = Latin then
    -- with `Ctrl` it is the key combination of a host, and starts no compose sequence
    if k.ctl then ({ k with alt := true }, g, [])
    else ({ k with alt := true, collecting := true, nk := 0 }, g, [])
  else if r = Ctrl then ({ k with ctl := true }, g, [])
  else if r = Altgr then ({ k with altgr := true }, g, [])
  else
    match buttonBit r with
    | some b => ({ k with buttons := k.buttons ||| b }, g, [])
    | none =>
      if r = kf 11 then (k, { g with kdebug := true }, [r])
      else if r = kf 12 then (k, { g with kdebug := false }, [r])
      else (k, g, [r])

/-- The runes collected so far. -/
def Kbscan.collected (k : Kbscan) : List Rune := k.kc.toList.take k.nk

/-- A normal character, with the runes that go to `kbdputc`; `none` is a store outside
`kc`. `latin1` answers -1 when the runes mean nothing, less when it needs more of them,
and otherwise the rune that they mean. -/
def Kbscan.normal (latin1 : List Rune → Int) (k : Kbscan) (g : KbGlobals) (r : Rune) :
    Option (Kbscan × KbGlobals × List Rune) :=
  let g := if k.ctl = true ∧ k.alt = true ∧ r = Del then { g with exiting := true } else g
  if k.collecting then
    if h : k.nk < NKC then
      let k := { k with kc := k.kc.set k.nk r h, nk := k.nk + 1 }
      let v := latin1 k.collected
      -- more keystrokes are needed
      if v < -1 then some (k, g, [])
      else
        -- the rune of a valid sequence, or the characters as they were typed
        some ({ k with nk := 0, collecting := false }, g,
          if v ≠ -1 then [BitVec.ofInt 16 v] else k.collected)
    else none
  else some (k, g, [r])

def kbdputsc (tabs : Kbtabs) (latin1 : List Rune → Int) (k : Kbscan) (g : KbGlobals) (c : Byte) :
    Option (Kbscan × KbGlobals × List Rune) :=
  -- 0xe0 is the first of two scan codes, 0xe1 of three
  if c = 0xe0 then some ({ k with esc1 := true }, g, [])
  else if c = 0xe1 then some ({ k with esc2 := 2 }, g, [])
  else if k.esc1 = false ∧ k.esc2 ≠ 0 then some ({ k with esc2 := k.esc2 - 1 }, g, [])
  else
    let r := k.decode tabs c
    let k := { k with esc1 := false }
    if c &&& 0x80 ≠ 0 then some ((k.keyup g r).1, (k.keyup g r).2, [])
    else if r &&& (Spec ||| KF) = 0 then k.normal latin1 g r
    else some (k.special g r)

/-! ## `kbdputc` -/

/-- The UTF-8 bytes of a rune. -/
def runetochar (r : Rune) : List Byte :=
  if r ≤ 0x7F then [r.setWidth 8]
  else if r ≤ 0x7FF then
    [0xC0 ||| (r >>> 6).setWidth 8, 0x80 ||| (r &&& 0x3F).setWidth 8]
  else
    [0xE0 ||| (r >>> 12).setWidth 8, 0x80 ||| ((r >>> 6) &&& 0x3F).setWidth 8,
      0x80 ||| (r &&& 0x3F).setWidth 8]

/-- A byte that finds the ring full is dropped, and so are the ones behind it. -/
def kbdputc (s : Cons) (r : Rune) : Cons := (runetochar r).foldl Cons.stage s

end Glendum
