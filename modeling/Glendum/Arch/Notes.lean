import Glendum.Lib.Area
import Glendum.Lib.Nest
import Glendum.Lib.Window
import Glendum.Arch.Uregs

/-!
# Glendum — the note handler of a process

`notify` makes a process go on in its note handler: it puts the registers of the process, the
note and the handler's arguments on the stack of the process, and chains the registers to
those of a note that is still being handled. `noted` takes the last ones back.

A process here is what both see of it: some fields of `*up`, user memory, and the kernel's
structure `Ureg`. What it does in user mode, and what the port code does to its notes, comes
between the calls. The lock `debug`, the interrupt level, `procctl` and the registers of the
floating point unit are left out.

* `pushNote_image`, `pushNote_link`, `pushNote_off` — what stands on the stack, and that
  nothing else is changed;
* `notify_ok` — what `notify` does when it returns;
* `noted_resume` — what `noted` does when it returns.
-/

namespace Glendum

open Machine

/-! ## Messages -/

/-- The array `msg` of a note: `ERRMAX` bytes, with a NUL among them. -/
structure Message where
  bytes : List Byte
  size  : bytes.length = ERRMAX
  nul   : (0 : Byte) ∈ bytes

def Message.text (m : Message) : List Byte := cstring m.bytes

def hexDigit (d : Nat) : Byte := BitVec.ofNat 8 (if d < 10 then 48 + d else 87 + d)

/-- The conversion `%.8lux`. -/
def lux8 (v : Word) : List Byte :=
  [28, 24, 20, 16, 12, 8, 4, 0].map fun k => hexDigit (v.toNat / 2 ^ k % 16)

/-- `" pc=0x%.8lux"`. -/
def pcText (pc : Word) : List Byte := ascii " pc=0x" ++ lux8 pc

theorem length_pcText (pc : Word) : (pcText pc).length = 14 := rfl

/-- `sprint(n->msg+l, " pc=0x%.8lux", ureg->pc)`, where `l` leaves room for it. -/
def Message.annotate (m : Message) (pc : Word) : Message where
  bytes := overwrite m.bytes (min m.text.length (ERRMAX - 15)) (pcText pc ++ [0])
  size := by
    have hRoom : min m.text.length (ERRMAX - 15) + (pcText pc ++ [0]).length ≤ m.bytes.length := by
      rw [m.size, List.length_append, length_pcText, List.length_singleton]
      unfold ERRMAX
      omega
    rw [length_overwrite hRoom, m.size]
  nul := by
    unfold overwrite
    simp

/-- A note in the process: its message is an array. -/
structure Posted where
  msg  : Message
  flag : NoteFlag

def Posted.note (n : Posted) : Note := { msg := n.msg.bytes, flag := n.flag }

/-- What `notify` makes of the message of the note. -/
def Posted.annotated (n : Posted) (pc : Word) : Posted :=
  if n.msg.bytes.take 4 = ascii "sys:" then { n with msg := n.msg.annotate pc } else n

/-! ## notify -/

def FPactive : Word := 1
def FPinactive : Word := 2

/-- The fields of `*up` that `notify` uses; `note` has the first `nnote` notes. -/
structure Notify extends Noted where
  notify : Word
  note   : List Posted

def UregField.all : List UregField :=
  [.di, .si, .bp, .nsp, .bx, .dx, .cx, .ax, .gs, .fs, .es, .ds, .trap, .ecode, .pc, .cs, .flags,
    .usp, .ss]

/-- `memmove((Ureg*)p, ureg, sizeof(Ureg))`. -/
def Layout.put (L : Layout) (umem : Memory) (p : Word) (ureg : Ureg) : Memory :=
  UregField.all.foldl (fun m f => Memory.store32 m (p + BitVec.ofNat 32 (L.off f)) (ureg f)) umem

/-- What goes on the user's stack around the `Ureg` at `p`, where `old` is `up->ureg`. -/
def Layout.pushNote (L : Layout) (umem : Memory) (p old : Word) (msg : Message) (ureg : Ureg) :
    Memory :=
  let umem := L.put umem p ureg
  -- word under Ureg is old up->ureg
  let umem := Memory.store32 umem (p - 4) old
  let sp := p - BitVec.ofNat 32 (BY2WD + ERRMAX)
  let umem := Memory.write umem sp msg.bytes
  let sp := sp - BitVec.ofNat 32 (3 * BY2WD)
  -- arg 2 is string, arg 1 is ureg*, arg 0 is pc
  let umem := Memory.store32 umem (sp + 8) (sp + 12)
  let umem := Memory.store32 umem (sp + 4) p
  Memory.store32 umem sp 0

/-- The stack pointer with which the handler starts, and with which `NSAVE` goes on. -/
def handlerSp (p : Word) : Word := p - BitVec.ofNat 32 (BY2WD + ERRMAX) - BitVec.ofNat 32 (3 * BY2WD)

theorem handlerSp_eq (p : Word) : handlerSp p = p - 144 := by
  unfold handlerSp BY2WD ERRMAX
  bv_omega

/-- Where `notify` puts the `Ureg`. -/
def noteFrame (ureg : Ureg) : Word := ureg .usp - 256 - BitVec.ofNat 32 sizeofUreg

def notify (okaddr : Okaddr) (L : Layout) (up : Notify) (umem : Memory) (ureg : Ureg) :
    Except Pexit (Bool × Ureg × Notify × Memory) :=
  match up.note with
  | [] => .ok (false, ureg, up, umem)
  | n :: rest =>
    let fpstate := (if up.fpstate = FPactive then FPinactive else up.fpstate) ||| FPillegal
    let n := n.annotated (ureg .pc)
    let up' := { up with fpstate, note := n :: rest }
    let death : Pexit := { msg := n.msg.bytes, freemem := n.flag ≠ .NDebug }
    if n.flag ≠ .NUser ∧ (up.notified = true ∨ up.notify = 0) then .error death else
    if up.notified = true then .ok (false, ureg, up', umem) else
    if up.notify = 0 then .error death else
    let sp := noteFrame ureg
    if okaddr up.notify 1 false = false ∨
        okaddr (sp - BitVec.ofNat 32 ERRMAX - BitVec.ofNat 32 (4 * BY2WD))
          (sizeofUreg + ERRMAX + 4 * BY2WD) true = false then .error suicide else
    let umem := L.pushNote umem sp up.ureg n.msg ureg
    let ureg := Function.update ureg .usp (handlerSp sp)
    let ureg := Function.update ureg .pc up.notify
    .ok (true, ureg, { up' with ureg := sp, notified := true, lastnote := n.note, note := rest }, umem)

/-! ## What is on the stack -/

section

variable {L : Layout} {umem umem' : Memory} {p old : Word} {msg : Message} {ureg : Ureg}

theorem off_le (L : Layout) (f : UregField) : L.off f + 4 ≤ sizeofUreg := by
  have hPos := (L.pos f).isLt
  unfold Layout.off sizeofUreg
  omega

theorem put_off : Memory.SameOff p sizeofUreg umem (L.put umem p ureg) := by
  unfold Layout.put
  generalize UregField.all = fs
  induction fs generalizing umem with
  | nil => exact Memory.SameOff.refl _ _ _
  | cons f fs ih =>
    refine Memory.SameOff.trans ?_ ih
    apply Memory.sameOff_store32.mono
    have hOff := off_le L f
    unfold sizeofUreg at hOff ⊢
    bv_omega

/-- A field that is stored later, or not at all. -/
theorem load32_stores (fs : List UregField) (f : UregField) :
    Memory.load32 (fs.foldl (fun m f => Memory.store32 m (p + BitVec.ofNat 32 (L.off f)) (ureg f)) umem)
      (p + BitVec.ofNat 32 (L.off f)) =
      if f ∈ fs then ureg f else Memory.load32 umem (p + BitVec.ofNat 32 (L.off f)) := by
  induction fs generalizing umem with
  | nil => rfl
  | cons g fs ih =>
    rw [List.foldl_cons, ih]
    by_cases hLater : f ∈ fs
    · rw [if_pos hLater, if_pos (List.mem_cons_of_mem g hLater)]
    · rw [if_neg hLater]
      by_cases hHere : f = g
      · subst hHere
        rw [if_pos List.mem_cons_self]
        exact Memory.load32_store32 _ _ _
      · rw [if_neg (List.not_mem_cons_of_ne_of_not_mem hHere hLater)]
        exact Memory.load32_store32_apart (apart_fields p (Ne.symm hHere))

theorem image_put : L.image (L.put umem p ureg) p = ureg := by
  funext f
  have hAll : f ∈ UregField.all := by
    cases f <;> decide
  show Memory.load32 (L.put umem p ureg) _ = ureg f
  rw [Layout.put, load32_stores, if_pos hAll]

/-- The structure depends on its own bytes only. -/
theorem image_congr (h : Memory.SameOn p sizeofUreg umem umem') :
    L.image umem' p = L.image umem p := by
  funext f
  have hOff := off_le L f
  apply h.load32
  · unfold sizeofUreg at hOff ⊢
    bv_omega
  · decide

/-- The same with the addresses as numbers. -/
theorem pushNote_eq : L.pushNote umem p old msg ureg =
    Memory.store32 (Memory.store32 (Memory.store32 (Memory.write
      (Memory.store32 (L.put umem p ureg) (p - 4) old) (p - 132) msg.bytes)
      (p - 144 + 8) (p - 144 + 12)) (p - 144 + 4) p) (p - 144) 0 := by
  have hMsg : p - BitVec.ofNat 32 (BY2WD + ERRMAX) = p - 132 := rfl
  have hArgs : p - 132 - BitVec.ofNat 32 (3 * BY2WD) = p - 144 := by
    unfold BY2WD
    bv_omega
  unfold Layout.pushNote
  dsimp only
  rw [hMsg, hArgs]

/-- The writes below the word under the `Ureg`. -/
theorem pushNote_below : Memory.SameOff (p - 144) 140
    (Memory.store32 (L.put umem p ureg) (p - 4) old) (L.pushNote umem p old msg ureg) := by
  have hSize : msg.bytes.length = 128 := msg.size
  rw [pushNote_eq]
  refine Memory.SameOff.trans (Memory.SameOff.trans (Memory.SameOff.trans
    (Memory.sameOff_write.mono ?_) (Memory.sameOff_store32.mono ?_))
    (Memory.sameOff_store32.mono ?_)) (Memory.sameOff_store32.mono ?_)
  all_goals bv_omega

/-- Nothing changes outside of what `okaddr` was asked about. -/
theorem pushNote_off : Memory.SameOff (p - 144) 220 umem (L.pushNote umem p old msg ureg) := by
  refine Memory.SameOff.trans (Memory.SameOff.trans (put_off.mono ?_)
    (Memory.sameOff_store32.mono ?_)) (pushNote_below.mono ?_)
  · unfold sizeofUreg
    bv_omega
  all_goals bv_omega

theorem pushNote_image : L.image (L.pushNote umem p old msg ureg) p = ureg := by
  rw [image_congr (pushNote_below.sameOn (by bv_omega) (by unfold sizeofUreg; bv_omega)),
    image_congr (Memory.sameOff_store32.sameOn (by bv_omega) (by unfold sizeofUreg; bv_omega)),
    image_put]

theorem pushNote_link : Memory.load32 (L.pushNote umem p old msg ureg) (p - 4) = old := by
  have hSame : Memory.SameOn (p - 4) 4 _ (L.pushNote umem p old msg ureg) :=
    pushNote_below.sameOn (by bv_omega) (by bv_omega)
  rw [hSame.load32 (by bv_omega) (by decide)]
  exact Memory.load32_store32 _ _ _

/-- The handler's three arguments. -/
theorem pushNote_args (L : Layout) (umem : Memory) (p old : Word) (msg : Message) (ureg : Ureg) :
    Memory.load32 (L.pushNote umem p old msg ureg) (p - 144) = 0 ∧
    Memory.load32 (L.pushNote umem p old msg ureg) (p - 144 + 4) = p ∧
    Memory.load32 (L.pushNote umem p old msg ureg) (p - 144 + 8) = p - 144 + 12 := by
  rw [pushNote_eq]
  refine ⟨Memory.load32_store32 _ _ _, ?_, ?_⟩
  · rw [Memory.load32_store32_apart ⟨by bv_omega, by bv_omega⟩]
    exact Memory.load32_store32 _ _ _
  · rw [Memory.load32_store32_apart ⟨by bv_omega, by bv_omega⟩,
      Memory.load32_store32_apart ⟨by bv_omega, by bv_omega⟩]
    exact Memory.load32_store32 _ _ _

/-- The bytes of the message are where the second argument points. -/
theorem pushNote_msg {i : Nat} (hi : i < msg.bytes.length) :
    L.pushNote umem p old msg ureg (p - 144 + 12 + BitVec.ofNat 32 i) = msg.bytes[i] := by
  have hSize : msg.bytes.length = 128 := msg.size
  rw [pushNote_eq]
  -- the three arguments are below the message
  rw [Memory.sameOff_store32 _ (by bv_omega), Memory.sameOff_store32 _ (by bv_omega),
    Memory.sameOff_store32 _ (by bv_omega)]
  rw [show p - 144 + 12 = p - 132 by bv_omega]
  exact Memory.write_at hi (by omega)

end

/-! ## What the two functions do -/

section

variable {okaddr : Okaddr} {L : Layout} {umem umem' : Memory} {ureg r : Ureg}

/-- A handler is started. -/
structure Delivers (okaddr : Okaddr) (L : Layout) (up up' : Notify) (umem umem' : Memory)
    (ureg r : Ureg) : Prop where
  notified : up.notified = false
  handler  : r = Function.update (Function.update ureg .usp (noteFrame ureg - 144)) .pc up.notify
  granted  : okaddr (noteFrame ureg - 144) 220 true = true
  saved    : up'.ureg = noteFrame ureg
  after    : up'.notified = true
  pushed   : ∃ n rest, up.note = n :: rest ∧ up'.note = rest ∧
    umem' = L.pushNote umem (noteFrame ureg) up.ureg (n.annotated (ureg .pc)).msg ureg

/-- `notify` starts a handler, or does not touch the process. -/
theorem notify_ok {up up' : Notify} {b : Bool}
    (h : notify okaddr L up umem ureg = .ok (b, r, up', umem')) :
    (b = true ∧ Delivers okaddr L up up' umem umem' ureg r) ∨
      (b = false ∧ (up.notified = true ∨ up.note.isEmpty = true) ∧ r = ureg ∧ umem' = umem ∧
        up'.ureg = up.ureg ∧ up'.notified = up.notified) := by
  unfold notify at h
  split at h
  · rename_i hNote
    cases h
    rw [hNote]
    exact Or.inr ⟨rfl, Or.inr rfl, rfl, rfl, rfl, rfl⟩
  · rename_i n rest hNote
    dsimp only at h
    split at h
    · cases h
    split at h
    · rename_i hNotified
      cases h
      exact Or.inr ⟨rfl, Or.inl hNotified, rfl, rfl, rfl, rfl⟩
    rename_i hNotified
    split at h
    · cases h
    split at h
    · cases h
    rename_i hGranted
    cases h
    rw [not_or, Bool.not_eq_false, Bool.not_eq_false] at hGranted
    -- the address that was asked about is the handler's stack pointer
    have hPlace : noteFrame ureg - BitVec.ofNat 32 ERRMAX - BitVec.ofNat 32 (4 * BY2WD) =
        noteFrame ureg - 144 := by
      unfold ERRMAX BY2WD
      bv_omega
    left
    refine ⟨rfl, Bool.not_eq_true _ ▸ hNotified, by rw [handlerSp_eq], ?_, rfl, rfl, n, rest, hNote,
      rfl, rfl⟩
    rw [← hPlace]
    exact hGranted.2

/-- The flags that `noted` goes on with. -/
def mergeFlags (ureg saved : Ureg) : Ureg :=
  Function.update saved .flags ((ureg .flags &&& ~~~ 0xCD5) ||| (saved .flags &&& 0xCD5))

/-- `noted` goes on with the registers that the process has left in its `Ureg`. -/
structure Resumes (okaddr : Okaddr) (L : Layout) (up up' : Noted) (umem umem' : Memory)
    (ureg r : Ureg) (arg0 : Word) : Prop where
  granted  : okaddr (up.ureg - 4) 80 false = true
  after    : up'.notified = false
  regs     : r = if arg0 = NSAVE then
      Function.update (mergeFlags ureg (L.image umem up.ureg)) .usp (up.ureg - 144)
    else mergeFlags ureg (L.image umem up.ureg)
  saved    : up'.ureg = if arg0 = NSAVE then up.ureg else Memory.load32 umem (up.ureg - 4)
  image    : L.image umem' up.ureg = mergeFlags ureg (L.image umem up.ureg)
  outside  : Memory.SameOff (up.ureg - 144) 220 umem umem'
  link     : Memory.load32 umem' (up.ureg - 4) = Memory.load32 umem (up.ureg - 4)

/-- The flags are stored inside of the structure. -/
theorem flags_off (umem : Memory) (p v : Word) : Memory.SameOff p sizeofUreg umem
    (Memory.store32 umem (p + BitVec.ofNat 32 (L.off .flags)) v) := by
  apply Memory.sameOff_store32.mono
  have hOff := off_le L .flags
  unfold sizeofUreg at hOff ⊢
  bv_omega

/-- The two arguments that `NSAVE` puts below the structure. -/
theorem args_off (umem : Memory) (p : Word) : Memory.SameOff (p - 144) 8 umem
    (Memory.store32 (Memory.store32 umem (p - 144 + 4) p) (p - 144) 0) :=
  Memory.SameOff.trans (Memory.sameOff_store32.mono (by bv_omega))
    (Memory.sameOff_store32.mono (by bv_omega))

theorem noted_resume {up up' : Noted} {arg0 : Word}
    (h : noted okaddr L up umem ureg arg0 = .ok (r, up', umem')) :
    Resumes okaddr L up up' umem umem' ureg r arg0 := by
  unfold noted at h
  split at h
  · cases h
  dsimp only at h
  split at h
  · cases h
  rename_i hGranted
  rw [Bool.not_eq_false] at hGranted
  split at h
  · cases h
  rw [image_store] at h
  have hFlags := flags_off (L := L) umem up.ureg
    ((ureg .flags &&& ~~~ 0xCD5) ||| (L.image umem up.ureg .flags &&& 0xCD5))
  -- the word under the structure is not stored to
  have hLink : Memory.SameOn (up.ureg - 4) 4 umem _ :=
    hFlags.sameOn (by unfold sizeofUreg; bv_omega) (by bv_omega)
  have hAround := hFlags.mono (b := up.ureg - 144) (k := 220)
    (by unfold sizeofUreg; bv_omega)
  split at h
  · rename_i hArg
    have hSave : arg0 ≠ NSAVE := by
      rintro rfl
      exact absurd hArg (by decide)
    split at h
    · cases h
    · cases h
      refine ⟨hGranted, rfl, (if_neg hSave).symm, ?_, image_store _ _ _, hAround, ?_⟩
      · rw [if_neg hSave, hLink.load32 (by bv_omega) (by decide)]
      · exact hLink.load32 (by bv_omega) (by decide)
  · split at h
    · rename_i hSave
      split at h
      · cases h
      · cases h
        have hSp : up.ureg - BitVec.ofNat 32 (4 * BY2WD) - BitVec.ofNat 32 ERRMAX =
            up.ureg - 144 := by
          unfold ERRMAX BY2WD
          bv_omega
        rw [hSp]
        -- the two arguments are below the message
        have hArgs := args_off (Memory.store32 umem (up.ureg + BitVec.ofNat 32 (L.off .flags))
          ((ureg .flags &&& ~~~ 0xCD5) ||| (L.image umem up.ureg .flags &&& 0xCD5))) up.ureg
        refine ⟨hGranted, rfl, (if_pos hSave).symm, (if_pos hSave).symm, ?_, ?_, ?_⟩
        · rw [image_congr (hArgs.sameOn (by bv_omega)
            (by unfold sizeofUreg; bv_omega))]
          exact image_store _ _ _
        · exact hAround.trans (hArgs.mono (by bv_omega))
        · have hKept : Memory.SameOn (up.ureg - 4) 4 _ _ := hArgs.sameOn
            (by bv_omega) (by bv_omega)
          exact (hLink.trans hKept).load32 (by bv_omega) (by decide)
    · cases h

end

end Glendum
