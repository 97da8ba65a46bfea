import Glendum.Lib.Nest
import Glendum.Arch.Notes

/-!
# Glendum — notes inside of notes

While a process handles a note, it can be notified again: a handler that asks `noted` for
`NSAVE` goes on with its old registers, which are kept for `NRSTR`. The kernel has no stack
for these; the places of the registers are chained through user memory, where the process can
write. Here is what makes the chain a stack, over whole runs of a process.

* `nested_simulates` — as long as the process keeps the links and makes its stack pointer
  leave room, the two functions work on a stack of interrupted contexts;
* `stacked_keeps` — a process that stays below its last frame always leaves room;
* `noted_restores` — and it gets its registers back when the handler is through, however many
  notes came in between.

What the port code answers for an address is a parameter (`UserRange`).
-/

namespace Glendum

open Machine

/-! ## Runs of a process -/

/-- `live` has the places of the registers that `notify` has put on the stack and `noted` has
not taken back, the last one first. The kernel does not keep it. -/
structure Noteproc where
  up   : Notify
  umem : Memory
  ureg : Ureg
  live : List Word

inductive NoteOp
  /-- user mode, until the process is in the kernel again -/
  | user (ureg : Ureg) (umem : Memory)
  /-- the port code: notes come and go, the handler is set, an exception in floating point -/
  | port (handler : Word) (note : List Posted) (fpstate : Word)
  | notify (okaddr : Okaddr)
  | noted (okaddr : Okaddr) (arg0 : Word)

/-- A process that is sent to `pexit` has no next state. -/
def Noteproc.step (L : Layout) (s : Noteproc) : NoteOp → Option Noteproc
  | .user ureg umem => some { s with ureg, umem }
  | .port handler note fpstate => some { s with up := { s.up with notify := handler, note, fpstate } }
  | .notify okaddr =>
    match notify okaddr L s.up s.umem s.ureg with
    | .error _ => none
    | .ok (b, ureg, up, umem) =>
      some { up, umem, ureg, live := if b = true then up.ureg :: s.live else s.live }
  | .noted okaddr arg0 =>
    match noted okaddr L s.up.toNoted s.umem s.ureg arg0 with
    | .error _ => none
    | .ok (ureg, up, umem) =>
      some { up := { s.up with toNoted := up }, umem, ureg,
             live := if arg0 = NSAVE then s.live else s.live.tail }

/-! ## The stack of contexts -/

def Noteproc.contexts (L : Layout) (s : Noteproc) : Nest Word Ureg where
  regs := s.ureg
  live := s.live.map fun f => { frame := f, regs := L.image s.umem f }

/-- The registers with which the handler starts. -/
def handlerRegs (up : Notify) (ureg : Ureg) : Ureg :=
  Function.update (Function.update ureg .usp (noteFrame ureg - 144)) .pc up.notify

/-- What an operation means for the stack. -/
def NoteOp.acts (L : Layout) (s : Noteproc) : NoteOp → List (Nest.Op Word Ureg)
  | .user ureg umem => [.go ureg fun f _ => L.image umem f]
  | .port _ _ _ => []
  | .notify _ =>
    if s.up.notified = true ∨ s.up.note.isEmpty = true then []
    else [.enter (noteFrame s.ureg) (handlerRegs s.up s.ureg)]
  | .noted _ arg0 =>
    if arg0 = NSAVE then
      [.stay (mergeFlags s.ureg) fun r => Function.update r .usp (s.up.ureg - 144)]
    else [.leave (mergeFlags s.ureg)]

/-! ## What is assumed -/

/-- Addresses that `okaddr` grants are in segments of the process, none of which has the first
or the last page. -/
def UserRange (okaddr : Okaddr) : Prop :=
  ∀ (a : Word) (n : Nat) (w : Bool), 0 < n → okaddr a n w = true →
    4096 ≤ a.toNat ∧ a.toNat + n + 4096 ≤ 2 ^ 32

/-- What goes on the stack around `p` is apart from the registers at `g` and their link. -/
def ClearOf (p g : Word) : Prop := p.toNat + 80 ≤ g.toNat ∨ g.toNat + 220 ≤ p.toNat

/-- The process does not write over the links, and its stack pointer leaves the frames alone
when it is notified. -/
def NoteOp.Spares (s : Noteproc) : NoteOp → Prop
  | .user _ umem => ∀ f ∈ s.live, Memory.load32 umem (f - 4) = Memory.load32 s.umem (f - 4)
  | .port _ _ _ => True
  | .notify okaddr =>
    UserRange okaddr ∧ (okaddr (noteFrame s.ureg - 144) 220 true = true →
      ∀ g ∈ s.live, ClearOf (noteFrame s.ureg) g)
  | .noted okaddr _ => UserRange okaddr

/-- From `p` on, the words under the structures lead from one frame to the next. -/
def Linked (umem : Memory) : Word → List Word → Prop
  | p, [] => p = 0
  | p, f :: fs => p = f ∧ Linked umem (Memory.load32 umem (f - 4)) fs

structure Nested (s : Noteproc) : Prop where
  linked : Linked s.umem s.up.ureg s.live
  inside : ∀ f ∈ s.live, 148 ≤ f.toNat ∧ f.toNat + 76 ≤ 2 ^ 32
  clear  : s.live.Pairwise ClearOf

/-! ## Frames that are left alone -/

section

variable {L : Layout} {umem umem' : Memory} {p g : Word} {fs : List Word}

/-- The chain is the same where the words of its links are. -/
theorem linked_congr
    (h : ∀ f ∈ fs, Memory.load32 umem' (f - 4) = Memory.load32 umem (f - 4))
    (hLinked : Linked umem p fs) : Linked umem' p fs := by
  induction fs generalizing p with
  | nil => exact hLinked
  | cons f fs ih =>
    obtain ⟨rfl, hRest⟩ := hLinked
    refine ⟨rfl, ?_⟩
    rw [h p List.mem_cons_self]
    exact ih (fun g hg => h g (List.mem_cons_of_mem p hg)) hRest

/-- The registers at `g` with the word under them. -/
theorem window_same (h : Memory.SameOff (p - 144) 220 umem umem')
    (hp : 148 ≤ p.toNat ∧ p.toNat + 76 ≤ 2 ^ 32) (hg : 148 ≤ g.toNat ∧ g.toNat + 76 ≤ 2 ^ 32)
    (hClear : ClearOf p g) : Memory.SameOn (g - 4) 80 umem umem' := by
  -- as numbers, the area begins at `p - 144` and the registers with their link at `g - 4`
  have hFrom : (p - 144).toNat = p.toNat - 144 := by bv_omega
  have hTo : (g - 4).toNat = g.toNat - 4 := by bv_omega
  rcases hClear with hBelow | hAbove
  · exact h.sameOn (by bv_omega) (by bv_omega)
  · exact h.sameOn (by bv_omega) (by bv_omega)

/-- The window of a frame has its link. -/
theorem window_link (h : Memory.SameOn (g - 4) 80 umem umem') :
    Memory.load32 umem' (g - 4) = Memory.load32 umem (g - 4) :=
  h.load32 (by bv_omega) (by decide)

/-- And its saved registers. -/
theorem window_image (h : Memory.SameOn (g - 4) 80 umem umem') :
    L.image umem' g = L.image umem g :=
  image_congr (h.mono (by unfold sizeofUreg; bv_omega))

end

/-! ## One operation -/

section

variable {L : Layout} {s s' : Noteproc}

/-- A frame that `okaddr` has granted is inside. -/
theorem inside_of_granted {okaddr : Okaddr} {p : Word} (hRange : UserRange okaddr)
    (h : okaddr (p - 144) 220 true = true) : 148 ≤ p.toNat ∧ p.toNat + 76 + 4096 ≤ 2 ^ 32 := by
  obtain ⟨hLow, hHigh⟩ := hRange _ _ _ (by decide) h
  constructor
  · bv_omega
  · bv_omega

/-- What a call of `notify` does to a process. -/
theorem step_notify {okaddr : Okaddr} (h : s.step L (.notify okaddr) = some s') :
    (Delivers okaddr L s.up s'.up s.umem s'.umem s.ureg s'.ureg ∧
      s'.live = noteFrame s.ureg :: s.live) ∨
    ((s.up.notified = true ∨ s.up.note.isEmpty = true) ∧ s'.ureg = s.ureg ∧ s'.umem = s.umem ∧
      s'.up.ureg = s.up.ureg ∧ s'.live = s.live) := by
  rw [Noteproc.step] at h
  split at h
  · cases h
  · rename_i b ureg up umem hNotify
    obtain rfl := Option.some.inj h
    rcases notify_ok hNotify with ⟨rfl, hDelivers⟩ | ⟨rfl, hReason, rfl, rfl, hSaved, -⟩
    · left
      refine ⟨hDelivers, ?_⟩
      show up.ureg :: s.live = _
      rw [hDelivers.saved]
    · exact Or.inr ⟨hReason, rfl, rfl, hSaved, rfl⟩

/-- What a call of `noted` does to a process. -/
theorem step_noted {okaddr : Okaddr} {arg0 : Word} (h : s.step L (.noted okaddr arg0) = some s') :
    Resumes okaddr L s.up.toNoted s'.up.toNoted s.umem s'.umem s.ureg s'.ureg arg0 ∧
      s'.live = if arg0 = NSAVE then s.live else s.live.tail := by
  rw [Noteproc.step] at h
  split at h
  · cases h
  · rename_i ureg up umem hNoted
    obtain rfl := Option.some.inj h
    exact ⟨noted_resume hNoted, rfl⟩

/-- Without a frame the word under the structure would be at the end of the memory. -/
theorem live_of_noted {okaddr : Okaddr} {arg0 : Word} {umem' : Memory} {r : Ureg} {up' : Noted}
    (hNested : Nested s) (hRange : UserRange okaddr)
    (h : Resumes okaddr L s.up.toNoted up' s.umem umem' s.ureg r arg0) :
    ∃ fs, s.live = s.up.ureg :: fs ∧ Linked s.umem (Memory.load32 s.umem (s.up.ureg - 4)) fs := by
  have hLinked := hNested.linked
  cases hLive : s.live with
  | nil =>
    rw [hLive] at hLinked
    have hNil : s.up.ureg = 0 := hLinked
    have hGranted := h.granted
    rw [hNil] at hGranted
    obtain ⟨-, hHigh⟩ := hRange _ _ _ (by decide) hGranted
    exact absurd hHigh (by decide)
  | cons f fs =>
    rw [hLive] at hLinked
    obtain ⟨hTop, hRest⟩ := hLinked
    refine ⟨fs, by rw [hTop], ?_⟩
    rw [hTop]
    exact hRest

/-- The frames that an operation leaves alone are the same contexts. -/
theorem contexts_congr {umem umem' : Memory} {fs : List Word}
    (h : ∀ g ∈ fs, Memory.SameOn (g - 4) 80 umem umem') :
    (fs.map fun g => (Context.mk g (L.image umem' g) : Context Word Ureg)) =
      fs.map fun g => Context.mk g (L.image umem g) :=
  List.map_congr_left fun g hg => by rw [window_image (h g hg)]

/-- `notify` pushes a context, under the link of its new frame. -/
theorem notify_simulates {okaddr : Okaddr} (hNested : Nested s)
    (hSpares : (NoteOp.notify okaddr).Spares s) (h : s.step L (.notify okaddr) = some s') :
    Trace.run Nest.step (s.contexts L) ((NoteOp.notify okaddr).acts L s) = some (s'.contexts L) ∧
      Nested s' := by
  obtain ⟨hRange, hRoom⟩ := hSpares
  rcases step_notify h with ⟨hDelivers, hLive⟩ | ⟨hReason, hUreg, hUmem, hSaved, hLive⟩
  · obtain ⟨n, rest, hNote, -, hPushed⟩ := hDelivers.pushed
    have hClear := hRoom hDelivers.granted
    have hIn := inside_of_granted hRange hDelivers.granted
    have hFrame : 148 ≤ (noteFrame s.ureg).toNat ∧ (noteFrame s.ureg).toNat + 76 ≤ 2 ^ 32 :=
      ⟨hIn.1, by omega⟩
    -- the frames that were there before are not written to
    have hSame : ∀ g ∈ s.live, Memory.SameOn (g - 4) 80 s.umem s'.umem := by
      intro g hg
      rw [hPushed]
      exact window_same pushNote_off hFrame (hNested.inside g hg) (hClear g hg)
    have hEnter : ¬ (s.up.notified = true ∨ s.up.note.isEmpty = true) := by
      rw [hDelivers.notified, hNote]
      simp
    constructor
    · rw [NoteOp.acts, if_neg hEnter]
      show some (Nest.mk (handlerRegs s.up s.ureg) (⟨noteFrame s.ureg, s.ureg⟩ :: _)) = _
      unfold Noteproc.contexts
      rw [hLive, List.map_cons, contexts_congr hSame, hDelivers.handler, hPushed, pushNote_image]
      rfl
    · constructor
      · rw [hLive]
        refine ⟨hDelivers.saved, linked_congr (fun g hg => window_link (hSame g hg)) ?_⟩
        rw [hPushed, pushNote_link]
        exact hNested.linked
      · rw [hLive]
        exact List.forall_mem_cons.mpr ⟨hFrame, hNested.inside⟩
      · rw [hLive]
        exact List.pairwise_cons.mpr ⟨hClear, hNested.clear⟩
  · constructor
    · rw [NoteOp.acts, if_pos hReason]
      show some (s.contexts L) = _
      unfold Noteproc.contexts
      rw [hUreg, hUmem, hLive]
    · exact ⟨by rw [hUmem, hSaved, hLive]; exact hNested.linked, by rw [hLive]; exact hNested.inside,
        by rw [hLive]; exact hNested.clear⟩

/-- `noted` pops the context, or keeps it, as its argument says. -/
theorem noted_simulates {okaddr : Okaddr} {arg0 : Word} (hNested : Nested s)
    (hRange : UserRange okaddr) (h : s.step L (.noted okaddr arg0) = some s') :
    Trace.run Nest.step (s.contexts L) ((NoteOp.noted okaddr arg0).acts L s) = some (s'.contexts L) ∧
      Nested s' := by
  obtain ⟨hResumes, hLive'⟩ := step_noted h
  obtain ⟨fs, hLive, hRest⟩ := live_of_noted hNested hRange hResumes
  have hInside := hNested.inside
  have hClear := hNested.clear
  rw [hLive] at hInside hClear
  obtain ⟨hTop, hInside⟩ := List.forall_mem_cons.mp hInside
  obtain ⟨hClearTop, hClear⟩ := List.pairwise_cons.mp hClear
  have hSame : ∀ g ∈ fs, Memory.SameOn (g - 4) 80 s.umem s'.umem := fun g hg =>
    window_same hResumes.outside hTop (hInside g hg) (hClearTop g hg)
  have hLinks : Linked s'.umem (Memory.load32 s.umem (s.up.ureg - 4)) fs :=
    linked_congr (fun g hg => window_link (hSame g hg)) hRest
  by_cases hSave : arg0 = NSAVE
  · -- the frame stays, with what was in it written back
    rw [if_pos hSave, hLive] at hLive'
    have hRegs := hResumes.regs
    have hSaved := hResumes.saved
    rw [if_pos hSave] at hRegs hSaved
    constructor
    · rw [NoteOp.acts, if_pos hSave]
      unfold Noteproc.contexts
      rw [hLive, hLive', List.map_cons, List.map_cons, contexts_congr hSame, hResumes.image, hRegs]
      rfl
    · constructor
      · rw [hLive']
        refine ⟨hSaved, ?_⟩
        rw [hResumes.link]
        exact hLinks
      · rw [hLive']
        exact List.forall_mem_cons.mpr ⟨hTop, hInside⟩
      · rw [hLive']
        exact List.pairwise_cons.mpr ⟨hClearTop, hClear⟩
  · -- the frame goes, and its link is that of the next one
    rw [if_neg hSave, hLive, List.tail_cons] at hLive'
    have hRegs := hResumes.regs
    have hSaved := hResumes.saved
    rw [if_neg hSave] at hRegs hSaved
    constructor
    · rw [NoteOp.acts, if_neg hSave]
      unfold Noteproc.contexts
      rw [hLive, hLive', List.map_cons, contexts_congr hSame, hRegs]
      rfl
    · exact ⟨by rw [hLive', hSaved]; exact hLinks, by rw [hLive']; exact hInside,
        by rw [hLive']; exact hClear⟩

/-- Every operation does in the kernel what it does on the stack of contexts. -/
theorem nested_step {o : NoteOp} (hNested : Nested s) (hSpares : o.Spares s)
    (h : s.step L o = some s') :
    Trace.run Nest.step (s.contexts L) (o.acts L s) = some (s'.contexts L) ∧ Nested s' := by
  cases o with
  | user ureg umem =>
    obtain rfl := Option.some.inj h
    refine ⟨?_, linked_congr hSpares hNested.linked, hNested.inside, hNested.clear⟩
    show some (Nest.mk ureg ((s.live.map _).map _)) = _
    rw [List.map_map]
    rfl
  | port handler note fpstate =>
    obtain rfl := Option.some.inj h
    exact ⟨rfl, hNested.linked, hNested.inside, hNested.clear⟩
  | notify okaddr => exact notify_simulates hNested hSpares h
  | noted okaddr arg0 => exact noted_simulates hNested hSpares h

/-- Whatever the process does, its runs are runs of a stack of contexts. -/
theorem nested_simulates {L : Layout} {s t : Noteproc} {os : List NoteOp} (hNested : Nested s)
    (hSpares : Trace.Always (Noteproc.step L) (fun s o => o.Spares s) s os)
    (hRun : Trace.run (Noteproc.step L) s os = some t) :
    Trace.run Nest.step (s.contexts L)
      (Trace.follow (Noteproc.step L) (fun s o => o.acts L s) s os) = some (t.contexts L) ∧
    Nested t :=
  Trace.run_simulates (fun _ _ _ hs hOk hMove => nested_step hs hOk hMove) hNested hSpares hRun

end

/-! ## A process that stays below its last frame -/

/-- The process leaves the frames as they are, and its stack pointer is not above the last one. -/
def NoteOp.Tidy (s : Noteproc) : NoteOp → Prop
  | .user ureg umem =>
    (∀ f ∈ s.live, Memory.SameOn (f - 4) 80 s.umem umem) ∧
      ∀ f ∈ s.live.head?, (ureg .usp).toNat ≤ f.toNat
  | .port _ _ _ => True
  | .notify okaddr | .noted okaddr _ => UserRange okaddr

/-- Each frame has room below the stack pointer that it keeps. -/
structure Stacked (n : Nest Word Ureg) : Prop where
  below   : ∀ c ∈ n.live.head?, (n.regs .usp).toNat ≤ c.frame.toNat
  saved   : ∀ c ∈ n.live, (c.regs .usp).toNat = c.frame.toNat + 332
  ordered : n.live.Pairwise fun c d => c.frame.toNat + 332 ≤ d.frame.toNat

section

variable {okaddr : Okaddr} {L : Layout} {s s' t : Noteproc} {n n' : Nest Word Ureg}

/-- The stack pointer is not above any frame. -/
theorem Stacked.usp_le (h : Stacked n) {c : Context Word Ureg} (hc : c ∈ n.live) :
    (n.regs .usp).toNat ≤ c.frame.toNat := by
  obtain ⟨hBelow, -, hOrdered⟩ := h
  cases hLive : n.live with
  | nil =>
    rw [hLive] at hc
    cases hc
  | cons d ds =>
    rw [hLive] at hc hBelow hOrdered
    have hTop := hBelow d rfl
    rcases List.mem_cons.mp hc with rfl | hRest
    · exact hTop
    · have hGap := (List.pairwise_cons.mp hOrdered).1 c hRest
      omega

/-- A new frame lies below the others. -/
theorem Stacked.enter {p : Word} {r : Ureg} (h : Stacked n)
    (hPlace : (n.regs .usp).toNat = p.toNat + 332) (hUsp : (r .usp).toNat ≤ p.toNat) :
    Stacked ⟨r, ⟨p, n.regs⟩ :: n.live⟩ where
  below := by
    intro c hc
    obtain rfl := Option.some.inj hc
    exact hUsp
  saved := List.forall_mem_cons.mpr ⟨hPlace, h.saved⟩
  ordered := by
    refine List.pairwise_cons.mpr ⟨fun d hd => ?_, h.ordered⟩
    have hLe := h.usp_le hd
    show p.toNat + 332 ≤ d.frame.toNat
    omega

/-- The stack pointer that comes back was below the frames that are left. -/
theorem Stacked.leave {c : Context Word Ureg} {cs : List (Context Word Ureg)} {r r' : Ureg}
    (h : Stacked ⟨r, c :: cs⟩) (hUsp : r' .usp = c.regs .usp) : Stacked ⟨r', cs⟩ where
  below := by
    intro d hd
    have hSaved := h.saved c List.mem_cons_self
    have hGap := (List.pairwise_cons.mp h.ordered).1 d (List.mem_of_mem_head? hd)
    show (r' .usp).toNat ≤ d.frame.toNat
    rw [hUsp]
    omega
  saved := (List.forall_mem_cons.mp h.saved).2
  ordered := (List.pairwise_cons.mp h.ordered).2

/-- A context that is kept has its frame as before. -/
theorem Stacked.stay {c : Context Word Ureg} {cs : List (Context Word Ureg)} {r r' regs : Ureg}
    (h : Stacked ⟨r, c :: cs⟩) (hUsp : (r' .usp).toNat ≤ c.frame.toNat)
    (hKept : regs .usp = c.regs .usp) : Stacked ⟨r', ⟨c.frame, regs⟩ :: cs⟩ where
  below := by
    intro d hd
    obtain rfl := Option.some.inj hd
    exact hUsp
  saved := by
    obtain ⟨hFirst, hRest⟩ := List.forall_mem_cons.mp h.saved
    refine List.forall_mem_cons.mpr ⟨?_, hRest⟩
    show (regs .usp).toNat = c.frame.toNat + 332
    rw [hKept]
    exact hFirst
  ordered := List.pairwise_cons.mpr (List.pairwise_cons.mp h.ordered)

/-- The flags are the only field that is merged. -/
theorem mergeFlags_other (ureg saved : Ureg) {f : UregField} (hf : f ≠ .flags) :
    mergeFlags ureg saved f = saved f :=
  Function.update_of_ne hf _ _

/-- The frame of a note is 332 bytes below the stack pointer. -/
theorem noteFrame_eq (ureg : Ureg) : noteFrame ureg = ureg .usp - 332 := by
  unfold noteFrame sizeofUreg
  bv_omega

/-- A granted frame is below the stack pointer, and not around the end of the memory. -/
theorem usp_of_granted {okaddr : Okaddr} {ureg : Ureg} (hRange : UserRange okaddr)
    (h : okaddr (noteFrame ureg - 144) 220 true = true) :
    (ureg .usp).toNat = (noteFrame ureg).toNat + 332 := by
  have hIn := inside_of_granted hRange h
  rw [noteFrame_eq] at hIn ⊢
  bv_omega

/-- Operations that stay below the frames spare them. -/
theorem Tidy.spares {o : NoteOp} (hStacked : Stacked (s.contexts L)) (h : o.Tidy s) :
    o.Spares s := by
  cases o with
  | user ureg umem => exact fun f hf => window_link (h.1 f hf)
  | port handler note fpstate => trivial
  | notify okaddr =>
    refine ⟨h, fun hGranted g hg => Or.inl ?_⟩
    have hPlace := usp_of_granted h hGranted
    have hLe : (s.ureg .usp).toNat ≤ g.toNat :=
      hStacked.usp_le (c := ⟨g, L.image s.umem g⟩) (List.mem_map_of_mem hg)
    omega
  | noted okaddr arg0 => exact h

/-- And keep them in order. -/
theorem stacked_step {o : NoteOp} (hNested : Nested s) (hStacked : Stacked (s.contexts L))
    (hTidy : o.Tidy s) (h : s.step L o = some s') : Stacked (s'.contexts L) := by
  cases o with
  | user ureg umem =>
    obtain rfl := Option.some.inj h
    -- the contexts are the same, only the program's registers are new
    have hSame : Noteproc.contexts L { s with ureg, umem } = { s.contexts L with regs := ureg } := by
      unfold Noteproc.contexts
      rw [contexts_congr hTidy.1]
    rw [hSame]
    refine ⟨fun c hc => ?_, hStacked.saved, hStacked.ordered⟩
    have hHead : c ∈ (s.live.head?.map fun f => (⟨f, L.image s.umem f⟩ : Context Word Ureg)) := by
      rw [← List.head?_map]
      exact hc
    obtain ⟨f, hf, rfl⟩ := Option.map_eq_some_iff.mp hHead
    exact hTidy.2 f hf
  | port handler note fpstate =>
    obtain rfl := Option.some.inj h
    exact hStacked
  | notify okaddr =>
    obtain ⟨hSim, -⟩ := nested_step hNested (Tidy.spares hStacked hTidy) h
    rcases step_notify h with ⟨hDelivers, -⟩ | ⟨hReason, -, -, -, -⟩
    · obtain ⟨n, rest, hNote, -, -⟩ := hDelivers.pushed
      rw [NoteOp.acts, if_neg (by rw [hDelivers.notified, hNote]; simp)] at hSim
      obtain ⟨n', hEnter, hEnd⟩ := Trace.run_cons hSim
      obtain rfl := Option.some.inj hEnter
      obtain hEnd := Option.some.inj hEnd
      rw [← hEnd]
      have hPlace := usp_of_granted hTidy hDelivers.granted
      have hIn := inside_of_granted hTidy hDelivers.granted
      refine hStacked.enter hPlace ?_
      have hUsp : handlerRegs s.up s.ureg .usp = noteFrame s.ureg - 144 := by
        unfold handlerRegs
        rw [Function.update_of_ne (by decide), Function.update_self]
      rw [hUsp]
      bv_omega
    · rw [NoteOp.acts, if_pos hReason] at hSim
      obtain hEnd := Option.some.inj hSim
      rw [← hEnd]
      exact hStacked
  | noted okaddr arg0 =>
    obtain ⟨hSim, -⟩ := nested_step hNested (Tidy.spares hStacked hTidy) h
    obtain ⟨hResumes, -⟩ := step_noted h
    obtain ⟨fs, hLive, -⟩ := live_of_noted hNested hTidy hResumes
    have hTop := hNested.inside s.up.ureg (by rw [hLive]; exact List.mem_cons_self)
    unfold Noteproc.contexts at hSim hStacked
    rw [hLive, List.map_cons] at hSim hStacked
    rw [NoteOp.acts] at hSim
    split at hSim
    · obtain ⟨n', hStay, hEnd⟩ := Trace.run_cons hSim
      obtain rfl := Option.some.inj hStay
      obtain hEnd := Option.some.inj hEnd
      unfold Noteproc.contexts
      rw [← hEnd]
      refine hStacked.stay ?_ (mergeFlags_other _ _ (by decide))
      have hUsp : ∀ r : Ureg, Function.update r .usp (s.up.ureg - 144) .usp = s.up.ureg - 144 :=
        fun r => Function.update_self _ _ r
      dsimp only
      rw [hUsp]
      bv_omega
    · obtain ⟨n', hLeave, hEnd⟩ := Trace.run_cons hSim
      obtain rfl := Option.some.inj hLeave
      obtain hEnd := Option.some.inj hEnd
      unfold Noteproc.contexts
      rw [← hEnd]
      exact hStacked.leave (mergeFlags_other _ _ (by decide))

/-- Such a process always leaves room for the next note. -/
theorem stacked_keeps {os : List NoteOp} (hNested : Nested s) (hStacked : Stacked (s.contexts L))
    (hTidy : Trace.Always (Noteproc.step L) (fun s o => o.Tidy s) s os)
    (hRun : Trace.run (Noteproc.step L) s os = some t) : Nested t ∧ Stacked (t.contexts L) :=
  Trace.run_invariant (I := fun s => Nested s ∧ Stacked (s.contexts L))
    (fun _ _ _ hs hOk hMove => ⟨(nested_step hs.1 (Tidy.spares hs.2 hOk) hMove).2,
      stacked_step hs.1 hs.2 hOk hMove⟩) ⟨hNested, hStacked⟩ hTidy hRun

/-! ## The way back -/

/-- What comes back of the registers: all of them, and the user's part of the flags. -/
def userPart (r : Ureg) : Ureg := Function.update r .flags (r .flags &&& 0xCD5)

/-- The merge of the flags is not seen in the other registers. -/
theorem userPart_mergeFlags (ureg saved : Ureg) : userPart (mergeFlags ureg saved) = userPart saved := by
  have hMask : ((ureg .flags &&& ~~~ 0xCD5) ||| (saved .flags &&& 0xCD5)) &&& 0xCD5 =
      saved .flags &&& 0xCD5 := by
    rw [BitVec.and_or_distrib_right, BitVec.and_assoc, BitVec.and_assoc, BitVec.and_self,
      show (~~~ 0xCD5 : Word) &&& 0xCD5 = 0#32 by decide, BitVec.and_zero, BitVec.zero_or]
  unfold userPart mergeFlags
  rw [Function.update_self, Function.update_idem, hMask]

/-- What the registers are when those with the same part come back. -/
theorem mergeFlags_of_userPart {ureg r saved : Ureg} (h : userPart r = userPart saved) :
    mergeFlags ureg r = mergeFlags ureg saved := by
  have hFlags : r .flags &&& 0xCD5 = saved .flags &&& 0xCD5 := by
    have hAt := congrFun h .flags
    unfold userPart at hAt
    rwa [Function.update_self, Function.update_self] at hAt
  funext f
  unfold mergeFlags
  by_cases hf : f = .flags
  · rw [hf, Function.update_self, Function.update_self, hFlags]
  · have hAt := congrFun h f
    unfold userPart at hAt
    rwa [Function.update_of_ne hf, Function.update_of_ne hf] at hAt ⊢

/-- As long as the handler's frame is there, it keeps what is below it. -/
theorem below_step {o : NoteOp} {base : List (Word × Ureg)} (hNested : Nested s)
    (hStacked : Stacked (s.contexts L)) (hTidy : o.Tidy s)
    (hBelow : base <:+ (s.contexts L).view userPart) (hDeep : base.length ≤ s'.live.length)
    (h : s.step L o = some s') : base <:+ (s'.contexts L).view userPart := by
  obtain ⟨hSim, -⟩ := nested_step hNested (Tidy.spares hStacked hTidy) h
  have hDeep' : base.length ≤ (s'.contexts L).live.length := by
    unfold Noteproc.contexts
    rw [List.length_map]
    exact hDeep
  -- none or one operation of the stack
  cases o with
  | user ureg umem =>
    obtain ⟨n', hGo, hEnd⟩ := Trace.run_cons hSim
    obtain rfl := Option.some.inj hEnd
    refine Nest.below_step hBelow ?_ hDeep' hGo
    intro c hc
    obtain ⟨f, hf, rfl⟩ := List.mem_map.mp hc
    exact congrArg userPart (window_image (hTidy.1 f hf))
  | port handler note fpstate =>
    obtain rfl := Option.some.inj h
    exact hBelow
  | notify okaddr =>
    rw [NoteOp.acts] at hSim
    split at hSim
    · obtain hEnd := Option.some.inj hSim
      rw [← hEnd]
      exact hBelow
    · obtain ⟨n', hEnter, hEnd⟩ := Trace.run_cons hSim
      obtain rfl := Option.some.inj hEnd
      refine Nest.below_step hBelow ?_ hDeep' hEnter
      trivial
  | noted okaddr arg0 =>
    rw [NoteOp.acts] at hSim
    split at hSim
    · obtain ⟨n', hStay, hEnd⟩ := Trace.run_cons hSim
      obtain rfl := Option.some.inj hEnd
      refine Nest.below_step hBelow ?_ hDeep' hStay
      exact fun c _ => userPart_mergeFlags _ _
    · obtain ⟨n', hLeave, hEnd⟩ := Trace.run_cons hSim
      obtain rfl := Option.some.inj hEnd
      refine Nest.below_step hBelow ?_ hDeep' hLeave
      trivial

/-- What the handler finds: the registers of the interrupted program and the text of the note,
by its arguments. -/
structure Handles (L : Layout) (s s' : Noteproc) : Prop where
  pc     : s'.ureg .pc = s.up.notify
  back   : Memory.load32 s'.umem (s'.ureg .usp) = 0
  regs   : L.image s'.umem (Memory.load32 s'.umem (s'.ureg .usp + 4)) = s.ureg
  text   : ∃ n rest, s.up.note = n :: rest ∧ s'.up.note = rest ∧
    ∀ i, (hi : i < (n.annotated (s.ureg .pc)).msg.bytes.length) →
      s'.umem (Memory.load32 s'.umem (s'.ureg .usp + 8) + BitVec.ofNat 32 i) =
        (n.annotated (s.ureg .pc)).msg.bytes[i]

/-- What is delivered is what the handler gets. -/
theorem delivers_handles (h : Delivers okaddr L s.up s'.up s.umem s'.umem s.ureg s'.ureg) :
    Handles L s s' := by
  obtain ⟨n, rest, hNote, hRest, hPushed⟩ := h.pushed
  obtain ⟨hBack, hRegs, hText⟩ := pushNote_args L s.umem (noteFrame s.ureg) s.up.ureg
    (n.annotated (s.ureg .pc)).msg s.ureg
  have hUsp : s'.ureg .usp = noteFrame s.ureg - 144 := by
    rw [h.handler, Function.update_of_ne (by decide), Function.update_self]
  refine ⟨by rw [h.handler, Function.update_self], ?_, ?_, n, rest, hNote, hRest, ?_⟩
  · rw [hUsp, hPushed]
    exact hBack
  · rw [hUsp, hPushed, hRegs]
    exact pushNote_image
  · intro i hi
    rw [hUsp, hPushed, hText]
    exact pushNote_msg hi

/-- A fresh process: nothing is on its stack. -/
structure Fresh (s : Noteproc) : Prop where
  live : s.live = []
  ureg : s.up.ureg = 0

/-- Without a note there is no chain. -/
theorem Fresh.nested (h : Fresh s) : Nested s where
  linked := by
    rw [h.live, h.ureg]
    rfl
  inside := by
    rw [h.live]
    exact fun f hf => absurd hf List.not_mem_nil
  clear := by
    rw [h.live]
    exact List.Pairwise.nil

/-- And nothing to keep in order. -/
theorem Fresh.stacked (h : Fresh s) : Stacked (s.contexts L) := by
  have hNone : (s.contexts L).live = [] := by
    unfold Noteproc.contexts
    rw [h.live]
    rfl
  constructor
  · rw [hNone]
    exact fun c hc => absurd hc (Option.not_mem_none c)
  · rw [hNone]
    exact fun c hc => absurd hc List.not_mem_nil
  · rw [hNone]
    exact List.Pairwise.nil

/-- The frames alone say where the last registers are. -/
theorem saved_of_live {s s' : Noteproc} (h : Nested s) (h' : Nested s') (hLive : s'.live = s.live) :
    s'.up.ureg = s.up.ureg := by
  have hLinked := h.linked
  have hLinked' := h'.linked
  rw [hLive] at hLinked'
  cases hFrames : s.live with
  | nil =>
    rw [hFrames] at hLinked hLinked'
    exact hLinked'.trans hLinked.symm
  | cons f fs =>
    rw [hFrames] at hLinked hLinked'
    exact hLinked'.1.trans hLinked.1.symm

/-- The note that `notify` has delivered is the last frame of the stack. -/
theorem view_of_delivered {okaddr : Okaddr} (hNested : Nested s) (hStacked : Stacked (s.contexts L))
    (hRange : UserRange okaddr) (hNotify : s.step L (.notify okaddr) = some s')
    (hDelivers : Delivers okaddr L s.up s'.up s.umem s'.umem s.ureg s'.ureg) :
    (s'.contexts L).view userPart =
      (noteFrame s.ureg, userPart s.ureg) :: (s.contexts L).view userPart := by
  have hSpares := Tidy.spares (o := .notify okaddr) hStacked hRange
  obtain ⟨hSim, -⟩ := nested_step hNested hSpares hNotify
  obtain ⟨n, rest, hNote, -, -⟩ := hDelivers.pushed
  rw [NoteOp.acts, if_neg (by rw [hDelivers.notified, hNote]; simp)] at hSim
  obtain ⟨n', hEnter, hEnd⟩ := Trace.run_cons hSim
  obtain rfl := Option.some.inj hEnter
  rw [← Option.some.inj hEnd]
  rfl

theorem noted_restores {s₀ s s₁ s₂ s₃ : Noteproc} {before handler : List NoteOp}
    {okaddr okaddr' : Okaddr} {arg0 : Word} (hFresh : Fresh s₀)
    (hBefore : Trace.Always (Noteproc.step L) (fun s o => o.Tidy s) s₀ before)
    (hStart : Trace.run (Noteproc.step L) s₀ before = some s)
    (hRange : UserRange okaddr) (hNotify : s.step L (.notify okaddr) = some s₁)
    (hHandler : Trace.Always (Noteproc.step L) (fun s o => o.Tidy s) s₁ handler)
    (hDeep : Trace.Throughout (Noteproc.step L) (fun x => s.live.length < x.live.length) s₁ handler)
    (hRun : Trace.run (Noteproc.step L) s₁ handler = some s₂)
    (hDown : s₂.live.length = s.live.length + 1)
    (hRange' : UserRange okaddr') (hArg : arg0 ≠ NSAVE)
    (hNoted : s₂.step L (.noted okaddr' arg0) = some s₃) :
    Handles L s s₁ ∧ s₃.ureg = mergeFlags s₂.ureg s.ureg ∧ s₃.live = s.live ∧
      s₃.up.ureg = s.up.ureg := by
  obtain ⟨hNested, hStacked⟩ := stacked_keeps hFresh.nested hFresh.stacked hBefore hStart
  -- the note was delivered, as there is one frame more
  rcases step_notify hNotify with ⟨hDelivers, -⟩ | ⟨-, -, -, -, hLive⟩
  · have hView := view_of_delivered hNested hStacked hRange hNotify hDelivers
    have hSpares := Tidy.spares (o := .notify okaddr) hStacked hRange
    obtain ⟨-, hNested₁⟩ := nested_step hNested hSpares hNotify
    have hStacked₁ := stacked_step (o := .notify okaddr) hNested hStacked hRange hNotify
    -- while the handler works, its frame and those below it stay
    obtain ⟨hNested₂, hStacked₂, hBelow⟩ := Trace.run_invariant
      (I := fun x => Nested x ∧ Stacked (x.contexts L) ∧
        (noteFrame s.ureg, userPart s.ureg) :: (s.contexts L).view userPart <:+
          (x.contexts L).view userPart)
      (fun x o x' hx hOk hMove => ⟨(nested_step hx.1 (Tidy.spares hx.2.1 hOk.1) hMove).2,
        stacked_step hx.1 hx.2.1 hOk.1 hMove, below_step hx.1 hx.2.1 hOk.1 hx.2.2 (by
          rw [List.length_cons, Nest.length_view]
          unfold Noteproc.contexts
          rw [List.length_map]
          exact hOk.2 x' hMove) hMove⟩)
      ⟨hNested₁, hStacked₁, hView ▸ List.suffix_refl _⟩ (hHandler.and hDeep.next) hRun
    have hTidy₂ : (NoteOp.noted okaddr' arg0).Tidy s₂ := hRange'
    obtain ⟨hSim, hNested₃⟩ := nested_step hNested₂ (Tidy.spares hStacked₂ hTidy₂) hNoted
    rw [NoteOp.acts, if_neg hArg] at hSim
    obtain ⟨n', hLeave, hEnd⟩ := Trace.run_cons hSim
    obtain rfl := Option.some.inj hEnd
    have hLength : (s₂.contexts L).live.length = ((s.contexts L).view userPart).length + 1 := by
      rw [Nest.length_view]
      unfold Noteproc.contexts
      rw [List.length_map, List.length_map]
      exact hDown
    obtain ⟨r, hPart, hRegs, hRest⟩ := Nest.leave_below hBelow hLength hLeave
    have hLive : s₃.live = s.live := by
      have hFrames := congrArg (List.map Prod.fst) hRest
      unfold Nest.view Noteproc.contexts at hFrames
      simp only [List.map_map] at hFrames
      simpa [Function.comp_def] using hFrames
    refine ⟨delivers_handles hDelivers, ?_, hLive, saved_of_live hNested hNested₃ hLive⟩
    exact hRegs.trans (mergeFlags_of_userPart hPart)
  · have hMore := hDeep.start
    rw [hLive] at hMore
    exact absurd hMore (Nat.lt_irrefl _)

end

/-! ## A process that is interrupted -/

/-- The addresses from 4096 on, less the last page. -/
def lowAddresses : Okaddr := fun a n _ => decide (4096 ≤ a.toNat ∧ a.toNat + n + 4096 ≤ 2 ^ 32)

theorem lowAddresses_range : UserRange lowAddresses := fun _ _ _ _ h => of_decide_eq_true h

/-- A process with a note and a handler at 0x2000. -/
def interrupted : Noteproc where
  up := { notified := false, ureg := 0, fpstate := FPactive,
          lastnote := { msg := [], flag := .NUser }, notify := 0x2000,
          note := [{ msg := { bytes := ascii "interrupt" ++ List.replicate 119 0,
                              size := by decide +kernel, nul := by decide +kernel }, flag := .NUser }] }
  umem := fun _ => 0
  ureg := Function.update (Function.update (userUreg 0x202) .usp 0x8000) .pc 0x1000
  live := []

theorem interrupted_fresh : Fresh interrupted := ⟨rfl, rfl⟩

/-- The note is delivered, and the process goes on. -/
theorem nested_simulates_interrupted :
    ∃ t, Trace.run (Noteproc.step plainLayout) interrupted
        [.notify lowAddresses, .noted lowAddresses NCONT] = some t ∧
      Trace.run Nest.step (interrupted.contexts plainLayout)
        (Trace.follow (Noteproc.step plainLayout) (fun s o => o.acts plainLayout s) interrupted
          [.notify lowAddresses, .noted lowAddresses NCONT]) = some (t.contexts plainLayout) ∧
      Nested t := by
  have hSome : (Trace.run (Noteproc.step plainLayout) interrupted
      [.notify lowAddresses, .noted lowAddresses NCONT]).isSome = true := by
    decide
  obtain ⟨t, hRun⟩ := Option.isSome_iff_exists.mp hSome
  refine ⟨t, hRun, nested_simulates interrupted_fresh.nested ?_ hRun⟩
  refine ⟨⟨lowAddresses_range, fun _ g hg => absurd hg List.not_mem_nil⟩, fun s' _ => ?_⟩
  exact ⟨lowAddresses_range, fun _ _ => trivial⟩

/-- The handler uses `ax`, and the process gets the value back that it had there. -/
theorem noted_restores_ax :
    ∃ s₁ s₂ s₃ : Noteproc, interrupted.step plainLayout (.notify lowAddresses) = some s₁ ∧
      s₁.step plainLayout (.user (Function.update s₁.ureg .ax 7) s₁.umem) = some s₂ ∧
      s₂.ureg .ax = 7 ∧ s₂.step plainLayout (.noted lowAddresses NCONT) = some s₃ ∧
      Handles plainLayout interrupted s₁ ∧ s₃.ureg .ax = interrupted.ureg .ax := by
  have hFirst : ((interrupted.step plainLayout (.notify lowAddresses)).map fun s =>
      decide (s.live.length = 1 ∧ (s.ureg .usp).toNat ≤ (s.live.headD 0).toNat)) = some true := by
    decide
  obtain ⟨s₁, hNotify, hLen⟩ := Option.map_eq_some_iff.mp hFirst
  obtain ⟨hLen, hUsp⟩ := of_decide_eq_true hLen
  -- the return can be made: evaluated once, so that the states keep their names
  have hLast : ((interrupted.step plainLayout (.notify lowAddresses)).bind fun s =>
      Noteproc.step plainLayout { s with ureg := Function.update s.ureg .ax 7 }
        (.noted lowAddresses NCONT)).isSome = true := by
    decide
  rw [hNotify, Option.bind_some] at hLast
  obtain ⟨s₃, hNoted⟩ := Option.isSome_iff_exists.mp hLast
  have hAx : Function.update s₁.ureg .ax 7 .ax = 7 := Function.update_self _ _ s₁.ureg
  refine ⟨s₁, { s₁ with ureg := Function.update s₁.ureg .ax 7 }, s₃, hNotify, rfl, hAx, hNoted, ?_⟩
  -- the handler leaves the frames on its stack alone
  have hHandler : Trace.Always (Noteproc.step plainLayout) (fun s o => o.Tidy s) s₁
      [.user (Function.update s₁.ureg .ax 7) s₁.umem] := by
    refine ⟨⟨fun f _ => Memory.SameOn.refl _ _ _, fun f hf => ?_⟩, fun _ _ => trivial⟩
    rw [Function.update_of_ne (by decide)]
    rw [List.headD_eq_head?_getD, Option.mem_def.mp hf] at hUsp
    exact hUsp
  have hDeep : interrupted.live.length < s₁.live.length := by
    rw [hLen]
    exact Nat.zero_lt_one
  obtain ⟨hHandles, hRegs, -, -⟩ := noted_restores interrupted_fresh
    (show Trace.Always (Noteproc.step plainLayout) (fun s o => o.Tidy s) interrupted [] from trivial) rfl
    lowAddresses_range hNotify hHandler
    ⟨hDeep, fun s' hMove => by
      obtain rfl := Option.some.inj hMove
      exact hDeep⟩ rfl hLen lowAddresses_range (by decide) hNoted
  refine ⟨hHandles, ?_⟩
  rw [hRegs]
  exact mergeFlags_other _ _ (by decide)

end Glendum
