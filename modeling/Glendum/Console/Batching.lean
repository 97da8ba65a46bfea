import Glendum.Console.Echo
import Glendum.Lib.Trace

/-!
# Glendum — how input is cut into buffers

The same input bytes reach `echo` in different buffers, as the clock ticks and the
ring wraps. A command letter behind `^T ^T` ends the call of `echo` that finds it: the
bytes around it that are in the same buffer are neither queued nor, behind it, looked
at. So what is queued depends on the cuts, unless there is no such letter or no room
for a cut.

* `Way` — the runs of staging and clock ticks that feed a stream, and what they queue;
* `calm_way` — a stream without a command is queued whole in any way;
* `cut_at_command`, `cut_behind_command` — two ways that queue different bytes;
* `echo_batching_exact` — the streams whose queued bytes do not depend on the way.
-/

namespace Glendum

open Machine Trace

/-! ## Streams -/

/-- The counter behind one more byte that is no command. -/
def tally (ctrlt : Nat) (c : Byte) : Nat :=
  if c = CtrlT then bump ctrlt else if ctrlt = 2 then 0 else ctrlt

/-- No command letter comes where the counter stands at two. -/
def Calm (ctrlt : Nat) : List Byte → Prop
  | [] => True
  | c :: s => ¬ (ctrlt = 2 ∧ isCommand c = true) ∧ Calm (tally ctrlt c) s

/-- The next byte other than `^T` is a command, the counter standing at two there. -/
def completes (ctrlt : Nat) : List Byte → Bool
  | [] => false
  | c :: s =>
    if c = CtrlT then completes (bump ctrlt) s
    else if ctrlt = 2 then isCommand c else completes ctrlt s

/-- The bytes of a stream that are not part of an escape, which is a command letter
with the `^T` before it. -/
def outside (ctrlt : Nat) : List Byte → List Byte
  | [] => []
  | c :: s =>
    let kept := if c = CtrlT then !completes (bump ctrlt) s else !(ctrlt = 2 && isCommand c)
    if kept then c :: outside (tally ctrlt c) s else outside (tally ctrlt c) s

/-- The bytes of a stream, each in a buffer of its own. -/
def singles (s : List Byte) : List (List Byte) := s.map fun c => [c]

section

variable {n : Nat} {c d : Byte} {s : List Byte}

/-- What is left outside the commands is in order. -/
theorem outside_sublist (n : Nat) (s : List Byte) : (outside n s).Sublist s := by
  induction s generalizing n with
  | nil => exact List.Sublist.refl []
  | cons c s ih =>
    simp only [outside]
    generalize (if c = CtrlT then !completes (bump n) s else !(n = 2 && isCommand c)) = kept
    cases kept with
    | true => exact (ih _).cons_cons c
    | false => exact (ih _).cons c

/-- `^T` itself is no command. -/
theorem not_isCommand_ctrlT : isCommand CtrlT = false := by decide

/-- One byte of a buffer, looked at without `cpuserver`. -/
theorem scan_cons (n : Nat) (c : Byte) (s : List Byte) :
    scan false n (c :: s) =
      if n = 2 ∧ isCommand c = true then (0, .command c) else scan false (tally n c) s := by
  -- without `cpuserver` a `^P` does not stop the scan
  rw [scan, if_neg (by simp)]
  unfold tally
  by_cases hT : c = CtrlT
  · rw [if_pos hT, if_pos hT, if_neg]
    rw [hT, not_isCommand_ctrlT]
    simp
  · rw [if_neg hT, if_neg hT]
    by_cases hTwo : n = 2
    · by_cases hCommand : isCommand c = true
      · simp [hTwo, hCommand]
      · simp [hTwo, hCommand]
    · simp [hTwo]

/-- Without a command everything is queued. -/
theorem scan_calm (h : Calm n s) : scan false n s = (s.foldl tally n, .through) := by
  induction s generalizing n with
  | nil => rfl
  | cons c s ih => rw [scan_cons, if_neg h.1, ih h.2, List.foldl_cons]

/-- Two calm parts, the second of which goes on with the count of the first. -/
theorem calm_append {s' : List Byte} :
    Calm n (s ++ s') ↔ Calm n s ∧ Calm (s.foldl tally n) s' := by
  induction s generalizing n with
  | nil => simp [Calm]
  | cons c s ih =>
    rw [List.cons_append, Calm, Calm, ih, List.foldl_cons, and_assoc]

/-- A calm stream is passed on whole in any buffers. -/
theorem passes_calm {bufs : List (List Byte)} (h : Calm n bufs.flatten) :
    passes n bufs = (bufs.flatten.foldl tally n, bufs.flatten) := by
  induction bufs generalizing n with
  | nil => rfl
  | cons buf bufs ih =>
    rw [List.flatten_cons, calm_append] at h
    have hBuf : passBuf n buf = (buf.foldl tally n, buf) := by
      rw [passBuf, scan_calm h.1]
      simp
    rw [passes, hBuf, ih h.2, List.flatten_cons, List.foldl_append]

/-- Single bytes make the stream. -/
@[simp] theorem flatten_singles (s : List Byte) : (singles s).flatten = s := by
  induction s with
  | nil => rfl
  | cons c s ih => rw [singles, List.map_cons, List.flatten_cons, ← singles, ih]; rfl

/-- The first command of a stream. -/
theorem exists_command (h : ¬ Calm n s) :
    ∃ pre c post, s = pre ++ c :: post ∧ Calm n pre ∧ pre.foldl tally n = 2 ∧
      isCommand c = true := by
  induction s generalizing n with
  | nil => exact absurd trivial h
  | cons c s ih =>
    by_cases hHere : n = 2 ∧ isCommand c = true
    · exact ⟨[], c, s, rfl, trivial, hHere.1, hHere.2⟩
    · have hLater : ¬ Calm (tally n c) s := fun hCalm => h ⟨hHere, hCalm⟩
      obtain ⟨pre, d, post, rfl, hPre, hTwo, hCommand⟩ := ih hLater
      exact ⟨c :: pre, d, post, rfl, ⟨hHere, hPre⟩, hTwo, hCommand⟩

/-- Calm bytes are scanned through, and the command ends the scan. -/
theorem scan_command (pre post : List Byte) (hPre : Calm n pre) (hTwo : pre.foldl tally n = 2)
    (hCommand : isCommand c = true) : scan false n (pre ++ c :: post) = (0, .command c) := by
  induction pre generalizing n with
  | nil =>
    have hAt : n = 2 := hTwo
    rw [List.nil_append, scan_cons, if_pos ⟨hAt, hCommand⟩]
  | cons d pre ih =>
    rw [List.cons_append, scan_cons, if_neg hPre.1]
    exact ih hPre.2 hTwo

/-- A buffer that has the command behind calm bytes is lost. -/
theorem passBuf_command (pre post : List Byte) (hPre : Calm n pre) (hTwo : pre.foldl tally n = 2)
    (hCommand : isCommand c = true) : passBuf n (pre ++ c :: post) = (0, []) := by
  rw [passBuf, scan_command pre post hPre hTwo hCommand]
  simp

/-- What is passed on of single bytes. -/
theorem passes_singles_cons (n : Nat) (c : Byte) (s : List Byte) :
    (passes n (singles (c :: s))).2 =
      if n = 2 ∧ isCommand c = true then (passes 0 (singles s)).2
      else c :: (passes (tally n c) (singles s)).2 := by
  have hBuf : passBuf n [c] =
      if n = 2 ∧ isCommand c = true then (0, []) else (tally n c, [c]) := by
    rw [passBuf, scan_cons]
    split
    · simp
    · simp [scan]
  rw [singles, List.map_cons, passes, hBuf]
  split
  · rfl
  · rfl

/-! ## Two ways around a command -/

/-- The byte before a command is queued when it comes alone, and lost when it comes
with the command. -/
theorem cut_at_command {pre post : List Byte} (hPre : Calm n (pre ++ [d]))
    (hTwo : (pre ++ [d]).foldl tally n = 2) (hCommand : isCommand c = true) :
    (passes n (singles (pre ++ d :: c :: post))).2 ≠
      (passes n (singles pre ++ [d, c] :: singles post)).2 := by
  have hCalm := calm_append.mp hPre
  -- alone, the byte before the command is a buffer of its own
  have hAlone : (passes n (singles (pre ++ d :: c :: post))).2 =
      pre ++ d :: (passes 0 (singles post)).2 := by
    have hSplit : singles (pre ++ d :: c :: post) = singles (pre ++ [d]) ++ [c] :: singles post := by
      simp [singles]
    have hFirst : passes n (singles (pre ++ [d])) = _ := passes_calm (by rwa [flatten_singles])
    have hLost := passBuf_command (n := 2) [] [] trivial rfl hCommand
    rw [List.nil_append] at hLost
    rw [flatten_singles, hTwo] at hFirst
    rw [hSplit, passes_append, hFirst, passes, hLost]
    simp
  -- together, the command ends the call before the byte is queued
  have hPair : (passes n (singles pre ++ [d, c] :: singles post)).2 =
      pre ++ (passes 0 (singles post)).2 := by
    have hFirst : passes n (singles pre) = _ := passes_calm (by rw [flatten_singles]; exact hCalm.1)
    have hLost := passBuf_command (n := pre.foldl tally n) [d] [] hCalm.2
      (by rw [← hTwo, List.foldl_append]) hCommand
    rw [flatten_singles] at hFirst
    rw [passes_append, hFirst, passes]
    rw [List.singleton_append] at hLost
    rw [hLost]
    simp
  rw [hAlone, hPair]
  intro hEq
  have hLen := congrArg List.length hEq
  simp only [List.length_append, List.length_cons] at hLen
  omega

/-- One `^T` more cannot be made up for later. -/
theorem passes_one_ne_zero (s : List Byte) :
    CtrlT :: (passes 1 (singles s)).2 ≠ (passes 0 (singles s)).2 := by
  intro hEq
  cases s with
  | nil => cases hEq
  | cons c s =>
    rw [passes_singles_cons 0, if_neg (by simp), List.cons.injEq] at hEq
    obtain ⟨rfl, hEq⟩ := hEq
    rw [passes_singles_cons 1, if_neg (by simp)] at hEq
    cases s with
    | nil => cases hEq
    | cons c s =>
      -- now the counters stand at two and at one
      rw [show tally 0 CtrlT = 1 by decide, passes_singles_cons 1, if_neg (by simp),
        List.cons.injEq] at hEq
      obtain ⟨rfl, hEq⟩ := hEq
      rw [show tally 1 CtrlT = 2 by decide, passes_singles_cons, if_neg (by simp [not_isCommand_ctrlT]),
        show tally 2 CtrlT = 2 by decide] at hEq
      have hLen := congrArg List.length hEq
      rw [List.length_cons] at hLen
      omega

/-- The byte behind a command is looked at when it comes alone, and lost when it comes
with the command. -/
theorem cut_behind_command (hCommand : isCommand c = true) (d : Byte) (post : List Byte) :
    (passes 2 (singles (c :: d :: post))).2 ≠ (passes 2 ([c, d] :: singles post)).2 := by
  have hLost := passBuf_command (n := 2) [] [d] trivial rfl hCommand
  rw [List.nil_append] at hLost
  rw [passes_singles_cons, if_pos ⟨rfl, hCommand⟩, passes_singles_cons, if_neg (by simp), passes,
    hLost, List.nil_append]
  -- read on its own, the byte is queued; only a `^T` also counts
  by_cases hT : d = CtrlT
  · rw [hT, show tally 0 CtrlT = 1 by decide]
    exact passes_one_ne_zero post
  · rw [tally, if_neg hT, if_neg (by decide)]
    intro hEq
    have hLen := congrArg List.length hEq
    simp only [List.length_cons] at hLen
    omega

end

/-! ## Feeding a stream -/

/-- The console with the bytes that were staged so far and the bytes that `echo` passed
to `qproduce`. -/
structure Feed where
  cons   : Cons
  staged : List Byte := []
  passed : List Byte := []

inductive FeedOp
  /-- a byte for which the ring has room -/
  | stage (c : Byte)
  /-- a clock tick, with the answers of `qproduce` -/
  | tick (room room' : Bool)

def Feed.step (f : Feed) : FeedOp → Option Feed
  | .stage c =>
    if RingBuf.next f.cons.kbd.istage.iw = f.cons.kbd.istage.ir then none
    else some { f with cons := f.cons.stage c, staged := f.staged ++ [c] }
  | .tick room room' =>
    let r := kbdputcclock false room room' f.cons
    some { f with cons := r.1, passed := f.passed ++ r.2 }

/-- With the counter at `n`, the stream `s` is fed from an empty ring on, wherever its
positions are, until the ring is empty again; `out` was passed to `qproduce`. -/
def Way (n : Nat) (s out : List Byte) : Prop :=
  ∃ (cons : Cons) (ops : List FeedOp) (f : Feed),
    cons.ctrlt = n ∧ cons.kbd.istage.contents = [] ∧
      run Feed.step { cons := cons } ops = some f ∧
      f.staged = s ∧ f.passed = out ∧ f.cons.kbd.istage.contents = []

section

variable {n : Nat} {c d : Byte} {s out : List Byte} {f f' g : Feed} {bufs bufs' : List (List Byte)}

/-- The bytes staged so far went to `echo` in some buffers, or they are in the ring. -/
def CutInto (n : Nat) (f : Feed) : Prop :=
  ∃ bufs : List (List Byte), (∀ buf ∈ bufs, buf ≠ []) ∧
    f.staged = bufs.flatten ++ f.cons.kbd.istage.contents ∧
    passes n bufs = (f.cons.ctrlt, f.passed)

/-- A byte is staged, or the pieces of the ring are the next buffers. -/
theorem CutInto.step {o : FeedOp} (h : CutInto n f) (hStep : f.step o = some g) : CutInto n g := by
  obtain ⟨bufs, hNe, hStaged, hPassed⟩ := h
  cases o with
  | stage c =>
    simp only [Feed.step, Option.ite_none_left_eq_some, Option.some.injEq] at hStep
    obtain ⟨hRoom, rfl⟩ := hStep
    refine ⟨bufs, hNe, ?_, hPassed⟩
    simp [Cons.stage, RingBuf.contents_put, hRoom, hStaged]
  | tick room room' =>
    -- the pieces of the ring are the next buffers of the cut
    obtain rfl := Option.some.inj hStep
    obtain ⟨hRing, hTick⟩ := kbdputcclock_eq room room' f.cons
    rw [Prod.ext_iff] at hTick
    refine ⟨bufs ++ f.cons.kbd.istage.pieces, ?_, ?_, ?_⟩
    · intro buf hBuf
      rcases List.mem_append.mp hBuf with hBuf | hBuf
      · exact hNe buf hBuf
      · exact RingBuf.pieces_ne_nil hBuf
    · simp [hRing, hStaged, RingBuf.flatten_pieces]
    · rw [passes_append, hPassed]
      exact Prod.ext hTick.1.symm (congrArg (f.passed ++ ·) hTick.2.symm)

/-- Any way comes down to a cut of the stream. -/
theorem Way.cut (h : Way n s out) : ∃ bufs : List (List Byte), (∀ buf ∈ bufs, buf ≠ []) ∧
    bufs.flatten = s ∧ (passes n bufs).2 = out := by
  obtain ⟨cons, ops, f, hCount, hEmpty, hRun, rfl, rfl, hEnd⟩ := h
  have hStart : CutInto n { cons := cons } := ⟨[], by simp, by simp [hEmpty], by rw [← hCount]; rfl⟩
  obtain ⟨bufs, hNe, hStaged, hPassed⟩ :=
    run_keeps (fun _ _ _ hCut hStep => CutInto.step hCut hStep) hStart hRun
  rw [hEnd, List.append_nil] at hStaged
  exact ⟨bufs, hNe, hStaged.symm, by rw [hPassed]⟩

/-! ## Cuts that happen -/

/-- A run from `f` to `g`, both with an empty ring, in which `echo` gets the buffers
`bufs`. -/
structure Feeds (f : Feed) (bufs : List (List Byte)) (g : Feed) : Prop where
  run    : ∃ ops, Trace.run Feed.step f ops = some g
  empty  : g.cons.kbd.istage.iw = g.cons.kbd.istage.ir
  place  : g.cons.kbd.istage.ir = RingBuf.next^[bufs.flatten.length] f.cons.kbd.istage.ir
  staged : g.staged = f.staged ++ bufs.flatten
  ctrlt  : g.cons.ctrlt = (passes f.cons.ctrlt bufs).1
  passed : g.passed = f.passed ++ (passes f.cons.ctrlt bufs).2

/-- One feed after the other. -/
theorem Feeds.trans (h : Feeds f bufs f') (h' : Feeds f' bufs' g) : Feeds f (bufs ++ bufs') g := by
  obtain ⟨ops, hRun⟩ := h.run
  obtain ⟨ops', hRun'⟩ := h'.run
  refine ⟨⟨ops ++ ops', ?_⟩, h'.empty, ?_, ?_, ?_, ?_⟩
  · rw [run_append, hRun]
    exact hRun'
  · rw [h'.place, h.place, List.flatten_append, List.length_append, Nat.add_comm,
      Function.iterate_add_apply]
  · rw [h'.staged, h.staged, List.flatten_append, List.append_assoc]
  · rw [h'.ctrlt, h.ctrlt, passes_append]
  · rw [h'.passed, h.passed, h.ctrlt, passes_append, List.append_assoc]

/-- Staged bytes that lie in one array are one buffer at the next tick. -/
theorem Feeds.of_flat (ops : List FeedOp) {buf : List Byte} (hRun : Trace.run Feed.step f ops = some g)
    (hStaged : g.staged = f.staged ++ buf) (hPassed : g.passed = f.passed)
    (hCount : g.cons.ctrlt = f.cons.ctrlt)
    (hPieces : g.cons.kbd.istage.pieces = [buf])
    (hPlace : g.cons.kbd.istage.iw = RingBuf.next^[buf.length] f.cons.kbd.istage.ir) :
    ∃ g', Feeds f [buf] g' := by
  -- the run goes on with a tick
  obtain ⟨hRing, hTick⟩ := kbdputcclock_eq true true g.cons
  rw [Prod.ext_iff, hPieces, hCount] at hTick
  let r := kbdputcclock false true true g.cons
  refine ⟨{ g with cons := r.1, passed := g.passed ++ r.2 },
    ⟨ops ++ [.tick true true], ?_⟩, ?_, ?_, ?_, ?_, ?_⟩
  · rw [run_append, hRun]
    rfl
  · simp only [r, hRing]
    rfl
  · simp only [r, hRing, List.flatten_cons, List.flatten_nil, List.append_nil]
    exact hPlace
  · simpa using hStaged
  · exact hTick.1
  · rw [hPassed]
    exact congrArg _ hTick.2

/-- The next place is another one. -/
theorem next_ne_self (i : Fin LINESIZE) : RingBuf.next i ≠ i := by
  intro h
  have hVal := congrArg Fin.val h
  rw [RingBuf.val_next] at hVal
  unfold LINESIZE at hVal
  split at hVal
  · omega
  · omega

/-- A byte can be fed alone. -/
theorem Feeds.single (hEmpty : f.cons.kbd.istage.iw = f.cons.kbd.istage.ir) (c : Byte) :
    ∃ g, Feeds f [[c]] g := by
  have hRoom : RingBuf.next f.cons.kbd.istage.iw ≠ f.cons.kbd.istage.ir :=
    hEmpty ▸ next_ne_self _
  have hPut := RingBuf.iw_put hRoom c
  have hContents : (f.cons.kbd.istage.put c).contents = [c] := by
    rw [RingBuf.contents_put, if_neg hRoom, RingBuf.contents_eq_nil.mpr hEmpty]
    rfl
  refine Feeds.of_flat [.stage c]
    (g := { f with cons := f.cons.stage c, staged := f.staged ++ [c] }) ?_ rfl rfl rfl ?_ ?_
  · simp [Trace.run, Feed.step, hRoom]
  · rw [← hContents]
    refine RingBuf.pieces_eq_singleton ?_ ?_
    · rw [Cons.stage, hPut, RingBuf.ir_put]
      exact hRoom
    · rw [Cons.stage, hPut, RingBuf.ir_put, ← hEmpty, Fin.lt_def, RingBuf.val_next]
      split
      · exact Or.inl (Nat.lt_succ_self _)
      · -- the byte is the last of the array
        exact Or.inr rfl
  · rw [Cons.stage, hPut, hEmpty]
    rfl

/-- So can all bytes of a stream. -/
theorem Feeds.singles (hEmpty : f.cons.kbd.istage.iw = f.cons.kbd.istage.ir) (s : List Byte) :
    ∃ g, Feeds f (singles s) g := by
  induction s generalizing f with
  | nil => exact ⟨f, ⟨[], rfl⟩, hEmpty, rfl, (List.append_nil _).symm, rfl, (List.append_nil _).symm⟩
  | cons c s ih =>
    obtain ⟨g, hFirst⟩ := Feeds.single hEmpty c
    obtain ⟨g', hRest⟩ := ih hFirst.empty
    exact ⟨g', hFirst.trans hRest⟩

/-- Two bytes come as one buffer when the ring does not wrap between them. -/
theorem Feeds.pair (hEmpty : f.cons.kbd.istage.iw = f.cons.kbd.istage.ir)
    (hStart : f.cons.kbd.istage.ir.val = 0) (c d : Byte) : ∃ g, Feeds f [[c, d]] g := by
  have hRoom : RingBuf.next f.cons.kbd.istage.iw ≠ f.cons.kbd.istage.ir :=
    hEmpty ▸ next_ne_self _
  have hPut := RingBuf.iw_put hRoom c
  have hZero : f.cons.kbd.istage.iw.val = 0 := hEmpty ▸ hStart
  have hOne : (f.cons.kbd.istage.put c).iw.val = 1 := by
    rw [hPut, RingBuf.val_next, hZero]
    rfl
  have hTwo : (RingBuf.next (f.cons.kbd.istage.put c).iw).val = 2 := by
    rw [RingBuf.val_next, hOne]
    rfl
  -- the ring has 1024 places, so there is room for a second byte
  have hRoom' : RingBuf.next (f.cons.kbd.istage.put c).iw ≠ (f.cons.kbd.istage.put c).ir := by
    intro h
    rw [RingBuf.ir_put] at h
    rw [h, hStart] at hTwo
    cases hTwo
  have hPut' := RingBuf.iw_put hRoom' d
  have hContents : ((f.cons.kbd.istage.put c).put d).contents = [c, d] := by
    rw [RingBuf.contents_put, if_neg hRoom', RingBuf.contents_put, if_neg hRoom,
      RingBuf.contents_eq_nil.mpr hEmpty]
    rfl
  refine Feeds.of_flat [.stage c, .stage d]
    (g := { f with cons := (f.cons.stage c).stage d, staged := f.staged ++ [c] ++ [d] })
    ?_ (by simp) rfl rfl ?_ ?_
  · simp [Trace.run, Feed.step, hRoom, Cons.stage, hRoom']
  · rw [← hContents]
    refine RingBuf.pieces_eq_singleton ?_ (Or.inl ?_)
    · simp only [Cons.stage]
      rw [hPut', RingBuf.ir_put]
      exact hRoom'
    · simp only [Cons.stage]
      rw [hPut', RingBuf.ir_put, RingBuf.ir_put, Fin.lt_def, hTwo, hStart]
      decide
  · simp only [Cons.stage]
    rw [hPut', hPut, hEmpty]
    rfl

/-- An empty ring at the place `p`. -/
def restAt (n : Nat) (p : Fin LINESIZE) : Cons :=
  { kbd := { istage := ⟨.replicate LINESIZE 0, p, p⟩ }, ctrlt := n }

/-- A way through the ring is a feed. -/
theorem Feeds.way {p : Fin LINESIZE} (h : Feeds { cons := restAt n p } bufs g) :
    Way n bufs.flatten (passes n bufs).2 := by
  obtain ⟨ops, hRun⟩ := h.run
  exact ⟨restAt n p, ops, g, rfl, RingBuf.contents_eq_nil.mpr rfl, hRun, h.staged, h.passed,
    RingBuf.contents_eq_nil.mpr h.empty⟩

/-- The clock ticks behind every byte. -/
theorem way_singles (n : Nat) (s : List Byte) : Way n s (passes n (singles s)).2 := by
  obtain ⟨g, hFeeds⟩ := Feeds.singles (f := { cons := restAt n ⟨0, by decide⟩ }) rfl s
  simpa using hFeeds.way

/-- The clock misses one tick. -/
theorem way_pair (n : Nat) (pre post : List Byte) (c d : Byte) :
    Way n (pre ++ c :: d :: post) (passes n (singles pre ++ [c, d] :: singles post)).2 := by
  -- the ring starts where it will not wrap between the two bytes
  obtain ⟨p, hPlace⟩ := RingBuf.exists_iterate_next pre.length (⟨0, by decide⟩ : Fin LINESIZE)
  obtain ⟨f, hPre⟩ := Feeds.singles (f := { cons := restAt n p }) rfl pre
  have hStart : f.cons.kbd.istage.ir.val = 0 := by
    rw [hPre.place, flatten_singles]
    exact congrArg Fin.val hPlace
  obtain ⟨f', hPair⟩ := Feeds.pair hPre.empty hStart c d
  obtain ⟨g, hPost⟩ := Feeds.singles hPair.empty post
  have hFeeds := hPre.trans (hPair.trans hPost)
  simpa using hFeeds.way

/-! ## The streams that do not depend on the cuts -/

/-- Calm bytes come out as they are. -/
theorem calm_way (hCalm : Calm n s) (h : Way n s out) : out = s := by
  obtain ⟨bufs, -, rfl, rfl⟩ := h.cut
  rw [passes_calm hCalm]

/-- One byte cannot be cut. -/
theorem singleton_way (hCommand : n = 2 ∧ isCommand c = true) (h : Way n [c] out) : out = [] := by
  obtain ⟨bufs, hNe, hFlat, rfl⟩ := h.cut
  cases bufs with
  | nil => cases hFlat
  | cons buf bufs =>
    -- no buffer of a way is empty, so the first one has the byte
    have hBuf : buf = [c] ∧ bufs.flatten = [] := by
      rw [List.flatten_cons] at hFlat
      rcases List.append_eq_singleton_iff.mp hFlat with ⟨hNil, -⟩ | hBuf
      · exact absurd hNil (hNe buf (List.mem_cons_self ..))
      · exact hBuf
    have hLost := passBuf_command (n := 2) [] [] trivial rfl hCommand.2
    have hRest : passes 0 bufs = _ := passes_calm (by rw [hBuf.2]; trivial)
    rw [List.nil_append] at hLost
    rw [passes, hBuf.1, hCommand.1, hLost, hRest, hBuf.2]
    rfl

end

/-- What is queued of a stream does not depend on how it is cut, and has all bytes
that are no part of an escape, exactly when the stream has no command letter behind
`^T ^T`, or cannot be cut at all. -/
theorem echo_batching_exact (n : Nat) (s : List Byte) :
    (∀ out out', Way n s out → Way n s out' → out = out' ∧ (outside n s).Sublist out) ↔
      Calm n s ∨ s.length ≤ 1 := by
  constructor
  · intro hSame
    by_contra hNot
    rw [not_or] at hNot
    obtain ⟨hCommand, hLong⟩ := hNot
    obtain ⟨pre, c, post, rfl, hPre, hTwo, hLetter⟩ := exists_command hCommand
    rcases List.eq_nil_or_concat pre with rfl | ⟨pre', d, rfl⟩
    · -- the command comes first: cut behind it
      have hCount : n = 2 := hTwo
      subst hCount
      cases post with
      | nil => simp at hLong
      | cons d post =>
        have hEq := (hSame _ _ (way_singles 2 ([] ++ c :: d :: post)) (way_pair 2 [] post c d)).1
        exact cut_behind_command hLetter d post hEq
    · -- otherwise cut before it
      rw [List.concat_eq_append] at hPre hTwo hSame
      rw [List.append_assoc, List.singleton_append] at hSame
      have hEq := (hSame _ _ (way_singles n (pre' ++ d :: c :: post)) (way_pair n pre' post d c)).1
      exact cut_at_command hPre hTwo hLetter hEq
  · intro h out out' hWay hWay'
    by_cases hCalm : Calm n s
    · rw [calm_way hCalm hWay, calm_way hCalm hWay']
      exact ⟨rfl, outside_sublist n s⟩
    · -- a single byte that is a command
      have hShort := h.resolve_left hCalm
      cases s with
      | nil => exact absurd trivial hCalm
      | cons c s =>
        obtain rfl : s = [] := by
          rw [List.length_cons] at hShort
          exact List.length_eq_zero_iff.mp (by omega)
        have hCommand : n = 2 ∧ isCommand c = true := by
          by_contra hNo
          exact hCalm ⟨hNo, trivial⟩
        rw [singleton_way hCommand hWay, singleton_way hCommand hWay']
        have hNotT : c ≠ CtrlT := fun hT => by
          rw [hT, not_isCommand_ctrlT] at hCommand
          cases hCommand.2
        simp [outside, hNotT, hCommand]

/-- `^T ^T s b`: when the `s` and the `b` come in one buffer, the `b` is lost. -/
theorem echo_loses_byte :
    Way 0 [CtrlT, CtrlT, ch 's', ch 'b'] [CtrlT, CtrlT, ch 'b'] ∧
      Way 0 [CtrlT, CtrlT, ch 's', ch 'b'] [CtrlT, CtrlT] ∧
      ¬ (outside 0 [CtrlT, CtrlT, ch 's', ch 'b']).Sublist [CtrlT, CtrlT] := by
  refine ⟨way_singles 0 _, way_pair 0 [CtrlT, CtrlT] [] (ch 's') (ch 'b'), ?_⟩
  decide

end Glendum
