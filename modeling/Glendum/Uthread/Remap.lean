import Glendum.Uthread.Model

/-!
# Glendum — remapping a user thread

`umem_remap` writes a call frame onto the special stack of a stopped thread,
one word below the other; `do_maps` reads it upwards, undoes the previous list
of mappings and installs the new one. This module follows the list through both
halves.

* `umemRemap_built` — a successful `umem_remap` leaves exactly the frame of the
  process' resident pages, and touches no other host process;
* `umemRemap_ok` — and it succeeds when nothing of the process is on swap;
* `framePairs_pushed` — on such a frame `do_maps` finds the pushed list, reversed;
* `doMaps_space`, `doMaps_record` — it unmaps the recorded list, maps the one it
  finds, and records that.
-/

namespace Glendum

open Machine

/-! ## The resident pages of a process -/

def entryPages : Option PageEntry → List PageId
  | some (.page p) => [p]
  | _ => []

def ptePages (type : SegType) : Option Pte → List (SegType × PageId)
  | none => []
  | some p => p.pages.toList.flatMap fun e => (entryPages e).map fun q => (type, q)

def segPages : Option Segment → List (SegType × PageId)
  | none => []
  | some s => s.map.flatMap (ptePages s.type)

/-- The resident pages of a process in the order `umem_remap` finds them, each
with the type of its segment. -/
def Proc.resident (p : Proc) : List (SegType × PageId) := p.seg.flatMap segPages

/-- The two words that describe one page. -/
def mappingOf (pages : PageId → Page) (r : SegType × PageId) : Word × Word :=
  ((pages r.2).pa &&& pageMask ||| segperm r.1, (pages r.2).va &&& pageMask ||| 1)

/-- The words of a list of mappings in the order they are pushed. -/
def frameWords (ms : List (Word × Word)) : List Word := ms.flatMap fun m => [m.2, m.1]

/-- Two words for each page. -/
@[simp] theorem length_frameWords (ms : List (Word × Word)) :
    (frameWords ms).length = 2 * ms.length := by
  induction ms with
  | nil => rfl
  | cons m ms ih =>
    rw [frameWords, List.flatMap_cons, ← frameWords, List.length_append, ih,
      List.length_cons]
    simp only [List.length_cons, List.length_nil]
    omega

/-! ## What building the frame does -/

/-- Calls that poke no register, resume no thread and report no stray syscall. -/
def HostCall.Quiet : HostCall → Prop
  | .pokeUser .. => True
  | .print msg => msg ≠ notRemappingMsg
  | _ => False

/-- Memory of the thread `upid` replaced, nothing else. -/
def setMem (host : Int → HostThread) (upid : Int) (m : Memory) : Int → HostThread :=
  Function.update host upid { host upid with mem := m }

/-- `f'` is `f` after the mappings `ms` were pushed. -/
structure Built (upid : Int) (f : FrameBuild) (ms : List (Word × Word)) (f' : FrameBuild) :
    Prop where
  kernel : ∃ cs, (∀ c ∈ cs, c.Quiet) ∧
    f'.k = { f.k with
      host := setMem f.k.host upid ((f.k.host upid).mem.pushWords f.usptr (frameWords ms))
      trace := f.k.trace ++ cs }
  usptr : f'.usptr = f.usptr - BitVec.ofNat 32 (8 * ms.length)
  nmap : f'.nmap = f.nmap + ms.length

namespace Built

variable {upid : Int} {f f' f'' : FrameBuild} {ms ms' : List (Word × Word)}

/-- Nothing was built. -/
theorem refl : Built upid f [] f where
  kernel := ⟨[], by simp, by simp [setMem, frameWords, Memory.pushWords]⟩
  usptr := by simp
  nmap := rfl

/-- The pages of the kernel are not touched. -/
theorem pages_eq (h : Built upid f ms f') : f'.k.pages = f.k.pages := by
  obtain ⟨cs, -, hk⟩ := h.kernel
  rw [hk]

/-- One part of the frame after the other. -/
theorem trans (h : Built upid f ms f') (h' : Built upid f' ms' f'') :
    Built upid f (ms ++ ms') f'' where
  kernel := by
    obtain ⟨cs, hcs, hk⟩ := h.kernel
    obtain ⟨cs', hcs', hk'⟩ := h'.kernel
    refine ⟨cs ++ cs', ?_, ?_⟩
    · intro c hc
      rcases List.mem_append.mp hc with hc | hc
      · exact hcs c hc
      · exact hcs' c hc
    · -- the second list is pushed where the first one ended
      have hWords : frameWords (ms ++ ms') = frameWords ms ++ frameWords ms' := by
        simp [frameWords]
      rw [hk', hk, hWords, Memory.pushWords_append, h.usptr, length_frameWords,
        show 4 * (2 * ms.length) = 8 * ms.length by omega]
      simp [setMem]
  usptr := by
    rw [h'.usptr, h.usptr, List.length_append]
    bv_omega
  nmap := by
    rw [h'.nmap, h.nmap, List.length_append]
    omega

end Built

/-! ## The loops of `umem_remap` -/

/-- What one round of the loops does, as a relation of the frames before and after it
and the pages found between them. -/
structure LoopRule (upid : Int)
    (R : FrameBuild → List (SegType × PageId) → FrameBuild → Prop) : Prop where
  refl : ∀ f, R f [] f
  trans : ∀ {f f' f'' rs rs'}, R f rs f' → R f' rs' f'' → R f (rs ++ rs') f''
  print : ∀ f, R f [] { f with k := f.k.call (.print segTypeMsg) }
  page : ∀ {f f' type p}, f.page upid (segperm type) (some (.page p)) = .ok f' →
    R f [(type, p)] f'

namespace LoopRule

variable {upid : Int} {R : FrameBuild → List (SegType × PageId) → FrameBuild → Prop}

/-- When each round finds the pages of its item, the loop finds those of the list. -/
theorem foldlM (hR : LoopRule upid R) {α : Type} {g : FrameBuild → α → Except Fault FrameBuild}
    {found : α → List (SegType × PageId)}
    (hStep : ∀ f a f', g f a = .ok f' → R f (found a) f') :
    ∀ {l : List α} {f f' : FrameBuild}, l.foldlM g f = .ok f' → R f (l.flatMap found) f' := by
  intro l
  induction l with
  | nil =>
    intro f f' h
    cases h
    exact hR.refl f
  | cons a l ih =>
    intro f f' h
    rw [List.foldlM_cons] at h
    cases hg : g f a with
    | error e => rw [hg] at h; cases h
    | ok f1 =>
      rw [hg] at h
      rw [List.flatMap_cons]
      exact hR.trans (hStep f a f1 hg) (ih h)

/-- The rule for one slot of a table. -/
theorem entry (hR : LoopRule upid R) {type : SegType} {f f' : FrameBuild}
    {e : Option PageEntry} (h : f.page upid (segperm type) e = .ok f') :
    R f ((entryPages e).map fun q => (type, q)) f' := by
  match e with
  | none =>
    cases h
    exact hR.refl f
  | some (.swap _) => cases h
  | some (.page p) => exact hR.page h

/-- The rule for a table. -/
theorem pte (hR : LoopRule upid R) {type : SegType} {f f' : FrameBuild} {e : Option Pte}
    (h : f.pte upid type e = .ok f') : R f (ptePages type e) f' := by
  cases e with
  | none =>
    cases h
    exact hR.refl f
  | some p =>
    have hLoop : ∀ {g g' : FrameBuild},
        p.pages.toList.foldlM (FrameBuild.page upid (segperm type)) g = .ok g' →
        R g (ptePages type (some p)) g' :=
      fun hg => hR.foldlM (fun _ _ _ hs => hR.entry hs) hg
    -- a report of an unmapped segment type finds nothing
    cases type with
    | text | data | bss | stack => exact hLoop h
    | shared | physical => exact hR.trans (hR.print f) (hLoop h)

/-- The rule for a segment. -/
theorem segment (hR : LoopRule upid R) {f f' : FrameBuild} {s : Option Segment}
    (h : f.segment upid s = .ok f') : R f (segPages s) f' := by
  cases s with
  | none =>
    cases h
    exact hR.refl f
  | some s => exact hR.foldlM (fun _ _ _ hs => hR.pte hs) h

/-- The three loops together find the resident pages. -/
theorem resident (hR : LoopRule upid R) {p : Proc} {f f' : FrameBuild}
    (h : p.seg.foldlM (FrameBuild.segment upid) f = .ok f') : R f p.resident f' :=
  hR.foldlM (fun _ _ _ hs => hR.segment hs) h

end LoopRule

/-- A page takes two words of the frame. -/
theorem page_built {upid : Int} {type : SegType} {f f' : FrameBuild} {p : PageId}
    (h : f.page upid (segperm type) (some (.page p)) = .ok f') :
    Built upid f ([(type, p)].map (mappingOf f.k.pages)) f' := by
  cases h
  -- the two stores of the page, the address above the other word
  refine ⟨⟨[.pokeUser upid f.usptr ((f.k.pages p).va &&& pageMask ||| 1),
      .pokeUser upid (f.usptr - 4) ((f.k.pages p).pa &&& pageMask ||| segperm type)],
    ?_, ?_⟩, ?_, rfl⟩
  · intro c hc
    rcases List.mem_pair.mp hc with rfl | rfl <;> exact trivial
  · simp [Kernel.call, HostCall.apply, setMem, frameWords, mappingOf, Memory.pushWords]
  · simp

/-- A line that is printed takes none. -/
theorem print_built {upid : Int} (f : FrameBuild) :
    Built upid f [] { f with k := f.k.call (.print segTypeMsg) } where
  kernel := ⟨[.print segTypeMsg], by simp [HostCall.Quiet, segTypeMsg, notRemappingMsg],
    by simp [Kernel.call, HostCall.apply, setMem, frameWords, Memory.pushWords]⟩
  usptr := by simp
  nmap := rfl

/-- The frame grows by the pairs of the resident pages. -/
theorem built_rule (upid : Int) :
    LoopRule upid fun f rs f' => Built upid f (rs.map (mappingOf f.k.pages)) f' where
  refl _ := Built.refl
  trans h h' := by
    -- no round changes the pages, so both halves read the same addresses
    rw [h.pages_eq] at h'
    rw [List.map_append]
    exact h.trans h'
  print := print_built
  page := page_built

/-- The stack pointer below a frame of `n` mappings. -/
def KernelImage.frameBottom (img : KernelImage) (n : Nat) : Word :=
  img.frameTop - BitVec.ofNat 32 (8 * n + 4)

/-- The bottom of the frame, two words for each page and one below. -/
theorem frameBottom_eq (img : KernelImage) (n : Nat) :
    img.frameTop - BitVec.ofNat 32 (8 * n) - 4 = img.frameBottom n := by
  unfold KernelImage.frameBottom
  bv_omega

/-- All words of the frame for the resident pages of `p`, from the top down:
the mappings, their number, and the return address. -/
def remapFrame (pages : PageId → Page) (p : Proc) : List Word :=
  frameWords (p.resident.map (mappingOf pages)) ++ [BitVec.ofNat 32 p.resident.length, 0]

/-- What a `umem_remap` that was asked to remap leaves behind. -/
structure Diverted (img : KernelImage) (k : Kernel) (i : Nat) (p : Nat) (k' : Kernel) : Prop where
  uthr : k'.uthreads = Function.update k.uthreads i
    { k.uthreads i with
      state := .remapping, hsyscalls := 1
      mmeax := (k.host (k.uthreads i).upid).regs.eax
      mmeip := (k.host (k.uthreads i).upid).regs.eip
      mmesp := (k.host (k.uthreads i).upid).regs.esp }
  thread : k'.host = Function.update k.host (k.uthreads i).upid
    { regs := { (k.host (k.uthreads i).upid).regs with
        eax := 0, eip := img.doMaps
        esp := img.frameBottom (k.procs p).resident.length }
      mem := (k.host (k.uthreads i).upid).mem.pushWords img.frameTop
        (remapFrame k.pages (k.procs p)) }
  frame : k'.actthreads = k.actthreads ∧ k'.procs = k.procs ∧ k'.up = k.up ∧ k'.pages = k.pages
  trace : ∃ cs v, (∀ c ∈ cs, c.Quiet) ∧
    k'.trace = k.trace ++ cs ++ [.poke .umemRemap (k.uthreads i).upid .eax 0,
      .poke .umemRemap (k.uthreads i).upid .esp v,
      .poke .umemRemap (k.uthreads i).upid .eip img.doMaps]

/-- The end of `umem_remap` turns a finished list of mappings into a diverted
thread. -/
theorem Built.divert {img : KernelImage} {k : Kernel} {i p : Nat} {f : FrameBuild}
    (h : Built (k.uthreads i).upid
      { k := k.setUthread i fun u =>
          { u with state := .remapping, mmeax := k.peekEax u.upid, mmeip := k.peekEip u.upid,
                   mmesp := k.peekEsp u.upid },
        usptr := img.frameTop, nmap := 0 }
      ((k.procs p).resident.map (mappingOf k.pages)) f) :
    Diverted img k i p (f.divert img i (k.uthreads i).upid) := by
  obtain ⟨cs, hQuiet, hk⟩ := h.kernel
  have hPtr := h.usptr
  have hMap := h.nmap
  simp only [List.length_map, Nat.zero_add] at hPtr hMap
  have hEsp : f.usptr - 4 = img.frameBottom (k.procs p).resident.length := by
    rw [hPtr, frameBottom_eq]
  refine ⟨?_, ?_, ?_, cs ++ [.pokeUser (k.uthreads i).upid f.usptr (BitVec.ofNat 32 f.nmap),
    .pokeUser (k.uthreads i).upid (f.usptr - 4) 0], f.usptr - 4, ?_, ?_⟩
  · simp [FrameBuild.divert, hk, Kernel.peekEax, Kernel.peekEip, Kernel.peekEsp]
  · -- the number and the return address are pushed below the mappings
    have hWords : remapFrame k.pages (k.procs p) =
        frameWords ((k.procs p).resident.map (mappingOf k.pages)) ++
          [BitVec.ofNat 32 f.nmap, 0] := by
      rw [hMap, remapFrame]
    have hAt : img.frameTop - BitVec.ofNat 32 (4 * (2 * (k.procs p).resident.length)) =
        f.usptr := by
      rw [hPtr]
      congr 2
      omega
    rw [hWords, Memory.pushWords_append, length_frameWords, List.length_map, hAt, ← hEsp]
    simp [FrameBuild.divert, hk, HostCall.apply, setMem, Regs.set, Memory.pushWords]
  · simp [FrameBuild.divert, hk]
  · intro c hc
    rcases List.mem_append.mp hc with hc | hc
    · exact hQuiet c hc
    · rcases List.mem_pair.mp hc with rfl | rfl <;> exact trivial
  · simp [FrameBuild.divert, hk]

/-- A successful `umem_remap` either was not asked to remap and changed nothing,
or diverted the thread. -/
theorem umemRemap_built {img : KernelImage} {k k' : Kernel} {i : Nat}
    (h : umemRemap img k i = .ok k') :
    ((k.procs k.up).newtlb = false ∧ k' = k) ∨
      ∃ p, (k.procs k.up).newtlb = true ∧ (k.uthreads i).proc = some p ∧
        Diverted img k i p k' := by
  unfold umemRemap at h
  split at h
  · next hNew =>
    right
    simp only [Kernel.setUthread_uthreads, Function.update_self] at h
    -- a thread without a process, and a loop that faults, do not complete
    split at h
    · cases h
    · next p hp =>
      refine ⟨p, hNew, hp, ?_⟩
      split at h
      · cases h
      · next f hf =>
        cases h
        exact Built.divert ((built_rule _).resident hf)
  · next hNew =>
    left
    cases h
    exact ⟨by simpa using hNew, rfl⟩

/-- Every slot in use holds a page. -/
def NoSwap (p : Proc) : Prop :=
  ∀ s, some s ∈ p.seg → ∀ t, some t ∈ s.map → ∀ e ∈ t.pages.toList, onswap e = false

/-- A loop ends without a fault when its body does. -/
theorem foldlM_ok {α β : Type} {g : β → α → Except Fault β} {l : List α}
    (h : ∀ a ∈ l, ∀ b, ∃ b', g b a = .ok b') : ∀ b, ∃ b', l.foldlM g b = .ok b' := by
  induction l with
  | nil => exact fun b => ⟨b, rfl⟩
  | cons a l ih =>
    intro b
    obtain ⟨b1, hb1⟩ := h a (List.mem_cons_self ..) b
    obtain ⟨b', hb'⟩ := ih (fun x hx => h x (List.mem_cons_of_mem _ hx)) b1
    exact ⟨b', by rw [List.foldlM_cons, hb1]; exact hb'⟩

/-- `umem_remap` completes for a bound thread whose process has nothing on swap. -/
theorem umemRemap_ok (img : KernelImage) {k : Kernel} {i p : Nat}
    (hProc : (k.uthreads i).proc = some p) (hSwap : NoSwap (k.procs p)) :
    ∃ k', umemRemap img k i = .ok k' := by
  -- the only fault of the loops is a swap address taken for a page
  have hSeg : ∀ s ∈ (k.procs p).seg, ∀ f : FrameBuild,
      ∃ f', f.segment (k.uthreads i).upid s = .ok f' := by
    intro s hs f
    cases s with
    | none => exact ⟨f, rfl⟩
    | some s =>
      refine foldlM_ok (fun t ht f => ?_) f
      cases t with
      | none => exact ⟨f, rfl⟩
      | some t =>
        refine foldlM_ok (fun e he f => ?_) _
        match e with
        | none => exact ⟨f, rfl⟩
        | some (.page q) => exact ⟨_, rfl⟩
        | some (.swap slot) => exact absurd (hSwap s hs t ht _ he) (by simp [onswap])
  unfold umemRemap
  split
  · simp only [Kernel.setUthread_uthreads, Function.update_self, hProc]
    obtain ⟨f, hf⟩ := foldlM_ok hSeg
      { k := k.setUthread i fun u =>
          { u with state := .remapping, mmeax := k.peekEax (k.uthreads i).upid,
                   mmeip := k.peekEip (k.uthreads i).upid,
                   mmesp := k.peekEsp (k.uthreads i).upid },
        usptr := img.frameTop, nmap := 0 }
    exact ⟨_, by rw [Kernel.setUthread_procs, hf]⟩
  · exact ⟨k, rfl⟩

/-! ## `do_maps` on lists of mappings -/

/-- The pairs of consecutive words of an array, from the front. -/
def pairsOf (n : Nat) (arg : Nat → Word) : List (Word × Word) :=
  (List.range n).map fun i => (arg (2 * i), arg (2 * i + 1))

/-- The mappings that a thread has recorded in `curmap`. -/
def UserSide.record (u : UserSide) : List (Word × Word) :=
  match u.curmap with
  | none => []
  | some old => pairsOf u.curmlen fun i => old.getD i 0

def pairPage (m : Word × Word) : Nat := (m.2 &&& pageMask).toNat / 4096

def unmapPair (fd : Int) (as : AddressSpace) (m : Word × Word) : AddressSpace :=
  hostMmap as fd (m.1 &&& pageMask) (m.2 &&& pageMask) ((m.2 &&& 0xFFF) <<< 12) 0

def mapPair (fd : Int) (as : AddressSpace) (m : Word × Word) : AddressSpace :=
  hostMmap as fd (m.1 &&& pageMask) (m.2 &&& pageMask) ((m.2 &&& 0xFFF) <<< 12)
    (m.1 &&& 0x07)

/-- The pairs that `do_maps` finds in the frame at `esp`. -/
def framePairs (mem : Memory) (esp : Word) : List (Word × Word) :=
  pairsOf (mem.load32 (esp + 4)).toNat fun i => mem.load32 (esp + 8 + BitVec.ofNat 32 (4 * i))

/-- `do_maps` keeps its file. -/
theorem doMaps_memfd (u : UserSide) (mem : Memory) (esp : Word) :
    (doMaps u mem esp).memfd = u.memfd := rfl

/-- `do_maps` records the mappings of its frame. -/
theorem doMaps_record (u : UserSide) (mem : Memory) (esp : Word) :
    (doMaps u mem esp).record = framePairs mem esp := by
  simp only [doMaps, UserSide.record, framePairs, pairsOf]
  apply List.map_congr_left
  intro i hi
  rw [List.mem_range] at hi
  -- the record is a copy of the words of the frame
  have hGet : ∀ j, j < 2 * (mem.load32 (esp + 4)).toNat →
      ((List.range (2 * (mem.load32 (esp + 4)).toNat)).map fun i =>
        mem.load32 (esp + 8 + BitVec.ofNat 32 (4 * i))).getD j 0 =
      mem.load32 (esp + 8 + BitVec.ofNat 32 (4 * j)) := by
    intro j hj
    rw [List.getD_eq_getElem?_getD, List.getElem?_map, List.getElem?_range hj]
    rfl
  rw [hGet _ (by omega), hGet _ (by omega)]

/-- `do_maps` unmaps what is recorded and maps what its frame lists. -/
theorem doMaps_space (u : UserSide) (mem : Memory) (esp : Word) :
    (doMaps u mem esp).space = (framePairs mem esp).foldl (mapPair u.memfd)
      (u.record.foldl (unmapPair u.memfd) u.space) := by
  rw [framePairs, pairsOf, List.foldl_map]
  unfold doMaps UserSide.record
  cases u.curmap with
  | none => rfl
  | some old =>
    have hOld : (pairsOf u.curmlen fun i => old.getD i 0).foldl (unmapPair u.memfd) u.space =
        (List.range u.curmlen).foldl (unmapOld u.memfd old) u.space := List.foldl_map
    simp only [hOld]
    rfl

/-! ## The frame, read upwards -/

/-- The words of a page are next to each other, the address first. -/
theorem frameWords_getElem? (ms : List (Word × Word)) (i : Nat) :
    (frameWords ms)[2 * i]? = ms[i]?.map Prod.snd ∧
      (frameWords ms)[2 * i + 1]? = ms[i]?.map Prod.fst := by
  induction ms generalizing i with
  | nil => simp [frameWords]
  | cons m ms ih =>
    rw [show frameWords (m :: ms) = m.2 :: m.1 :: frameWords ms from rfl]
    cases i with
    | zero => simp
    | succ i =>
      rw [show 2 * (i + 1) = 2 * i + 1 + 1 by omega]
      simpa using ih i

/-- Room for the frame of `n` mappings in `upstk`. -/
def FrameFits (n : Nat) : Prop := 8 * n + 8 ≤ UPSTKSZ

/-- `do_maps` reads back the list that was pushed, in reverse. -/
theorem framePairs_pushed (img : KernelImage) (m : Memory) (ms : List (Word × Word))
    (hFits : FrameFits ms.length) :
    framePairs (m.pushWords img.frameTop (frameWords ms ++ [BitVec.ofNat 32 ms.length, 0]))
      (img.frameBottom ms.length) = ms.reverse := by
  -- a frame that fits the stack is far below the size of the address space
  have hSmall : ms.length < 2 ^ 14 := by
    unfold FrameFits UPSTKSZ at hFits
    omega
  set ws := frameWords ms ++ [BitVec.ofNat 32 ms.length, 0] with hws
  have hLen : ws.length = 2 * ms.length + 2 := by simp [hws]
  have hWord : ∀ j v, ws[j]? = some v →
      (m.pushWords img.frameTop ws).load32 (img.frameTop - BitVec.ofNat 32 (4 * j)) = v := by
    intro j v hj
    obtain ⟨hLt, rfl⟩ := List.getElem?_eq_some_iff.mp hj
    exact Memory.load32_pushWords hLt (by omega)
  -- the number of mappings sits above the return address
  have hCount : (m.pushWords img.frameTop ws).load32 (img.frameBottom ms.length + 4) =
      BitVec.ofNat 32 ms.length := by
    have hAt : img.frameBottom ms.length + 4 =
        img.frameTop - BitVec.ofNat 32 (4 * (2 * ms.length)) := by
      unfold KernelImage.frameBottom
      bv_omega
    rw [hAt]
    apply hWord
    rw [hws, List.getElem?_append_right (by simp), length_frameWords]
    simp
  -- the words of the mappings follow, the one pushed last first
  have hArg : ∀ j v, j < 2 * ms.length → (frameWords ms)[2 * ms.length - 1 - j]? = some v →
      (m.pushWords img.frameTop ws).load32
        (img.frameBottom ms.length + 8 + BitVec.ofNat 32 (4 * j)) = v := by
    intro j v hj hv
    have hAt : img.frameBottom ms.length + 8 + BitVec.ofNat 32 (4 * j) =
        img.frameTop - BitVec.ofNat 32 (4 * (2 * ms.length - 1 - j)) := by
      unfold KernelImage.frameBottom
      bv_omega
    rw [hAt]
    apply hWord
    rw [hws, List.getElem?_append_left (by rw [length_frameWords]; omega)]
    exact hv
  have hNum : (BitVec.ofNat 32 ms.length).toNat = ms.length := by
    rw [BitVec.toNat_ofNat]
    omega
  rw [framePairs, hCount, hNum]
  apply List.ext_getElem
  · simp [pairsOf]
  · intro i hi _
    have hiLt : i < ms.length := by simpa [pairsOf] using hi
    -- argument `i` is the mapping that was pushed `i`-th from the end
    have hPair := frameWords_getElem? ms (ms.length - 1 - i)
    rw [List.getElem?_eq_getElem (show ms.length - 1 - i < ms.length by omega)] at hPair
    simp only [pairsOf, List.getElem_map, List.getElem_range, List.getElem_reverse]
    rw [hArg (2 * i) _ (by omega) (by
        rw [show 2 * ms.length - 1 - 2 * i = 2 * (ms.length - 1 - i) + 1 by omega]
        exact hPair.2),
      hArg (2 * i + 1) _ (by omega) (by
        rw [show 2 * ms.length - 1 - (2 * i + 1) = 2 * (ms.length - 1 - i) by omega]
        exact hPair.1)]

end Glendum
