import Glendum.Uthread.RemapExact
import Mathlib.Data.List.OfFn

/-!
# Glendum — the remap frame on its stack

`umem_remap` pokes its frame word by word from the end of `upstk` down, with no
look at where the buffer starts, and takes the rights of a page from a switch
that knows four of the six segment types. This module follows the words as they
are poked.

* `umemRemap_stores` — the words of the frame, one below the other, are exactly
  what is poked;
* `frame_on_stack_iff` — they stay on `upstk`, and `do_maps` finds the complete
  list, exactly for processes of at most 16383 resident pages;
* `resident_described_iff` — they give rights to every resident page exactly
  when none is in a shared or physical segment.
-/

namespace Glendum

open Machine

/-! ## The words that are poked -/

/-- The address and the word of a poke into a thread's memory. -/
def HostCall.stored : HostCall → Option (Word × Word)
  | .pokeUser _ addr v => some (addr, v)
  | _ => none

/-- What was poked between `k` and a later state `k'`, in order. -/
def Kernel.stores (k k' : Kernel) : List (Word × Word) :=
  (k'.trace.drop k.trace.length).filterMap HostCall.stored

/-- Words poked one below the other, the first at `top`. -/
def pushStores (top : Word) : List Word → List (Word × Word)
  | [] => []
  | w :: ws => (top, w) :: pushStores (top - 4) ws

theorem pushStores_append (top : Word) (ws vs : List Word) :
    pushStores top (ws ++ vs) =
      pushStores top ws ++ pushStores (top - BitVec.ofNat 32 (4 * ws.length)) vs := by
  induction ws generalizing top with
  | nil => simp [pushStores]
  | cons w ws ih =>
    simp only [List.cons_append, pushStores, ih, List.length_cons]
    congr 3
    bv_omega

theorem pushStores_getElem? (top : Word) (ws : List Word) (j : Nat) :
    (pushStores top ws)[j]? = ws[j]?.map fun w => (top - BitVec.ofNat 32 (4 * j), w) := by
  induction ws generalizing top j with
  | nil => simp [pushStores]
  | cons w ws ih =>
    cases j with
    | zero => simp [pushStores]
    | succ j =>
      have hAt : top - 4 - BitVec.ofNat 32 (4 * j) = top - BitVec.ofNat 32 (4 * (j + 1)) := by
        bv_omega
      rw [pushStores, List.getElem?_cons_succ, List.getElem?_cons_succ, ih, hAt]

/-- `f'` is `f` after the words `ws` were poked below each other. -/
structure Pushed (f : FrameBuild) (ws : List Word) (f' : FrameBuild) : Prop where
  trace : ∃ cs, f'.k.trace = f.k.trace ++ cs ∧
    cs.filterMap HostCall.stored = pushStores f.usptr ws
  usptr : f'.usptr = f.usptr - BitVec.ofNat 32 (4 * ws.length)
  pages : f'.k.pages = f.k.pages

namespace Pushed

theorem refl (f : FrameBuild) : Pushed f [] f where
  trace := ⟨[], by simp, rfl⟩
  usptr := by simp
  pages := rfl

theorem trans {f f' f'' : FrameBuild} {ws vs : List Word} (h : Pushed f ws f')
    (h' : Pushed f' vs f'') : Pushed f (ws ++ vs) f'' where
  trace := by
    obtain ⟨cs, hcs, hws⟩ := h.trace
    obtain ⟨cs', hcs', hvs⟩ := h'.trace
    refine ⟨cs ++ cs', by rw [hcs', hcs, List.append_assoc], ?_⟩
    rw [List.filterMap_append, hws, hvs, h.usptr, pushStores_append]
  usptr := by
    rw [h'.usptr, h.usptr, List.length_append]
    bv_omega
  pages := h'.pages.trans h.pages

end Pushed

theorem pushed_rule (upid : Int) :
    LoopRule upid fun f rs f' => Pushed f (frameWords (rs.map (mappingOf f.k.pages))) f' where
  refl := Pushed.refl
  trans h h' := by
    rw [h.pages] at h'
    rw [List.map_append, frameWords, List.flatMap_append]
    exact h.trans h'
  print f := ⟨⟨[.print segTypeMsg], rfl, rfl⟩, by simp [frameWords], rfl⟩
  page {f f' type p} h := by
    cases h
    exact ⟨⟨[.pokeUser upid f.usptr ((f.k.pages p).va &&& pageMask ||| 1),
      .pokeUser upid (f.usptr - 4) ((f.k.pages p).pa &&& pageMask ||| segperm type)],
      by simp, rfl⟩, rfl, rfl⟩

/-- A remap pokes the frame of the process, from the top of `upstk` down. -/
theorem umemRemap_stores {img : KernelImage} {k k' : Kernel} {i p : Nat}
    (hRun : umemRemap img k i = .ok k') (hNew : (k.procs k.up).newtlb = true)
    (hProc : (k.uthreads i).proc = some p) :
    k.stores k' = pushStores img.frameTop (remapFrame k.pages (k.procs p)) := by
  simp only [umemRemap, hNew, if_true, Kernel.setUthread_uthreads, Function.update_self,
    hProc] at hRun
  split at hRun
  · cases hRun
  · next f hLoops =>
    cases hRun
    have hBuilt := (built_rule _).resident hLoops
    have hPushed := (pushed_rule _).resident hLoops
    obtain ⟨cs, hTrace, hStores⟩ := hPushed.trace
    -- `nmap` and the return address go below the mappings
    have hMap : f.nmap = (k.procs p).resident.length := by simpa using hBuilt.nmap
    have hTail : k.trace ++ cs ++ [.pokeUser (k.uthreads i).upid f.usptr (BitVec.ofNat 32 f.nmap),
        .pokeUser (k.uthreads i).upid (f.usptr - 4) 0,
        .poke .umemRemap (k.uthreads i).upid .eax 0,
        .poke .umemRemap (k.uthreads i).upid .esp (f.usptr - 4),
        .poke .umemRemap (k.uthreads i).upid .eip img.doMaps] =
        (f.divert img i (k.uthreads i).upid).trace := by
      simp [FrameBuild.divert, hTrace]
    have hPtr : f.usptr = img.frameTop -
        BitVec.ofNat 32 (4 * (frameWords ((k.procs p).resident.map
          (mappingOf k.pages))).length) := hPushed.usptr
    rw [Kernel.stores, ← hTail, List.append_assoc, List.drop_left, List.filterMap_append,
      hStores, remapFrame, pushStores_append, hPtr, hMap]
    rfl

@[simp] theorem length_remapFrame (pages : PageId → Page) (p : Proc) :
    (remapFrame pages p).length = 2 * p.resident.length + 2 := by
  simp [remapFrame]

/-! ## The frame against the size of the stack -/

/-- The four bytes at `a` are bytes of `upstk`. -/
def KernelImage.OnStack (img : KernelImage) (a : Word) : Prop :=
  img.upstk.toNat ≤ a.toNat ∧ a.toNat + 4 ≤ img.upstk.toNat + UPSTKSZ

/-- Pushing from the top stays on `upstk` for as many words as it has. -/
theorem onStack_iff (img : KernelImage) {ws : List Word} :
    (∀ s ∈ pushStores img.frameTop ws, img.OnStack s.1) ↔ 4 * ws.length ≤ UPSTKSZ := by
  have hFits := img.upstk_fits
  constructor
  · intro h
    by_contra hLong
    unfold UPSTKSZ at *
    -- the first word too many goes right below the buffer
    have hGet := pushStores_getElem? img.frameTop ws 32768
    rw [List.getElem?_eq_getElem (show 32768 < ws.length by omega)] at hGet
    obtain ⟨hLow, hHigh⟩ := h _ (List.mem_of_getElem? hGet)
    simp only [KernelImage.frameTop] at hLow hHigh
    unfold UPSTKSZ at *
    bv_omega
  · intro hLen s hs
    obtain ⟨j, hj⟩ := List.mem_iff_getElem?.mp hs
    rw [pushStores_getElem?] at hj
    obtain ⟨w, hw, rfl⟩ := Option.map_eq_some_iff.mp hj
    have hLt : j < ws.length := (List.getElem?_eq_some_iff.mp hw).1
    unfold KernelImage.OnStack KernelImage.frameTop
    unfold UPSTKSZ at *
    constructor <;> bv_omega

/-- The whole frame is on `upstk`, and `do_maps` finds all resident pages in it. -/
structure FrameKept (img : KernelImage) (k k' : Kernel) (i p : Nat) : Prop where
  inside : ∀ s ∈ k.stores k', img.OnStack s.1
  complete : framePairs (k'.host (k.uthreads i).upid).mem
      (k'.host (k.uthreads i).upid).regs.esp =
    ((k.procs p).resident.map (mappingOf k.pages)).reverse

/-- The stores of a remap stay on `upstk` when it has room for the frame. -/
theorem umemRemap_inside_iff {img : KernelImage} {k k' : Kernel} {i p : Nat}
    (hRun : umemRemap img k i = .ok k') (hNew : (k.procs k.up).newtlb = true)
    (hProc : (k.uthreads i).proc = some p) :
    (∀ s ∈ k.stores k', img.OnStack s.1) ↔ FrameFits (k.procs p).resident.length := by
  rw [umemRemap_stores hRun hNew hProc, onStack_iff, length_remapFrame, FrameFits]
  constructor <;> intro h <;> omega

/-- **The remap frame stays on its stack for small processes.** Every word is poked
inside `upstk`, and `do_maps` receives the complete list, exactly when the process
has at most 16383 resident pages. -/
theorem frame_on_stack_iff {img : KernelImage} {k k' : Kernel} {i p : Nat}
    (hRun : umemRemap img k i = .ok k') (hNew : (k.procs k.up).newtlb = true)
    (hProc : (k.uthreads i).proc = some p) :
    FrameKept img k k' i p ↔ (k.procs p).resident.length ≤ 16383 := by
  -- two words for each page and two more, on a stack of 128 KB
  have hRoom : FrameFits (k.procs p).resident.length ↔
      (k.procs p).resident.length ≤ 16383 := by
    unfold FrameFits UPSTKSZ
    omega
  rw [← hRoom]
  constructor
  · intro h
    exact (umemRemap_inside_iff hRun hNew hProc).mp h.inside
  · intro h
    refine ⟨(umemRemap_inside_iff hRun hNew hProc).mpr h, ?_⟩
    rcases umemRemap_built hRun with ⟨hOld, -⟩ | ⟨q, -, hq, hDiv⟩
    · rw [hNew] at hOld
      cases hOld
    · obtain rfl : p = q := Option.some.inj (hProc.symm.trans hq)
      have hPairs := framePairs_pushed img (k.host (k.uthreads i).upid).mem
        ((k.procs p).resident.map (mappingOf k.pages)) (by rwa [List.length_map])
      simp only [hDiv.thread, Function.update_self]
      rwa [List.length_map] at hPairs

/-- The frame of the two-page process is on its stack. -/
theorem frame_on_stack_two_pages :
    ∃ k', umemRemap smallImage (boundKernel twoPageProc) 0 = .ok k' ∧
      FrameKept smallImage (boundKernel twoPageProc) k' 0 0 := by
  obtain ⟨k', hRun⟩ := umemRemap_ok smallImage (k := boundKernel twoPageProc) (i := 0) (p := 0)
    rfl twoPageProc_remappable.noSwap
  have hFew : twoPageProc.resident.length ≤ 16383 := by decide +kernel
  exact ⟨k', hRun, (frame_on_stack_iff hRun rfl rfl).mpr hFew⟩

/-- A table all of whose slots are in use, the first by page `q`. -/
def fullTable (q : PageId) : Pte where
  pages := Vector.ofFn fun slot => some (.page (q + slot))
  first := 0
  last := PTEPERTAB - 1

/-- A process with 64 megabytes of resident data. -/
def largeProc : Proc where
  pid := 1
  newtlb := true
  seg := [some ⟨.data, (List.range 64).map fun j => some (fullTable (PTEPERTAB * j))⟩]

theorem length_ptePages_fullTable (type : SegType) (q : PageId) :
    (ptePages type (some (fullTable q))).length = PTEPERTAB := by
  have hList : (fullTable q).pages.toList =
      List.ofFn fun slot : Fin PTEPERTAB => some (PageEntry.page (q + slot)) := by
    simp [fullTable, Vector.ofFn]
  rw [ptePages, hList, List.length_flatMap, List.map_ofFn]
  -- every slot contributes one page
  have hOne : (fun e => ((entryPages e).map fun p => (type, p)).length) ∘
      (fun slot : Fin PTEPERTAB => some (PageEntry.page (q + slot))) = fun _ => 1 := rfl
  rw [hOne, List.ofFn_const, List.sum_replicate_nat, Nat.mul_one]

theorem length_largeProc_resident : largeProc.resident.length = 16384 := by
  have hSeg : largeProc.resident = (List.range 64).flatMap fun j =>
      ptePages .data (some (fullTable (PTEPERTAB * j))) := by
    simp [Proc.resident, largeProc, segPages, List.flatMap_map]
  simp [hSeg, List.length_flatMap, length_ptePages_fullTable, PTEPERTAB, PTEMAPMEM, BY2PG]

theorem largeProc_noSwap : NoSwap largeProc := by
  intro s hs t ht e he
  obtain rfl : s = _ := by simpa [largeProc] using hs
  obtain ⟨j, -, rfl⟩ : ∃ j, j < 64 ∧ fullTable (PTEPERTAB * j) = t := by simpa using ht
  obtain ⟨slot, rfl⟩ : ∃ slot : Fin PTEPERTAB,
      some (PageEntry.page (PTEPERTAB * j + slot)) = e := by
    simpa [fullTable, Vector.ofFn, List.mem_ofFn] using he
  rfl

/-- With 16384 resident pages a word of the frame is poked outside `upstk`. -/
theorem frame_leaves_stack :
    ∃ k', umemRemap smallImage (boundKernel largeProc) 0 = .ok k' ∧
      ∃ s ∈ (boundKernel largeProc).stores k', ¬ smallImage.OnStack s.1 := by
  obtain ⟨k', hRun⟩ := umemRemap_ok smallImage (k := boundKernel largeProc) (i := 0) (p := 0)
    rfl largeProc_noSwap
  refine ⟨k', hRun, ?_⟩
  have hOut : ¬ FrameFits largeProc.resident.length := by
    rw [length_largeProc_resident, FrameFits]
    decide
  by_contra hAll
  push Not at hAll
  exact hOut ((umemRemap_inside_iff hRun rfl (p := 0) rfl).mp hAll)

/-! ## The rights of a resident page -/

/-- The two words poked for resident page `j` name the page `r` and give it rights,
so that `host_mmap` maps the page. -/
def Described (k k' : Kernel) (j : Nat) (r : SegType × PageId) : Prop :=
  ∃ m : Word × Word, (k.stores k')[2 * j]?.map Prod.snd = some m.2 ∧
    (k.stores k')[2 * j + 1]?.map Prod.snd = some m.1 ∧
    m.1 &&& pageMask = (k.pages r.2).pa &&& pageMask ∧
    m.2 &&& pageMask = (k.pages r.2).va &&& pageMask ∧
    m.1 &&& 0x07 ≠ 0 ∧
    ∀ fd as, mapPair fd as m = as.mmap (m.2 &&& pageMask).toNat
      ((m.2 &&& 0xFFF) <<< 12).toNat (protOf (m.1 &&& 0x07)) fd
      ((m.1 &&& pageMask) - PHYSBASE).toNat

/-- The words of resident page `j` in the stores of a remap. -/
theorem umemRemap_stores_page {img : KernelImage} {k k' : Kernel} {i p j : Nat}
    {r : SegType × PageId} (hRun : umemRemap img k i = .ok k')
    (hNew : (k.procs k.up).newtlb = true) (hProc : (k.uthreads i).proc = some p)
    (hj : (k.procs p).resident[j]? = some r) :
    (k.stores k')[2 * j]?.map Prod.snd = some (mappingOf k.pages r).2 ∧
      (k.stores k')[2 * j + 1]?.map Prod.snd = some (mappingOf k.pages r).1 := by
  have hLt : j < (k.procs p).resident.length := (List.getElem?_eq_some_iff.mp hj).1
  have hPair := frameWords_getElem? ((k.procs p).resident.map (mappingOf k.pages)) j
  rw [List.getElem?_map, hj] at hPair
  rw [umemRemap_stores hRun hNew hProc, pushStores_getElem?, pushStores_getElem?, remapFrame,
    List.getElem?_append_left (by rw [length_frameWords, List.length_map]; omega),
    List.getElem?_append_left (by rw [length_frameWords, List.length_map]; omega),
    hPair.1, hPair.2]
  exact ⟨rfl, rfl⟩

/-- A resident page is described with rights when its segment has a type that
`umem_remap` knows. -/
theorem described_iff {img : KernelImage} {k k' : Kernel} {i p j : Nat} {r : SegType × PageId}
    (hRun : umemRemap img k i = .ok k') (hNew : (k.procs k.up).newtlb = true)
    (hProc : (k.uthreads i).proc = some p) (hj : (k.procs p).resident[j]? = some r) :
    Described k k' j r ↔ r.1.mapped = true := by
  obtain ⟨hVa, hPa⟩ := umemRemap_stores_page hRun hNew hProc hj
  have hRights := mappingOf_rights k.pages r
  constructor
  · rintro ⟨m, hm2, hm1, -, -, hSome, -⟩
    have hWord : m.1 = (mappingOf k.pages r).1 := Option.some.inj (hm1.symm.trans hPa)
    rwa [hWord, hRights, segperm_ne_zero_iff] at hSome
  · intro hType
    have hSome := (segperm_ne_zero_iff r.1).mpr hType
    refine ⟨mappingOf k.pages r, hVa, hPa, packed_and_pageMask (segperm_high r.1),
      packed_and_pageMask (by decide), by rwa [hRights], fun fd as => ?_⟩
    rw [mapPair, hostMmap, if_neg (by rwa [hRights])]

/-- **A remap gives access to the resident pages of text, data, bss and stack.**
Every resident page is described with rights, so that it is mapped and not unmapped,
exactly when no resident page is in a shared or physical segment. -/
theorem resident_described_iff {img : KernelImage} {k k' : Kernel} {i p : Nat}
    (hRun : umemRemap img k i = .ok k') (hNew : (k.procs k.up).newtlb = true)
    (hProc : (k.uthreads i).proc = some p) :
    (∀ j r, (k.procs p).resident[j]? = some r → Described k k' j r) ↔
      ∀ r ∈ (k.procs p).resident, r.1 ≠ .shared ∧ r.1 ≠ .physical := by
  have hType : ∀ type : SegType, type.mapped = true ↔ type ≠ .shared ∧ type ≠ .physical := by
    intro type
    cases type <;> simp [SegType.mapped]
  constructor
  · intro h r hr
    obtain ⟨j, hj⟩ := List.mem_iff_getElem?.mp hr
    exact (hType _).mp ((described_iff hRun hNew hProc hj).mp (h j r hj))
  · intro h j r hj
    exact (described_iff hRun hNew hProc hj).mpr ((hType _).mpr (h r (List.mem_of_getElem? hj)))

/-- Both pages of the two-page process are described with rights. -/
theorem resident_described_two_pages :
    ∃ k', umemRemap smallImage (boundKernel twoPageProc) 0 = .ok k' ∧
      ∀ j r, twoPageProc.resident[j]? = some r →
        Described (boundKernel twoPageProc) k' j r := by
  obtain ⟨k', hRun⟩ := umemRemap_ok smallImage (k := boundKernel twoPageProc) (i := 0) (p := 0)
    rfl twoPageProc_remappable.noSwap
  have hTypes : ∀ r ∈ twoPageProc.resident, r.1 ≠ .shared ∧ r.1 ≠ .physical := by
    decide +kernel
  exact ⟨k', hRun, (resident_described_iff hRun rfl (p := 0) rfl).mpr hTypes⟩

/-- A process with one page, in a shared segment. -/
def sharedProc : Proc where
  pid := 1
  newtlb := true
  seg := [some ⟨.shared, [some (soleEntry 0)]⟩]

/-- The page of a shared segment is listed without rights. -/
theorem shared_page_undescribed :
    ∃ k', umemRemap smallImage (boundKernel sharedProc) 0 = .ok k' ∧
      sharedProc.resident[0]? = some (.shared, 0) ∧
      ¬ Described (boundKernel sharedProc) k' 0 (.shared, 0) := by
  have hSwap : NoSwap sharedProc := by
    intro s hs t ht
    obtain rfl : s = _ := by simpa [sharedProc] using hs
    obtain rfl : t = _ := by simpa using ht
    decide +kernel
  have hSole : sharedProc.resident[0]? = some (.shared, 0) := by decide +kernel
  obtain ⟨k', hRun⟩ := umemRemap_ok smallImage (k := boundKernel sharedProc) (i := 0) (p := 0)
    rfl hSwap
  refine ⟨k', hRun, hSole, ?_⟩
  rw [described_iff hRun rfl (p := 0) rfl hSole]
  decide

end Glendum
