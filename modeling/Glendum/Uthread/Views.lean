import Glendum.Kernel.PageBytes
import Glendum.Uthread.RemapExact
import Glendum.Host.Physmem

/-!
# Glendum — the views of a page

A page of the allocator is seen by the kernel at `tmpmap(p)`, which is its physical
address, and by a user thread wherever `umem_remap` and `do_maps` have mapped it. Both
are mappings of the memory file: `physmem` maps the whole file at `PHYSBASE` for the
kernel, `pageinit` numbers the pages from the address that `hostmem` reports, and
`host_mmap` takes `PHYSBASE` off again to find the place in the file.

* `pageinit_places`, `calls_places` — where a page is, after `pageinit` and after any calls;
* `doMaps_page` — a page that `do_maps` maps shows its own bytes of the file;
* `resident_maps` — it maps every resident page, at whose place no earlier one stands;
* `views_agree` — all views of a page agree, and pages do not share a byte.
-/

namespace Glendum

open Machine Lists

/-- A page is in the kernel's address space already. -/
def tmpmap (p : Page) : Word := p.pa

/-! ## Where the pages are -/

/-- A call of the allocator that completes. -/
def PoolCall (P : Port) (k k' : Palloc) : Prop := ∃ op r, k.step P op = .ok (r, k')

/-- `pageinit` lays the pages out one after the other. -/
theorem pageinit_places {pm : Pallocmem} {mem : Memory} {k : Palloc}
    (h : pageinit [pm] mem = .ok k) :
    k.user = pm.npage ∧ ∀ p < pm.npage, (k.pages p).pa = pm.base + BitVec.ofNat 32 (p * BY2PG) := by
  have hPages : banksPages [pm] 0 = bankPages pm 0 := List.append_nil _
  unfold pageinit at h
  simp only [hPages] at h
  split at h
  · cases h
  · cases h
    refine ⟨by simp [chainPages, bankPages], fun p hp => ?_⟩
    change ((bankPages pm 0).getD p _).pa = _
    rw [bankPages, List.getD_eq_getElem?_getD, List.getElem?_map, List.getElem?_range hp,
      Option.map_some, Option.getD_some]

/-- Calls of the allocator leave them there. -/
theorem calls_places {P : Port} {k k' : Palloc} (h : Relation.ReflTransGen (PoolCall P) k k') :
    SamePlaces k k' := by
  induction h with
  | refl => exact fun _ => rfl
  | tail _ hCall ih =>
    obtain ⟨op, r, hStep⟩ := hCall
    exact ih.trans (step_places hStep)

/-- The pages of the memory file: page `p` is `p` pages behind `PHYSBASE`, inside the
memory. -/
structure InFile (pg : Page) (p : Nat) : Prop where
  pa     : pg.pa.toNat = PHYSBASE.toNat + p * BY2PG
  inside : p < NPAGE

/-- So every page has its place in the memory file. -/
theorem hostBank_inFile {b : BootMem} (hReady : b.Ready) {P : Port} {mem : Memory} {k0 k : Palloc}
    (hInit : pageinit [b.bank] mem = .ok k0) (hCalls : Relation.ReflTransGen (PoolCall P) k0 k)
    {p : Nat} (hp : p < k0.user) : InFile (k.pages p) p := by
  obtain ⟨hUser, hPa⟩ := pageinit_places hInit
  rw [hUser] at hp
  have hPlace := (calls_places hCalls p).trans (hPa p hp)
  rw [hReady.bank] at hp hPlace
  refine ⟨?_, hp⟩
  -- the last page ends far below the end of the address space
  have hSmall : p < 65536 := hp
  rw [hPlace, BitVec.toNat_add, BitVec.toNat_ofNat]
  change (4096 + p * 4096 % 2 ^ 32) % 2 ^ 32 = 4096 + p * 4096
  omega

/-- The kernel's view: the bytes of page `p` are the `p`-th page of the memory file. -/
theorem BootMem.Ready.tmpmapByte {b : BootMem} (hReady : b.Ready) {pg : Page} {p : Nat}
    (hPage : InFile pg p) {o : Nat} (ho : o < BY2PG) :
    b.kernelByte ((tmpmap pg).toNat + o) = some (physmemPath, p * BY2PG + o) ∧
      p * BY2PG + o < PHYSMEM := by
  have hEnd : p * BY2PG + o < PHYSMEM := by
    have hInside := hPage.inside
    unfold NPAGE PHYSMEM BY2PG at *
    omega
  refine ⟨?_, hEnd⟩
  rw [tmpmap, hPage.pa, hReady.kernelByte (by omega) (by omega),
    show PHYSBASE.toNat + p * BY2PG + o - PHYSBASE.toNat = p * BY2PG + o by omega]

/-! ## What `do_maps` maps -/

/-- The call of `host_mmap` for the pair `m` is about the address `va`. -/
def Covers (m : Word × Word) (va : Word) : Prop :=
  AddressSpace.InRange (m.2 &&& pageMask).toNat ((m.2 &&& 0xFFF) <<< 12).toNat
    (va.toNat / AddressSpace.pageSize)

/-- A pair for other pages leaves this one alone. -/
theorem mapPair_of_not_covers {fd : Int} {as : AddressSpace} {m : Word × Word} {va : Word}
    (h : ¬ Covers m va) :
    mapPair fd as m (va.toNat / AddressSpace.pageSize) = as (va.toNat / AddressSpace.pageSize) := by
  unfold mapPair hostMmap
  split
  · exact AddressSpace.munmap_of_not_inRange h
  · exact AddressSpace.mmap_of_not_inRange _ _ h

/-- So do many of them. -/
theorem foldl_mapPair_of_not_covers (fd : Int) {va : Word} {ms : List (Word × Word)}
    (h : ∀ m ∈ ms, ¬ Covers m va) (as : AddressSpace) :
    ms.foldl (mapPair fd) as (va.toNat / AddressSpace.pageSize) =
      as (va.toNat / AddressSpace.pageSize) := by
  induction ms generalizing as with
  | nil => rfl
  | cons m ms ih =>
    rw [List.foldl_cons, ih (fun x hx => h x (List.mem_cons_of_mem _ hx)),
      mapPair_of_not_covers (h m (List.mem_cons_self ..))]

/-- The pair of a page of the file maps its bytes. -/
theorem mapPair_fileByte {fd : Int} {as : AddressSpace} {pages : PageId → Page} {type : SegType}
    {p : Nat} (hPage : InFile (pages p) p) (hType : type.mapped = true) {o : Nat} (ho : o < BY2PG) :
    (mapPair fd as (mappingOf pages (type, p))).fileByte (((pages p).va &&& pageMask).toNat + o) =
      some (fd, p * BY2PG + o) := by
  have hHigh : segperm type &&& pageMask = 0 := by cases type <;> decide
  have hLow : (mappingOf pages (type, p)).1 &&& 0x07 = segperm type :=
    packed_and_low (p := segperm type) (by decide) (by cases type <;> decide)
  have hNot : segperm type ≠ 0 := by
    intro h0
    revert hType h0
    cases type <;> decide
  -- the address of the page has no low bits to lose
  have hPa := hPage.pa
  rw [show PHYSBASE.toNat = 4096 from rfl, show BY2PG = 4096 from rfl] at hPa
  have hPaMask : (mappingOf pages (type, p)).1 &&& pageMask = (pages p).pa := by
    rw [mappingOf, packed_and_pageMask hHigh]
    exact and_pageMask (a := (pages p).pa) (by omega)
  have hVaMask : (mappingOf pages (type, p)).2 &&& pageMask = (pages p).va &&& pageMask := by
    rw [mappingOf, packed_and_pageMask (by decide)]
  -- and its place in the file is its own number of pages
  have hOff : ((pages p).pa - PHYSBASE).toNat = p * 4096 := by
    rw [BitVec.toNat_sub_of_le (show PHYSBASE ≤ (pages p).pa from by
      rw [BitVec.le_def, show PHYSBASE.toNat = 4096 from rfl]; omega),
      show PHYSBASE.toNat = 4096 from rfl]
    omega
  rw [mapPair, mappingOf_len, hLow, hPaMask, hVaMask, hostMmap, if_neg hNot, hOff,
    show ((1 : Word) <<< 12).toNat = BY2PG from rfl, AddressSpace.mmap_fileByte _ _ _ ⟨toNat_pageMask_mod _, by decide⟩
      (show p * 4096 % 4096 = 0 from Nat.mul_mod_left ..) (Nat.le_add_right ..) (Nat.add_lt_add_left ho _), Nat.add_sub_cancel_left]
  rfl

/-- `umem_remap` in the state `k`, with the `do_maps` of the thread `i` after it, maps
the page `p` at `va`: among the calls of `do_maps` there is one for the page, and no
later one is about the same address. -/
structure RemapMaps (img : KernelImage) (i : Nat) (k k' : Kernel) (p : PageId) (va : Word) :
    Prop where
  newtlb : (k.procs k.up).newtlb = true
  call   : umemRemap img k i = .ok k'
  va_eq  : va = (k.pages p).va &&& pageMask
  mapped : ∃ type before after, type.mapped = true ∧
    framePairs (k'.host (k.uthreads i).upid).mem (k'.host (k.uthreads i).upid).regs.esp =
      before ++ mappingOf k.pages (type, p) :: after ∧
    ∀ m ∈ after, ¬ Covers m va

/-- The thread's view: wherever a page of the file is mapped, the bytes are its own. -/
theorem doMaps_page {img : KernelImage} {i : Nat} {k k' : Kernel} {p : PageId} {va : Word}
    {u u' : UserSide} (hMaps : RemapMaps img i k k' p va) (hRun : remapOnce img i u k = .ok u')
    (hPage : InFile (k.pages p) p) {o : Nat} (ho : o < BY2PG) :
    u'.space.fileByte (va.toNat + o) = some (u.memfd, p * BY2PG + o) := by
  obtain ⟨-, hCall, rfl, type, before, after, hType, hFrame, hAfter⟩ := hMaps
  simp only [remapOnce, hCall, Except.ok.injEq] at hRun
  subst hRun
  -- all bytes of the page are on one page of the address space
  have hSamePage : (((k.pages p).va &&& pageMask).toNat + o) / AddressSpace.pageSize =
      ((k.pages p).va &&& pageMask).toNat / AddressSpace.pageSize := by
    have hAligned := toNat_pageMask_mod (k.pages p).va
    unfold AddressSpace.pageSize BY2PG at *
    omega
  rw [doMaps_space, hFrame, List.foldl_append, List.foldl_cons]
  -- the calls after the page's own do not touch it
  generalize before.foldl (mapPair u.memfd) (u.record.foldl (unmapPair u.memfd) u.space) = as
  have hKept := foldl_mapPair_of_not_covers u.memfd hAfter
    (mapPair u.memfd as (mappingOf k.pages (type, p)))
  rw [← hSamePage] at hKept
  rw [AddressSpace.fileByte_congr hKept]
  exact mapPair_fileByte hPage hType ho

/-- When the frame fits the special stack, every resident page of a mapped segment is
mapped, if the loops of `umem_remap` have found no other page at its place before. -/
theorem resident_maps {img : KernelImage} {i q : Nat} {k k' : Kernel} {p : PageId} {type : SegType}
    {before after : List (SegType × PageId)} (hNew : (k.procs k.up).newtlb = true)
    (hCall : umemRemap img k i = .ok k') (hProc : (k.uthreads i).proc = some q)
    (hFits : FrameFits (k.procs q).resident.length) (hType : type.mapped = true)
    (hResident : (k.procs q).resident = before ++ (type, p) :: after)
    (hFirst : ∀ r ∈ before, (k.pages r.2).va &&& pageMask ≠ (k.pages p).va &&& pageMask) :
    RemapMaps img i k k' p ((k.pages p).va &&& pageMask) := by
  rcases umemRemap_built hCall with ⟨hOld, -⟩ | ⟨q', -, hProc', hDiv⟩
  · rw [hNew] at hOld
    cases hOld
  obtain rfl : q = q' := Option.some.inj (hProc.symm.trans hProc')
  have hLength : FrameFits ((k.procs q).resident.map (mappingOf k.pages)).length := by
    rwa [List.length_map]
  have hPairs := framePairs_pushed img (k.host (k.uthreads i).upid).mem _ hLength
  rw [List.length_map] at hPairs
  refine ⟨hNew, hCall, rfl, type, (after.map (mappingOf k.pages)).reverse,
    (before.map (mappingOf k.pages)).reverse, hType, ?_, ?_⟩
  · rw [hDiv.thread, Function.update_self]
    refine hPairs.trans ?_
    rw [hResident, List.map_append, List.map_cons, List.reverse_append, List.reverse_cons,
      List.append_assoc]
    rfl
  · -- `do_maps` reads the frame backwards: the pages found before come after
    intro m hm hCovers
    obtain ⟨r, hr, rfl⟩ := List.mem_map.mp (List.mem_reverse.mp hm)
    refine hFirst r hr ?_
    have hVaMask : (mappingOf k.pages r).2 &&& pageMask = (k.pages r.2).va &&& pageMask := by
      rw [mappingOf, packed_and_pageMask (by decide)]
    rw [Covers, mappingOf_len, hVaMask, show ((1 : Word) <<< 12).toNat = AddressSpace.pageSize from rfl,
      AddressSpace.inRange_page (toNat_pageMask_mod _)] at hCovers
    have hAligned := toNat_pageMask_mod (k.pages r.2).va
    have hAligned' := toNat_pageMask_mod (k.pages p).va
    apply BitVec.eq_of_toNat_eq
    unfold AddressSpace.pageSize at hCovers
    omega

/-! ## All views agree -/

/-- In every state of the allocator after the start: the bytes of a page in the address
space of a user thread, wherever it was mapped there, are those the kernel finds at
`tmpmap`; different pages have no byte in common; and their bytes lie inside the memory
file. -/
theorem views_agree {openFd : Int} {c : PhysmemCalls} {h : HostMem} {b : BootMem}
    (hBoot : bootMem openFd c h = .ok b) {P : Port} {mem : Memory} {k0 pool : Palloc}
    (hInit : pageinit [b.bank] mem = .ok k0)
    (hCalls : Relation.ReflTransGen (PoolCall P) k0 pool) :
    (∀ (img : KernelImage) (i : Nat) (k k' : Kernel) (u u' : UserSide) (p : PageId) (va : Word),
      (∀ q < k0.user, (k.pages q).pa = (pool.pages q).pa) → u.memfd = b.memfd → p < k0.user →
      RemapMaps img i k k' p va → remapOnce img i u k = .ok u' →
      ∀ o < BY2PG, b.threadByte u' (va.toNat + o) =
        b.kernelByte ((tmpmap (pool.pages p)).toNat + o)) ∧
    (∀ p < k0.user, ∀ q < k0.user, ∀ o < BY2PG, ∀ o' < BY2PG,
      b.kernelByte ((tmpmap (pool.pages p)).toNat + o) =
        b.kernelByte ((tmpmap (pool.pages q)).toNat + o') → p = q ∧ o = o') ∧
    (∀ p < k0.user, ∀ o < BY2PG, ∃ off,
      b.kernelByte ((tmpmap (pool.pages p)).toNat + o) = some (physmemPath, off) ∧
        off < PHYSMEM ∧ off < b.host.size physmemPath) := by
  have hReady := bootMem_spec hBoot
  have hByte : ∀ p < k0.user, ∀ o < BY2PG,
      b.kernelByte ((tmpmap (pool.pages p)).toNat + o) = some (physmemPath, p * BY2PG + o) ∧
        p * BY2PG + o < PHYSMEM := fun p hp o ho =>
    hReady.tmpmapByte (hostBank_inFile hReady hInit hCalls hp) ho
  refine ⟨?_, ?_, ?_⟩
  · intro img i k k' u u' p va hPages hFd hp hMaps hRun o ho
    have hInFile := hostBank_inFile hReady hInit hCalls hp
    -- the kernel that remaps has the pages of the allocator
    have hPage : InFile (k.pages p) p := ⟨by rw [hPages p hp, hInFile.pa], hInFile.inside⟩
    have hThread := doMaps_page hMaps hRun hPage ho
    rw [hFd] at hThread
    rw [(hByte p hp o ho).1, hReady.threadByte hThread]
  · intro p hp q hq o ho o' ho' hSame
    rw [(hByte p hp o ho).1, (hByte q hq o' ho').1, Option.some.injEq, Prod.mk.injEq] at hSame
    have hOff := hSame.2
    unfold BY2PG at *
    omega
  · intro p hp o ho
    obtain ⟨hAt, hInside⟩ := hByte p hp o ho
    exact ⟨_, hAt, hInside, hInside.trans hReady.extended⟩

/-! ## A thread with two pages -/

def blankHost : HostMem where
  memfd := -1
  fds _ := none
  size _ := 0
  space _ := none

def allWell : PhysmemCalls := { openFd := -1, lseek := true, write := true, mmap := true }

/-- The pool that the host's bank gives. -/
def hostPool : Palloc := chainPages (banksPages [{ base := PHYSBASE, npage := NPAGE }] 0) fun _ => 0

theorem hostPool_pageinit : pageinit [{ base := PHYSBASE, npage := NPAGE }] (fun _ => 0) =
    .ok hostPool := by
  have hPos : (banksPages [{ base := PHYSBASE, npage := NPAGE }] 0).length ≠ 0 := by
    rw [length_banksPages]
    decide
  rw [pageinit, if_neg hPos, hostPool]

def Page.setVa (pg : Page) (va : Word) : Page := { pg with va }

theorem Page.setVa_pa (pg : Page) (va : Word) : (pg.setVa va).pa = pg.pa := rfl

theorem Page.setVa_va (pg : Page) (va : Word) : (pg.setVa va).va = va := rfl

/-- The two-page process in a pool, with page `q` at virtual page `q + 5`. -/
def poolKernel (pool : Palloc) : Kernel :=
  { boundKernel twoPageProc with
    pages := fun q => (pool.pages q).setVa (BitVec.ofNat 32 (4096 * (q + 5))) }

theorem poolKernel_pa (pool : Palloc) (q : PageId) :
    ((poolKernel pool).pages q).pa = (pool.pages q).pa := by
  simp only [poolKernel, Page.setVa_pa]

theorem poolKernel_maps (pool : Palloc) :
    ∃ k', RemapMaps smallImage 0 (poolKernel pool) k' 1 0x6000 := by
  obtain ⟨k', hCall⟩ := umemRemap_ok smallImage (k := poolKernel pool) (i := 0) (p := 0) rfl
    twoPageProc_remappable.noSwap
  have hFits : FrameFits twoPageProc.resident.length := twoPageProc_remappable.fits
  have hResident : twoPageProc.resident = [(.text, 0)] ++ (.data, 1) :: [] := twoPageProc_resident
  have hAt : ((poolKernel pool).pages 1).va &&& pageMask = 0x6000 := by
    simp only [poolKernel, Page.setVa_va]
    decide
  refine ⟨k', hAt ▸ resident_maps rfl hCall rfl hFits rfl hResident ?_⟩
  intro r hr
  rw [hAt, List.mem_singleton.mp hr]
  simp only [poolKernel, Page.setVa_va]
  decide

/-- Page 1 is mapped into a fresh thread. -/
theorem views_agree_two_pages : ∃ b u',
    bootMem 3 allWell blankHost = .ok b ∧
    remapOnce smallImage 0 { memfd := 3, space := fun _ => none } (poolKernel hostPool) = .ok u' ∧
    ∀ o < BY2PG, b.threadByte u' (0x6000 + o) =
      b.kernelByte ((tmpmap (hostPool.pages 1)).toNat + o) := by
  obtain ⟨b, hBoot⟩ : ∃ b, bootMem 3 allWell blankHost = .ok b := ⟨_, rfl⟩
  have hReady := bootMem_spec hBoot
  have hFd : b.memfd = 3 := by
    cases hBoot
    rfl
  have hInit : pageinit [b.bank] (fun _ => 0) = .ok hostPool := by
    rw [hReady.bank]
    exact hostPool_pageinit
  have hUser : (1 : PageId) < hostPool.user := by
    rw [(pageinit_places hInit).1, hReady.bank]
    decide
  obtain ⟨k', hMaps⟩ := poolKernel_maps hostPool
  obtain ⟨u', hRun⟩ : ∃ u', remapOnce smallImage 0 { memfd := 3, space := fun _ => none }
      (poolKernel hostPool) = .ok u' := by
    simp only [remapOnce, hMaps.call]
    exact ⟨_, rfl⟩
  have hViews := views_agree (P := smallPort) hBoot hInit .refl
  exact ⟨b, u', hBoot, hRun, hViews.1 smallImage 0 _ k' _ u' 1 0x6000
    (fun q _ => poolKernel_pa hostPool q) hFd.symm hUser hMaps hRun⟩

end Glendum
