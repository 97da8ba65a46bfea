import Glendum.Uthread.Remap
import Mathlib.Data.List.Nodup

/-!
# Glendum — what a remapped thread sees

The user part of a thread's address space is the part below `ustktop`. A thread
is *covered* when every mapping of that part is on the list `do_maps` recorded,
so that the next `do_maps` removes it. A fresh thread is covered, every remap
keeps the thread covered, and after it the user part is an exact image of the
process that was remapped.

* `remapOnce_resident` — one remap of a covered thread, of any process;
* `remapOnce_exact` — one remap to a process with mapped segments only;
* `remap_run_exact` — any sequence of remaps of one thread.
-/

namespace Glendum

open Machine

/-! ## Mapping and unmapping single pages -/

/-- The mask of the pages is aligned. -/
theorem toNat_pageMask_mod (a : Word) : (a &&& pageMask).toNat % 4096 = 0 := by
  have hSum := congrArg BitVec.toNat (mask_add_offset a)
  have hLow := toNat_and_offset a
  rw [BitVec.toNat_add] at hSum
  omega

/-- A pair of length 1 unmaps one page. -/
theorem unmapPair_eq {fd : Int} {as : AddressSpace} {m : Word × Word}
    (hLen : m.2 &&& 0xFFF = 1) :
    unmapPair fd as m = Function.update as (pairPage m) none := by
  rw [unmapPair, hLen, hostMmap, if_pos rfl]
  exact AddressSpace.munmap_page (toNat_pageMask_mod m.2)

/-- Unmapping a recorded list removes exactly its pages. -/
theorem foldl_unmapPair {fd : Int} {ms : List (Word × Word)}
    (hLen : ∀ m ∈ ms, m.2 &&& 0xFFF = 1) (as : AddressSpace) (n : Nat) :
    ms.foldl (unmapPair fd) as n = if n ∈ ms.map pairPage then none else as n := by
  -- each entry of the record is one page
  have hFold : ms.foldl (unmapPair fd) as =
      as.mapPages ((ms.map pairPage).map fun k => (k, none)) := by
    induction ms generalizing as with
    | nil => rfl
    | cons m ms ih =>
      rw [List.foldl_cons, unmapPair_eq (hLen m (List.mem_cons_self ..)),
        ih (fun x hx => hLen x (List.mem_cons_of_mem _ hx))]
      rfl
  rw [hFold, AddressSpace.mapPages_none]

/-- Access rights of the user mappings of a segment. -/
def userProt : SegType → Prot
  | .text => { read := true, write := false, exec := true }
  | _ => { read := true, write := true, exec := false }

/-- The types of segment that `umem_remap` gives access to. -/
def SegType.mapped : SegType → Bool
  | .text | .data | .bss | .stack => true
  | .shared | .physical => false

/-- A page whose addresses the host accepts for a mapping. -/
structure Page.Placed (pg : Page) : Prop where
  va_aligned : pg.va.toNat % 4096 = 0
  va_user : pg.va.toNat < ustktop.toNat
  pa_aligned : pg.pa.toNat % 4096 = 0
  pa_base : PHYSBASE.toNat ≤ pg.pa.toNat

/-- The backing that a resident page should get. -/
def backingOf (fd : Int) (pages : PageId → Page) (r : SegType × PageId) : Backing :=
  { fd, off := (pages r.2).pa.toNat - PHYSBASE.toNat, prot := userProt r.1 }

/-- What stands at the place of a resident page after `do_maps`: nothing, when its
segment is of a type that gets no access. -/
def mappedTo (fd : Int) (pages : PageId → Page) (r : SegType × PageId) : Option Backing :=
  if r.1.mapped then some (backingOf fd pages r) else none

def pageOf (pages : PageId → Page) (r : SegType × PageId) : Nat := (pages r.2).va.toNat / 4096

/-- Every pair of the frame has the length 1. -/
theorem mappingOf_len (pages : PageId → Page) (r : SegType × PageId) :
    (mappingOf pages r).2 &&& 0xFFF = 1 :=
  packed_and_low (by decide) (by decide)

/-- The rights do not reach into the page number. -/
theorem segperm_high (type : SegType) : segperm type &&& pageMask = 0 := by
  cases type <;> decide

/-- A pair has the rights of its segment. -/
theorem mappingOf_rights (pages : PageId → Page) (r : SegType × PageId) :
    (mappingOf pages r).1 &&& 0x07 = segperm r.1 :=
  packed_and_low (by decide) (by cases r.1 <;> decide)

/-- The types without rights are the ones that `umem_remap` does not know. -/
theorem segperm_ne_zero_iff (type : SegType) : segperm type ≠ 0 ↔ type.mapped = true := by
  cases type <;> decide

/-- A pair is for the page of the address. -/
theorem pairPage_mappingOf {pages : PageId → Page} {r : SegType × PageId}
    (hVa : (pages r.2).va.toNat % 4096 = 0) :
    pairPage (mappingOf pages r) = pageOf pages r := by
  rw [pairPage, mappingOf, packed_and_pageMask (by decide), and_pageMask hVa, pageOf]

/-- What `do_maps` does with the pair of a page. -/
theorem mapPair_mappingOf {fd : Int} {as : AddressSpace} {pages : PageId → Page}
    {r : SegType × PageId} (hPg : (pages r.2).Placed) :
    mapPair fd as (mappingOf pages r) =
      Function.update as (pageOf pages r) (mappedTo fd pages r) := by
  obtain ⟨hVa, -, hPa, hBase⟩ := hPg
  -- the fields of the two words come apart again
  have hPaMask : (mappingOf pages r).1 &&& pageMask = (pages r.2).pa := by
    rw [mappingOf, packed_and_pageMask (segperm_high r.1), and_pageMask hPa]
  have hVaMask : (mappingOf pages r).2 &&& pageMask = (pages r.2).va := by
    rw [mappingOf, packed_and_pageMask (by decide), and_pageMask hVa]
  rw [mapPair, mappingOf_len, mappingOf_rights, hPaMask, hVaMask, hostMmap, mappedTo]
  by_cases hType : r.1.mapped = true
  · -- a mask of access rights maps the page to its place in the memory file
    have hOff : ((pages r.2).pa - PHYSBASE).toNat = (pages r.2).pa.toNat - PHYSBASE.toNat :=
      BitVec.toNat_sub_of_le hBase
    have hAligned : ((pages r.2).pa.toNat - PHYSBASE.toNat) % AddressSpace.pageSize = 0 := by
      rw [show PHYSBASE.toNat = 4096 from rfl] at *
      unfold AddressSpace.pageSize
      omega
    have hMap := AddressSpace.mmap_page as (userProt r.1) fd
      (show (pages r.2).va.toNat % AddressSpace.pageSize = 0 from hVa) hAligned
    have hNot : segperm r.1 ≠ 0 := (segperm_ne_zero_iff r.1).mpr hType
    have hProt : protOf (segperm r.1) = userProt r.1 := by
      revert hType
      cases r.1 <;> decide
    rw [if_neg hNot, hOff, if_pos hType, hProt]
    exact hMap
  · -- a mask of zero unmaps the place
    have hZero : segperm r.1 = 0 := by
      revert hType
      cases r.1 <;> decide
    rw [if_pos hZero, if_neg hType]
    exact AddressSpace.munmap_page hVa

/-! ## Processes that a thread can be remapped to -/

/-- The resident pages of a process are at distinct places the host accepts, and
not too many for the special stack. -/
structure Mappable (pages : PageId → Page) (p : Proc) : Prop where
  placed : ∀ r ∈ p.resident, (pages r.2).Placed
  distinct : (p.resident.map fun r => (pages r.2).va).Nodup
  fits : FrameFits p.resident.length

/-- The process of a remap: besides, everything is resident, on segments that are
mapped. -/
structure Remappable (pages : PageId → Page) (p : Proc) : Prop extends Mappable pages p where
  mapped : ∀ s, some s ∈ p.seg → s.type.mapped = true
  noSwap : NoSwap p

/-- The user part of `space` has at the place of every resident page of `p` what
`do_maps` puts there, and nothing at other places. -/
structure MapsResident (fd : Int) (space : AddressSpace) (pages : PageId → Page) (p : Proc) :
    Prop where
  complete : ∀ r ∈ p.resident, space (pageOf pages r) = mappedTo fd pages r
  only : ∀ n, n * 4096 < ustktop.toNat → space n ≠ none →
    ∃ r ∈ p.resident, (pages r.2).va.toNat = n * 4096

/-- The user part of `space` maps exactly the resident pages of `p`. -/
structure MapsExactly (fd : Int) (space : AddressSpace) (pages : PageId → Page) (p : Proc) :
    Prop where
  complete : ∀ r ∈ p.resident, space (pageOf pages r) = some (backingOf fd pages r)
  only : ∀ n, n * 4096 < ustktop.toNat → space n ≠ none →
    ∃ r ∈ p.resident, (pages r.2).va.toNat = n * 4096

/-- Every user mapping of the thread is on its recorded list. -/
structure UserSide.Covered (u : UserSide) : Prop where
  len : ∀ m ∈ u.record, m.2 &&& 0xFFF = 1
  user : ∀ n, n * 4096 < ustktop.toNat → u.space n ≠ none → n ∈ u.record.map pairPage

/-- A resident page has the type of its segment. -/
theorem mem_resident_mapped {p : Proc} (h : ∀ s, some s ∈ p.seg → s.type.mapped = true)
    {r : SegType × PageId} (hr : r ∈ p.resident) : r.1.mapped = true := by
  unfold Proc.resident at hr
  obtain ⟨s, hs, hr⟩ := List.mem_flatMap.mp hr
  cases s with
  | none => simp [segPages] at hr
  | some s =>
    obtain ⟨t, -, hr⟩ := List.mem_flatMap.mp hr
    cases t with
    | none => simp [ptePages] at hr
    | some t =>
      obtain ⟨e, -, hr⟩ := List.mem_flatMap.mp hr
      obtain ⟨q, -, rfl⟩ := List.mem_map.mp hr
      exact h s hs

/-- Distinct aligned addresses lie on distinct pages. -/
theorem nodup_pageOf {pages : PageId → Page} {rs : List (SegType × PageId)}
    (hPlaced : ∀ r ∈ rs, (pages r.2).Placed)
    (hVa : (rs.map fun r => (pages r.2).va).Nodup) : (rs.map (pageOf pages)).Nodup := by
  rw [List.Nodup, List.pairwise_map] at hVa ⊢
  -- the same page number and no offset are the same address
  refine hVa.imp_of_mem fun hr hr' hne heq => hne ?_
  have hA := (hPlaced _ hr).va_aligned
  have hA' := (hPlaced _ hr').va_aligned
  apply BitVec.eq_of_toNat_eq
  unfold pageOf at heq
  omega

/-- The mappings of pages that are placed, one after the other, as a list of page backings. -/
theorem foldl_mappingOf {fd : Int} {pages : PageId → Page} {rs : List (SegType × PageId)}
    (as : AddressSpace) (hPlaced : ∀ r ∈ rs, (pages r.2).Placed) :
    (rs.map (mappingOf pages)).foldl (mapPair fd) as =
      as.mapPages (rs.map fun r => (pageOf pages r, mappedTo fd pages r)) := by
  induction rs generalizing as with
  | nil => rfl
  | cons r rs ih =>
    rw [List.map_cons, List.foldl_cons, mapPair_mappingOf (hPlaced r (List.mem_cons_self ..)),
      ih _ fun x hx => hPlaced x (List.mem_cons_of_mem _ hx)]
    rfl

/-- The page numbers of these backings. -/
theorem map_fst_backings (fd : Int) (pages : PageId → Page) (rs : List (SegType × PageId)) :
    (rs.reverse.map fun r => (pageOf pages r, mappedTo fd pages r)).map Prod.fst =
      (rs.map (pageOf pages)).reverse := by
  rw [List.map_map, ← List.map_reverse]
  rfl

/-- `do_maps` on the frame of a process maps its resident pages into the user part of
a covered thread, unmaps the rest, and keeps the thread covered. -/
theorem doMaps_resident (img : KernelImage) {pages : PageId → Page} {p : Proc} {u : UserSide}
    {m : Memory} (hU : u.Covered) (hP : Mappable pages p) :
    let u' := doMaps u (m.pushWords img.frameTop (remapFrame pages p))
      (img.frameBottom p.resident.length)
    u'.Covered ∧ MapsResident u.memfd u'.space pages p := by
  set ms := p.resident.map (mappingOf pages) with hms
  have hLenMs : ms.length = p.resident.length := by simp [hms]
  have hPairs : framePairs (m.pushWords img.frameTop (remapFrame pages p))
      (img.frameBottom p.resident.length) = (p.resident.reverse).map (mappingOf pages) := by
    rw [List.map_reverse, ← hms, remapFrame, ← hms, ← hLenMs]
    exact framePairs_pushed _ _ _ (by rw [hLenMs]; exact hP.fits)
  have hPlaced : ∀ r ∈ p.resident.reverse, (pages r.2).Placed := fun r hr =>
    hP.placed r (List.mem_reverse.mp hr)
  have hSpace := doMaps_space u (m.pushWords img.frameTop (remapFrame pages p))
    (img.frameBottom p.resident.length)
  rw [hPairs, foldl_mappingOf _ hPlaced] at hSpace
  -- no page occurs twice among them
  have hKeys := map_fst_backings u.memfd pages p.resident
  have hNodup : ((p.resident.reverse.map fun r =>
      (pageOf pages r, mappedTo u.memfd pages r)).map Prod.fst).Nodup := by
    rw [hKeys, List.nodup_reverse]
    exact nodup_pageOf hP.placed hP.distinct
  -- a user page that is not mapped anew was unmapped with the old record
  have hOnly : ∀ n, n * 4096 < ustktop.toNat →
      (doMaps u (m.pushWords img.frameTop (remapFrame pages p))
        (img.frameBottom p.resident.length)).space n ≠ none →
      n ∈ p.resident.map (pageOf pages) := by
    intro n hn hMap
    by_contra hOut
    rw [hSpace, AddressSpace.mapPages_of_not_mem (by rw [hKeys, List.mem_reverse]; exact hOut),
      foldl_unmapPair hU.len] at hMap
    split at hMap
    · exact hMap rfl
    · next hNot => exact hNot (hU.user n hn hMap)
  refine ⟨⟨?_, ?_⟩, ?_, ?_⟩
  · -- the new record has one page in each of its entries …
    intro x hx
    rw [doMaps_record, hPairs] at hx
    obtain ⟨r, -, rfl⟩ := List.mem_map.mp hx
    exact mappingOf_len pages r
  · -- … and covers what is mapped now
    intro n hn hMap
    obtain ⟨r, hr, rfl⟩ := List.mem_map.mp (hOnly n hn hMap)
    rw [doMaps_record, hPairs, List.map_map, List.mem_map]
    exact ⟨r, List.mem_reverse.mpr hr, pairPage_mappingOf (hP.placed r hr).va_aligned⟩
  · intro r hr
    rw [hSpace]
    exact AddressSpace.mapPages_of_mem hNodup
      (List.mem_map.mpr ⟨r, List.mem_reverse.mpr hr, rfl⟩)
  · intro n hn hMap
    obtain ⟨r, hr, rfl⟩ := List.mem_map.mp (hOnly n hn hMap)
    refine ⟨r, hr, ?_⟩
    have hA := (hP.placed r hr).va_aligned
    unfold pageOf
    omega

/-- For a process with mapped segments only, that is an exact image. -/
theorem MapsResident.exact {fd : Int} {space : AddressSpace} {pages : PageId → Page} {p : Proc}
    (h : MapsResident fd space pages p) (hP : Remappable pages p) :
    MapsExactly fd space pages p where
  complete r hr := by
    rw [h.complete r hr, mappedTo, if_pos (mem_resident_mapped hP.mapped hr)]
  only := h.only

/-! ## Runs of remaps -/

/-- One remap of user thread `i`: `umem_remap` in the kernel state `k`, then
`do_maps` in the thread, on the stack image it was given. -/
def remapOnce (img : KernelImage) (i : Nat) (u : UserSide) (k : Kernel) :
    Except Fault UserSide :=
  match umemRemap img k i with
  | .error e => .error e
  | .ok k' =>
    let t := k'.host (k.uthreads i).upid
    .ok (doMaps u t.mem t.regs.esp)

/-- Kernel states in which thread `i` is bound to a remappable process and has
a remap pending. -/
structure RemapDue (i : Nat) (k : Kernel) : Prop where
  newtlb : (k.procs k.up).newtlb = true
  bound : ∃ p, (k.uthreads i).proc = some p ∧ Remappable k.pages (k.procs p)

/-- The thread as `uthread_main` leaves it: nothing recorded, nothing mapped for
user code. -/
structure UserSide.Fresh (u : UserSide) : Prop where
  curmap : u.curmap = none
  curmlen : u.curmlen = 0
  user : ∀ n, n * 4096 < ustktop.toNat → u.space n = none

/-- A thread that never mapped anything has a record that covers it. -/
theorem UserSide.Fresh.covered {u : UserSide} (h : u.Fresh) : u.Covered where
  len := by simp [UserSide.record, h.curmap]
  user := fun n hn hMap => absurd (h.user n hn) hMap

/-- A remap of a covered thread that completes. -/
theorem remapOnce_resident {img : KernelImage} {i p : Nat} {k : Kernel} {u u' : UserSide}
    (hU : u.Covered) (hRun : remapOnce img i u k = .ok u')
    (hDue : (k.procs k.up).newtlb = true) (hProc : (k.uthreads i).proc = some p)
    (hP : Mappable k.pages (k.procs p)) :
    u'.memfd = u.memfd ∧ u'.Covered ∧ MapsResident u.memfd u'.space k.pages (k.procs p) := by
  unfold remapOnce at hRun
  cases hk' : umemRemap img k i with
  | error e => simp [hk'] at hRun
  | ok k' =>
    rcases umemRemap_built hk' with ⟨hOld, -⟩ | ⟨q, -, hq, hDiv⟩
    · rw [hDue] at hOld
      cases hOld
    · -- the thread was diverted onto the frame of its process
      obtain rfl : p = q := Option.some.inj (hProc.symm.trans hq)
      simp only [hk', hDiv.thread, Function.update_self, Except.ok.injEq] at hRun
      subst hRun
      have hMaps := doMaps_resident img (m := (k.host (k.uthreads i).upid).mem) hU hP
      exact ⟨doMaps_memfd u _ _, hMaps.1, hMaps.2⟩

/-- One remap of a covered thread. -/
theorem remapOnce_exact (img : KernelImage) {i : Nat} {k : Kernel} {u : UserSide}
    (hU : u.Covered) (hK : RemapDue i k) :
    ∃ u', remapOnce img i u k = .ok u' ∧ u'.memfd = u.memfd ∧ u'.Covered ∧
      ∀ p, (k.uthreads i).proc = some p →
        MapsExactly u.memfd u'.space k.pages (k.procs p) := by
  obtain ⟨p, hProc, hP⟩ := hK.bound
  obtain ⟨k', hk'⟩ := umemRemap_ok img hProc hP.noSwap
  have hRun : remapOnce img i u k = .ok (doMaps u (k'.host (k.uthreads i).upid).mem
      (k'.host (k.uthreads i).upid).regs.esp) := by
    simp only [remapOnce, hk']
  obtain ⟨hFd, hCov, hMaps⟩ := remapOnce_resident hU hRun hK.newtlb hProc hP.toMappable
  refine ⟨_, hRun, hFd, hCov, ?_⟩
  intro p' hp'
  obtain rfl : p' = p := Option.some.inj (hp'.symm.trans hProc)
  exact hMaps.exact hP

/-- A thread that is remapped any number of times stays covered. -/
theorem remaps_covered (img : KernelImage) {i : Nat} {ks : List Kernel} {u : UserSide}
    (hU : u.Covered) (hDue : ∀ k ∈ ks, RemapDue i k) :
    ∃ u', ks.foldlM (remapOnce img i) u = .ok u' ∧ u'.Covered ∧ u'.memfd = u.memfd := by
  induction ks generalizing u with
  | nil => exact ⟨u, rfl, hU, rfl⟩
  | cons k ks ih =>
    obtain ⟨u1, hOk, hFd, hU1, -⟩ := remapOnce_exact img hU (hDue k (List.mem_cons_self ..))
    obtain ⟨u', hRun, hU', hFd'⟩ := ih hU1 fun x hx => hDue x (List.mem_cons_of_mem _ hx)
    refine ⟨u', ?_, hU', hFd'.trans hFd⟩
    rw [List.foldlM_cons, hOk]
    exact hRun

/-- **Remapping is faithful over whole runs.** Whatever sequence of processes a
fresh user thread is remapped to, every remap completes, and after the last one
the user part of its address space maps exactly the resident pages of the
process remapped last. -/
theorem remap_run_exact (img : KernelImage) (i : Nat) (u : UserSide) (ks : List Kernel)
    (k : Kernel) (hFresh : u.Fresh) (hDue : ∀ k' ∈ ks ++ [k], RemapDue i k') :
    ∃ u', (ks ++ [k]).foldlM (remapOnce img i) u = .ok u' ∧
      ∀ p, (k.uthreads i).proc = some p →
        MapsExactly u.memfd u'.space k.pages (k.procs p) := by
  -- the thread stays covered through the remaps before the last one
  obtain ⟨u1, hOk, hU1, hFd⟩ := remaps_covered img hFresh.covered fun x hx =>
    hDue x (List.mem_append_left _ hx)
  obtain ⟨u', hLast, -, -, hExact⟩ := remapOnce_exact img hU1
    (hDue k (List.mem_append_right _ (List.mem_singleton_self k)))
  refine ⟨u', ?_, ?_⟩
  · rw [List.foldlM_append, hOk]
    simp only [bind, Except.bind, List.foldlM_cons, List.foldlM_nil, hLast]
    rfl
  · rw [← hFd]
    exact hExact

/-! ## A process with one text page and one data page -/

def soleEntry (q : PageId) : Pte where
  pages := (Vector.replicate PTEPERTAB none).set 0 (some (.page q)) (by decide)
  first := 0
  last := 0

def twoPageProc : Proc where
  pid := 1
  newtlb := true
  seg := [some ⟨.text, [some (soleEntry 0)]⟩, none, some ⟨.data, [none, some (soleEntry 1)]⟩]

/-- Page `q` at virtual page `q + 1` and physical page `q + 3`. -/
def lowPages (q : PageId) : Page where
  pa := BitVec.ofNat 32 (4096 * (q + 3))
  va := BitVec.ofNat 32 (4096 * (q + 1))

def smallImage : KernelImage where
  upstk := 0x80200000
  doMaps := 0x80100400
  upstk_fits := by decide

/-- Thread 0 bound to `p`, which is the current process. -/
def boundKernel (p : Proc) : Kernel where
  uthreads := fun i => { uthreadinit [100, 101] i with proc := if i = 0 then some 0 else none }
  actthreads := MINUTHREAD
  procs := fun _ => p
  up := 0
  pages := lowPages
  host := fun _ => { regs := { eip := UTZERO + 32 }, mem := fun _ => 0 }

theorem twoPageProc_resident : twoPageProc.resident = [(.text, 0), (.data, 1)] := by
  decide +kernel

theorem twoPageProc_remappable : Remappable lowPages twoPageProc where
  mapped := by
    intro s hs
    simp only [twoPageProc, List.mem_cons, Option.some.injEq, List.not_mem_nil, or_false,
      reduceCtorEq, false_or] at hs
    rcases hs with rfl | rfl <;> rfl
  noSwap := by
    intro s hs t ht
    simp only [twoPageProc, List.mem_cons, Option.some.injEq, List.not_mem_nil, or_false,
      reduceCtorEq, false_or] at hs
    rcases hs with rfl | rfl <;>
      (simp only [List.mem_cons, Option.some.injEq, List.not_mem_nil, or_false,
        reduceCtorEq, false_or] at ht
       subst ht
       decide +kernel)
  placed := by
    rw [twoPageProc_resident]
    intro r hr
    simp only [List.mem_cons, List.not_mem_nil, or_false] at hr
    rcases hr with rfl | rfl <;> exact ⟨by decide, by decide, by decide, by decide⟩
  distinct := by
    rw [twoPageProc_resident]
    decide
  fits := by
    rw [twoPageProc_resident, FrameFits]
    decide

/-- Two remaps of a fresh thread to the same two-page process. -/
theorem remap_run_exact_two_pages :
    ∃ u', [boundKernel twoPageProc, boundKernel twoPageProc].foldlM (remapOnce smallImage 0)
        { memfd := 3, space := fun _ => none } = .ok u' ∧
      ∀ p, ((boundKernel twoPageProc).uthreads 0).proc = some p →
        MapsExactly 3 u'.space lowPages ((boundKernel twoPageProc).procs p) :=
  remap_run_exact smallImage 0 { memfd := 3, space := fun _ => none } [boundKernel twoPageProc]
    (boundKernel twoPageProc) ⟨rfl, rfl, fun _ _ => rfl⟩
    (by
      intro k hk
      have hk' : k = boundKernel twoPageProc := by simpa using hk
      subst hk'
      exact ⟨rfl, 0, rfl, twoPageProc_remappable⟩)

end Glendum
