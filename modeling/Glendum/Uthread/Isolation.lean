import Glendum.Kernel.PageRun
import Glendum.Uthread.RemapExact

/-!
# Glendum — copy on write after a remap

A page that `ptecpy` has given to a second segment, or that is cached for an image,
is shared: a store to it is seen elsewhere. `umem_remap` chooses the rights of a
page by the type of its segment alone, so a shared page of a data, bss or stack
segment is mapped writable.

* `writable_iff` — the pages a remapped thread can write;
* `isolated_iff_private` — the threads of a system are isolated from each other
  and from the cache exactly when no shared page is in such a segment;
* `ptecpy_not_isolated` — a data page and its copy break it.
-/

namespace Glendum

open Machine

/-! ## Shared pages and stores -/

/-- Somebody else may read the page: another segment, or the cache. -/
def Page.Shared (pg : Page) : Prop := 1 < pg.ref ∨ pg.image ≠ none

/-- Where the page starts in the memory file. -/
def Page.offset (pg : Page) : Nat := pg.pa.toNat - PHYSBASE.toNat

/-- The segment types whose pages `umem_remap` maps with `M_W`. -/
def SegType.writable : SegType → Bool
  | .data | .bss | .stack => true
  | .text | .shared | .physical => false

/-- The user part of `space` maps the page with write access. -/
def MapsWritable (space : AddressSpace) (pg : Page) : Prop :=
  ∃ n b, n * 4096 < ustktop.toNat ∧ space n = some b ∧ b.prot.write = true ∧ b.off = pg.offset

/-- A store of a byte by user code; `none` when the access faults. -/
def storeByte (space : AddressSpace) (a : Word) (v : Byte) (file : Nat → Byte) :
    Option (Nat → Byte) :=
  match space (a.toNat / 4096) with
  | some b =>
    if b.prot.write then some (Function.update file (b.off + a.toNat % 4096) v) else none
  | none => none

/-- No thread maps a shared page of the pool with write access, and no store to a
user address changes a byte of one. -/
structure Isolated (pages : PageId → Page) (user : Nat) (spaces : List AddressSpace) : Prop where
  readOnly : ∀ space ∈ spaces, ∀ q, q < user → (pages q).Shared → ¬ MapsWritable space (pages q)
  stores : ∀ space ∈ spaces, ∀ q, q < user → (pages q).Shared →
    ∀ a v file file', a.toNat < ustktop.toNat → storeByte space a v file = some file' →
      ∀ j, j < 4096 → file' ((pages q).offset + j) = file ((pages q).offset + j)

/-! ## Remapped threads -/

/-- The pages of the pool have frames of their own, as `pageinit` lays them out. -/
structure PagePool (pages : PageId → Page) (user : Nat) : Prop where
  aligned : ∀ q, q < user → (pages q).pa.toNat % 4096 = 0
  base : ∀ q, q < user → PHYSBASE.toNat ≤ (pages q).pa.toNat
  distinct : ∀ q q', q < user → q' < user → (pages q).pa = (pages q').pa → q = q'

/-- `u` is a user thread after `do_maps` has run on the frame that `umem_remap` built
for the process `p`. -/
structure RemappedTo (img : KernelImage) (pages : PageId → Page) (user : Nat) (u : UserSide)
    (p : Proc) : Prop where
  ran : ∃ i j k before, before.Covered ∧ remapOnce img i before k = .ok u ∧
    (k.procs k.up).newtlb = true ∧ (k.uthreads i).proc = some j ∧ k.procs j = p ∧ k.pages = pages
  mappable : Mappable pages p
  inPool : ∀ r ∈ p.resident, r.1.writable = true → r.2 < user

section

variable {img : KernelImage} {pages : PageId → Page} {user : Nat} {u : UserSide} {p : Proc}

theorem RemappedTo.maps (h : RemappedTo img pages user u p) :
    MapsResident u.memfd u.space pages p := by
  obtain ⟨i, j, k, before, hCov, hRun, hDue, hProc, rfl, rfl⟩ := h.ran
  obtain ⟨hFd, -, hMaps⟩ := remapOnce_resident hCov hRun hDue hProc h.mappable
  rw [hFd]
  exact hMaps

theorem mappedTo_write {fd : Int} {r : SegType × PageId} {b : Backing}
    (h : mappedTo fd pages r = some b) :
    b.prot.write = r.1.writable ∧ b.off = (pages r.2).offset := by
  unfold mappedTo at h
  by_cases hType : r.1.mapped = true
  · rw [if_pos hType, Option.some.injEq] at h
    subst h
    refine ⟨?_, rfl⟩
    revert hType
    simp only [backingOf]
    cases r.1 <;> decide
  · rw [if_neg hType] at h
    simp at h

/-- What a remapped thread has at a user page: a resident page, with its rights. -/
theorem RemappedTo.backed (h : RemappedTo img pages user u p) {n : Nat} {b : Backing}
    (hn : n * 4096 < ustktop.toNat) (hb : u.space n = some b) :
    ∃ r ∈ p.resident, b.prot.write = r.1.writable ∧ b.off = (pages r.2).offset := by
  obtain ⟨r, hr, hVa⟩ := h.maps.only n hn (by simp [hb])
  have hPage : pageOf pages r = n := by
    unfold pageOf
    omega
  have hAt := h.maps.complete r hr
  rw [hPage, hb] at hAt
  exact ⟨r, hr, mappedTo_write hAt.symm⟩

theorem PagePool.eq_of_offset (h : PagePool pages user) {q q' : PageId} (hq : q < user)
    (hq' : q' < user) (hOff : (pages q).offset = (pages q').offset) : q = q' := by
  refine h.distinct q q' hq hq' (BitVec.eq_of_toNat_eq ?_)
  have hBase := h.base q hq
  have hBase' := h.base q' hq'
  unfold Page.offset at hOff
  omega

/-- A remapped thread can write a page of the pool exactly when its process has the
page in a data, bss or stack segment. -/
theorem writable_iff (hPool : PagePool pages user) (h : RemappedTo img pages user u p)
    {q : PageId} (hq : q < user) :
    MapsWritable u.space (pages q) ↔ ∃ r ∈ p.resident, r.1.writable = true ∧ r.2 = q := by
  constructor
  · rintro ⟨n, b, hn, hb, hWrite, hOff⟩
    obtain ⟨r, hr, hRights, hOffR⟩ := h.backed hn hb
    have hType : r.1.writable = true := hRights ▸ hWrite
    exact ⟨r, hr, hType, hPool.eq_of_offset (h.inPool r hr hType) hq (hOffR.symm.trans hOff)⟩
  · rintro ⟨r, hr, hType, rfl⟩
    have hMapped : r.1.mapped = true := by
      revert hType
      cases r.1 <;> decide
    -- the page stands at its own address, which is a user address
    have hAt := h.maps.complete r hr
    rw [mappedTo, if_pos hMapped] at hAt
    have hPlaced := h.mappable.placed r hr
    refine ⟨pageOf pages r, _, ?_, hAt, ?_, rfl⟩
    · have hAligned := hPlaced.va_aligned
      have hUser := hPlaced.va_user
      unfold pageOf
      omega
    · have hHere : mappedTo u.memfd pages r = some _ := if_pos hMapped
      exact (mappedTo_write hHere).1.trans hType

/-- Stores stay off the pages that are not mapped with write access. -/
theorem store_apart (hPool : PagePool pages user) (h : RemappedTo img pages user u p)
    {q : PageId} (hq : q < user) (hOff : ¬ MapsWritable u.space (pages q)) {a : Word} {v : Byte}
    {file file' : Nat → Byte} (ha : a.toNat < ustktop.toNat)
    (hStore : storeByte u.space a v file = some file') {j : Nat} (hj : j < 4096) :
    file' ((pages q).offset + j) = file ((pages q).offset + j) := by
  unfold storeByte at hStore
  cases hb : u.space (a.toNat / 4096) with
  | none => simp [hb] at hStore
  | some b =>
    simp only [hb] at hStore
    by_cases hWrite : b.prot.write = true
    · -- if the byte were in the page, the page would be mapped here for writing
      rw [if_pos hWrite, Option.some.injEq] at hStore
      subst hStore
      refine Function.update_of_ne ?_ _ _
      intro hSame
      -- both are offsets of whole pages
      have hn : a.toNat / 4096 * 4096 < ustktop.toNat := by omega
      obtain ⟨r, hr, -, hOffR⟩ := h.backed hn hb
      have hAlignedQ := hPool.aligned q hq
      have hBaseQ := hPool.base q hq
      have hAlignedR := (h.mappable.placed r hr).pa_aligned
      have hBaseR := (h.mappable.placed r hr).pa_base
      have hPhys : PHYSBASE.toNat = 4096 := rfl
      refine hOff ⟨a.toNat / 4096, b, hn, hb, hWrite, ?_⟩
      unfold Page.offset at hSame hOffR ⊢
      omega
    · rw [if_neg hWrite] at hStore
      simp at hStore

/-- No shared page is in a data, bss or stack segment of the process. -/
def PrivateWritable (pages : PageId → Page) (p : Proc) : Prop :=
  ∀ r ∈ p.resident, r.1.writable = true → (pages r.2).ref ≤ 1 ∧ (pages r.2).image = none

theorem not_shared_iff (pg : Page) : ¬ pg.Shared ↔ pg.ref ≤ 1 ∧ pg.image = none := by
  rw [Page.Shared, not_or, not_lt, not_not]

theorem isolated_of_private {ts : List (UserSide × Proc)} (hPool : PagePool pages user)
    (hTs : ∀ t ∈ ts, RemappedTo img pages user t.1 t.2)
    (hPrivate : ∀ t ∈ ts, PrivateWritable pages t.2) :
    Isolated pages user (ts.map fun t => t.1.space) := by
  have hReadOnly : ∀ t ∈ ts, ∀ q, q < user → (pages q).Shared →
      ¬ MapsWritable t.1.space (pages q) := by
    intro t ht q hq hShared hMaps
    obtain ⟨r, hr, hType, rfl⟩ := (writable_iff hPool (hTs t ht) hq).mp hMaps
    exact (not_shared_iff _).mpr (hPrivate t ht r hr hType) hShared
  constructor
  · intro space hSpace q hq hShared
    obtain ⟨t, ht, rfl⟩ := List.mem_map.mp hSpace
    exact hReadOnly t ht q hq hShared
  · intro space hSpace q hq hShared a v file file' ha hStore j hj
    obtain ⟨t, ht, rfl⟩ := List.mem_map.mp hSpace
    exact store_apart hPool (hTs t ht) hq (hReadOnly t ht q hq hShared) ha hStore hj

/-- A shared page in a data, bss or stack segment is mapped with write access. -/
theorem private_of_isolated {ts : List (UserSide × Proc)} (hPool : PagePool pages user)
    (hTs : ∀ t ∈ ts, RemappedTo img pages user t.1 t.2)
    (hIso : Isolated pages user (ts.map fun t => t.1.space)) :
    ∀ t ∈ ts, PrivateWritable pages t.2 := by
  intro t ht r hr hType
  have hq := (hTs t ht).inPool r hr hType
  have hSpace : t.1.space ∈ ts.map fun t => t.1.space := List.mem_map.mpr ⟨t, ht, rfl⟩
  rw [← not_shared_iff]
  intro hShared
  exact hIso.readOnly _ hSpace r.2 hq hShared
    ((writable_iff hPool (hTs t ht) hq).mpr ⟨r, hr, hType, rfl⟩)

/-- **Isolation.** The user threads of a system, each remapped to its process, are
isolated from the pages that are shared exactly when no process has a shared page in
a data, bss or stack segment. -/
theorem isolated_iff_private {ts : List (UserSide × Proc)} (hPool : PagePool pages user)
    (hTs : ∀ t ∈ ts, RemappedTo img pages user t.1 t.2) :
    Isolated pages user (ts.map fun t => t.1.space) ↔ ∀ t ∈ ts, PrivateWritable pages t.2 :=
  ⟨private_of_isolated hPool hTs, isolated_of_private hPool hTs⟩

end

/-! ## A page of two processes -/

/-- A process with one table, in a data segment. -/
def dataProc (t : Pte) : Proc where
  pid := 1
  newtlb := true
  seg := [none, some ⟨.data, [some t]⟩]

/-- A pool of three pages with one taken. -/
def onePage : Palloc := (smallPool 3).stepTo takePage

/-- The pool with a second page taken, for the same address. -/
def twoPages : Palloc := onePage.stepTo takePage

/-- The pool with one page taken, after `ptecpy` of a table with that page. -/
def copiedPage : Palloc := onePage.stepTo (.ptecpy (soleEntry 0))

theorem dataProc_resident {q : PageId} (hq : q < 2) :
    (dataProc (soleEntry q)).resident = [(.data, q)] := by
  have hBoth : ∀ q < 2, (dataProc (soleEntry q)).resident = [(.data, q)] := by
    decide +kernel
  exact hBoth q hq

/-- A thread of such a process can be remapped. -/
theorem dataProc_remapped {pages : PageId → Page} {q : PageId} (hq : q < 2)
    (hPlaced : (pages q).Placed) :
    ∃ u, RemappedTo smallImage pages 3 u (dataProc (soleEntry q)) := by
  have hMappable : Mappable pages (dataProc (soleEntry q)) := by
    refine ⟨?_, ?_, ?_⟩ <;> rw [dataProc_resident hq]
    · intro r hr
      obtain rfl := List.mem_singleton.mp hr
      exact hPlaced
    · simp
    · rw [FrameFits, List.length_singleton]
      decide
  have hNoSwap : NoSwap (dataProc (soleEntry q)) := by
    intro s hs t ht
    simp only [dataProc, List.mem_cons, Option.some.injEq, List.not_mem_nil, or_false,
      reduceCtorEq, false_or] at hs
    subst hs
    obtain rfl : t = soleEntry q := by simpa using ht
    -- two processes with one page each, evaluated for both
    have hBoth : ∀ q < 2, ∀ e ∈ (soleEntry q).pages.toList, onswap e = false := by
      decide +kernel
    exact hBoth q hq
  have hMapped : ∀ s, some s ∈ (dataProc (soleEntry q)).seg → s.type.mapped = true := by
    intro s hs
    simp only [dataProc, List.mem_cons, Option.some.injEq, List.not_mem_nil, or_false,
      reduceCtorEq, false_or] at hs
    subst hs
    rfl
  let k : Kernel := { boundKernel (dataProc (soleEntry q)) with pages := pages }
  have hDue : RemapDue 0 k := ⟨rfl, 0, rfl, { hMappable with mapped := hMapped, noSwap := hNoSwap }⟩
  have hFresh : UserSide.Fresh { memfd := 3, space := fun _ => none } := ⟨rfl, rfl, fun _ _ => rfl⟩
  obtain ⟨u, hRun, -⟩ := remapOnce_exact smallImage hFresh.covered hDue
  refine ⟨u, ⟨0, 0, k, _, hFresh.covered, hRun, rfl, rfl, rfl, rfl⟩, hMappable, ?_⟩
  rw [dataProc_resident hq]
  intro r hr _
  obtain rfl := List.mem_singleton.mp hr
  exact lt_trans hq (by decide)

theorem twoPages_pool : PagePool twoPages.pages 3 where
  aligned := by decide +kernel
  base := by decide +kernel
  distinct := by
    have hAll : ∀ q, q < 3 → ∀ q', q' < 3 → (twoPages.pages q).pa = (twoPages.pages q').pa → q = q' := by
      decide +kernel
    exact fun q q' hq hq' => hAll q hq q' hq'

/-- The two pages are taken for the same address, and nobody else has them. -/
theorem twoPages_taken : ∀ q < 2, (twoPages.pages q).va = 0x5000 ∧
    (twoPages.pages q).pa.toNat = 0x100000 + q * 4096 ∧
    (twoPages.pages q).ref = 1 ∧ (twoPages.pages q).image = none := by
  decide +kernel

theorem copiedPage_pool : PagePool copiedPage.pages 3 where
  aligned := by decide
  base := by decide
  distinct := by
    have hAll : ∀ q, q < 3 → ∀ q', q' < 3 → (copiedPage.pages q).pa = (copiedPage.pages q').pa → q = q' := by
      decide
    exact fun q q' hq hq' => hAll q hq q' hq'

/-- The copy of the table is the table itself, with one more reference to its page. -/
theorem onePage_ptecpy : onePage.ptecpy (soleEntry 0) = .ok (soleEntry 0, copiedPage) := by
  -- the tables are compared as lists of their slots
  have hTable : (onePage.ptecpy (soleEntry 0)).toOption.map
      (fun r => (r.1.pages.toList, r.1.first, r.1.last)) =
      some ((soleEntry 0).pages.toList, (soleEntry 0).first, (soleEntry 0).last) := by
    decide +kernel
  cases hRun : onePage.ptecpy (soleEntry 0) with
  | error e => simp [hRun, Except.toOption] at hTable
  | ok r =>
    obtain ⟨⟨pages, first, last⟩, k⟩ := r
    simp only [hRun, Except.toOption, Option.map_some, Option.some.injEq, Prod.mk.injEq] at hTable
    obtain ⟨hPages, rfl, rfl⟩ := hTable
    obtain rfl := Vector.toList_inj.mp hPages
    have hAfter : copiedPage = k := by
      unfold copiedPage Palloc.stepTo
      rw [Palloc.step, hRun]
      rfl
    rw [hAfter]

/-- Two processes, each with a page of its own at the same address. -/
theorem isolated_iff_private_two : ∃ u u',
    RemappedTo smallImage twoPages.pages 3 u (dataProc (soleEntry 0)) ∧
    RemappedTo smallImage twoPages.pages 3 u' (dataProc (soleEntry 1)) ∧
    Isolated twoPages.pages 3 [u.space, u'.space] := by
  have hPlaced : ∀ q < 2, (twoPages.pages q).Placed := by
    intro q hq
    obtain ⟨hVa, hPa, -⟩ := twoPages_taken q hq
    refine ⟨?_, ?_, ?_, ?_⟩
    · rw [hVa]
      decide
    · rw [hVa]
      decide
    · omega
    · have hPhys : PHYSBASE.toNat = 4096 := rfl
      omega
  obtain ⟨u, hu⟩ := dataProc_remapped (by decide) (hPlaced 0 (by decide))
  obtain ⟨u', hu'⟩ := dataProc_remapped (by decide) (hPlaced 1 (by decide))
  have hTs : ∀ t ∈ [(u, dataProc (soleEntry 0)), (u', dataProc (soleEntry 1))],
      RemappedTo smallImage twoPages.pages 3 t.1 t.2 := by
    intro t ht
    rcases List.mem_pair.mp ht with rfl | rfl
    · exact hu
    · exact hu'
  have hPrivate : ∀ q < 2, PrivateWritable twoPages.pages (dataProc (soleEntry q)) := by
    intro q hq r hr _
    rw [dataProc_resident hq] at hr
    obtain rfl := List.mem_singleton.mp hr
    obtain ⟨-, -, hRef, hImage⟩ := twoPages_taken q hq
    exact ⟨hRef.le, hImage⟩
  refine ⟨u, u', hu, hu', (isolated_iff_private twoPages_pool hTs).mpr ?_⟩
  intro t ht
  rcases List.mem_pair.mp ht with rfl | rfl
  · exact hPrivate 0 (by decide)
  · exact hPrivate 1 (by decide)

/-- The page of a data segment and its copy by `ptecpy`, in two processes: the page
has two references, and both threads can write it. -/
theorem ptecpy_not_isolated : ∃ t k u u',
    onePage.ptecpy (soleEntry 0) = .ok (t, k) ∧ (k.pages 0).ref = 2 ∧
    RemappedTo smallImage k.pages 3 u (dataProc (soleEntry 0)) ∧
    RemappedTo smallImage k.pages 3 u' (dataProc t) ∧
    ¬ Isolated k.pages 3 [u.space, u'.space] := by
  have hPlaced : (copiedPage.pages 0).Placed := by
    refine ⟨?_, ?_, ?_, ?_⟩ <;> decide +kernel
  obtain ⟨u, hu⟩ := dataProc_remapped (by decide) hPlaced
  refine ⟨soleEntry 0, copiedPage, u, u, onePage_ptecpy, by decide +kernel, hu, hu, ?_⟩
  intro hIso
  have hTs : ∀ t ∈ [(u, dataProc (soleEntry 0)), (u, dataProc (soleEntry 0))],
      RemappedTo smallImage copiedPage.pages 3 t.1 t.2 := by
    intro t ht
    obtain rfl : t = (u, dataProc (soleEntry 0)) := by simpa using ht
    exact hu
  -- isolation would leave the page with one reference
  have hPrivate := private_of_isolated copiedPage_pool hTs hIso _ (List.mem_cons_self ..)
    (.data, 0) (by rw [dataProc_resident (by decide)]; exact List.mem_cons_self ..) rfl
  have hFew : (copiedPage.pages 0).ref ≤ 1 := hPrivate.1
  have hRef : (copiedPage.pages 0).ref = 2 := by decide +kernel
  omega

end Glendum
