import Glendum.Host.LoaderExact

/-!
# Glendum — where the loader maps

`main` maps three regions at fixed addresses, which replaces whatever is mapped there. One
comparison is meant to keep them off the host program: that its image ends at or below the
load address. The loader area, though, is the megabyte below the load address, and nothing
looks at where the regions end.

* `mapAll_regions` — the regions are the ones that `main` maps;
* `regions_safe_iff` — they are clear of the host and of each other, without wrapping, when
  there is room for a megabyte below and for both sizes above the load address;
* `loader_area_hits` — where the megabyte is missing, the host maps over itself.
-/

namespace Glendum

open Machine

/-! ## Regions -/

structure Region where
  addr : Word
  len  : Word

def loadRegion (mb : Multiboot) : Region := ⟨mb.load_addr - 0x100000, 0x100000⟩

def textRegion (hdr : Exec) (mb : Multiboot) : Region := ⟨mb.load_addr, pageRound hdr.text⟩

def dataRegion (hdr : Exec) (mb : Multiboot) : Region :=
  ⟨mb.load_addr + pageRound hdr.text, pageRound (hdr.data + hdr.bss)⟩

/-- In the order in which they are mapped. -/
def regions (hdr : Exec) (mb : Multiboot) : List Region :=
  [loadRegion mb, textRegion hdr mb, dataRegion hdr mb]

/-- The address `x`, as a number, is in the region. -/
def Region.Covers (r : Region) (x : Nat) : Prop :=
  r.addr.toNat ≤ x ∧ x < r.addr.toNat + r.len.toNat

def Region.Disjoint (r r' : Region) : Prop := ∀ x, ¬ (r.Covers x ∧ r'.Covers x)

/-- Each region is mapped if the host answers its call so. -/
theorem mapAll_regions (h : Host) (hdr : Exec) (mb : Multiboot) :
    let answers := [h.calls.mapLoad, h.calls.mapText, h.calls.mapData]
    mapAll h hdr mb = ((regions hdr mb).zip answers).foldlM
      (fun s r => mapFixed h r.2 r.1.addr r.1.len.toNat s) h.space := by
  simp only [regions, List.zip_cons_cons, List.zip_nil_right, List.foldlM_cons, List.foldlM_nil,
    bind_pure]
  rfl

/-! ## What the regions are to be -/

/-- Rounded up to whole pages, as a number. -/
def pages (size : Nat) : Nat := (size + 4095) / 4096 * 4096

/-- What `main` has checked of the headers when it maps. -/
structure Checked (h : Host) (hdr : Exec) (mb : Multiboot) : Prop where
  magic    : hdr.magic = I_MAGIC
  checksum : mb.magic + mb.flags + mb.checksum = 0
  address  : mb.flags &&& 0x10000 ≠ 0
  clear    : ¬ h.hostEnd > mb.load_addr

/-- Addresses and sizes are the numbers that they stand for, no region leaves the address
space, and no two of them meet, nor one of them the image of the host. -/
structure RegionsSafe (h : Host) (hdr : Exec) (mb : Multiboot) : Prop where
  loadAddr : ((loadRegion mb).addr.toNat : Int) = mb.load_addr.toNat - 0x100000
  textLen  : (textRegion hdr mb).len.toNat = pages hdr.text.toNat
  dataAddr : (dataRegion hdr mb).addr.toNat = mb.load_addr.toNat + pages hdr.text.toNat
  dataLen  : (dataRegion hdr mb).len.toNat = pages (hdr.data.toNat + hdr.bss.toNat)
  fits     : ∀ r ∈ regions hdr mb, r.addr.toNat + r.len.toNat ≤ 2 ^ 32
  apart    : (regions hdr mb).Pairwise Region.Disjoint
  clear    : ∀ r ∈ regions hdr mb, ∀ x, r.Covers x → ¬ (h.phys.toNat ≤ x ∧ x < h.hostEnd.toNat)

/-- A megabyte below the load address that the host leaves free, and room above it. -/
structure RoomAt (h : Host) (hdr : Exec) (mb : Multiboot) : Prop where
  low  : 0x100000 ≤ mb.load_addr.toNat
  host : h.phys.toNat < h.hostEnd.toNat → h.hostEnd.toNat + 0x100000 ≤ mb.load_addr.toNat
  text : mb.load_addr.toNat + pages hdr.text.toNat < 2 ^ 32
  data : mb.load_addr.toNat + pages hdr.text.toNat +
    pages (hdr.data.toNat + hdr.bss.toNat) ≤ 2 ^ 32

/-! ## Rounding -/

section

variable {h : Host} {hdr : Exec} {mb : Multiboot}

/-- The rounding in 32 bits. -/
theorem pageRound_toNat (w : Word) : (pageRound w).toNat = pages w.toNat % 2 ^ 32 := by
  have hRest : ((4096 - w) % 4096 : Word).toNat = (2 ^ 32 - w.toNat + 4096) % 2 ^ 32 % 4096 := by
    rw [BitVec.toNat_umod, BitVec.toNat_sub]
    rfl
  have hw := w.isLt
  rw [pageRound, BitVec.toNat_add, hRest, pages]
  omega

/-- No size is rounded down. -/
theorem le_pages (n : Nat) : n ≤ pages n := by
  unfold pages
  omega

/-- What `main` has checked when it has read both headers. -/
theorem checked_of_read {p pos : Nat} (hHdr : readHeader h = .ok (hdr, p))
    (hMb : readMultiboot h pos = .ok mb) : Checked h hdr mb := by
  unfold readHeader at hHdr
  unfold readMultiboot at hMb
  -- each failed check ends in an exit
  split at hHdr
  · cases hHdr
  dsimp only at hHdr
  split at hHdr
  · cases hHdr
  rename_i hMagic
  obtain ⟨rfl, -⟩ := Prod.mk.inj (Except.ok.inj hHdr)
  split at hMb
  · cases hMb
  dsimp only at hMb
  split at hMb
  · cases hMb
  rename_i hSum
  split at hMb
  · cases hMb
  rename_i hFlags
  split at hMb
  · cases hMb
  rename_i hClear
  obtain rfl := Except.ok.inj hMb
  exact ⟨not_not.mp hMagic, not_not.mp hSum, hFlags, hClear⟩

/-! ## The law -/

/-- A property of the three regions. -/
theorem forall_mem_regions {P : Region → Prop} : (∀ r ∈ regions hdr mb, P r) ↔
    P (loadRegion mb) ∧ P (textRegion hdr mb) ∧ P (dataRegion hdr mb) := by
  rw [regions, List.forall_mem_cons, List.forall_mem_cons, List.forall_mem_singleton]

/-- A relation between each two of them. -/
theorem pairwise_regions {R : Region → Region → Prop} : (regions hdr mb).Pairwise R ↔
    R (loadRegion mb) (textRegion hdr mb) ∧ R (loadRegion mb) (dataRegion hdr mb) ∧
      R (textRegion hdr mb) (dataRegion hdr mb) := by
  rw [regions, List.pairwise_cons, List.forall_mem_cons, List.forall_mem_singleton,
    List.pairwise_pair, and_assoc]

/-- Where there is room, the regions are safe. -/
theorem RoomAt.safe (hRoom : RoomAt h hdr mb) (hChecked : Checked h hdr mb) :
    RegionsSafe h hdr mb := by
  obtain ⟨hLow, hHost, hText, hData⟩ := hRoom
  have hEnd : h.hostEnd.toNat ≤ mb.load_addr.toNat := Nat.not_lt.mp hChecked.clear
  -- the room for the data is also room for the sum of its sizes
  have hSize := le_pages (hdr.data.toNat + hdr.bss.toNat)
  have hSum : (hdr.data + hdr.bss).toNat = hdr.data.toNat + hdr.bss.toNat := by
    rw [BitVec.toNat_add, Nat.mod_eq_of_lt (by omega)]
  have hLoadAddr : (loadRegion mb).addr.toNat = mb.load_addr.toNat - 0x100000 := by
    show (mb.load_addr - 0x100000).toNat = _
    bv_omega
  have hTextLen : (textRegion hdr mb).len.toNat = pages hdr.text.toNat := by
    show (pageRound hdr.text).toNat = _
    rw [pageRound_toNat, Nat.mod_eq_of_lt (by omega)]
  have hDataAddr : (dataRegion hdr mb).addr.toNat = mb.load_addr.toNat + pages hdr.text.toNat := by
    show (mb.load_addr + (textRegion hdr mb).len).toNat = _
    rw [BitVec.toNat_add, hTextLen, Nat.mod_eq_of_lt hText]
  have hDataLen : (dataRegion hdr mb).len.toNat = pages (hdr.data.toNat + hdr.bss.toNat) := by
    show (pageRound (hdr.data + hdr.bss)).toNat = _
    rw [pageRound_toNat, hSum, Nat.mod_eq_of_lt (by omega)]
  have hLoadLen : (loadRegion mb).len.toNat = 0x100000 := rfl
  have hTextAddr : (textRegion hdr mb).addr.toNat = mb.load_addr.toNat := rfl
  refine ⟨by omega, hTextLen, hDataAddr, hDataLen, ?_, ?_, ?_⟩
  · rw [forall_mem_regions]
    omega
  · -- each region ends where the next one starts
    rw [pairwise_regions]
    unfold Region.Disjoint Region.Covers
    refine ⟨fun x => ?_, fun x => ?_, fun x => ?_⟩ <;> omega
  · -- the loader area is behind the host, the others are behind the loader area
    rw [forall_mem_regions]
    unfold Region.Covers
    refine ⟨fun x => ?_, fun x => ?_, fun x => ?_⟩ <;> omega

/-- And only there. -/
theorem RegionsSafe.room (hSafe : RegionsSafe h hdr mb) (hChecked : Checked h hdr mb) :
    RoomAt h hdr mb := by
  have hEnd : h.hostEnd.toNat ≤ mb.load_addr.toNat := Nat.not_lt.mp hChecked.clear
  -- addresses that are not wrapped are the numbers in the bounds
  have hLoad := hSafe.loadAddr
  have hAddr := hSafe.dataAddr
  have hWord := (dataRegion hdr mb).addr.isLt
  obtain ⟨-, -, hFits⟩ := forall_mem_regions.mp hSafe.fits
  rw [hSafe.dataLen] at hFits
  refine ⟨by omega, fun hSome => ?_, by omega, by omega⟩
  by_contra hNear
  -- the first byte of the host that is not below the loader area is in both
  have hCovers : (loadRegion mb).Covers (max (loadRegion mb).addr.toNat h.phys.toNat) := by
    have hLen : (loadRegion mb).len.toNat = 0x100000 := rfl
    unfold Region.Covers
    omega
  obtain ⟨hClear, -, -⟩ := forall_mem_regions.mp hSafe.clear
  apply hClear _ hCovers
  omega

/-- For all headers that `main` lets through and every image of the host. -/
theorem regions_safe_iff (h : Host) (hdr : Exec) (mb : Multiboot) (hChecked : Checked h hdr mb) :
    RegionsSafe h hdr mb ↔ RoomAt h hdr mb :=
  ⟨fun hSafe => hSafe.room hChecked, fun hRoom => hRoom.safe hChecked⟩

/-- The host loses its own text and data: the run goes on in pages of zeros. -/
theorem loader_area_hits (hSome : h.phys.toNat < h.hostEnd.toNat) (hChecked : Checked h hdr mb)
    (hNear : mb.load_addr.toNat < h.hostEnd.toNat + 0x100000)
    (hLow : 0x100000 ≤ mb.load_addr.toNat) (hPage : mb.load_addr.toNat % 4096 = 0)
    (hCall : h.calls.mapLoad = true) : mapAll h hdr mb = .error .fault := by
  have hEnd : h.hostEnd.toNat ≤ mb.load_addr.toNat := Nat.not_lt.mp hChecked.clear
  have hAddr : (mb.load_addr - 0x100000).toNat = mb.load_addr.toNat - 0x100000 := by
    bv_omega
  have hWord := mb.load_addr.isLt
  have hHits : hitsHost h (mb.load_addr - 0x100000) 0x100000 = true := by
    -- the image is the first of the places of the host
    rw [hitsHost, Host.places, List.any_cons, Bool.or_eq_true]
    left
    rw [Bool.and_eq_true, decide_eq_true_eq, decide_eq_true_eq, hAddr]
    dsimp only
    omega
  have hMap : mapFixed h h.calls.mapLoad (mb.load_addr - 0x100000) 0x100000 h.space =
      .error .fault := by
    refine mapFixed_fault_iff.mpr ⟨?_, hHits⟩
    rw [hCall, hAddr]
    simp only [Bool.true_eq_false, false_or]
    omega
  rw [mapAll, hMap]
  rfl

end

/-- The headers of the small image. -/
theorem small_checked : Checked (smallHost (.upTo 36)) (Exec.ofFile smallFile)
    (Multiboot.ofFile smallFile 32) :=
  ⟨by decide +kernel, by decide +kernel, by decide +kernel, by decide +kernel⟩

theorem regions_safe_small : RegionsSafe (smallHost (.upTo 36)) (Exec.ofFile smallFile)
    (Multiboot.ofFile smallFile 32) := by
  apply (regions_safe_iff _ _ _ small_checked).mpr
  exact ⟨by decide +kernel, by decide +kernel, by decide +kernel, by decide +kernel⟩

/-- The image of the host ends where the small image is loaded, as `main` allows. -/
def crowdedHost : Host := { smallHost (.upTo 36) with hostEnd := 0x70200000 }

theorem crowded_hits :
    Checked crowdedHost (Exec.ofFile smallFile) (Multiboot.ofFile smallFile 32) ∧
    ¬ RegionsSafe crowdedHost (Exec.ofFile smallFile) (Multiboot.ofFile smallFile 32) ∧
    mapAll crowdedHost (Exec.ofFile smallFile) (Multiboot.ofFile smallFile 32) = .error .fault := by
  have hChecked : Checked crowdedHost (Exec.ofFile smallFile) (Multiboot.ofFile smallFile 32) :=
    ⟨by decide +kernel, by decide +kernel, by decide +kernel, by decide +kernel⟩
  refine ⟨hChecked, fun hSafe => ?_, ?_⟩
  · -- a byte of the loader area that is also one of the host
    have hCovers : (loadRegion (Multiboot.ofFile smallFile 32)).Covers 0x70100000 := by
      unfold Region.Covers
      decide +kernel
    obtain ⟨hClear, -, -⟩ := forall_mem_regions.mp hSafe.clear
    exact hClear _ hCovers (by decide +kernel)
  · exact loader_area_hits (by decide +kernel) hChecked (by decide +kernel) (by decide +kernel)
      (by decide +kernel) rfl

end Glendum
