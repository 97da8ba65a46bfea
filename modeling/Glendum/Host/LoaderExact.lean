import Glendum.Host.Loader
import Glendum.Lib.FailStop

/-!
# Glendum — what the loader overlooks

`main` stops with a status when a call fails that it checks. It does not check all
of them: the reads of both headers compare a failure as an unsigned number, the
seeks of the magic loop and of `hostlink` are not looked at, the reads of the text and
the data accept any count, and a symbol table that was cut short is used. `heard` is the
condition under which none of this matters.

* `mapFixed_fault_iff` — a mapping that the host grants is a fault when it lies over the
  host program;
* `findMagic_first`, `magic_of_whole` — reads of whole words find the first magic of the
  file, and the seek back leads to it;
* `loader_exact` — `main` jumps to a kernel that is loaded exactly, or stops with a
  status that is not zero, exactly when `heard` holds;
* `loader_cut_text` — a text that was cut short is jumped to.
-/

namespace Glendum

open Machine FailStop

/-! ## What main is to do -/

/-- A status that the parent sees as not zero. -/
def Stop.Refuses : Stop → Prop
  | .exit status => status % 256 ≠ 0
  | .fault => False

instance : DecidablePred Stop.Refuses
  | .exit _ => inferInstanceAs (Decidable (_ ≠ _))
  | .fault => inferInstanceAs (Decidable False)

def Exec.ofFile (file : List Byte) : Exec := Exec.of fun i => file.getD i 0

def Multiboot.ofFile (file : List Byte) (pos : Nat) : Multiboot :=
  Multiboot.of fun i => file.getD (pos + i) 0

/-- The multiboot header is the one of the file at `pos`; it was read completely, and it
passes the checks. -/
structure MultibootAt (h : Host) (pos : Nat) (mb : Multiboot) : Prop where
  complete : (h.calls.mbRead.bytes h.file pos sizeofMultiboot).length = sizeofMultiboot
  fields   : mb = Multiboot.ofFile h.file pos
  magic    : mb.magic = MULTIBOOT_HEADER_MAGIC
  checksum : mb.magic + mb.flags + mb.checksum = 0
  address  : mb.flags &&& 0x10000 ≠ 0
  clear    : ¬ h.hostEnd > mb.load_addr

/-- A byte of a slot that `hostlink` has patched. -/
def InSlot (slots : List Word) (x : Word) : Prop := ∃ slot ∈ slots, (x - slot).toNat < 4

instance (slots : List Word) : DecidablePred (InSlot slots) := fun x =>
  decidable_of_iff (slots.any fun slot => (x - slot).toNat < 4) (by simp [InSlot])

/-- What `hostlink` has put at an address where there were zeros. -/
def Linking.patched (st : Linking) (x : Word) : Byte := if InSlot st.slots x then st.text x else 0

/-- Where the data of an image at `base` begins. -/
def dataBase (hdr : Exec) (base : Word) : Word := base + pageRound hdr.text

/-- The image of the header `hdr` is in memory at `base`, which it does not leave at the
top: the text but for the slots, the data, and zeros for the bss. -/
structure ImageAt (file : List Byte) (hdr : Exec) (base : Word) (j : Jump) : Prop where
  fits : base.toNat + (pageRound hdr.text).toNat + hdr.data.toNat + hdr.bss.toNat ≤ 2 ^ 32
  text : ∀ i, i < hdr.text.toNat → ∃ b, file[32 + i]? = some b ∧
    (j.mem (base + BitVec.ofNat 32 i) = b ∨ InSlot j.slots (base + BitVec.ofNat 32 i))
  data : ∀ i, i < hdr.data.toNat → file[32 + hdr.text.toNat + i]? =
    some (j.mem (dataBase hdr base + BitVec.ofNat 32 i))
  bss  : ∀ i, i < hdr.bss.toNat →
    j.mem (dataBase hdr base + BitVec.ofNat 32 (hdr.data.toNat + i)) = 0

/-- The jump is to the entry of an image that was loaded exactly. -/
structure Loaded (h : Host) (j : Jump) : Prop where
  complete  : (h.calls.hdrRead.bytes h.file 0 sizeofExec).length = sizeofExec
  fields    : j.hdr = Exec.ofFile h.file
  magic     : j.hdr.magic = I_MAGIC
  entry     : j.entry = j.hdr.entry
  multiboot : ∃ pos, MultibootAt h pos j.mbhdr
  image     : ImageAt h.file j.hdr j.mbhdr.load_addr j

/-- `main` jumps to a kernel that is loaded exactly, or stops with a status that is
not zero. -/
def LoadsExactly (h : Host) : Prop := Ends Stop.Refuses (main h) (Loaded h)

/-! ## What main overlooks -/

/-- `main` stops by itself. -/
def Stop.Exits : Stop → Prop
  | .exit _ => True
  | .fault => False

instance : DecidablePred Stop.Exits
  | .exit _ => inferInstanceAs (Decidable True)
  | .fault => inferInstanceAs (Decidable False)

/-- The four bytes of the file at `pos` are the magic. -/
def MagicAt (file : List Byte) (pos : Nat) : Prop :=
  (Multiboot.ofFile file pos).magic = MULTIBOOT_HEADER_MAGIC

instance (file : List Byte) : DecidablePred (MagicAt file) := fun _ =>
  inferInstanceAs (Decidable (_ = _))

/-- What `main` takes for granted when it jumps: neither read of a header has failed; the
multiboot header was read where the magic is; data and bss do not wrap; a byte that the
read of the text has left out is zero in the file, or of a slot; the read of the data, at
`pos`, has given the bytes behind the text, and what it has left out is zero in the file, or
what a slot has there; and no slot has put anything but zeros into the bss. -/
structure Answered (h : Host) (hdr : Exec) (mbpos : Nat) (mb : Multiboot) (st : Linking)
    (pos : Nat) : Prop where
  hdrRead : h.calls.hdrRead ≠ .fail
  mbRead  : h.calls.mbRead ≠ .fail
  magic   : MagicAt h.file mbpos
  sizes   : hdr.data.toNat + hdr.bss.toNat < 2 ^ 32
  text    : ∀ i, i < hdr.text.toNat → i < (h.calls.textRead.bytes h.file 32 hdr.text.toNat).length ∨
    h.file[32 + i]? = some 0 ∨
    (32 + i < h.file.length ∧ InSlot st.slots (mb.load_addr + BitVec.ofNat 32 i))
  data    : ∀ i, i < hdr.data.toNat → h.file[32 + hdr.text.toNat + i]? =
    if i < (h.calls.dataRead.bytes h.file pos hdr.data.toNat).length then h.file[pos + i]?
    else some (st.patched (dataBase hdr mb.load_addr + BitVec.ofNat 32 i))
  bss     : ∀ i, i < hdr.bss.toNat →
    st.patched (dataBase hdr mb.load_addr + BitVec.ofNat 32 (hdr.data.toNat + i)) = 0

instance (h : Host) (hdr : Exec) (mbpos : Nat) (mb : Multiboot) (st : Linking) (pos : Nat) :
    Decidable (Answered h hdr mbpos mb st pos) :=
  decidable_of_iff (_ ∧ _ ∧ _ ∧ _ ∧ _ ∧ _ ∧ _)
    ⟨fun ⟨h1, h2, h3, h4, h5, h6, h7⟩ => ⟨h1, h2, h3, h4, h5, h6, h7⟩,
      fun ⟨h1, h2, h3, h4, h5, h6, h7⟩ => ⟨h1, h2, h3, h4, h5, h6, h7⟩⟩

/-- Each stage that `main` comes to ends by itself or with a result: no mapping lies over
the host program, and the walk over the symbol table ends. When `main` comes to the jump,
the host has answered as `main` takes for granted. -/
def heard (h : Host) : Prop :=
  Ends Stop.Exits (openFile h) fun _ =>
  Ends Stop.Exits (readHeader h) fun hdr =>
  Ends Stop.Exits (findMagic h 256 hdr.2 fun _ => 0) fun found =>
  Ends Stop.Exits (seekMagic h found) fun mbpos =>
  Ends Stop.Exits (readMultiboot h mbpos) fun mb =>
  Ends Stop.Exits (mapAll h hdr.1 mb) fun s =>
  Ends Stop.Exits (readText h hdr.1 mb s.mem mbpos) fun text =>
  Ends Stop.Exits (hostlink h hdr.1 { s with mem := text.1 } text.2) fun link =>
  Ends Stop.Exits (readData h hdr.1 mb link.1.text link.2) fun _ =>
  Answered h hdr.1 mbpos mb link.1 link.2

instance : DecidablePred heard := fun h =>
  inferInstanceAs (Decidable (Ends Stop.Exits (openFile h) _))

/-! ## Reads -/

section

variable {g : Got} {file : List Byte} {pos n : Nat} {got : List Byte} {was : Nat → Byte}

/-- A read gives no more than was asked for. -/
theorem Got.length_bytes_le (g : Got) (file : List Byte) (pos n : Nat) :
    (g.bytes file pos n).length ≤ n := by
  cases g with
  | fail => exact Nat.zero_le n
  | upTo m =>
    simp only [Got.bytes, List.length_take]
    omega

/-- What arrives are the bytes of the file from the position on. -/
theorem Got.getElem?_bytes {i : Nat} (hi : i < (g.bytes file pos n).length) :
    (g.bytes file pos n)[i]? = file[pos + i]? := by
  cases g with
  | fail => simp [Got.bytes] at hi
  | upTo m =>
    simp only [Got.bytes, List.length_take] at hi ⊢
    rw [List.getElem?_take_of_lt (by omega), List.getElem?_drop]

/-- The buffer of a read has the bytes of the file as far as they arrived. -/
theorem overlay_bytes {i : Nat} (hi : i < (g.bytes file pos n).length) :
    overlay (g.bytes file pos n) was i = file.getD (pos + i) 0 := by
  have hByte := Got.getElem?_bytes hi
  -- a byte that arrived is in the file, so no default is used on either side
  rw [overlay, List.getD_eq_getElem?_getD, List.getD_eq_getElem?_getD, hByte]
  have hSome : (g.bytes file pos n)[i]?.isSome := by simp [hi]
  rw [hByte] at hSome
  obtain ⟨b, hb⟩ := Option.isSome_iff_exists.mp hSome
  rw [hb]
  rfl

/-- The unsigned comparison lets a failure through, and only that. -/
theorem length_of_belowSizeof (hFail : g ≠ .fail) (hSize : n < 2 ^ 32)
    (h : ¬ belowSizeof (g.rc file pos n) n = true) : (g.bytes file pos n).length = n := by
  cases g with
  | fail => exact absurd rfl hFail
  | upTo m =>
    have hLe := Got.length_bytes_le (.upTo m) file pos n
    -- a count that did not fail is below 2 ^ 32, so the conversion keeps it
    have hCount : (BitVec.ofInt 32 (Got.upTo m |>.rc file pos n)).toNat =
        ((Got.upTo m).bytes file pos n).length := by
      simp only [Got.rc, BitVec.ofInt_natCast, BitVec.toNat_ofNat]
      exact Nat.mod_eq_of_lt (by omega)
    rw [belowSizeof, hCount, decide_eq_true_eq, Nat.not_lt] at h
    omega

/-- A read that failed has given nothing. -/
theorem ne_fail_of_length (h : (g.bytes file pos n).length = n) (hSome : 0 < n) : g ≠ .fail := by
  rintro rfl
  have hZero : 0 = n := h
  omega

end

/-! ## How stages stop -/

/-- A stage stops with a status that is not zero, or by a fault. -/
def Stop.Proper : Stop → Prop
  | .exit status => status % 256 ≠ 0
  | .fault => True

instance : DecidablePred Stop.Proper
  | .exit _ => inferInstanceAs (Decidable (_ ≠ _))
  | .fault => inferInstanceAs (Decidable True)

/-- So it refuses to load, when it does not fault. -/
theorem Stop.Proper.refuses_iff (e : Stop) (h : e.Proper) : e.Refuses ↔ e.Exits := by
  cases e with
  | exit status => exact iff_of_true h trivial
  | fault => exact Iff.rfl

/-! ## The headers -/

section

variable {h : Host} {hdr : Exec} {mb : Multiboot} {pos : Nat}

/-- The header of an image is decoded from 32 bytes. -/
theorem Exec.of_congr {buf buf' : Nat → Byte} (h : ∀ i, i < 32 → buf i = buf' i) :
    Exec.of buf = Exec.of buf' := by
  unfold Exec.of beAt
  simp (disch := omega) only [h]

/-- A word of a header is decoded from its four bytes. -/
theorem leAt_congr {buf buf' : Nat → Byte} {k : Nat} (h : ∀ i, i < k + 4 → buf i = buf' i) :
    leAt buf k = leAt buf' k := by
  unfold leAt
  simp (disch := omega) only [h]

/-- And so is the multiboot header, from its own 32. -/
theorem Multiboot.of_congr {buf buf' : Nat → Byte} (h : ∀ i, i < 32 → buf i = buf' i) :
    Multiboot.of buf = Multiboot.of buf' := by
  unfold Multiboot.of leAt
  simp (disch := omega) only [h]

theorem magic_ofFile (file : List Byte) (pos : Nat) :
    (Multiboot.ofFile file pos).magic = leAt (fun i => file.getD (pos + i) 0) 0 := rfl

/-- Without a file `main` stops with a status. -/
theorem openFile_ends : Ends Stop.Proper (openFile h) fun _ => True :=
  .guard (by decide) fun _ => .guard (by decide) fun _ => .ok trivial

/-- The header is the one of the file, unless the read of it has failed. -/
theorem readHeader_ends :
    Ends Stop.Proper (readHeader h) fun r => h.calls.hdrRead ≠ .fail →
      (h.calls.hdrRead.bytes h.file 0 sizeofExec).length = sizeofExec ∧
      r.1 = Exec.ofFile h.file ∧ r.1.magic = I_MAGIC := by
  refine .guard (by decide) fun hCount => ?_
  refine .guard (by decide) fun hMagic => .ok fun hRead => ?_
  have hFull := length_of_belowSizeof hRead (by decide) hCount
  have hHdr : Exec.of (overlay (h.calls.hdrRead.bytes h.file 0 sizeofExec) h.hdrWas) =
      Exec.ofFile h.file := by
    refine Exec.of_congr fun i hi => ?_
    rw [overlay_bytes (by rw [hFull]; exact hi), Nat.zero_add]
  exact ⟨hFull, hHdr, not_not.mp hMagic⟩

/-- The loop for the magic ends by itself, at the latest when its turns are used up. -/
theorem findMagic_ends (n : Nat) (magbuf : Nat → Byte) :
    Ends Stop.Proper (findMagic h n pos magbuf) fun _ => True := by
  induction n generalizing pos magbuf with
  | zero => exact .error (by decide)
  | succ n ih =>
    rw [findMagic]
    refine .guard (by decide) fun _ => ?_
    dsimp only
    split
    · exact .ok trivial
    · exact ih _

/-- The seek back to the magic ends by itself. -/
theorem seekMagic_ends : Ends Stop.Proper (seekMagic h pos) fun _ => True :=
  .guard (by decide) fun _ => .ok trivial

/-- The multiboot header is the one of the file at `pos`, unless the read of it has
failed, and it passes the checks. -/
theorem readMultiboot_ends :
    Ends Stop.Proper (readMultiboot h pos) fun mb =>
      (h.calls.mbRead ≠ .fail →
        (h.calls.mbRead.bytes h.file pos sizeofMultiboot).length = sizeofMultiboot ∧
        mb = Multiboot.ofFile h.file pos) ∧
      mb.magic + mb.flags + mb.checksum = 0 ∧ mb.flags &&& 0x10000 ≠ 0 ∧
      ¬ h.hostEnd > mb.load_addr := by
  refine .guard (by decide) fun hCount => .guard (by decide) fun hSum =>
    .guard (by decide) fun hFlags => .guard (by decide) fun hEnd =>
    .ok ⟨fun hRead => ?_, not_not.mp hSum, hFlags, hEnd⟩
  have hFull := length_of_belowSizeof hRead (by decide) hCount
  exact ⟨hFull, Multiboot.of_congr fun i hi => overlay_bytes (by rw [hFull]; exact hi)⟩

/-! ## The magic -/

/-- Each read of the loop gives a whole word or nothing, up to the one that finds the
magic. -/
def wholeWords (h : Host) : Nat → Nat → (Nat → Byte) → Bool
  | 0, _, _ => true
  | n + 1, pos, magbuf =>
    let got := (h.calls.scanRead (255 - n)).bytes h.file pos 4
    let magbuf := overlay got magbuf
    (got.length == 4 || got.length == 0) &&
      (leAt magbuf 0 == MULTIBOOT_HEADER_MAGIC || wholeWords h n (pos + got.length) magbuf)

/-- The first magic of the file behind the header is its word `i`. -/
structure FirstMagic (file : List Byte) (i : Nat) : Prop where
  turn  : i < 256
  here  : MagicAt file (32 + 4 * i)
  first : ∀ k, k < i → ¬ MagicAt file (32 + 4 * k)

/-- Before a turn of the loop `k` words of the file were looked at. -/
theorem findMagic_whole {n k : Nat} {magbuf : Nat → Byte} (hTurns : k + n ≤ 256)
    (hOld : leAt magbuf 0 ≠ MULTIBOOT_HEADER_MAGIC) (hFirst : ∀ j, j < k → ¬ MagicAt h.file (32 + 4 * j))
    (hWhole : wholeWords h n (32 + 4 * k) magbuf = true)
    (hFind : findMagic h n (32 + 4 * k) magbuf = .ok pos) :
    ∃ i, FirstMagic h.file i ∧ pos = 32 + 4 * i + 4 := by
  induction n generalizing k magbuf with
  | zero => cases hFind
  | succ n ih =>
    rw [wholeWords, Bool.and_eq_true, Bool.or_eq_true, Bool.or_eq_true, beq_iff_eq, beq_iff_eq,
      beq_iff_eq] at hWhole
    rw [findMagic] at hFind
    generalize h.calls.scanRead (255 - n) = g at hWhole hFind
    dsimp only at hWhole hFind
    obtain ⟨hLength, hRest⟩ := hWhole
    split at hFind
    · cases hFind
    by_cases hMagic :
        leAt (overlay (g.bytes h.file (32 + 4 * k) 4) magbuf) 0 = MULTIBOOT_HEADER_MAGIC
    · rw [if_pos hMagic] at hFind
      obtain rfl := Except.ok.inj hFind
      rcases hLength with hFour | hNone
      · -- the word that was read is the one that a header at this place starts with
        refine ⟨k, ⟨by omega, ?_, hFirst⟩, by rw [hFour]⟩
        rw [MagicAt, magic_ofFile, ← hMagic]
        exact leAt_congr fun i hi => (overlay_bytes (by omega)).symm
      · -- nothing was read, and the old word is not the magic
        rw [List.length_eq_zero_iff.mp hNone] at hMagic
        exact absurd hMagic hOld
    · rw [if_neg hMagic] at hFind
      have hNext := hRest.resolve_left hMagic
      rcases hLength with hFour | hNone
      · -- one more word of the file is looked at
        have hPlace : 32 + 4 * k + (g.bytes h.file (32 + 4 * k) 4).length = 32 + 4 * (k + 1) := by
          omega
        rw [hPlace] at hNext hFind
        refine ih (by omega) hMagic (fun j hj => ?_) hNext hFind
        rcases Nat.lt_or_eq_of_le (Nat.le_of_lt_succ hj) with hlt | rfl
        · exact hFirst j hlt
        · rw [MagicAt, magic_ofFile]
          refine fun hHere => hMagic (Eq.trans ?_ hHere)
          exact leAt_congr fun i hi => overlay_bytes (by omega)
      · -- nothing was read: the turn is spent, and the position stays
        rw [hNone, Nat.add_zero] at hNext hFind
        exact ih (by omega) hMagic hFirst hNext hFind

/-- From the start of the loop, which comes behind a header that was read completely. -/
theorem findMagic_first (hWhole : wholeWords h 256 sizeofExec (fun _ => 0) = true)
    (hFind : findMagic h 256 sizeofExec (fun _ => 0) = .ok pos) :
    ∃ i, FirstMagic h.file i ∧ pos = 32 + 4 * i + 4 :=
  findMagic_whole (k := 0) (by omega) (by decide) (fun j hj => by omega) hWhole hFind

/-- A seek back that does not fail goes back by the size of the magic. -/
theorem seekMagic_back {p : Nat} (hSeek : h.calls.scanSeek = true) (hPos : 4 ≤ pos)
    (hBack : seekMagic h pos = .ok p) : p = pos - 4 := by
  have hFirst : seekTo h.calls.scanSeek ((pos : Int) - 4) pos = ((pos : Int) - 4, pos - 4) := by
    rw [seekTo, if_pos ⟨hSeek, by omega⟩]
    congr 1
    omega
  unfold seekMagic at hBack
  rw [hFirst] at hBack
  dsimp only at hBack
  -- the second seek goes where the first one went, or fails
  split at hBack
  · cases hBack
  · rename_i hSame
    obtain rfl := Except.ok.inj hBack
    unfold seekTo at hSame ⊢
    split
    · dsimp only
      omega
    · rfl

/-- Then the multiboot header is read where the magic is. -/
theorem magic_of_whole {p : Nat} (hWhole : wholeWords h 256 sizeofExec (fun _ => 0) = true)
    (hFind : findMagic h 256 sizeofExec (fun _ => 0) = .ok pos)
    (hSeek : h.calls.scanSeek = true) (hBack : seekMagic h pos = .ok p) : MagicAt h.file p := by
  obtain ⟨i, hMagic, rfl⟩ := findMagic_first hWhole hFind
  rw [seekMagic_back hSeek (by omega) hBack, Nat.add_sub_cancel]
  exact hMagic.here

/-! ## The memory -/

/-- A size that does not round to nothing fits the rounded size. -/
theorem le_pageRound {w : Word} (h : (pageRound w).toNat ≠ 0) :
    w.toNat ≤ (pageRound w).toNat := by
  have hBound := w.isLt
  have hRest : ((4096 - w) % 4096 : Word).toNat = (2 ^ 32 - w.toNat + 4096) % 2 ^ 32 % 4096 := by
    rw [BitVec.toNat_umod, BitVec.toNat_sub]
    rfl
  rw [pageRound, BitVec.toNat_add, hRest] at h ⊢
  omega

/-- What the host grants, and `main` does not ask for it, is a mapping over the host program. -/
theorem mapFixed_fault_iff {ok : Bool} {addr : Word} {len : Nat} {s : Space} :
    mapFixed h ok addr len s = .error .fault ↔
      ¬ (ok = false ∨ addr.toNat % 4096 ≠ 0 ∨ len = 0 ∨ 2 ^ 32 ≤ addr.toNat + len) ∧
        hitsHost h addr len = true := by
  unfold mapFixed
  split
  · rename_i hRefused
    exact iff_of_false (by simp) fun h => h.1 hRefused
  · rename_i hGranted
    split
    · rename_i hHits
      exact iff_of_true rfl ⟨hGranted, hHits⟩
    · rename_i hClear
      exact iff_of_false (by simp) fun h => hClear h.2

/-- The addresses from `addr` on are apart from every array of at most `room` bytes below the
stack. -/
def OffStack (h : Host) (addr : Word) (len room : Nat) : Prop :=
  ∀ x : Word, (x - addr).toNat < len →
    ∀ n : Word, n.toNat ≤ room → n.toNat ≤ (x - (h.stackLow - n)).toNat

/-- A smaller array is apart as well. -/
theorem OffStack.mono {addr : Word} {len room room' : Nat} (hOff : OffStack h addr len room)
    (hLess : room' ≤ room) : OffStack h addr len room' :=
  fun x hx n hn => hOff x hx n (Nat.le_trans hn hLess)

/-- What the host grants lies above the stack, or below it and ends the room there. -/
theorem offStack_of_clear {addr : Word} {len room : Nat} (hFits : addr.toNat + len < 2 ^ 32)
    (hClear : ¬ (addr.toNat < h.stackEnd.toNat ∧ h.stackLow.toNat < addr.toNat + len))
    (hRoom : room ≤ h.stackLow.toNat)
    (hBelow : addr.toNat + len ≤ h.stackLow.toNat → addr.toNat + len + room ≤ h.stackLow.toNat) :
    OffStack h addr len room := by
  intro x hx n hn
  have hOrder := h.stackOrder
  by_cases hSide : addr.toNat + len ≤ h.stackLow.toNat
  · have hEnd := hBelow hSide
    bv_omega
  · bv_omega

/-- A region that is mapped does not wrap, is not empty, is zero, and leaves the stack alone. -/
theorem mapFixed_ends {ok : Bool} {addr : Word} {len : Nat} {s : Space}
    (hRoom : s.room ≤ h.stackLow.toNat) :
    Ends Stop.Proper (mapFixed h ok addr len s) fun s' =>
      addr.toNat + len < 2 ^ 32 ∧ len ≠ 0 ∧
        (∀ x, s'.mem x = if (x - addr).toNat < len then 0 else s.mem x) ∧
        s'.room ≤ s.room ∧ OffStack h addr len s'.room := by
  refine .guard (by decide) fun hGranted => .guard trivial fun hClear => .ok ?_
  simp only [not_or, Nat.not_le] at hGranted
  obtain ⟨-, -, hSome, hFits⟩ := hGranted
  have hStack : ¬ (addr.toNat < h.stackEnd.toNat ∧ h.stackLow.toNat < addr.toNat + len) := by
    rintro ⟨hLow, hHigh⟩
    exact hClear (by simp [hitsHost, Host.places, hLow, hHigh])
  refine ⟨hFits, hSome, fun x => by simp, ?_, ?_⟩
  · dsimp only
    split <;> omega
  · refine offStack_of_clear hFits hStack ?_ fun hBelow => ?_
    · dsimp only
      split <;> omega
    · dsimp only
      rw [if_pos hBelow]
      omega

/-- Text and data are mapped one after the other, and are zero. -/
structure Mapped (h : Host) (hdr : Exec) (mb : Multiboot) (s : Space) : Prop where
  textFits : mb.load_addr.toNat + (pageRound hdr.text).toNat < 2 ^ 32
  dataFits : (dataBase hdr mb.load_addr).toNat + (pageRound (hdr.data + hdr.bss)).toNat < 2 ^ 32
  textSome : (pageRound hdr.text).toNat ≠ 0
  dataSome : (pageRound (hdr.data + hdr.bss)).toNat ≠ 0
  textZero : ∀ x, (x - mb.load_addr).toNat < (pageRound hdr.text).toNat → s.mem x = 0
  dataZero : ∀ x, (x - dataBase hdr mb.load_addr).toNat < (pageRound (hdr.data + hdr.bss)).toNat →
    s.mem x = 0
  textOff  : OffStack h mb.load_addr (pageRound hdr.text).toNat s.room
  dataOff  : OffStack h (dataBase hdr mb.load_addr) (pageRound (hdr.data + hdr.bss)).toNat s.room

/-- After the three mappings text and data are zero, and neither of them wraps. -/
theorem mapAll_ends : Ends Stop.Proper (mapAll h hdr mb) (Mapped h hdr mb) := by
  unfold mapAll
  refine (mapFixed_ends h.stackRoom).bind fun s1 hLoad => ?_
  obtain ⟨-, -, -, hRoom1, -⟩ := hLoad
  have hRoom1 : s1.room ≤ h.stackLow.toNat := Nat.le_trans hRoom1 h.stackRoom
  refine (mapFixed_ends hRoom1).bind fun s2 hText => ?_
  obtain ⟨hTextFits, hTextSome, hTextMem, hRoom2, hTextOff⟩ := hText
  refine Ends.mono (mapFixed_ends (Nat.le_trans hRoom2 hRoom1)) fun s3 hData => ?_
  obtain ⟨hDataFits, hDataSome, hDataMem, hRoom3, hDataOff⟩ := hData
  refine ⟨hTextFits, hDataFits, hTextSome, hDataSome, fun x hx => ?_, fun x hx => ?_,
    hTextOff.mono hRoom3, hDataOff⟩
  · -- the data is mapped over nothing of the text, and is zero as well
    rw [hDataMem]
    split
    · rfl
    · rw [hTextMem, if_pos hx]
  · rw [hDataMem]
    exact if_pos hx

/-! ## The image -/

/-- A seek that the host grants leads to its target. -/
theorem seekTo_ok {target : Nat} {pos : Nat} : seekTo true target pos = ((target : Int), target) := by
  rw [seekTo, if_pos ⟨rfl, Int.natCast_nonneg _⟩]
  rfl

/-- A seek that fails leaves the position alone and answers -1. -/
theorem seekTo_fail {target : Int} {pos : Nat} : seekTo false target pos = (-1, pos) :=
  if_neg fun h => Bool.false_ne_true h.1

/-- The text is read to its place behind the header of the file, as far as it arrives. -/
theorem readText_ends {mem : Memory} : Ends Stop.Proper (readText h hdr mb mem pos) fun r =>
    r.1 = mem.write mb.load_addr (h.calls.textRead.bytes h.file 32 hdr.text.toNat) := by
  unfold readText
  -- a seek that fails leaves through the check of its result
  cases h.calls.textSeek with
  | false =>
    rw [seekTo_fail]
    exact .error (by decide)
  | true =>
    rw [seekTo_ok]
    exact .guard (by decide) fun _ => .guard (by decide) fun _ => .ok rfl

/-- The linking has put its table on the stack and patched the slots, and nothing else. -/
def LinkedApart (h : Host) (hdr : Exec) (mem : Memory) (st : Linking) : Prop :=
  ∀ x : Word, hdr.syms.toNat ≤ (x - symtAt h hdr).toNat → ¬ InSlot st.slots x → st.text x = mem x

/-- `hostlink` has room for its table, and changes the slots only. -/
theorem hostlink_ends {s : Space} : Ends Stop.Proper (hostlink h hdr s pos) fun r =>
    hdr.syms.toNat ≤ s.room ∧ LinkedApart h hdr s.mem r.1 := by
  refine .guard trivial fun hRoom => ?_
  dsimp only
  refine .guard (by decide) fun _ => ?_
  split
  · exact .error trivial
  · rename_i hTable
    obtain ⟨more, hMore, hSame⟩ := linkLoop_frame hTable
    rw [List.nil_append] at hMore
    refine .ok ⟨Nat.not_lt.mp hRoom, fun x hx hSlot => ?_⟩
    have hOut : ∀ slot ∈ more, 4 ≤ (x - slot).toNat :=
      fun slot hIn => Nat.not_lt.mp fun hLt => hSlot ⟨slot, hMore ▸ hIn, hLt⟩
    rw [hSame x hOut]
    exact Memory.write_apart (by simpa [symtAfter] using hx)

/-- The data is read behind the text, wherever the position of the file is. -/
theorem readData_ends {mem : Memory} : Ends Stop.Proper (readData h hdr mb mem pos) fun mem' =>
    mem' = mem.write (dataBase hdr mb.load_addr)
      (h.calls.dataRead.bytes h.file pos hdr.data.toNat) :=
  .guard (by decide) fun _ => .guard (by decide) fun _ => .ok rfl

/-- There is room for data and bss when their sizes do not wrap. -/
theorem Mapped.fits_iff {s : Space} (hMapped : Mapped h hdr mb s) :
    mb.load_addr.toNat + (pageRound hdr.text).toNat + hdr.data.toNat + hdr.bss.toNat ≤ 2 ^ 32 ↔
      hdr.data.toNat + hdr.bss.toNat < 2 ^ 32 := by
  have hTextSome := hMapped.textSome
  constructor
  · omega
  · intro hSizes
    have hRound := le_pageRound hMapped.dataSome
    have hDataFits := hMapped.dataFits
    have hBase : (dataBase hdr mb.load_addr).toNat =
        mb.load_addr.toNat + (pageRound hdr.text).toNat := by
      rw [dataBase, BitVec.toNat_add, Nat.mod_eq_of_lt hMapped.textFits]
    have hSum : (hdr.data + hdr.bss).toNat = hdr.data.toNat + hdr.bss.toNat := by
      rw [BitVec.toNat_add, Nat.mod_eq_of_lt hSizes]
    omega

section

variable {s : Space} {st : Linking} {file got data : List Byte} {i : Nat}

/-- The text is below the data, so the data leaves it alone; and what is not in a slot is
as it was read, with zeros behind. -/
theorem text_byte (hMapped : Mapped h hdr mb s) (hSizes : hdr.data.toNat + hdr.bss.toNat < 2 ^ 32)
    (hRoom : hdr.syms.toNat ≤ s.room) (hLinked : LinkedApart h hdr (s.mem.write mb.load_addr got) st)
    (hData : data.length ≤ hdr.data.toNat) (hi : i < hdr.text.toNat)
    (hSlot : ¬ InSlot st.slots (mb.load_addr + BitVec.ofNat 32 i)) :
    st.text.write (dataBase hdr mb.load_addr) data (mb.load_addr + BitVec.ofNat 32 i) =
      (got[i]?).getD 0 := by
  have hRound := le_pageRound hMapped.textSome
  have hFits := hMapped.fits_iff.mpr hSizes
  have hFar : data.length ≤ (mb.load_addr + BitVec.ofNat 32 i - dataBase hdr mb.load_addr).toNat := by
    unfold dataBase
    bv_omega
  have hIn : (mb.load_addr + BitVec.ofNat 32 i - mb.load_addr).toNat < (pageRound hdr.text).toNat := by
    bv_omega
  have hOff := hMapped.textOff _ hIn hdr.syms hRoom
  rw [Memory.write_apart hFar, hLinked _ hOff hSlot, Memory.write_offset (by omega),
    hMapped.textZero _ hIn]

/-- The text is in place, slots apart, when what the read left out is zero in the file. -/
theorem text_iff (hMapped : Mapped h hdr mb s) (hSizes : hdr.data.toNat + hdr.bss.toNat < 2 ^ 32)
    (hRoom : hdr.syms.toNat ≤ s.room) (hLinked : LinkedApart h hdr (s.mem.write mb.load_addr got) st)
    (hGot : ∀ i, i < got.length → got[i]? = file[32 + i]?)
    (hData : data.length ≤ hdr.data.toNat) (hi : i < hdr.text.toNat) :
    (∃ b, file[32 + i]? = some b ∧
      (st.text.write (dataBase hdr mb.load_addr) data (mb.load_addr + BitVec.ofNat 32 i) = b ∨
        InSlot st.slots (mb.load_addr + BitVec.ofNat 32 i))) ↔
    i < got.length ∨ file[32 + i]? = some 0 ∨
      (32 + i < file.length ∧ InSlot st.slots (mb.load_addr + BitVec.ofNat 32 i)) := by
  -- a byte that arrived is one of the file
  have hArrived : i < got.length → ∃ b, file[32 + i]? = some b ∧ got[i]? = some b := fun hLt =>
    ⟨got[i], (hGot i hLt).symm.trans (List.getElem?_eq_getElem hLt), List.getElem?_eq_getElem hLt⟩
  by_cases hSlot : InSlot st.slots (mb.load_addr + BitVec.ofNat 32 i)
  · simp only [hSlot, or_true, and_true]
    constructor
    · rintro ⟨b, hb⟩
      exact Or.inr (Or.inr (List.getElem?_eq_some_iff.mp hb).1)
    · rintro (hLt | hZero | hLt)
      · obtain ⟨b, hb, -⟩ := hArrived hLt
        exact ⟨b, hb⟩
      · exact ⟨0, hZero⟩
      · exact ⟨_, List.getElem?_eq_getElem hLt⟩
  · rw [text_byte hMapped hSizes hRoom hLinked hData hi hSlot]
    simp only [hSlot, or_false, and_false]
    by_cases hLt : i < got.length
    · obtain ⟨b, hb, hGotByte⟩ := hArrived hLt
      refine iff_of_true ⟨b, hb, ?_⟩ (Or.inl hLt)
      rw [hGotByte]
      rfl
    · rw [List.getElem?_eq_none (Nat.not_lt.mp hLt)]
      simp only [hLt, false_or]
      constructor
      · rintro ⟨b, hb, rfl⟩
        exact hb
      · exact fun hZero => ⟨0, hZero, rfl⟩

/-- Behind the text there are zeros before the linking, so that only slots are seen there. -/
theorem patched_eq (hMapped : Mapped h hdr mb s) (hSizes : hdr.data.toNat + hdr.bss.toNat < 2 ^ 32)
    (hRoom : hdr.syms.toNat ≤ s.room) (hLinked : LinkedApart h hdr (s.mem.write mb.load_addr got) st)
    (hGot : got.length ≤ hdr.text.toNat) (hi : i < hdr.data.toNat + hdr.bss.toNat) :
    st.text (dataBase hdr mb.load_addr + BitVec.ofNat 32 i) =
      st.patched (dataBase hdr mb.load_addr + BitVec.ofNat 32 i) := by
  unfold Linking.patched
  by_cases hSlot : InSlot st.slots (dataBase hdr mb.load_addr + BitVec.ofNat 32 i)
  · rw [if_pos hSlot]
  · have hTextRound := le_pageRound hMapped.textSome
    have hDataRound := le_pageRound hMapped.dataSome
    have hFits := hMapped.fits_iff.mpr hSizes
    have hSum : (hdr.data + hdr.bss).toNat = hdr.data.toNat + hdr.bss.toNat := by
      rw [BitVec.toNat_add, Nat.mod_eq_of_lt hSizes]
    -- the text that was read ends below
    have hFar : got.length ≤
        (dataBase hdr mb.load_addr + BitVec.ofNat 32 i - mb.load_addr).toNat := by
      unfold dataBase
      bv_omega
    have hIn : (dataBase hdr mb.load_addr + BitVec.ofNat 32 i - dataBase hdr mb.load_addr).toNat <
        (pageRound (hdr.data + hdr.bss)).toNat := by
      bv_omega
    have hOff := hMapped.dataOff _ hIn hdr.syms hRoom
    rw [if_neg hSlot, hLinked _ hOff hSlot, Memory.write_apart hFar, hMapped.dataZero _ hIn]

/-- The data is in place when the read gave it, and the linking what the read left out. -/
theorem data_iff {want : Option Byte} {pos : Nat} (hZero : ∀ i, i < hdr.data.toNat →
      st.text (dataBase hdr mb.load_addr + BitVec.ofNat 32 i) =
        st.patched (dataBase hdr mb.load_addr + BitVec.ofNat 32 i))
    (hGot : ∀ i, i < data.length → data[i]? = file[pos + i]?) (hi : i < hdr.data.toNat) :
    want = some (st.text.write (dataBase hdr mb.load_addr) data
        (dataBase hdr mb.load_addr + BitVec.ofNat 32 i)) ↔
    want = if i < data.length then file[pos + i]?
      else some (st.patched (dataBase hdr mb.load_addr + BitVec.ofNat 32 i)) := by
  rw [Memory.write_offset (by omega), hZero i hi]
  by_cases hLt : i < data.length
  · rw [if_pos hLt, ← hGot i hLt, List.getElem?_eq_getElem hLt]
    rfl
  · rw [if_neg hLt, List.getElem?_eq_none (Nat.not_lt.mp hLt)]
    rfl

/-- The data does not reach into the bss. -/
theorem bss_byte (hSizes : hdr.data.toNat + hdr.bss.toNat < 2 ^ 32)
    (hData : data.length ≤ hdr.data.toNat) (hi : i < hdr.bss.toNat) :
    st.text.write (dataBase hdr mb.load_addr) data
        (dataBase hdr mb.load_addr + BitVec.ofNat 32 (hdr.data.toNat + i)) =
      st.text (dataBase hdr mb.load_addr + BitVec.ofNat 32 (hdr.data.toNat + i)) := by
  rw [Memory.write_offset (by omega), List.getElem?_eq_none (by omega)]
  rfl

end

/-- At the jump, the image is loaded exactly when the host has answered so. -/
theorem loaded_iff {s : Space} {st : Linking} {mbpos : Nat}
    (hHdr : h.calls.hdrRead ≠ .fail →
      (h.calls.hdrRead.bytes h.file 0 sizeofExec).length = sizeofExec ∧
      hdr = Exec.ofFile h.file ∧ hdr.magic = I_MAGIC)
    (hMb : h.calls.mbRead ≠ .fail →
      (h.calls.mbRead.bytes h.file mbpos sizeofMultiboot).length = sizeofMultiboot ∧
      mb = Multiboot.ofFile h.file mbpos)
    (hSum : mb.magic + mb.flags + mb.checksum = 0) (hFlags : mb.flags &&& 0x10000 ≠ 0)
    (hClear : ¬ h.hostEnd > mb.load_addr) (hMapped : Mapped h hdr mb s)
    (hRoom : hdr.syms.toNat ≤ s.room) (hLinked : LinkedApart h hdr
      (s.mem.write mb.load_addr (h.calls.textRead.bytes h.file 32 hdr.text.toNat)) st) :
    Loaded h ⟨hdr, mb, hdr.entry, st.text.write (dataBase hdr mb.load_addr)
      (h.calls.dataRead.bytes h.file pos hdr.data.toNat), st.slots⟩ ↔
    Answered h hdr mbpos mb st pos := by
  have hData := Got.length_bytes_le h.calls.dataRead h.file pos hdr.data.toNat
  have hPatched {i : Nat} (hSizes : hdr.data.toNat + hdr.bss.toNat < 2 ^ 32)
      (hi : i < hdr.data.toNat + hdr.bss.toNat) :=
    patched_eq hMapped hSizes hRoom hLinked (Got.length_bytes_le ..) hi
  constructor
  -- what is in place at the jump says what the host must have answered
  · rintro ⟨hComplete, -, -, -, ⟨p, hAt⟩, hImage⟩
    have hMbRead := ne_fail_of_length hAt.complete (by decide)
    have hSizes := hMapped.fits_iff.mp hImage.fits
    refine ⟨ne_fail_of_length hComplete (by decide), hMbRead, ?_, hSizes, fun i hi => ?_,
      fun i hi => ?_, fun i hi => ?_⟩
    · rw [MagicAt, ← (hMb hMbRead).2]
      exact hAt.magic
    · exact (text_iff hMapped hSizes hRoom hLinked (fun _ => Got.getElem?_bytes) hData hi).mp
        (hImage.text i hi)
    · exact (data_iff (fun j hj => hPatched hSizes (by omega)) (fun _ => Got.getElem?_bytes) hi).mp
        (hImage.data i hi)
    · rw [← hPatched hSizes (by omega), ← bss_byte hSizes hData hi]
      exact hImage.bss i hi
  -- and the answers put everything in place
  · rintro ⟨hHdrRead, hMbRead, hMagic, hSizes, hTextHeard, hDataHeard, hBss⟩
    obtain ⟨hComplete, hFields, hHdrMagic⟩ := hHdr hHdrRead
    obtain ⟨hMbComplete, hMbFields⟩ := hMb hMbRead
    have hMbMagic : mb.magic = MULTIBOOT_HEADER_MAGIC := hMbFields ▸ hMagic
    refine ⟨hComplete, hFields, hHdrMagic, rfl,
      ⟨mbpos, hMbComplete, hMbFields, hMbMagic, hSum, hFlags, hClear⟩,
      hMapped.fits_iff.mpr hSizes, fun i hi => ?_, fun i hi => ?_,
      fun i (hi : i < hdr.bss.toNat) => ?_⟩
    · exact (text_iff hMapped hSizes hRoom hLinked (fun _ => Got.getElem?_bytes) hData hi).mpr
        (hTextHeard i hi)
    · exact (data_iff (fun j hj => hPatched hSizes (by omega)) (fun _ => Got.getElem?_bytes) hi).mpr
        (hDataHeard i hi)
    · exact ((bss_byte hSizes hData hi).trans (hPatched hSizes (by omega))).trans (hBss i hi)

end

/-- A header, a text of a multiboot header and four more bytes, four bytes of data, and
a symbol table of one entry. -/
def smallFile : List Byte :=
  be32 I_MAGIC ++ be32 36 ++ be32 4 ++ be32 4 ++ be32 7 ++ be32 0x70200020 ++ be32 0 ++ be32 0 ++
  Memory.le32 MULTIBOOT_HEADER_MAGIC ++ Memory.le32 0x10003 ++
  Memory.le32 (0 - MULTIBOOT_HEADER_MAGIC - 0x10003) ++ Memory.le32 0x70200000 ++
  Memory.le32 0x70200000 ++ Memory.le32 0 ++ Memory.le32 0 ++ Memory.le32 0x70200020 ++
  [0x90, 0x90, 0x90, 0xC3] ++ [1, 2, 3, 4] ++ be32 0x70200020 ++ [0xD4, 0x78, 0]

/-- Every call succeeds; the read of the text gives what `textRead` says. -/
def smallCalls (textRead : Got) : Calls where
  opened := true
  hdrRead := .upTo 32
  scanRead _ := .upTo 4
  scanSeek := true
  mbSeek := true
  mbRead := .upTo 32
  mapLoad := true
  mapText := true
  mapData := true
  textSeek := true
  textRead := textRead
  linkTell := true
  linkSeek := true
  linkRead := .upTo 7
  linkRestore := true
  protect := true
  dataRead := .upTo 4

def smallHost (textRead : Got) : Host where
  argc := 2
  file := smallFile
  calls := smallCalls textRead
  addr := smallAddr
  phys := 0x70000000
  hostEnd := 0x70010000
  stackLow := 0xFFFD0000
  stackEnd := 0xFFFE0000
  stack := 8192
  stackOrder := by decide
  stackRoom := by decide
  others := [(0x72000000, 0x72021000), (0xF7C00000, 0xF7E00000)]
  mem _ := 0
  access := { readable := fun _ => false, writable := fun _ => false }
  hdrWas _ := 0
  mbhdrWas _ := 0
  symtWas _ := 0
  above := []

/-- A stack in the megabyte below the load address is lost. -/
example : ¬ heard { smallHost (.upTo 36) with
    stackLow := 0x70180000, stackEnd := 0x70190000
    stackOrder := by decide, stackRoom := by decide } := by
  decide +kernel

end Glendum
