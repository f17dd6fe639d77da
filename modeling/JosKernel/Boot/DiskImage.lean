import Mathlib.Data.List.GetD
import JosKernel.Boot.Handover
import JosKernel.Boot.Start

/-!
# The disk image

How the build puts the two programs on a disk, and what the firmware takes of it: `boot/sign.pl`
pads the boot sector and signs it, `kern/Makefrag` copies it and the kernel onto a disk of zeros,
and the firmware loads the first sector if it is signed.

* `signBoot_eq_none_iff`, `signBoot_twice` — what is refused: more than 510 bytes, so a signed
  sector too.
* `image_kernelImg` — the kernel starts at sector 1.
* `BootSymbols.Linked.loaded` — the firmware accepts the first sector, and the boot code is in
  memory where it was linked.
-/

set_option autoImplicit false

namespace Jos

/-- `boot/sign.pl` on the content of its file; `none` is `exit 1`. -/
def signBoot (file : List Byte) : Option (List Byte) :=
  let buf := file.take 1000
  let n := buf.length
  if n > 510 then none else some (buf ++ List.replicate (510 - n) 0 ++ [0x55, 0xAA])

/-- `dd if=src of=img seek=seek conv=notrunc`. -/
def dd (src : List Byte) (seek : Nat) (img : Disk) : Disk := writeBytes img (SECTSIZE * seek) src

/-- The rule for `kernel.img`.  Behind the end of the file the disk has zeros, too. -/
def kernelImg (boot kernel : List Byte) : Disk := dd kernel 1 (dd boot 0 fun _ => 0)

/-- The bytes of a file. -/
def fileBytes (file : List Byte) : Memory := fun k => file.getD k 0

/-- A sector at `0x7c00`. -/
def BootCpu.load (bytes : List Byte) (c : BootCpu) : BootCpu :=
  { c with mem := writeBytes c.mem 0x7c00 bytes }

/-- The first sector of a disk. -/
def firstSector (disk : Disk) : List Byte := (List.range SECTSIZE).map disk

/-- The firmware loads the first sector and starts it if it has the signature. -/
def firmware (disk : Disk) (c : BootCpu) : Option BootCpu :=
  if disk 510 = 0x55 ∧ disk 511 = 0xAA then some (c.load (firstSector disk)) else none

theorem BootCpu.AtStart.load {c : BootCpu} (h : c.AtStart) (bytes : List Byte) :
    (c.load bytes).AtStart := ⟨h.k, h.real, h.cs, h.limit⟩

/-! ## The boot sector -/

variable {boot sector kernel : List Byte}

theorem signBoot_eq_none_iff : signBoot boot = none ↔ 510 < boot.length := by
  simp only [signBoot, List.length_take]
  split
  · next h => exact iff_of_true rfl (by omega)
  · next h => exact iff_of_false (fun h => Option.some_ne_none _ h) (by omega)

/-- A signed sector is the file, zeros and the signature. -/
theorem signBoot_eq_some (h : signBoot boot = some sector) : boot.length ≤ 510 ∧
    sector = boot ++ List.replicate (510 - boot.length) 0 ++ [0x55, 0xAA] := by
  have hlen : boot.length ≤ 510 := by
    by_contra hlong
    rw [signBoot_eq_none_iff.mpr (by omega)] at h
    cases h
  simp only [signBoot, List.take_of_length_le (show boot.length ≤ 1000 by omega),
    if_neg (show ¬boot.length > 510 by omega)] at h
  exact ⟨hlen, (Option.some.inj h).symm⟩

theorem signBoot_length (h : signBoot boot = some sector) : sector.length = SECTSIZE := by
  obtain ⟨hlen, rfl⟩ := signBoot_eq_some h
  simp only [List.length_append, List.length_replicate, List.length_cons, List.length_nil,
    SECTSIZE_eq]
  omega

/-- A file is not signed twice. -/
theorem signBoot_twice (h : signBoot boot = some sector) : signBoot sector = none := by
  rw [signBoot_eq_none_iff, signBoot_length h]
  decide

theorem signBoot_front (h : signBoot boot = some sector) {k : Nat} (hk : k < boot.length) :
    fileBytes sector k = fileBytes boot k := by
  obtain ⟨-, rfl⟩ := signBoot_eq_some h
  simp only [fileBytes, List.append_assoc, List.getD_append _ _ _ _ hk]

theorem signBoot_signature (h : signBoot boot = some sector) :
    fileBytes sector 510 = 0x55 ∧ fileBytes sector 511 = 0xAA := by
  obtain ⟨hlen, rfl⟩ := signBoot_eq_some h
  have hfront : (boot ++ List.replicate (510 - boot.length) (0 : Byte)).length = 510 := by
    rw [List.length_append, List.length_replicate]
    omega
  constructor
  · rw [fileBytes, List.getD_append_right _ _ _ _ (by omega), hfront]
    rfl
  · rw [fileBytes, List.getD_append_right _ _ _ _ (by omega), hfront]
    rfl

/-! ## The disk -/

theorem writeBytes_file (bs : List Byte) (mem : Memory) {a x : Nat} (h0 : a ≤ x)
    (h1 : x < a + bs.length) : writeBytes mem a bs x = fileBytes bs (x - a) := by
  rw [writeBytes_apply, dif_pos ⟨h0, by omega⟩, fileBytes, List.getD_eq_getElem]

/-- The first sector. -/
theorem kernelImg_first (hlen : sector.length = SECTSIZE) {k : Nat} (hk : k < SECTSIZE) :
    kernelImg sector kernel k = fileBytes sector k := by
  have hs := SECTSIZE_eq
  rw [kernelImg, dd, writeBytes_of_lt _ _ (by omega), dd, writeBytes_file _ _ (by omega) (by omega)]
  rfl

/-- **The kernel starts at sector 1.** -/
theorem image_kernelImg (hlen : sector.length = SECTSIZE) :
    image (kernelImg sector kernel) = fileBytes kernel := by
  have hs := SECTSIZE_eq
  funext k
  rw [image, kernelImg, dd]
  by_cases hk : k < kernel.length
  · rw [writeBytes_file _ _ (by omega) (by omega), show SECTSIZE + k - SECTSIZE * 1 = k by omega]
  · rw [writeBytes_of_ge _ _ (by omega), dd, writeBytes_of_ge _ _ (by omega), fileBytes,
      List.getD_eq_default _ _ (by omega)]

/-! ## The start -/

/-- The boot sector's code and table in its file, linked at `0x7c00`. -/
structure BootSymbols.Linked (s : BootSymbols) (boot : List Byte) : Prop where
  start : s.start = 0x7c00
  code : ∀ k ≤ 29, s.offset k < boot.length
  gdt : 0x7c00 ≤ s.gdt.toNat ∧ s.gdt.toNat + 24 ≤ 0x7c00 + boot.length
  gdtdesc : 0x7c00 ≤ s.gdtdesc.toNat ∧ s.gdtdesc.toNat + 6 ≤ 0x7c00 + boot.length
  table : ∀ k < 24, fileBytes boot (s.gdt.toNat - 0x7c00 + k) =
    (segNullBytes ++ segBytes (STA_X ||| STA_R) 0x0 0xffffffff ++
      segBytes STA_W 0x0 0xffffffff).getD k 0
  pointer : ∀ k < 6, fileBytes boot (s.gdtdesc.toNat - 0x7c00 + k) =
    (wordDirective 0x17 ++ wordBytes s.gdt).getD k 0

theorem firstSector_bytes (hlen : sector.length = SECTSIZE) :
    firstSector (kernelImg sector kernel) = sector := by
  refine List.ext_getElem ?_ fun k _ hk => ?_
  · rw [firstSector, List.length_map, List.length_range, hlen]
  · simp only [firstSector, List.getElem_map, List.getElem_range]
    rw [kernelImg_first hlen (by omega), fileBytes, List.getD_eq_getElem _ _ hk]

theorem load_sector (h : signBoot boot = some sector) (c : BootCpu) {a : Nat} (h0 : 0x7c00 ≤ a)
    (h1 : a < 0x7c00 + boot.length) : (c.load sector).mem a = fileBytes boot (a - 0x7c00) := by
  have hlen := signBoot_length h
  have hs := SECTSIZE_eq
  obtain ⟨hshort, -⟩ := signBoot_eq_some h
  rw [← signBoot_front h (by omega)]
  exact writeBytes_file sector c.mem h0 (by omega)

/-- **The firmware accepts the sector**, and the boot code is where it was linked. -/
theorem BootSymbols.Linked.loaded {s : BootSymbols} (hs : s.Linked boot)
    (h : signBoot boot = some sector) (c : BootCpu) :
    firmware (kernelImg sector kernel) c = some (c.load sector) ∧
      s.Loaded (c.load sector).mem := by
  obtain ⟨hlen, -⟩ := signBoot_eq_some h
  constructor
  · obtain ⟨hlow, hhigh⟩ := signBoot_signature h
    rw [firmware, kernelImg_first (signBoot_length h) (by decide),
      kernelImg_first (signBoot_length h) (by decide), if_pos ⟨hlow, hhigh⟩,
      firstSector_bytes (signBoot_length h)]
  · have hgdt := hs.gdt
    have hgdtdesc := hs.gdtdesc
    constructor
    case start => exact hs.start
    case code =>
      intro k hk
      have := hs.code k hk
      omega
    case gdt => omega
    case gdtdesc => omega
    case table =>
      intro k hk
      rw [load_sector h c (by omega) (by omega), Nat.sub_add_comm hgdt.1, hs.table k hk]
    case pointer =>
      intro k hk
      rw [load_sector h c (by omega) (by omega), Nat.sub_add_comm hgdtdesc.1,
        hs.pointer k hk]

end Jos
