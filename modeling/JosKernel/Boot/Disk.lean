import JosKernel.Foundation.Memory

/-!
# Reading the disk

`readsect` and `readseg` of `boot/main.c`, against the task file of the first IDE channel in
LBA mode.  The disk is a sequence of bytes, 512 for each sector; `waitdisk` only waits, and
the disk is taken to become ready.  Addresses and offsets are 32-bit and wrap.

Principal results: `readsect_spec` — one sector is copied; `readseg_spec` — the sectors of a
range are copied, and nothing else is stored.
-/

set_option autoImplicit false

namespace Jos

def SECTSIZE : Nat := 512

theorem SECTSIZE_eq : SECTSIZE = 512 := rfl

/-- A disk, byte by byte. -/
abbrev Disk := Nat → Byte

/-- The registers at ports `0x1F2` to `0x1F6`, and the bytes to be read from port `0x1F0`. -/
structure Ata where
  count : Byte
  lbaLow : Byte
  lbaMid : Byte
  lbaHigh : Byte
  device : Byte
  data : List Byte

/-- The memory and the disk controller. -/
structure Pc where
  mem : Memory
  ata : Ata

/-- The 28-bit sector number in the registers. -/
def Ata.lba (t : Ata) : Nat :=
  t.lbaLow.toNat + 256 * t.lbaMid.toNat + 65536 * t.lbaHigh.toNat +
    16777216 * (t.device &&& 0x0F).toNat

variable (disk : Disk)

/-- Command `0x20`: drive 0 in LBA mode returns the sectors. -/
def Ata.readSectors (t : Ata) : Ata :=
  let sectors := (List.range (SECTSIZE * t.count.toNat)).map fun j => disk (SECTSIZE * t.lba + j)
  { t with data := if t.device &&& 0x50 = 0x40 then sectors else [] }

def Ata.outb (port : Nat) (data : Byte) (t : Ata) : Ata :=
  match port with
  | 0x1F2 => { t with count := data }
  | 0x1F3 => { t with lbaLow := data }
  | 0x1F4 => { t with lbaMid := data }
  | 0x1F5 => { t with lbaHigh := data }
  | 0x1F6 => { t with device := data }
  | 0x1F7 => if data = 0x20 then t.readSectors disk else t
  | _ => t

/-- `insl(0x1F0, addr, cnt)`. -/
def Pc.insl (addr cnt : Nat) (m : Pc) : Pc :=
  { mem := writeBytes m.mem addr (m.ata.data.take (4 * cnt))
    ata := { m.ata with data := m.ata.data.drop (4 * cnt) } }

/-- The task file behind the port writes of `readsect`. -/
def Ata.program (offset : Nat) (t : Ata) : Ata :=
  let t := t.outb disk 0x1F2 1
  let t := t.outb disk 0x1F3 (BitVec.ofNat 8 offset)
  let t := t.outb disk 0x1F4 (BitVec.ofNat 8 (offset >>> 8))
  let t := t.outb disk 0x1F5 (BitVec.ofNat 8 (offset >>> 16))
  let t := t.outb disk 0x1F6 (BitVec.ofNat 8 (offset >>> 24 ||| 0xE0))
  t.outb disk 0x1F7 0x20

/-- `readsect`. -/
def readsect (dst offset : Nat) (m : Pc) : Pc :=
  Pc.insl dst (SECTSIZE / 4) { m with ata := m.ata.program disk offset }

section

variable {μ : Type} (readsect : Nat → Nat → μ → Option μ)

/-- `while (pa < end_pa)`, for a machine with its `readsect`: `none` is a loop that does not end
    within the budget. -/
def readsegLoopBy : Nat → Nat → Nat → Nat → μ → Option μ
  | 0, _, _, _, _ => none
  | fuel + 1, pa, end_pa, offset, m =>
      if pa < end_pa then
        (readsect pa offset m).bind
          (readsegLoopBy fuel ((pa + SECTSIZE) % 4294967296) end_pa ((offset + 1) % 4294967296))
      else some m

/-- `readseg`; a loop over more sectors than memory has starts again at address 0. -/
def readsegBy (pa count offset : Nat) (m : μ) : Option μ :=
  let end_pa := (pa + count) % 4294967296
  -- round down to sector boundary
  let pa := pa - pa % SECTSIZE
  -- translate from bytes to sectors, and kernel starts at sector 1
  let offset := offset / SECTSIZE + 1
  readsegLoopBy readsect (8388608 + 1) pa end_pa offset m

end

/-- `readseg` with a disk that is always ready, and its loop. -/
def readsegLoop : Nat → Nat → Nat → Nat → Pc → Option Pc :=
  readsegLoopBy fun dst offset m => some (readsect disk dst offset m)

def readseg : Nat → Nat → Nat → Pc → Option Pc :=
  readsegBy fun dst offset m => some (readsect disk dst offset m)

theorem readsegLoop_succ (fuel pa end_pa offset : Nat) (m : Pc) :
    readsegLoop disk (fuel + 1) pa end_pa offset m =
      if pa < end_pa then
        readsegLoop disk fuel ((pa + SECTSIZE) % 4294967296) end_pa ((offset + 1) % 4294967296)
          (readsect disk pa offset m)
      else some m := rfl

theorem readseg_eq (pa count offset : Nat) (m : Pc) :
    readseg disk pa count offset m =
      readsegLoop disk (8388608 + 1) (pa - pa % SECTSIZE) ((pa + count) % 4294967296)
        (offset / SECTSIZE + 1) m := rfl

/-! ## One sector -/

theorem toNat_low (n : Nat) : (BitVec.ofNat 8 n).toNat = n % 256 := BitVec.toNat_ofNat n 8

set_option maxRecDepth 4000 in
theorem device_spec : ∀ h < 16,
    ((BitVec.ofNat 8 (h ||| 0xE0) : Byte) &&& 0x0F).toNat = h ∧
      (BitVec.ofNat 8 (h ||| 0xE0) : Byte) &&& 0x50 = 0x40 := by decide

/-- The registers decode to the sector that was asked for, on drive 0. -/
theorem program_data {offset : Nat} (h : offset < 268435456) (t : Ata) :
    (t.program disk offset).data =
      (List.range SECTSIZE).map fun j => disk (SECTSIZE * offset + j) := by
  have hhigh : offset >>> 24 < 16 := by
    rw [Nat.shiftRight_eq_div_pow]
    omega
  obtain ⟨hlba, hmode⟩ := device_spec (offset >>> 24) hhigh
  have hregs : t.program disk offset = Ata.readSectors disk
      ⟨1, BitVec.ofNat 8 offset, BitVec.ofNat 8 (offset >>> 8), BitVec.ofNat 8 (offset >>> 16),
        BitVec.ofNat 8 (offset >>> 24 ||| 0xE0), t.data⟩ := rfl
  have hsector : (offset % 256 + 256 * ((offset >>> 8) % 256) + 65536 * ((offset >>> 16) % 256) +
      16777216 * (offset >>> 24)) = offset := by
    simp only [Nat.shiftRight_eq_div_pow]
    omega
  rw [hregs, Ata.readSectors]
  simp only [if_pos hmode, Ata.lba, hlba, toNat_low, hsector]
  rfl

/-- **One sector is copied to memory.** -/
theorem readsect_spec (dst : Nat) {offset : Nat} (h : offset < 268435456) (m : Pc) (x : Nat) :
    (readsect disk dst offset m).mem x =
      if dst ≤ x ∧ x < dst + 512 then disk (512 * offset + (x - dst)) else m.mem x := by
  show writeBytes m.mem dst (((m.ata.program disk offset).data).take 512) x = _
  rw [program_data disk h, List.take_of_length_le (by simp [SECTSIZE]), writeBytes_apply]
  by_cases hx : dst ≤ x ∧ x < dst + 512
  · rw [dif_pos (by simp [SECTSIZE]; omega), if_pos hx]
    simp [SECTSIZE]
  · rw [dif_neg (by simp [SECTSIZE]; omega), if_neg hx]

/-! ## A range of sectors -/

/-- The loop copies every sector that starts below `end_pa`. -/
theorem readsegLoop_spec : ∀ (fuel pa end_pa offset : Nat) (m : Pc), pa % 512 = 0 →
    end_pa ≤ 4294966784 → offset + (end_pa - pa + 511) / 512 ≤ 268435455 →
    (end_pa - pa + 511) / 512 < fuel →
    ∃ m', readsegLoop disk fuel pa end_pa offset m = some m' ∧ ∀ x, m'.mem x =
      if pa ≤ x ∧ x / 512 * 512 < end_pa then disk (512 * offset + (x - pa)) else m.mem x
  | 0, _, _, _, _, _, _, _, h => absurd h (Nat.not_lt_zero _)
  | fuel + 1, pa, end_pa, offset, m, halign, hend, hoffset, hfuel => by
    rw [readsegLoop_succ, SECTSIZE_eq]
    by_cases hlt : pa < end_pa
    · rw [if_pos hlt, Nat.mod_eq_of_lt (by omega), Nat.mod_eq_of_lt (by omega)]
      obtain ⟨m', hrun, hmem⟩ := readsegLoop_spec fuel (pa + 512) end_pa (offset + 1)
        (readsect disk pa offset m) (by omega) hend (by omega) (by omega)
      refine ⟨m', hrun, fun x => ?_⟩
      rw [hmem x, readsect_spec disk pa (by omega)]
      by_cases hfirst : pa ≤ x ∧ x < pa + 512
      · -- the sector read in this iteration
        rw [if_neg (by omega), if_pos hfirst, if_pos (by omega)]
      · by_cases hlater : pa + 512 ≤ x ∧ x / 512 * 512 < end_pa
        · rw [if_pos hlater, if_pos (by omega),
            show 512 * (offset + 1) + (x - (pa + 512)) = 512 * offset + (x - pa) by omega]
        · rw [if_neg hlater, if_neg hfirst, if_neg (by omega)]
    · rw [if_neg hlt]
      refine ⟨m, rfl, fun x => ?_⟩
      rw [if_neg (by omega)]

/-- The bytes of the kernel image, which starts at sector 1. -/
def image : Memory := fun k => disk (SECTSIZE + k)

/-- The address belongs to a sector that `readseg(pa, count, _)` stores. -/
def Covers (pa count x : Nat) : Prop := pa / 512 ≤ x / 512 ∧ x / 512 * 512 < pa + count

instance (pa count x : Nat) : Decidable (Covers pa count x) := inferInstanceAs (Decidable (_ ∧ _))

/-- **The sectors of the range are copied, and nothing else is stored.** -/
theorem readseg_spec {pa count offset : Nat} (hend : pa + count ≤ 4294966784)
    (hoffset : offset < 4294967296) (m : Pc) :
    ∃ m', readseg disk pa count offset m = some m' ∧ ∀ x, m'.mem x =
      if Covers pa count x then image disk (offset / 512 * 512 + (x - pa / 512 * 512))
      else m.mem x := by
  rw [readseg_eq, Nat.mod_eq_of_lt (show pa + count < 4294967296 by omega), SECTSIZE_eq]
  obtain ⟨m', hrun, hmem⟩ := readsegLoop_spec disk (8388608 + 1) (pa - pa % 512) (pa + count)
    (offset / 512 + 1) m (by omega) hend (by omega) (by omega)
  refine ⟨m', hrun, fun x => ?_⟩
  rw [hmem x]
  by_cases hx : Covers pa count x
  · rw [if_pos hx]
    unfold Covers at hx
    rw [if_pos (by omega), image, SECTSIZE_eq, show 512 * (offset / 512 + 1) +
      (x - (pa - pa % 512)) = 512 + (offset / 512 * 512 + (x - pa / 512 * 512)) by omega]
  · rw [if_neg hx]
    unfold Covers at hx
    rw [if_neg (by omega)]

end Jos
