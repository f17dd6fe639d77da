import JosKernel.Foundation.Memory

/-!
# Segment descriptors

`inc/mmu.h` packs a segment descriptor twice: the macro `SEG` of the assembler lays its bytes
down, and the macro of C fills the bit fields of `struct Segdesc`.  The processor reads a base, a
limit and the access rights out of the eight bytes.

Principal results: `segdescAt_bytes` — the bit fields are read back; `segment_round_trip` — what
the processor finds is what either macro was given, with the limit rounded up to a page.
-/

set_option autoImplicit false

namespace Jos

/-- `struct Segdesc`. -/
structure Segdesc where
  sd_lim_15_0 : BitVec 16
  sd_base_15_0 : BitVec 16
  sd_base_23_16 : BitVec 8
  sd_type : BitVec 4
  sd_s : BitVec 1
  sd_dpl : BitVec 2
  sd_p : BitVec 1
  sd_lim_19_16 : BitVec 4
  sd_avl : BitVec 1
  sd_rsv1 : BitVec 1
  sd_db : BitVec 1
  sd_g : BitVec 1
  sd_base_31_24 : BitVec 8
deriving DecidableEq

def STA_X : Word := 0x8
def STA_W : Word := 0x2
def STA_R : Word := 0x2
def STA_A : Word := 0x1

/-- `SEG(type, base, lim, dpl)` of C; each field keeps the low bits of its value. -/
def SEG (type base lim dpl : Word) : Segdesc where
  sd_lim_15_0 := ((lim >>> 12) &&& 0xffff).setWidth 16
  sd_base_15_0 := (base &&& 0xffff).setWidth 16
  sd_base_23_16 := ((base >>> 16) &&& 0xff).setWidth 8
  sd_type := type.setWidth 4
  sd_s := 1
  sd_dpl := dpl.setWidth 2
  sd_p := 1
  sd_lim_19_16 := (lim >>> 28).setWidth 4
  sd_avl := 0
  sd_rsv1 := 0
  sd_db := 1
  sd_g := 1
  sd_base_31_24 := (base >>> 24).setWidth 8

/-- `.word v`. -/
def wordDirective (v : Word) : List Byte := [v.setWidth 8, (v >>> 8).setWidth 8]

/-- `SEG_NULL` of the assembler. -/
def segNullBytes : List Byte := wordDirective 0 ++ wordDirective 0 ++ [0, 0, 0, 0]

/-- `SEG(type,base,lim)` of the assembler. -/
def segBytes (type base lim : Word) : List Byte :=
  wordDirective ((lim >>> 12) &&& 0xffff) ++ wordDirective (base &&& 0xffff) ++
    [((base >>> 16) &&& 0xff).setWidth 8, ((0x90 : Word) ||| type).setWidth 8,
      ((0xC0 : Word) ||| ((lim >>> 28) &&& 0xf)).setWidth 8, ((base >>> 24) &&& 0xff).setWidth 8]

/-- The bytes of the bit fields, from the lowest bit up. -/
def Segdesc.bytes (d : Segdesc) : List Byte :=
  [d.sd_lim_15_0.setWidth 8, (d.sd_lim_15_0 >>> 8).setWidth 8,
   d.sd_base_15_0.setWidth 8, (d.sd_base_15_0 >>> 8).setWidth 8,
   d.sd_base_23_16,
   d.sd_p ++ d.sd_dpl ++ d.sd_s ++ d.sd_type,
   d.sd_g ++ d.sd_db ++ d.sd_rsv1 ++ d.sd_avl ++ d.sd_lim_19_16,
   d.sd_base_31_24]

/-! ## The processor -/

/-- The descriptor at an address. -/
def segdescAt (mem : Memory) (a : Nat) : Segdesc where
  sd_lim_15_0 := mem (a + 1) ++ mem a
  sd_base_15_0 := mem (a + 3) ++ mem (a + 2)
  sd_base_23_16 := mem (a + 4)
  sd_type := (mem (a + 5)).extractLsb' 0 4
  sd_s := (mem (a + 5)).extractLsb' 4 1
  sd_dpl := (mem (a + 5)).extractLsb' 5 2
  sd_p := (mem (a + 5)).extractLsb' 7 1
  sd_lim_19_16 := (mem (a + 6)).extractLsb' 0 4
  sd_avl := (mem (a + 6)).extractLsb' 4 1
  sd_rsv1 := (mem (a + 6)).extractLsb' 5 1
  sd_db := (mem (a + 6)).extractLsb' 6 1
  sd_g := (mem (a + 6)).extractLsb' 7 1
  sd_base_31_24 := mem (a + 7)

def Segdesc.base (d : Segdesc) : Word := d.sd_base_31_24 ++ d.sd_base_23_16 ++ d.sd_base_15_0

/-- The last offset; with the granularity bit the limit counts pages. -/
def Segdesc.limit (d : Segdesc) : Word :=
  if d.sd_g = 1 then d.sd_lim_19_16 ++ d.sd_lim_15_0 ++ (0xFFF : BitVec 12)
  else (d.sd_lim_19_16 ++ d.sd_lim_15_0 : BitVec 20).setWidth 32

/-! ## Round trips -/

theorem access_fields : ∀ (p : BitVec 1) (dpl : BitVec 2) (s : BitVec 1) (type : BitVec 4),
    (p ++ dpl ++ s ++ type : Byte).extractLsb' 0 4 = type ∧
      (p ++ dpl ++ s ++ type : Byte).extractLsb' 4 1 = s ∧
      (p ++ dpl ++ s ++ type : Byte).extractLsb' 5 2 = dpl ∧
      (p ++ dpl ++ s ++ type : Byte).extractLsb' 7 1 = p := by decide +kernel

theorem flag_fields : ∀ (g db rsv avl : BitVec 1) (lim : BitVec 4),
    (g ++ db ++ rsv ++ avl ++ lim : Byte).extractLsb' 0 4 = lim ∧
      (g ++ db ++ rsv ++ avl ++ lim : Byte).extractLsb' 4 1 = avl ∧
      (g ++ db ++ rsv ++ avl ++ lim : Byte).extractLsb' 5 1 = rsv ∧
      (g ++ db ++ rsv ++ avl ++ lim : Byte).extractLsb' 6 1 = db ∧
      (g ++ db ++ rsv ++ avl ++ lim : Byte).extractLsb' 7 1 = g := by decide +kernel

/-- The two bytes of a field. -/
theorem halves (v : BitVec 16) : (v >>> 8).setWidth 8 ++ v.setWidth 8 = v := by
  refine BitVec.eq_of_getLsbD_eq fun i hi => ?_
  rcases (by omega : i < 8 ∨ 8 ≤ i) with h | h <;>
    simp (disch := omega) only [BitVec.getLsbD_append, BitVec.getLsbD_setWidth,
      BitVec.getLsbD_ushiftRight, if_pos, if_neg, decide_eq_true, Bool.true_and]
  exact congrArg _ (by omega)

/-- **The bit fields are read back.** -/
theorem segdescAt_bytes (d : Segdesc) {mem : Memory} {a : Nat}
    (h : ∀ k < 8, mem (a + k) = d.bytes.getD k 0) : segdescAt mem a = d := by
  have h0 : mem a = d.sd_lim_15_0.setWidth 8 := h 0 (by decide)
  have h1 : mem (a + 1) = (d.sd_lim_15_0 >>> 8).setWidth 8 := h 1 (by decide)
  have h2 : mem (a + 2) = d.sd_base_15_0.setWidth 8 := h 2 (by decide)
  have h3 : mem (a + 3) = (d.sd_base_15_0 >>> 8).setWidth 8 := h 3 (by decide)
  have h4 : mem (a + 4) = d.sd_base_23_16 := h 4 (by decide)
  have h5 : mem (a + 5) = d.sd_p ++ d.sd_dpl ++ d.sd_s ++ d.sd_type := h 5 (by decide)
  have h6 : mem (a + 6) = d.sd_g ++ d.sd_db ++ d.sd_rsv1 ++ d.sd_avl ++ d.sd_lim_19_16 :=
    h 6 (by decide)
  have h7 : mem (a + 7) = d.sd_base_31_24 := h 7 (by decide)
  obtain ⟨htype, hs, hdpl, hp⟩ := access_fields d.sd_p d.sd_dpl d.sd_s d.sd_type
  obtain ⟨hlim, havl, hrsv, hdb, hg⟩ :=
    flag_fields d.sd_g d.sd_db d.sd_rsv1 d.sd_avl d.sd_lim_19_16
  rw [segdescAt, h0, h1, h2, h3, h4, h5, h6, h7, htype, hs, hdpl, hp, hlim, havl, hrsv, hdb, hg,
    halves, halves]

theorem base_pack (base : Word) :
    (base >>> 24).setWidth 8 ++ ((base >>> 16) &&& 0xff).setWidth 8 ++
      (base &&& 0xffff).setWidth 16 = base := by
  refine BitVec.eq_of_getLsbD_eq fun i hi => ?_
  have hlow : ∀ k < 16, (0xffff : Word).getLsbD k = true := by decide
  have hmid : ∀ k < 8, (0xff : Word).getLsbD k = true := by decide
  rcases (by omega : i < 16 ∨ (16 ≤ i ∧ i < 24) ∨ 24 ≤ i) with h | h | h
  · simp (disch := omega) only [BitVec.getLsbD_append, BitVec.getLsbD_setWidth,
      BitVec.getLsbD_and, if_pos, decide_eq_true, Bool.true_and]
    rw [hlow i h, Bool.and_true]
  · simp (disch := omega) only [BitVec.getLsbD_append, BitVec.getLsbD_setWidth,
      BitVec.getLsbD_and, BitVec.getLsbD_ushiftRight, if_pos, if_neg, decide_eq_true,
      Bool.true_and]
    rw [hmid (i - 16) (by omega), Bool.and_true]
    exact congrArg _ (by omega)
  · simp (disch := omega) only [BitVec.getLsbD_append, BitVec.getLsbD_setWidth,
      BitVec.getLsbD_ushiftRight, if_neg, decide_eq_true, Bool.true_and]
    exact congrArg _ (by omega)

theorem limit_pack (lim : Word) :
    (lim >>> 28).setWidth 4 ++ ((lim >>> 12) &&& 0xffff).setWidth 16 ++ (0xFFF : BitVec 12) =
      lim ||| 0xFFF := by
  refine BitVec.eq_of_getLsbD_eq fun i hi => ?_
  have hones : ∀ k < 12, (0xFFF : BitVec 12).getLsbD k = true := by decide
  have hmask : ∀ k < 32, (0xFFF : Word).getLsbD k = decide (k < 12) := by decide
  have hlow : ∀ k < 16, (0xffff : Word).getLsbD k = true := by decide
  rw [BitVec.getLsbD_or, hmask i hi]
  rcases (by omega : i < 12 ∨ (12 ≤ i ∧ i < 28) ∨ 28 ≤ i) with h | h | h
  · simp (disch := omega) only [BitVec.getLsbD_append, if_pos, decide_eq_true, Bool.or_true]
    exact hones i h
  · simp (disch := omega) only [BitVec.getLsbD_append, BitVec.getLsbD_setWidth,
      BitVec.getLsbD_and, BitVec.getLsbD_ushiftRight, if_pos, if_neg, decide_eq_true,
      decide_eq_false, Bool.true_and, Bool.or_false]
    rw [hlow (i - 12) (by omega), Bool.and_true]
    exact congrArg _ (by omega)
  · simp (disch := omega) only [BitVec.getLsbD_append, BitVec.getLsbD_setWidth,
      BitVec.getLsbD_ushiftRight, if_neg, decide_eq_true, decide_eq_false, Bool.true_and,
      Bool.or_false]
    exact congrArg _ (by omega)

/-- The high byte of a field. -/
theorem high_byte (v : Word) : (v >>> 8).setWidth 8 = ((v.setWidth 16) >>> 8).setWidth 8 := by
  refine BitVec.eq_of_getLsbD_eq fun i hi => ?_
  simp (disch := omega) only [BitVec.getLsbD_setWidth, BitVec.getLsbD_ushiftRight,
    decide_eq_true, Bool.true_and]

/-- **The two macros lay down the same bytes**, at privilege level 0. -/
theorem segBytes_eq {type : Word} (htype : type.toNat < 16) (base lim : Word) :
    segBytes type base lim = (SEG type base lim 0).bytes := by
  have haccess : ∀ n < 16, ((0x90 : Word) ||| BitVec.ofNat 32 n).setWidth 8 =
      (1#1 ++ (0 : Word).setWidth 2 ++ 1#1 ++ (BitVec.ofNat 32 n).setWidth 4 : Byte) := by decide
  have hflags : ∀ n < 16, ((0xC0 : Word) ||| (BitVec.ofNat 32 n &&& 0xf)).setWidth 8 =
      (1#1 ++ 1#1 ++ 0#1 ++ 0#1 ++ (BitVec.ofNat 32 n).setWidth 4 : Byte) := by decide
  have hhigh : (lim >>> 28).toNat < 16 := by
    have := lim.isLt
    rw [BitVec.toNat_ushiftRight, Nat.shiftRight_eq_div_pow]
    omega
  have h5 := haccess type.toNat htype
  have h6 := hflags (lim >>> 28).toNat hhigh
  rw [BitVec.ofNat_toNat, BitVec.setWidth_eq] at h5 h6
  have hlow : ∀ v : Word, v.setWidth 8 = (v.setWidth 16).setWidth 8 := fun v =>
    (BitVec.setWidth_setWidth_of_le v (by decide)).symm
  have h7 : ((base >>> 24) &&& 0xff).setWidth 8 = (base >>> 24).setWidth 8 := by
    rw [BitVec.setWidth_and]
    exact BitVec.and_allOnes
  unfold segBytes wordDirective
  rw [hlow ((lim >>> 12) &&& 0xffff), high_byte ((lim >>> 12) &&& 0xffff),
    hlow (base &&& 0xffff), high_byte (base &&& 0xffff), h5, h6, h7]
  rfl

/-- What the processor reads from the bytes of the macro. -/
theorem segdescAt_segBytes {type : Word} (htype : type.toNat < 16) (base lim : Word)
    {mem : Memory} {a : Nat} (h : ∀ k < 8, mem (a + k) = (segBytes type base lim).getD k 0) :
    segdescAt mem a = SEG type base lim 0 := by
  rw [segBytes_eq htype] at h
  exact segdescAt_bytes _ h

theorem SEG_base (type base lim dpl : Word) : (SEG type base lim dpl).base = base := base_pack base

theorem SEG_limit (type base lim dpl : Word) : (SEG type base lim dpl).limit = lim ||| 0xFFF :=
  limit_pack lim

/-- **A segment of the assembler's macro is read back** as the descriptor of the macro of C: the
    base, the limit rounded up to the end of a page, and the type. -/
theorem segment_round_trip {type : Word} (htype : type.toNat < 16) (base lim : Word) {mem : Memory}
    {a : Nat} (h : ∀ k < 8, mem (a + k) = (segBytes type base lim).getD k 0) :
    segdescAt mem a = SEG type base lim 0 ∧ (segdescAt mem a).base = base ∧
      (segdescAt mem a).limit = lim ||| 0xFFF ∧
      (segdescAt mem a).sd_type.toNat = type.toNat := by
  have hread := segdescAt_segBytes htype base lim h
  rw [hread]
  refine ⟨rfl, SEG_base type base lim 0, SEG_limit type base lim 0, ?_⟩
  show (type.setWidth 4).toNat = type.toNat
  rw [BitVec.toNat_setWidth, Nat.mod_eq_of_lt htype]

/-- A data segment in the middle of memory. -/
theorem segment_round_trip_data :
    segdescAt (writeBytes (fun _ => 0) 16 (segBytes STA_W 0xF0100000 0x12345)) 16 =
      SEG STA_W 0xF0100000 0x12345 0 :=
  (segment_round_trip (by decide) 0xF0100000 0x12345 (by decide)).1

end Jos
