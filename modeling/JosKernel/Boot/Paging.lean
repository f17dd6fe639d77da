import JosKernel.Foundation.Memory
import JosKernel.Foundation.Paging
import JosKernel.Monitor.Runcmd

/-!
# The page tables of the entry code

The paging macros of `inc/mmu.h` and the tables of `kern/entrypgdir.c`, under the hardware's
walk: the page directory, then the page table that its entry names.

Principal results: `PGADDR_split`, `PDX_PGADDR` — an address and its three parts;
`entryTables_exact` — for every linear address, what the tables translate it to: the first four
megabytes for reading only, the four megabytes from `KERNBASE` on, and nothing else.
-/

set_option autoImplicit false

namespace Jos

open Paging

/-! ## Linear addresses -/

def PTXSHIFT : Nat := 12
def PDXSHIFT : Nat := 22
def PGSIZE : Nat := 4096
def NPTENTRIES : Nat := 1024

def PDX (la : Word) : Word := la >>> PDXSHIFT &&& 0x3FF
def PTX (la : Word) : Word := la >>> PTXSHIFT &&& 0x3FF
def PGOFF (la : Word) : Word := la &&& 0xFFF
def PGADDR (d t o : Word) : Word := d <<< PDXSHIFT ||| t <<< PTXSHIFT ||| o

theorem low_bits {k : Nat} (hk : k < 32) (la : Word) :
    (la &&& BitVec.ofNat 32 (2 ^ k - 1)).toNat = la.toNat % 2 ^ k := by
  have hle : 2 ^ k ≤ 2 ^ 31 := Nat.pow_le_pow_right (by omega) (by omega)
  rw [BitVec.toNat_and, BitVec.toNat_ofNat, Nat.mod_eq_of_lt (by omega),
    Nat.and_two_pow_sub_one_eq_mod]

theorem PDX_toNat (la : Word) : (PDX la).toNat = la.toNat / 4194304 := by
  have hlt := la.isLt
  have hmask : (0x3FF : Word) = BitVec.ofNat 32 (2 ^ 10 - 1) := rfl
  rw [PDX, hmask, low_bits (by decide), BitVec.toNat_ushiftRight, Nat.shiftRight_eq_div_pow]
  unfold PDXSHIFT
  omega

theorem PTX_toNat (la : Word) : (PTX la).toNat = la.toNat / 4096 % 1024 := by
  have hmask : (0x3FF : Word) = BitVec.ofNat 32 (2 ^ 10 - 1) := rfl
  rw [PTX, hmask, low_bits (by decide), BitVec.toNat_ushiftRight, Nat.shiftRight_eq_div_pow]
  rfl

theorem PGOFF_toNat (la : Word) : (PGOFF la).toNat = la.toNat % 4096 := by
  have hmask : (0xFFF : Word) = BitVec.ofNat 32 (2 ^ 12 - 1) := rfl
  rw [PGOFF, hmask, low_bits (by decide)]
  rfl

/-- The three fields do not overlap. -/
theorem PGADDR_toNat {d t o : Word} (hd : d.toNat < 1024) (ht : t.toNat < 1024)
    (ho : o.toNat < 4096) :
    (PGADDR d t o).toNat = d.toNat * 4194304 + t.toNat * 4096 + o.toNat := by
  have hdir : (d <<< PDXSHIFT).toNat = (d.toNat * 1024) <<< 12 := by
    rw [BitVec.toNat_shiftLeft, Nat.shiftLeft_eq, Nat.shiftLeft_eq]
    unfold PDXSHIFT
    omega
  have htab : (t <<< PTXSHIFT).toNat = t.toNat <<< 12 := by
    rw [BitVec.toNat_shiftLeft, Nat.shiftLeft_eq]
    unfold PTXSHIFT
    omega
  have hten : d.toNat * 1024 = d.toNat <<< 10 := (Nat.shiftLeft_eq _ 10).symm
  rw [PGADDR, BitVec.toNat_or, BitVec.toNat_or, hdir, htab, ← Nat.shiftLeft_or_distrib, hten,
    ← Nat.shiftLeft_add_eq_or_of_lt (by omega), ← Nat.shiftLeft_add_eq_or_of_lt (by omega),
    Nat.shiftLeft_eq, Nat.shiftLeft_eq]
  clear hdir htab hten
  omega

/-- **An address is made of its parts.** -/
theorem PGADDR_split (la : Word) : PGADDR (PDX la) (PTX la) (PGOFF la) = la := by
  have hlt := la.isLt
  have hd := PDX_toNat la
  have ht := PTX_toNat la
  have ho := PGOFF_toNat la
  rw [← BitVec.toNat_inj, PGADDR_toNat (by omega) (by omega) (by omega)]
  omega

/-- **The parts are those that the address was made of.** -/
theorem PDX_PGADDR {d t o : Word} (hd : d.toNat < 1024) (ht : t.toNat < 1024)
    (ho : o.toNat < 4096) :
    PDX (PGADDR d t o) = d ∧ PTX (PGADDR d t o) = t ∧ PGOFF (PGADDR d t o) = o := by
  have haddr := PGADDR_toNat hd ht ho
  rw [← BitVec.toNat_inj, ← BitVec.toNat_inj, ← BitVec.toNat_inj, PDX_toNat, PTX_toNat, PGOFF_toNat,
    haddr]
  omega

/-! ## The walk of the hardware -/

def PTE_P : Word := 0x001
def PTE_W : Word := 0x002

/-- The address in an entry. -/
def PTE_ADDR (pte : Word) : Word := pte &&& ~~~0xFFF

/-- An entry of a table in memory: the address in it and whether it is writeable, if it is
    present. -/
def entryAt (mem : Memory) (table : Word) (i : Nat) : Option (Word × Bool) :=
  let pte := BitVec.ofNat 32 (le32 mem (table.toNat + 4 * i))
  if pte &&& PTE_P = 0 then none else some (PTE_ADDR pte, pte &&& PTE_W ≠ 0)

/-- What a linear address is translated to, and whether a write with `CR0_WP` is allowed. -/
def mmu (mem : Memory) (cr3 la : Word) : Option (Nat × Bool) :=
  translate PGSIZE NPTENTRIES (entryAt mem) BitVec.toNat 2 (PTE_ADDR cr3) la.toNat

/-- The indices of the walk are those of the macros. -/
theorem PDX_index (la : Word) : index PGSIZE NPTENTRIES 1 la.toNat = (PDX la).toNat := by
  have hlt := la.isLt
  rw [PDX_toNat, index, PGSIZE, NPTENTRIES, pow_one]
  omega

theorem offset_mask : ∀ i < 32, (0xFFF : Word).getLsbD i = decide (i < 12) := by decide

theorem PTE_ADDR_toNat (pte : Word) : (PTE_ADDR pte).toNat = pte.toNat / 4096 * 4096 := by
  have hsplit : PTE_ADDR pte = (pte >>> 12) <<< 12 := by
    refine BitVec.eq_of_getLsbD_eq fun i hi => ?_
    rw [PTE_ADDR, BitVec.getLsbD_and, BitVec.getLsbD_not, offset_mask i hi,
      BitVec.getLsbD_shiftLeft, BitVec.getLsbD_ushiftRight]
    by_cases h : i < 12
    · simp [h]
    · simp [h, hi, Nat.add_sub_cancel' (Nat.le_of_not_lt h)]
  have hlt := pte.isLt
  rw [hsplit, BitVec.toNat_shiftLeft, BitVec.toNat_ushiftRight, Nat.shiftLeft_eq,
    Nat.shiftRight_eq_div_pow]
  clear hsplit
  omega

theorem PTE_P_eq_zero (pte : Word) : pte &&& PTE_P = 0 ↔ pte.toNat % 2 = 0 := by
  have hmask : PTE_P = BitVec.ofNat 32 (2 ^ 1 - 1) := rfl
  rw [← BitVec.toNat_inj, hmask, low_bits (by decide)]
  rfl

theorem PTE_W_eq_zero (pte : Word) : pte &&& PTE_W = 0 ↔ pte.toNat / 2 % 2 = 0 := by
  have hbit : pte &&& PTE_W = if pte.getLsbD 1 then PTE_W else 0 := BitVec.and_twoPow pte 1
  have htest : pte.getLsbD 1 = decide (pte.toNat / 2 % 2 = 1) := by
    rw [BitVec.getLsbD, Nat.testBit_eq_decide_div_mod_eq]
  rw [hbit, htest]
  by_cases h : pte.toNat / 2 % 2 = 1
  · rw [if_pos (decide_eq_true h)]
    exact iff_of_false (by decide) (by omega)
  · rw [if_neg (by simpa using h)]
    exact iff_of_true rfl (by omega)

/-- A present entry, and one that is not. -/
theorem entryAt_present {mem : Memory} {table e : Word} {i : Nat}
    (h : le32 mem (table.toNat + 4 * i) = e.toNat) (hp : e.toNat % 2 = 1) :
    entryAt mem table i = some (PTE_ADDR e, decide (e.toNat / 2 % 2 = 1)) := by
  have hpresent : ¬e &&& PTE_P = 0 := by
    rw [PTE_P_eq_zero]
    omega
  have hwrite : e &&& PTE_W ≠ 0 ↔ e.toNat / 2 % 2 = 1 := by
    rw [ne_eq, PTE_W_eq_zero]
    omega
  rw [entryAt, h, BitVec.ofNat_toNat, BitVec.setWidth_eq]
  simp only [if_neg hpresent, hwrite]

theorem entryAt_absent {mem : Memory} {table : Word} {i : Nat}
    (h : le32 mem (table.toNat + 4 * i) = 0) : entryAt mem table i = none := by
  rw [entryAt, h]
  rfl

/-! ## `kern/entrypgdir.c` -/

/-- Entry 0 of the page table maps to physical page 0, entry 1 to page 1, and so on. -/
def entryPgtable (i : Nat) : Word := BitVec.ofNat 32 (0x1000 * i) ||| PTE_P ||| PTE_W

/-- `pgtable` is the link address of `entry_pgtable`. -/
def entryPgdir (pgtable : Word) (i : Nat) : Word :=
  if i = 0 then pgtable - KERNBASE + PTE_P
  else if i = (KERNBASE >>> PDXSHIFT).toNat then pgtable - KERNBASE + PTE_P + PTE_W
  else 0

def RELOC (x : Word) : Word := x - KERNBASE

/-- The two tables are in memory, each in a page of its own; the link addresses are given. -/
structure EntryTables (mem : Memory) (pgdir pgtable : Word) : Prop where
  dirAligned : pgdir.toNat % 4096 = 0
  tableAligned : pgtable.toNat % 4096 = 0
  dir : ∀ i < 1024, le32 mem ((RELOC pgdir).toNat + 4 * i) = (entryPgdir pgtable i).toNat
  table : ∀ i < 1024, le32 mem ((RELOC pgtable).toNat + 4 * i) = (entryPgtable i).toNat

variable {mem : Memory} {pgdir pgtable : Word}

/-- The load address of what is linked above `KERNBASE`. -/
theorem RELOC_toNat {x : Word} (h : 4026531840 ≤ x.toNat) :
    (RELOC x).toNat = x.toNat - 4026531840 := by
  have hbase : KERNBASE.toNat = 4026531840 := rfl
  have hlt := x.isLt
  rw [RELOC, BitVec.toNat_sub]
  omega

theorem RELOC_aligned {x : Word} (h : x.toNat % 4096 = 0) : (RELOC x).toNat % 4096 = 0 := by
  have hbase : KERNBASE.toNat = 4026531840 := rfl
  rw [RELOC, BitVec.toNat_sub]
  omega

/-- A flag of an aligned address. -/
theorem flag_add {x : Word} (h : x.toNat % 4096 = 0) {f : Word} (hf : f.toNat < 4096) :
    (x + f).toNat = x.toNat + f.toNat := by
  have hlt := x.isLt
  rw [BitVec.toNat_add]
  omega

theorem entryPgtable_toNat : ∀ i < 1024, (entryPgtable i).toNat = 4096 * i + 3 := by
  decide +kernel

/-- The page table maps the first four megabytes. -/
theorem EntryTables.maps (h : EntryTables mem pgdir pgtable) :
    Maps PGSIZE NPTENTRIES (entryAt mem) BitVec.toNat 1 (RELOC pgtable) 0 true := by
  have hentries : 0 < NPTENTRIES := by decide
  show Maps PGSIZE NPTENTRIES (entryAt mem) BitVec.toNat (0 + 1) (RELOC pgtable) 0 (true && true)
  refine maps_table hentries fun i hi => ?_
  have hi : i < 1024 := hi
  have hvalue := entryPgtable_toNat i hi
  have hpage : (PTE_ADDR (entryPgtable i)).toNat = 0 + i * (PGSIZE * NPTENTRIES ^ 0) := by
    rw [PTE_ADDR_toNat, hvalue, pow_zero, PGSIZE]
    omega
  refine ⟨PTE_ADDR (entryPgtable i), ?_, hpage ▸ maps_page _⟩
  rw [entryAt_present (h.table i hi) (by omega), hvalue]
  congr 2
  exact decide_eq_true (by omega)

theorem entryPgdir_high (pgtable : Word) :
    entryPgdir pgtable 960 = RELOC pgtable + (PTE_P + PTE_W) := by
  rw [← BitVec.add_assoc]
  rfl

/-- The walk for every linear address. -/
theorem EntryTables.walk (h : EntryTables mem pgdir pgtable) (la : Word) :
    mmu mem (RELOC pgdir) la =
      if la.toNat < 4194304 then some (la.toNat, false)
      else if KERNBASE.toNat ≤ la.toNat ∧ la.toNat < KERNBASE.toNat + 4194304 then
        some (la.toNat - KERNBASE.toNat, true)
      else none := by
  have hlt := la.isLt
  have hbase : KERNBASE.toNat = 4026531840 := rfl
  have htable := RELOC_aligned h.tableAligned
  have hroot : PTE_ADDR (RELOC pgdir) = RELOC pgdir := by
    have hdir := RELOC_aligned h.dirAligned
    rw [← BitVec.toNat_inj, PTE_ADDR_toNat]
    omega
  have hspan : PGSIZE * NPTENTRIES ^ 1 = 4194304 := by decide
  have hindex := PDX_index la
  rw [PDX_toNat] at hindex
  have hdir := h.dir (la.toNat / 4194304) (by omega)
  rw [mmu, hroot]
  by_cases hlow : la.toNat < 4194304
  · -- entry 0
    have hentry : entryPgdir pgtable (la.toNat / 4194304) = RELOC pgtable + PTE_P := by
      rw [Nat.div_eq_of_lt hlow]
      rfl
    have hvalue := flag_add htable (show PTE_P.toNat < 4096 by decide)
    have hone : PTE_P.toNat = 1 := rfl
    have hnext : PTE_ADDR (RELOC pgtable + PTE_P) = RELOC pgtable := by
      rw [← BitVec.toNat_inj, PTE_ADDR_toNat]
      omega
    rw [hentry] at hdir
    have hlook := entryAt_present hdir (by omega)
    rw [hnext, decide_eq_false (by omega), ← hindex] at hlook
    rw [if_pos hlow, translate_entry hlook h.maps, hspan, Nat.zero_add, Nat.mod_eq_of_lt hlow]
    rfl
  rw [if_neg hlow]
  by_cases hhigh : KERNBASE.toNat ≤ la.toNat ∧ la.toNat < KERNBASE.toNat + 4194304
  · -- entry 960
    have hi : la.toNat / 4194304 = 960 := by omega
    have hoffset : la.toNat % 4194304 = la.toNat - KERNBASE.toNat := by omega
    have hvalue := flag_add htable (show (PTE_P + PTE_W).toNat < 4096 by decide)
    have hthree : (PTE_P + PTE_W).toNat = 3 := rfl
    have hnext : PTE_ADDR (RELOC pgtable + (PTE_P + PTE_W)) = RELOC pgtable := by
      rw [← BitVec.toNat_inj, PTE_ADDR_toNat]
      omega
    rw [hi, entryPgdir_high] at hdir
    have hlook := entryAt_present hdir (by omega)
    rw [hnext, decide_eq_true (by omega), ← hi, ← hindex] at hlook
    rw [if_pos hhigh, translate_entry hlook h.maps, hspan, Nat.zero_add, hoffset]
    rfl
  · -- the entries in which no flag is set
    have hentry : entryPgdir pgtable (la.toNat / 4194304) = 0 := by
      have hnine : (KERNBASE >>> PDXSHIFT).toNat = 960 := by decide
      rw [entryPgdir, if_neg (by omega), if_neg (by omega)]
    rw [hentry] at hdir
    have hlook := entryAt_absent hdir
    rw [← hindex] at hlook
    rw [if_neg hhigh, translate_hole hlook]

/-- **What the entry tables map**: an address reaches a place in the first four megabytes of
    memory, as that place itself, where it cannot be written, or as `KERNBASE` and that place, where
    it can; and no address reaches anything else. -/
theorem entryTables_exact (h : EntryTables mem pgdir pgtable) (la : Word) (pa : Nat) (w : Bool) :
    mmu mem (RELOC pgdir) la = some (pa, w) ↔
      pa < 4194304 ∧ (la.toNat = pa ∧ w = false ∨ la.toNat = KERNBASE.toNat + pa ∧ w = true) := by
  have hbase : KERNBASE.toNat = 4026531840 := rfl
  rw [h.walk]
  split
  · rw [Option.some.injEq, Prod.mk.injEq]
    cases w with
    | false => simp; omega
    | true => simp; omega
  · split
    · rw [Option.some.injEq, Prod.mk.injEq]
      cases w with
      | false => simp; omega
      | true => simp; omega
    · exact iff_of_false nofun (by omega)

/-! ### Tables in memory -/

/-- A byte of a word that is stored with its lowest byte first. -/
def byteOf (v : Word) (k : Nat) : Byte := (v >>> (8 * k)).setWidth 8

theorem le32_of_bytes {mem : Memory} {a : Nat} {v : Word} (h : ∀ k < 4, mem (a + k) = byteOf v k) :
    le32 mem a = v.toNat := by
  have hbyte : ∀ k, (byteOf v k).toNat = v.toNat / 2 ^ (8 * k) % 256 := by
    intro k
    rw [byteOf, BitVec.toNat_setWidth, BitVec.toNat_ushiftRight, Nat.shiftRight_eq_div_pow]
  have hlt := v.isLt
  have h0 := h 0 (by omega)
  rw [Nat.add_zero] at h0
  rw [le32, le16, le16, h0, h 1 (by omega), h 2 (by omega),
    show a + 2 + 1 = a + 3 from rfl, h 3 (by omega), hbyte, hbyte, hbyte, hbyte]
  omega

/-- The two tables from `0x111000` and `0x112000` on. -/
def tableMemory : Memory := fun a =>
  if a / 4096 = 0x111 then byteOf (entryPgdir 0xF0112000 (a % 4096 / 4)) (a % 4)
  else if a / 4096 = 0x112 then byteOf (entryPgtable (a % 4096 / 4)) (a % 4)
  else 0

theorem tableMemory_dir {i k : Nat} (hi : i < 1024) (hk : k < 4) :
    tableMemory (0x111000 + 4 * i + k) = byteOf (entryPgdir 0xF0112000 i) k := by
  have hentry : (0x111000 + 4 * i + k) % 4096 / 4 = i := by omega
  have hbyte : (0x111000 + 4 * i + k) % 4 = k := by omega
  rw [tableMemory, if_pos (by omega), hentry, hbyte]

theorem tableMemory_table {i k : Nat} (hi : i < 1024) (hk : k < 4) :
    tableMemory (0x112000 + 4 * i + k) = byteOf (entryPgtable i) k := by
  have hentry : (0x112000 + 4 * i + k) % 4096 / 4 = i := by omega
  have hbyte : (0x112000 + 4 * i + k) % 4 = k := by omega
  rw [tableMemory, if_neg (by omega), if_pos (by omega), hentry, hbyte]

theorem tableMemory_tables : EntryTables tableMemory 0xF0111000 0xF0112000 where
  dirAligned := by decide
  tableAligned := by decide
  dir _ hi := le32_of_bytes fun _ hk => tableMemory_dir hi hk
  table _ hi := le32_of_bytes fun _ hk => tableMemory_table hi hk

/-- The text buffer of the display, seen from the kernel. -/
theorem entryTables_exact_display :
    mmu tableMemory (RELOC 0xF0111000) 0xF00B8000 = some (0xB8000, true) :=
  (entryTables_exact tableMemory_tables 0xF00B8000 0xB8000 true).mpr (by decide)

end Jos
