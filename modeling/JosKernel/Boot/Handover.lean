import Mathlib.Data.List.GetD
import JosKernel.Boot.Entry
import JosKernel.Boot.Main

/-!
# From the disk to the kernel

The boot loader and the entry code together.  The loader puts the segments of the kernel image
at their physical addresses; the page tables that the entry code turns on are in one of them.

Principal results: `KernelImage.handover` — both run through; `kernel_sees_image` — at its link
addresses the kernel finds the bytes of the file that it was linked into, but for the return
address on its stack.
-/

set_option autoImplicit false

namespace Jos

/-- Bytes that are in a segment of a file, from a physical address on. -/
def InFile (img : Memory) (pa : Nat) (bs : List Byte) : Prop :=
  ∃ p ∈ headers img, p.p_pa ≤ pa ∧ pa + bs.length ≤ p.p_pa + p.p_filesz ∧
    ∀ k < bs.length, img (p.p_offset + (pa - p.p_pa) + k) = bs.getD k 0

/-- A kernel on the disk: the loader is meant for its image, it starts at `entry`, the entry code
    and the entry page tables are in it, and its segments are in the memory that they map. -/
structure KernelImage (img : Memory) (s : EntrySymbols) : Prop where
  wellFormed : WellFormed img
  agree : SectorsAgree img
  entry : (elfAt img 0).e_entry = (RELOC s.entry).toNat
  linked : s.Linked
  code : ∀ k < 11, InFile img ((RELOC s.entry).toNat + s.offset k) (s.machineCode k)
  dirAligned : s.entryPgdir.toNat % 4096 = 0
  tableAligned : s.entryPgtable.toNat % 4096 = 0
  dir : ∀ i < 1024,
    InFile img ((RELOC s.entryPgdir).toNat + 4 * i) (wordBytes (entryPgdir s.entryPgtable i))
  table : ∀ i < 1024,
    InFile img ((RELOC s.entryPgtable).toNat + 4 * i) (wordBytes (entryPgtable i))
  mapped : ∀ p ∈ headers img, p.p_pa + p.p_filesz ≤ 0x400000

variable {img mem : Memory} {s : EntrySymbols}

/-- What is in the file is in memory behind the loads. -/
theorem InFile.loaded {pa : Nat} {bs : List Byte} (h : InFile img pa bs) (hmem : Intact img mem) :
    ∀ k < bs.length, mem (pa + k) = bs.getD k 0 := by
  obtain ⟨p, hp, hstart, hstop, hbytes⟩ := h
  intro k hk
  rw [hmem p hp (pa + k) (by omega) (by omega), ← hbytes k hk]
  congr 1
  omega

theorem wordBytes_getD (v : Word) : ∀ k < 4, (wordBytes v).getD k 0 = byteOf v k
  | 0, _ | 1, _ | 2, _ | 3, _ => rfl

theorem InFile.word {pa : Nat} {v : Word} (h : InFile img pa (wordBytes v))
    (hmem : Intact img mem) : le32 mem pa = v.toNat :=
  le32_of_bytes fun k hk => (h.loaded hmem k hk).trans (wordBytes_getD v k hk)

theorem KernelImage.tables (h : KernelImage img s) (hmem : Intact img mem) :
    EntryTables mem s.entryPgdir s.entryPgtable where
  dirAligned := h.dirAligned
  tableAligned := h.tableAligned
  dir i hi := (h.dir i hi).word hmem
  table i hi := (h.table i hi).word hmem

theorem KernelImage.codeAt (h : KernelImage img s) (hmem : Intact img mem) : s.CodeAt mem :=
  fun k hk => (h.code k hk).loaded hmem

/-- The entry code stores below the segments and on the stack. -/
theorem EntrySymbols.memory_apply {x : Nat} (hlow : 0x11000 ≤ x)
    (hstack : ¬((RELOC s.bootstacktop).toNat - 4 ≤ x ∧ x < (RELOC s.bootstacktop).toNat)) :
    s.memory mem x = mem x := by
  have hlen : (wordBytes (s.linkAddr 11)).length = 4 := rfl
  have hwarm : ([0x34, 0x12] : List Byte).length = 2 := rfl
  rw [EntrySymbols.memory, writeBytes_apply, dif_neg (by omega), writeBytes_apply,
    dif_neg (by omega)]

/-- **The loader and the entry code run through**, and memory is as they leave it. -/
theorem KernelImage.handover {disk : Disk} (h : KernelImage (image disk) s) (m : Pc) (c : Cpu)
    (heip : c.eip = RELOC s.entry) (hpg : c.cr0 &&& CR0_PG = 0) :
    ∃ m' c', bootmain disk m = some (m', some (RELOC s.entry).toNat) ∧
      runEntry s { c with mem := m'.mem } = some c' ∧ c'.eip = s.i386Init ∧ c'.ebp = 0 ∧
      c'.esp = s.bootstacktop - 4 ∧ Intact (image disk) m'.mem ∧ c'.mem = s.memory m'.mem ∧
      c'.Paged s := by
  obtain ⟨m', mem, hboot, hmem⟩ := bootmain_loads disk h.wellFormed m
  have hintact : Intact (image disk) m'.mem := by
    rw [hmem, loads_intact_iff h.wellFormed]
    exact h.agree
  obtain ⟨c', hrun, hinit, hebp, hesp, hmem', hpaged⟩ := @runEntry_spec s { c with mem := m'.mem }
    h.linked heip hpg (h.codeAt hintact) (h.tables hintact)
  rw [h.entry] at hboot
  exact ⟨m', c', hboot, hrun, hinit, hebp, hesp, hintact, hmem', hpaged⟩

/-- The return address on the kernel's stack. -/
def EntrySymbols.OnStack (s : EntrySymbols) (pa : Nat) : Prop :=
  (RELOC s.bootstacktop).toNat - 4 ≤ pa ∧ pa < (RELOC s.bootstacktop).toNat

instance (s : EntrySymbols) (pa : Nat) : Decidable (s.OnStack pa) :=
  inferInstanceAs (Decidable (_ ∧ _))

/-- A byte of a segment at its link address. -/
theorem KernelImage.byte {disk : Disk} (h : KernelImage (image disk) s)
    (hintact : Intact (image disk) mem) {p : Proghdr} (hp : p ∈ headers (image disk)) {k : Nat}
    (hk : k < p.p_filesz) (hstack : ¬s.OnStack (p.p_pa + k)) (write : Bool) :
    entryView write (KERNBASE + BitVec.ofNat 32 (p.p_pa + k)) = some (p.p_pa + k) ∧
      s.memory mem (p.p_pa + k) = image disk (p.p_offset + k) := by
  have hmapped := h.mapped p hp
  have habove := h.wellFormed.above p hp
  have hbase : KERNBASE.toNat = 4026531840 := rfl
  have haddr : (KERNBASE + BitVec.ofNat 32 (p.p_pa + k)).toNat = 4026531840 + (p.p_pa + k) := by
    rw [BitVec.toNat_add, BitVec.toNat_ofNat, hbase]
    omega
  constructor
  · rw [entryView_high (by omega) (by omega), haddr, hbase, Nat.add_sub_cancel_left]
  · rw [EntrySymbols.memory_apply (by omega) hstack,
      hintact p hp (p.p_pa + k) (by omega) (by omega), Nat.add_sub_cancel_left]

/-- An ELF header and one program header. -/
def kernelHeaders : List Byte :=
  ([0x464C457F, 0, 0, 0, 0, 0, 0x10000C, 52, 0, 0, 0, 1, 0] ++
    [1, 0x1000, 0, 0x100000, 0x13000, 0x14000, 0, 0]).flatMap littleEndian

/-- The machine code of the entry in one piece. -/
def entryBytes : List Byte := (List.range 11).flatMap entryCode

/-- The segment has the entry code at its start and the page tables in its last two pages. -/
def kernelSegment : Memory := writeBytes tableMemory 0x10000C entryBytes

def kernelDisk : Disk := fun a =>
  if a < 4608 then kernelHeaders.getD (a - 512) 0 else kernelSegment (a - 4608 + 0x100000)

theorem headers_kernel :
    headers (image kernelDisk) = [⟨0x1000, 0x100000, 0x13000, 0x14000⟩] := by decide

theorem kernelImage_kernelDisk : KernelImage (image kernelDisk) entrySymbols := by
  have hseg : (⟨0x1000, 0x100000, 0x13000, 0x14000⟩ : Proghdr) ∈ headers (image kernelDisk) := by
    rw [headers_kernel]
    exact List.mem_cons_self
  have hfile : ∀ x, 0x100000 ≤ x →
      image kernelDisk (0x1000 + (x - 0x100000)) = kernelSegment x := by
    intro x hx
    have haddr : 512 + (0x1000 + (x - 0x100000)) - 4608 + 0x100000 = x := by omega
    have himage : ∀ k, image kernelDisk k = kernelDisk (512 + k) := fun _ => rfl
    rw [himage, kernelDisk, if_neg (by omega), haddr]
  have hbytes : ∀ {pa : Nat} {bs : List Byte}, 0x100000 ≤ pa → pa + bs.length ≤ 0x113000 →
      (∀ k < bs.length, kernelSegment (pa + k) = bs.getD k 0) →
      InFile (image kernelDisk) pa bs := by
    intro pa bs h0 h1 hbs
    refine ⟨_, hseg, h0, by simp only; omega, fun k hk => ?_⟩
    have haddr : 0x1000 + (pa - 0x100000) + k = 0x1000 + (pa + k - 0x100000) := by omega
    rw [← hbs k hk, ← hfile (pa + k) (by omega), ← haddr]
  have hword : ∀ {pa : Nat} {v : Word}, 0x111000 ≤ pa → pa + 4 ≤ 0x113000 →
      (∀ k < 4, tableMemory (pa + k) = byteOf v k) →
      InFile (image kernelDisk) pa (wordBytes v) := by
    intro pa v h0 h1 hv
    have hlen : (wordBytes v).length = 4 := rfl
    have hcode : entryBytes.length = 50 := by decide
    refine hbytes (by omega) (by omega) fun k hk => ?_
    rw [kernelSegment, writeBytes_of_ge _ _ (by omega), hv k (by omega),
      wordBytes_getD v k (by omega)]
  constructor
  case wellFormed =>
    constructor
    case magic => decide
    case table => decide
    all_goals
      rw [headers_kernel]
      decide
  case agree =>
    intro earlier p later hsplit x h0 h1 q hq
    rw [headers_kernel] at hsplit
    have hnil : later = [] := by
      cases earlier with
      | nil => exact (List.cons.inj hsplit).2.symm
      | cons p' earlier =>
        have hlen := congrArg List.length (List.cons.inj hsplit).2
        simp at hlen
    rw [hnil] at hq
    cases hq
  case entry => decide
  case linked => exact entrySymbols_linked
  case code =>
    have hplace : ∀ k < 11, ∀ j < (entryCode k).length,
        entryBytes.getD (entrySymbols.offset k + j) 0 = (entryCode k).getD j 0 := by decide
    have hend : ∀ k < 11, entrySymbols.offset k + (entryCode k).length ≤ 50 := by decide
    have hentry : (RELOC entrySymbols.entry).toNat = 0x10000C := rfl
    have hcode : entryBytes.length = 50 := by decide
    intro k hk
    have hlast := hend k hk
    rw [hentry]
    refine @hbytes _ (entryCode k) (by omega) (by omega) fun j hj => ?_
    have hin : entrySymbols.offset k + j < entryBytes.length := by
      have hlen : j < (entryCode k).length := hj
      omega
    rw [← hplace k hk j hj, List.getD_eq_getElem _ _ hin, Nat.add_assoc]
    exact writeBytes_getElem entryBytes tableMemory 0x10000C hin
  case dirAligned => decide
  case tableAligned => decide
  case dir =>
    intro i hi
    have hpage : (RELOC entrySymbols.entryPgdir).toNat = 0x111000 := rfl
    rw [hpage]
    exact hword (by omega) (by omega) fun k hk => tableMemory_dir hi hk
  case table =>
    intro i hi
    have hpage : (RELOC entrySymbols.entryPgtable).toNat = 0x112000 := rfl
    rw [hpage]
    exact hword (by omega) (by omega) fun k hk => tableMemory_table hi hk
  case mapped =>
    rw [headers_kernel]
    decide

end Jos
