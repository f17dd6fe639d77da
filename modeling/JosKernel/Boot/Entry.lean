import JosKernel.Boot.Paging

/-!
# The entry code of the kernel

`kern/entry.S`: it is linked above `KERNBASE` but starts at its load address, turns paging on
with the tables of `kern/entrypgdir.c`, jumps up to its link address, and calls `i386_init` with
a cleared frame pointer.

`runEntry` executes the instructions of the source.  Before each one the processor has to be
about to fetch it: the addresses from `eip` on have to be translated to the place in memory
where it was loaded, and its machine code, which is the assembler's, has to be there.
Principal result: `runEntry_spec` — every fetch and every write is translated, and the
C code finds its stack, no frame above its own, and memory as the tables map it.
-/

set_option autoImplicit false

namespace Jos

open Paging

def CR0_PE : Word := 0x00000001
def CR0_WP : Word := 0x00010000
def CR0_PG : Word := 0x80000000

/-- The registers that the entry code uses, and physical memory. -/
structure Cpu where
  eip : Word
  eax : Word
  ebp : Word
  esp : Word
  cr0 : Word
  cr3 : Word
  mem : Memory

/-- The place in memory that an access of the kernel goes to; `none` is a page fault. -/
def Cpu.access (c : Cpu) (write : Bool) (la : Word) : Option Nat :=
  if c.cr0 &&& CR0_PG = 0 then some la.toNat
  else (mmu c.mem c.cr3 la).bind fun r =>
    if write ∧ c.cr0 &&& CR0_WP ≠ 0 ∧ r.2 = false then none else some r.1

/-- Each byte is stored to the place that its own address is translated to. -/
def Cpu.store (la : Word) : List Byte → Cpu → Option Cpu
  | [], c => some c
  | b :: bs, c =>
      (c.access true la).bind fun pa =>
        Cpu.store (la + 1) bs { c with mem := Function.update c.mem pa b }

/-- What the processor is about to fetch: this code, from `pa` on. -/
def Cpu.Fetches (c : Cpu) (pa : Nat) (code : List Byte) : Prop :=
  ∀ j < code.length,
    c.access false (c.eip + BitVec.ofNat 32 j) = some (pa + j) ∧ c.mem (pa + j) = code.getD j 0

instance (c : Cpu) (pa : Nat) (code : List Byte) : Decidable (c.Fetches pa code) :=
  inferInstanceAs (Decidable (∀ j < code.length, _))

/-- The instructions of `kern/entry.S`. -/
inductive Instr where
  | movwMem (imm : BitVec 16) (addr : Word)
  | movlEax (imm : Word)
  | movlEaxCr3
  | movlCr0Eax
  | orlEax (imm : Word)
  | movlEaxCr0
  | jmpEax
  | movlEbp (imm : Word)
  | movlEsp (imm : Word)
  | call (target : Word)

/-- The bytes of a word, the lowest first. -/
def wordBytes (v : Word) : List Byte := [byteOf v 0, byteOf v 1, byteOf v 2, byteOf v 3]

/-- One instruction, with the address of the one behind it. -/
def Cpu.exec (next : Word) : Instr → Cpu → Option Cpu
  | .movwMem imm addr, c =>
      ({ c with eip := next } : Cpu).store addr [imm.setWidth 8, (imm >>> 8).setWidth 8]
  | .movlEax imm, c => some { c with eip := next, eax := imm }
  | .movlEaxCr3, c => some { c with eip := next, cr3 := c.eax }
  | .movlCr0Eax, c => some { c with eip := next, eax := c.cr0 }
  | .orlEax imm, c => some { c with eip := next, eax := c.eax ||| imm }
  | .movlEaxCr0, c => some { c with eip := next, cr0 := c.eax }
  | .jmpEax, c => some { c with eip := c.eax }
  | .movlEbp imm, c => some { c with eip := next, ebp := imm }
  | .movlEsp imm, c => some { c with eip := next, esp := imm }
  | .call target, c =>
      -- the return address is pushed
      ({ c with eip := target, esp := c.esp - 4 } : Cpu).store (c.esp - 4) (wordBytes next)

/-- The link addresses, and the machine code of each instruction from `entry` on. -/
structure EntrySymbols where
  entry : Word
  entryPgdir : Word
  entryPgtable : Word
  bootstacktop : Word
  i386Init : Word
  machineCode : Nat → List Byte

/-- Where the `k`th instruction starts behind `entry`. -/
def EntrySymbols.offset (s : EntrySymbols) : Nat → Nat
  | 0 => 0
  | k + 1 => s.offset k + (s.machineCode k).length

/-- The link address and the load address of the `k`th instruction. -/
def EntrySymbols.linkAddr (s : EntrySymbols) (k : Nat) : Word :=
  s.entry + BitVec.ofNat 32 (s.offset k)

def EntrySymbols.loadAddr (s : EntrySymbols) (k : Nat) : Word :=
  RELOC s.entry + BitVec.ofNat 32 (s.offset k)

/-- The label in front of the ninth instruction. -/
def EntrySymbols.relocated (s : EntrySymbols) : Word := s.linkAddr 8

def EntrySymbols.code (s : EntrySymbols) : List Instr :=
  [.movwMem 0x1234 0x472,                         -- warm boot
   .movlEax (RELOC s.entryPgdir),
   .movlEaxCr3,
   .movlCr0Eax,
   .orlEax (CR0_PE ||| CR0_PG ||| CR0_WP),
   .movlEaxCr0,
   .movlEax s.relocated,
   .jmpEax,
   .movlEbp 0,
   .movlEsp s.bootstacktop,
   .call s.i386Init]

/-- The instructions from the `k`th one on; the processor fetches them where they were loaded. -/
def EntrySymbols.run (s : EntrySymbols) : Nat → List Instr → Cpu → Option Cpu
  | _, [], c => some c
  | k, i :: is, c =>
      if c.Fetches ((RELOC s.entry).toNat + s.offset k) (s.machineCode k) then
        (c.exec (c.eip + BitVec.ofNat 32 (s.machineCode k).length) i).bind (s.run (k + 1) is)
      else none

def runEntry (s : EntrySymbols) (c : Cpu) : Option Cpu := s.run 0 s.code c

/-- The machine code is in memory. -/
def EntrySymbols.CodeAt (s : EntrySymbols) (mem : Memory) : Prop :=
  ∀ k < 11, ∀ j < (s.machineCode k).length,
    mem ((RELOC s.entry).toNat + s.offset k + j) = (s.machineCode k).getD j 0

/-- The kernel is linked behind the first megabyte above `KERNBASE`, and the entry code and the
    stack are in the four megabytes that are mapped; the stack is no page table. -/
structure EntrySymbols.Linked (s : EntrySymbols) : Prop where
  entry : KERNBASE.toNat + 0x100000 ≤ s.entry.toNat
  entryEnd : s.entry.toNat + s.offset 11 ≤ KERNBASE.toNat + 0x400000
  dir : KERNBASE.toNat + 0x100000 ≤ s.entryPgdir.toNat
  table : KERNBASE.toNat + 0x100000 ≤ s.entryPgtable.toNat
  stackAligned : s.bootstacktop.toNat % 4096 = 0
  stack : KERNBASE.toNat + 0x100000 < s.bootstacktop.toNat
  stackEnd : s.bootstacktop.toNat ≤ KERNBASE.toNat + 0x400000
  stackDir : s.bootstacktop.toNat ≠ s.entryPgdir.toNat + 4096
  stackTable : s.bootstacktop.toNat ≠ s.entryPgtable.toNat + 4096

/-! ## Accesses -/

theorem Cpu.access_unpaged {c : Cpu} (h : c.cr0 &&& CR0_PG = 0) (write : Bool) (la : Word) :
    c.access write la = some la.toNat := if_pos h

theorem Cpu.store_cons {c : Cpu} {la : Word} {pa : Nat} (h : c.access true la = some pa) (b : Byte)
    (bs : List Byte) :
    c.store la (b :: bs) = Cpu.store (la + 1) bs { c with mem := Function.update c.mem pa b } := by
  rw [Cpu.store, h, Option.bind_some]

/-- Without paging the bytes are stored side by side. -/
theorem Cpu.store_unpaged : ∀ {bs : List Byte} {c : Cpu} {la : Word}, c.cr0 &&& CR0_PG = 0 →
    la.toNat + bs.length ≤ 4294967296 →
    c.store la bs = some { c with mem := writeBytes c.mem la.toNat bs }
  | [], _, _, _, _ => rfl
  | b :: bs, c, la, hpg, hlen => by
    rw [List.length_cons] at hlen
    rw [Cpu.store_cons (Cpu.access_unpaged hpg true la)]
    cases bs with
    | nil => rfl
    | cons b' bs =>
      have hnext : (la + 1).toNat = la.toNat + 1 := by
        rw [List.length_cons] at hlen
        bv_omega
      have hrest : (la + 1).toNat + (b' :: bs).length ≤ 4294967296 := by omega
      have hstore := @Cpu.store_unpaged (b' :: bs)
        { c with mem := Function.update c.mem la.toNat b } _ hpg hrest
      rw [hnext] at hstore
      exact hstore

/-- What the entry tables let the kernel do: it reads the first four megabytes, and reads and
    writes them from `KERNBASE` on. -/
def entryView (write : Bool) (la : Word) : Option Nat :=
  if la.toNat < 4194304 then if write then none else some la.toNat
  else if KERNBASE.toNat ≤ la.toNat ∧ la.toNat < KERNBASE.toNat + 4194304 then
    some (la.toNat - KERNBASE.toNat)
  else none

/-- Paging with the entry tables, and with write protection for the kernel. -/
structure Cpu.Paged (c : Cpu) (s : EntrySymbols) : Prop where
  paging : c.cr0 &&& CR0_PG ≠ 0
  protect : c.cr0 &&& CR0_WP ≠ 0
  cr3 : c.cr3 = RELOC s.entryPgdir
  tables : EntryTables c.mem s.entryPgdir s.entryPgtable

theorem Cpu.Paged.access {c : Cpu} {s : EntrySymbols} (h : c.Paged s) (write : Bool) (la : Word) :
    c.access write la = entryView write la := by
  rw [Cpu.access, if_neg h.paging, h.cr3, h.tables.walk, entryView]
  split
  · rw [Option.bind_some]
    cases write with
    | false => rfl
    | true =>
      rw [if_pos ⟨rfl, h.protect, rfl⟩]
      rfl
  · split
    · rw [Option.bind_some, if_neg (by simp)]
    · rfl

theorem entryView_low {la : Word} (h : la.toNat < 4194304) :
    entryView false la = some la.toNat := if_pos h

theorem entryView_high {la : Word} (h0 : KERNBASE.toNat ≤ la.toNat)
    (h1 : la.toNat < KERNBASE.toNat + 4194304) (write : Bool) :
    entryView write la = some (la.toNat - KERNBASE.toNat) := by
  have hbase : KERNBASE.toNat = 4026531840 := rfl
  rw [entryView, if_neg (by omega), if_pos ⟨h0, h1⟩]

/-- The place of an address above `KERNBASE`. -/
theorem entryView_at {la : Word} {pa : Nat} (h : la.toNat = KERNBASE.toNat + pa)
    (hpa : pa < 4194304) (write : Bool) : entryView write la = some pa := by
  rw [entryView_high (by omega) (by omega), h, Nat.add_sub_cancel_left]

/-- A block that is apart from the pages of the tables. -/
def EntrySymbols.OffTables (s : EntrySymbols) (a n : Nat) : Prop :=
  ∀ x, a ≤ x → x < a + n →
    (x < (RELOC s.entryPgdir).toNat ∨ (RELOC s.entryPgdir).toNat + 4096 ≤ x) ∧
      (x < (RELOC s.entryPgtable).toNat ∨ (RELOC s.entryPgtable).toNat + 4096 ≤ x)

/-- Stores outside the two pages leave the tables alone. -/
theorem EntryTables.store {mem : Memory} {s : EntrySymbols}
    (h : EntryTables mem s.entryPgdir s.entryPgtable) {a : Nat} {bs : List Byte}
    (hoff : s.OffTables a bs.length) :
    EntryTables (writeBytes mem a bs) s.entryPgdir s.entryPgtable := by
  have hsame : ∀ {p : Nat}, (∀ x, a ≤ x → x < a + bs.length → x < p ∨ p + 4096 ≤ x) →
      ∀ i < 1024, le32 (writeBytes mem a bs) (p + 4 * i) = le32 mem (p + 4 * i) := by
    intro p hp i hi
    refine le32_congr fun j hj => ?_
    have hpage := hp (p + 4 * i + j)
    rw [writeBytes_apply, dif_neg (by omega)]
  exact ⟨h.dirAligned, h.tableAligned,
    fun i hi => (hsame (fun x h0 h1 => (hoff x h0 h1).1) i hi).trans (h.dir i hi),
    fun i hi => (hsame (fun x h0 h1 => (hoff x h0 h1).2) i hi).trans (h.table i hi)⟩

theorem Cpu.Paged.write {c : Cpu} {s : EntrySymbols} (h : c.Paged s) {a : Nat} {bs : List Byte}
    (hoff : s.OffTables a bs.length) : Cpu.Paged { c with mem := writeBytes c.mem a bs } s :=
  ⟨h.paging, h.protect, h.cr3, h.tables.store hoff⟩

/-- Above `KERNBASE` the bytes are stored side by side, too. -/
theorem Cpu.Paged.store {s : EntrySymbols} : ∀ {bs : List Byte} {c : Cpu} {la : Word} {pa : Nat},
    c.Paged s → la.toNat = KERNBASE.toNat + pa → pa + bs.length ≤ 4194304 →
    s.OffTables pa bs.length → c.store la bs = some { c with mem := writeBytes c.mem pa bs }
  | [], _, _, _, _, _, _, _ => rfl
  | b :: bs, c, la, pa, hpaged, hla, hlen, hoff => by
    have hbase : KERNBASE.toNat = 4026531840 := rfl
    rw [List.length_cons] at hlen hoff
    have hnext : (la + 1).toNat = KERNBASE.toNat + (pa + 1) := by bv_omega
    have hrest : s.OffTables (pa + 1) bs.length := fun x h0 h1 => hoff x (by omega) (by omega)
    have hone : s.OffTables pa [b].length := by
      intro x h0 h1
      rw [List.length_singleton] at h1
      exact hoff x h0 (by omega)
    rw [Cpu.store_cons ((hpaged.access true la).trans (entryView_at hla (by omega) true))]
    exact Cpu.Paged.store (hpaged.write hone) hnext (by omega) hrest

/-! ## The run -/

section

variable {s : EntrySymbols} {c c' : Cpu}

/-- One instruction. -/
theorem EntrySymbols.run_cons {k : Nat} {i : Instr} {is : List Instr}
    (hfetch : c.Fetches ((RELOC s.entry).toNat + s.offset k) (s.machineCode k))
    (hexec : c.exec (c.eip + BitVec.ofNat 32 (s.machineCode k).length) i = some c') :
    s.run k (i :: is) c = s.run (k + 1) is c' := by
  rw [EntrySymbols.run, if_pos hfetch, hexec]
  rfl

theorem EntrySymbols.offset_mono (s : EntrySymbols) : Monotone s.offset :=
  monotone_nat_of_le_succ fun _ => Nat.le_add_right _ _

/-- The address behind an instruction. -/
theorem EntrySymbols.next (s : EntrySymbols) (base : Word) (k : Nat) :
    base + BitVec.ofNat 32 (s.offset k) + BitVec.ofNat 32 (s.machineCode k).length =
      base + BitVec.ofNat 32 (s.offset (k + 1)) := by
  rw [BitVec.add_assoc, ← BitVec.ofNat_add]
  rfl

/-- The instructions are in the first four megabytes. -/
theorem EntrySymbols.Linked.low (h : s.Linked) {k : Nat} (hk : k ≤ 11) :
    (s.loadAddr k).toNat = (RELOC s.entry).toNat + s.offset k ∧
      (RELOC s.entry).toNat + s.offset k ≤ 4194304 := by
  have hle := s.offset_mono hk
  have hbase : KERNBASE.toNat = 4026531840 := rfl
  have hentry := h.entry
  have hend := h.entryEnd
  have hreloc := RELOC_toNat (show 4026531840 ≤ s.entry.toNat by omega)
  rw [EntrySymbols.loadAddr, BitVec.toNat_add, BitVec.toNat_ofNat, hreloc]
  omega

theorem EntrySymbols.Linked.high (h : s.Linked) {k : Nat} (hk : k ≤ 11) :
    (s.linkAddr k).toNat =
      KERNBASE.toNat + ((RELOC s.entry).toNat + s.offset k) := by
  have hle := s.offset_mono hk
  have hbase : KERNBASE.toNat = 4026531840 := rfl
  have hentry := h.entry
  have hend := h.entryEnd
  have hreloc := RELOC_toNat (show 4026531840 ≤ s.entry.toNat by omega)
  rw [EntrySymbols.linkAddr, BitVec.toNat_add, BitVec.toNat_ofNat, hreloc]
  omega

/-- The place of a byte of an instruction. -/
theorem EntrySymbols.Linked.inside (h : s.Linked) {k j : Nat} (hk : k < 11)
    (hj : j < (s.machineCode k).length) : (RELOC s.entry).toNat + s.offset k + j < 4194304 := by
  have hlast := (h.low (show k + 1 ≤ 11 from hk)).2
  have hlen : s.offset (k + 1) = s.offset k + (s.machineCode k).length := rfl
  omega

/-- Before paging is on, an instruction is fetched at its load address. -/
theorem EntrySymbols.Linked.step_unpaged (h : s.Linked) {k : Nat} {i : Instr} {is : List Instr}
    (hk : k < 11) (hcode : s.CodeAt c.mem) (hpg : c.cr0 &&& CR0_PG = 0)
    (heip : c.eip = s.loadAddr k) (hexec : c.exec (s.loadAddr (k + 1)) i = some c') :
    s.run k (i :: is) c = s.run (k + 1) is c' := by
  refine run_cons (fun j hj => ⟨?_, hcode k hk j hj⟩) ?_
  · have hin := h.inside hk hj
    rw [Cpu.access_unpaged hpg, heip, BitVec.toNat_add, BitVec.toNat_ofNat,
      (h.low (Nat.le_of_lt hk)).1]
    congr 1
    omega
  · rw [heip, EntrySymbols.loadAddr, s.next]
    exact hexec

/-- Then it is fetched there through the first entry of the directory. -/
theorem EntrySymbols.Linked.step_low (h : s.Linked) {k : Nat} {i : Instr} {is : List Instr}
    (hk : k < 11) (hcode : s.CodeAt c.mem) (hpaged : c.Paged s) (heip : c.eip = s.loadAddr k)
    (hexec : c.exec (s.loadAddr (k + 1)) i = some c') :
    s.run k (i :: is) c = s.run (k + 1) is c' := by
  refine run_cons (fun j hj => ⟨?_, hcode k hk j hj⟩) ?_
  · have hin := h.inside hk hj
    have haddr : (s.loadAddr k + BitVec.ofNat 32 j).toNat =
        (RELOC s.entry).toNat + s.offset k + j := by
      rw [BitVec.toNat_add, BitVec.toNat_ofNat, (h.low (Nat.le_of_lt hk)).1]
      omega
    rw [hpaged.access, heip, entryView_low (by omega), haddr]
  · rw [heip, EntrySymbols.loadAddr, s.next]
    exact hexec

/-- Behind the jump it is fetched at its link address. -/
theorem EntrySymbols.Linked.step_high (h : s.Linked) {k : Nat} {i : Instr} {is : List Instr}
    (hk : k < 11) (hcode : s.CodeAt c.mem) (hpaged : c.Paged s) (heip : c.eip = s.linkAddr k)
    (hexec : c.exec (s.linkAddr (k + 1)) i = some c') :
    s.run k (i :: is) c = s.run (k + 1) is c' := by
  refine run_cons (fun j hj => ⟨?_, hcode k hk j hj⟩) ?_
  · have hin := h.inside hk hj
    have hbase : KERNBASE.toNat = 4026531840 := rfl
    have haddr : (s.linkAddr k + BitVec.ofNat 32 j).toNat =
        KERNBASE.toNat + ((RELOC s.entry).toNat + s.offset k + j) := by
      rw [BitVec.toNat_add, BitVec.toNat_ofNat, h.high (Nat.le_of_lt hk)]
      omega
    rw [hpaged.access, heip, entryView_at haddr hin]
  · rw [heip, EntrySymbols.linkAddr, s.next]
    exact hexec

/-- The entry code does not store to what is above the first page. -/
theorem EntrySymbols.Linked.codeAt_warmBoot (h : s.Linked) {mem : Memory} (hcode : s.CodeAt mem) :
    s.CodeAt (writeBytes mem 0x472 [0x34, 0x12]) := by
  have hbase : KERNBASE.toNat = 4026531840 := rfl
  have hentry := h.entry
  have hreloc := RELOC_toNat (show 4026531840 ≤ s.entry.toNat by omega)
  have hlen : ([0x34, 0x12] : List Byte).length = 2 := rfl
  intro k hk j hj
  rw [writeBytes_of_ge _ _ (by omega)]
  exact hcode k hk j hj

/-- The word that tells the firmware of a warm boot is below the tables. -/
theorem EntryTables.warmBoot {mem : Memory} (h : s.Linked)
    (ht : EntryTables mem s.entryPgdir s.entryPgtable) :
    EntryTables (writeBytes mem 0x472 [0x34, 0x12]) s.entryPgdir s.entryPgtable := by
  have hbase : KERNBASE.toNat = 4026531840 := rfl
  have hdir := h.dir
  have htable := h.table
  have hlen : ([0x34, 0x12] : List Byte).length = 2 := rfl
  have hdirReloc := RELOC_toNat (show 4026531840 ≤ s.entryPgdir.toNat by omega)
  have htableReloc := RELOC_toNat (show 4026531840 ≤ s.entryPgtable.toNat by omega)
  refine ht.store fun x h0 h1 => ?_
  omega

/-- The bits of the control register behind the `orl`. -/
theorem cr0_bits (cr0 : Word) :
    (cr0 ||| (CR0_PE ||| CR0_PG ||| CR0_WP)) &&& CR0_PG ≠ 0 ∧
      (cr0 ||| (CR0_PE ||| CR0_PG ||| CR0_WP)) &&& CR0_WP ≠ 0 := by
  constructor
  · intro h
    have hbit := congrArg (fun x => x.getLsbD 31) h
    simp [CR0_PE, CR0_PG, CR0_WP] at hbit
  · intro h
    have hbit := congrArg (fun x => x.getLsbD 16) h
    simp [CR0_PE, CR0_PG, CR0_WP] at hbit

/-- The memory that the entry code leaves: the word for the firmware, and the return address. -/
def EntrySymbols.memory (s : EntrySymbols) (mem : Memory) : Memory :=
  writeBytes (writeBytes mem 0x472 [0x34, 0x12]) ((RELOC s.bootstacktop).toNat - 4)
    (wordBytes (s.linkAddr 11))

/-- The stack is above the tables or below them. -/
theorem EntrySymbols.Linked.stack_offTables (h : s.Linked) {mem : Memory}
    (ht : EntryTables mem s.entryPgdir s.entryPgtable) :
    s.OffTables ((RELOC s.bootstacktop).toNat - 4) 4 := by
  have hbase : KERNBASE.toNat = 4026531840 := rfl
  have hdir := h.dir
  have htable := h.table
  have hstack := h.stack
  have halign := h.stackAligned
  have hdirAlign := ht.dirAligned
  have htableAlign := ht.tableAligned
  have hstackDir := h.stackDir
  have hstackTable := h.stackTable
  have hdirReloc := RELOC_toNat (show 4026531840 ≤ s.entryPgdir.toNat by omega)
  have htableReloc := RELOC_toNat (show 4026531840 ≤ s.entryPgtable.toNat by omega)
  have hstackReloc := RELOC_toNat (show 4026531840 ≤ s.bootstacktop.toNat by omega)
  intro x h0 h1
  omega

/-- **The entry code reaches the kernel**: each instruction is fetched where it was loaded, before
    paging is on, between that and the jump, and behind the jump; `i386_init` is entered at its
    link address on the kernel's stack, with no frame above its own, and every access is then
    translated as the entry tables say. -/
theorem runEntry_spec (h : s.Linked) (heip : c.eip = RELOC s.entry)
    (hpg : c.cr0 &&& CR0_PG = 0) (hcode : s.CodeAt c.mem)
    (ht : EntryTables c.mem s.entryPgdir s.entryPgtable) :
    ∃ c', runEntry s c = some c' ∧ c'.eip = s.i386Init ∧ c'.ebp = 0 ∧
      c'.esp = s.bootstacktop - 4 ∧ c'.mem = s.memory c.mem ∧ c'.Paged s := by
  obtain ⟨eip, eax, ebp, esp, cr0, cr3, mem⟩ := c
  obtain rfl : eip = RELOC s.entry := heip
  have hpg : cr0 &&& CR0_PG = 0 := hpg
  have hstart : RELOC s.entry = s.loadAddr 0 := (BitVec.add_zero _).symm
  obtain ⟨hpaging, hprotect⟩ := cr0_bits cr0
  generalize hcr0 : cr0 ||| (CR0_PE ||| CR0_PG ||| CR0_WP) = on at hpaging hprotect
  generalize hmem : writeBytes mem 0x472 [0x34, 0x12] = mem1
  have hcode1 : s.CodeAt mem1 := hmem ▸ h.codeAt_warmBoot hcode
  have htables : EntryTables mem1 s.entryPgdir s.entryPgtable := hmem ▸ ht.warmBoot h
  have hpaged : ∀ eip eax ebp esp,
      (⟨eip, eax, ebp, esp, on, RELOC s.entryPgdir, mem1⟩ : Cpu).Paged s :=
    fun _ _ _ _ => ⟨hpaging, hprotect, rfl, htables⟩
  have hwarm : Cpu.exec (s.loadAddr 1) (.movwMem 0x1234 0x472)
      ⟨RELOC s.entry, eax, ebp, esp, cr0, cr3, mem⟩ =
        some ⟨s.loadAddr 1, eax, ebp, esp, cr0, cr3, mem1⟩ := by
    rw [← hmem]
    exact Cpu.store_unpaged hpg (by decide)
  have hoff := h.stack_offTables htables
  have hlen : (wordBytes (s.linkAddr 11)).length = 4 := rfl
  have hmemory : writeBytes mem1 ((RELOC s.bootstacktop).toNat - 4) (wordBytes (s.linkAddr 11)) =
      s.memory mem := by rw [EntrySymbols.memory, hmem]
  have hstack : Cpu.exec (s.linkAddr 11) (.call s.i386Init)
      ⟨s.linkAddr 10, s.relocated, 0, s.bootstacktop, on, RELOC s.entryPgdir, mem1⟩ =
        some ⟨s.i386Init, s.relocated, 0, s.bootstacktop - 4, on, RELOC s.entryPgdir,
          s.memory mem⟩ := by
    have hbase : KERNBASE.toNat = 4026531840 := rfl
    have hlow := h.stack
    have hhigh := h.stackEnd
    have hreloc := RELOC_toNat (show 4026531840 ≤ s.bootstacktop.toNat by omega)
    have hplace : (s.bootstacktop - 4).toNat =
        KERNBASE.toNat + ((RELOC s.bootstacktop).toNat - 4) := by bv_omega
    have hpush := @Cpu.Paged.store s (wordBytes (s.linkAddr 11)) _ _ _
      (hpaged s.i386Init s.relocated 0 (s.bootstacktop - 4)) hplace (by omega) hoff
    rw [hmemory] at hpush
    exact hpush
  have hfinal : (⟨s.i386Init, s.relocated, 0, s.bootstacktop - 4, on, RELOC s.entryPgdir,
      s.memory mem⟩ : Cpu).Paged s := by
    rw [← hmemory]
    exact (hpaged s.i386Init s.relocated 0 (s.bootstacktop - 4)).write hoff
  refine ⟨_, ?_, rfl, rfl, rfl, rfl, hfinal⟩
  calc runEntry s ⟨RELOC s.entry, eax, ebp, esp, cr0, cr3, mem⟩
    _ = s.run 1 (s.code.drop 1) ⟨s.loadAddr 1, eax, ebp, esp, cr0, cr3, mem1⟩ :=
      h.step_unpaged (by decide) hcode hpg hstart hwarm
    _ = s.run 2 (s.code.drop 2) ⟨s.loadAddr 2, RELOC s.entryPgdir, ebp, esp, cr0, cr3, mem1⟩ :=
      h.step_unpaged (by decide) hcode1 hpg rfl rfl
    _ = s.run 3 (s.code.drop 3) ⟨s.loadAddr 3, RELOC s.entryPgdir, ebp, esp, cr0,
        RELOC s.entryPgdir, mem1⟩ := h.step_unpaged (by decide) hcode1 hpg rfl rfl
    _ = s.run 4 (s.code.drop 4) ⟨s.loadAddr 4, cr0, ebp, esp, cr0, RELOC s.entryPgdir, mem1⟩ :=
      h.step_unpaged (by decide) hcode1 hpg rfl rfl
    _ = s.run 5 (s.code.drop 5) ⟨s.loadAddr 5, on, ebp, esp, cr0, RELOC s.entryPgdir, mem1⟩ := by
      rw [← hcr0]
      exact h.step_unpaged (by decide) hcode1 hpg rfl rfl
    _ = s.run 6 (s.code.drop 6) ⟨s.loadAddr 6, on, ebp, esp, on, RELOC s.entryPgdir, mem1⟩ :=
      h.step_unpaged (by decide) hcode1 hpg rfl rfl
    -- paging is on, and the processor is still at the load address
    _ = s.run 7 (s.code.drop 7) ⟨s.loadAddr 7, s.relocated, ebp, esp, on, RELOC s.entryPgdir,
        mem1⟩ := h.step_low (by decide) hcode1 (hpaged _ _ _ _) rfl rfl
    _ = s.run 8 (s.code.drop 8) ⟨s.linkAddr 8, s.relocated, ebp, esp, on, RELOC s.entryPgdir,
        mem1⟩ := h.step_low (by decide) hcode1 (hpaged _ _ _ _) rfl rfl
    _ = s.run 9 (s.code.drop 9) ⟨s.linkAddr 9, s.relocated, 0, esp, on, RELOC s.entryPgdir,
        mem1⟩ := h.step_high (by decide) hcode1 (hpaged _ _ _ _) rfl rfl
    _ = s.run 10 (s.code.drop 10) ⟨s.linkAddr 10, s.relocated, 0, s.bootstacktop, on,
        RELOC s.entryPgdir, mem1⟩ := h.step_high (by decide) hcode1 (hpaged _ _ _ _) rfl rfl
    _ = some ⟨s.i386Init, s.relocated, 0, s.bootstacktop - 4, on, RELOC s.entryPgdir,
        s.memory mem⟩ := h.step_high (by decide) hcode1 (hpaged _ _ _ _) rfl hstack

end

/-- The machine code of the entry, which ends at `0xF010003E`. -/
def entryCode : Nat → List Byte
  | 0 => [0x66, 0xC7, 0x05, 0x72, 0x04, 0x00, 0x00, 0x34, 0x12]
  | 1 => [0xB8, 0x00, 0x10, 0x11, 0x00]
  | 2 => [0x0F, 0x22, 0xD8]
  | 3 => [0x0F, 0x20, 0xC0]
  | 4 => [0x0D, 0x01, 0x00, 0x01, 0x80]
  | 5 => [0x0F, 0x22, 0xC0]
  | 6 => [0xB8, 0x2F, 0x00, 0x10, 0xF0]
  | 7 => [0xFF, 0xE0]
  | 8 => [0xBD, 0x00, 0x00, 0x00, 0x00]
  | 9 => [0xBC, 0x00, 0x00, 0x11, 0xF0]
  | 10 => [0xE8, 0x56, 0x00, 0x00, 0x00]
  | _ => []

def entrySymbols : EntrySymbols where
  entry := 0xF010000C
  entryPgdir := 0xF0111000
  entryPgtable := 0xF0112000
  bootstacktop := 0xF0110000
  i386Init := 0xF0100094
  machineCode := entryCode

example : entrySymbols.relocated = 0xF010002F := by decide

theorem entrySymbols_linked : entrySymbols.Linked where
  entry := by decide
  entryEnd := by decide
  dir := by decide
  table := by decide
  stackAligned := by decide
  stack := by decide
  stackEnd := by decide
  stackDir := by decide
  stackTable := by decide

end Jos
