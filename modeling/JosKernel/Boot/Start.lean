import JosKernel.Boot.Entry
import JosKernel.Boot.Segments

/-!
# The start of the boot sector

`boot/boot.S`: the firmware has loaded it at `0x7c00` and starts it in real mode.  It turns the
address line A20 on through the keyboard controller, which it has to wait for, switches to
protected mode with the descriptors of its own table, and calls `bootmain`.

`BootSymbols.run` executes the instructions of the source; each one is fetched through the code
segment.  Principal result: `boot_switch` — however long the controller is busy and
whatever the registers hold, the code reaches `bootmain` with segments that make every address
its own physical address.
-/

set_option autoImplicit false

namespace Jos

/-! ## The keyboard controller -/

/-- How many reads of the status port still find the input buffer full, and how many will
    behind each later byte; the other status bits; whether the next data byte is for the output
    port; and the output port. -/
structure Kbc where
  busy : Nat
  delays : List Nat
  flags : Byte
  command : Bool
  outputPort : Byte

/-- `inb $0x64`. -/
def Kbc.status (q : Kbc) : Byte := if q.busy = 0 then q.flags &&& ~~~0x2 else q.flags ||| 0x2

def Kbc.poll (q : Kbc) : Kbc := { q with busy := q.busy - 1 }

/-- `outb`: a byte for a full input buffer is lost. -/
def Kbc.outb (port : Nat) (data : Byte) (q : Kbc) : Kbc :=
  if q.busy ≠ 0 then q
  else
    let q := { q with busy := q.delays.headD 0, delays := q.delays.tail }
    if port = 0x64 then { q with command := data = 0xd1 }
    else if port = 0x60 ∧ q.command then { q with command := false, outputPort := data }
    else q

/-- The gate of address line 20. -/
def Kbc.a20 (q : Kbc) : Bool := q.outputPort.getLsbD 1

/-! ## The processor -/

inductive SegReg where
  | cs | ds | es | fs | gs | ss
deriving DecidableEq

/-- A segment register with its hidden part. -/
structure Segment where
  selector : BitVec 16
  base : Word
  limit : Word
  type : BitVec 4

/-- The processor at the `k`th instruction, the keyboard controller, and memory. -/
structure BootCpu where
  k : Nat
  eax : Word
  esp : Word
  zf : Bool
  intr : Bool
  df : Bool
  cr0 : Word
  segs : SegReg → Segment
  gdtLimit : BitVec 16
  gdtBase : Word
  kbc : Kbc
  mem : Memory

/-- The place in memory that a linear address goes to. -/
def BootCpu.physical (c : BootCpu) (la : Word) : Nat :=
  if c.kbc.a20 then la.toNat else (la &&& ~~~0x100000).toNat

/-- The place of `len` bytes of a segment; `none` is a fault. -/
def BootCpu.access (c : BootCpu) (r : SegReg) (offset : Word) (len : Nat) : Option Nat :=
  if offset.toNat + len ≤ (c.segs r).limit.toNat + 1 then
    some (c.physical ((c.segs r).base + offset))
  else none

def BootCpu.ax (c : BootCpu) : BitVec 16 := c.eax.setWidth 16

def BootCpu.al (c : BootCpu) : Byte := c.eax.setWidth 8

def BootCpu.setAx (v : BitVec 16) (c : BootCpu) : BootCpu :=
  { c with eax := (c.eax &&& ~~~0xFFFF) ||| v.setWidth 32 }

def BootCpu.setAl (v : Byte) (c : BootCpu) : BootCpu :=
  { c with eax := (c.eax &&& ~~~0xFF) ||| v.setWidth 32 }

/-- The descriptor that a selector names. -/
def BootCpu.descriptor (c : BootCpu) (sel : BitVec 16) : Option Segdesc :=
  if sel &&& 0x4 = 0 ∧ (sel &&& 0xFFF8).toNat + 7 ≤ c.gdtLimit.toNat then
    some (segdescAt (fun a => c.mem (c.physical (BitVec.ofNat 32 a)))
      (c.gdtBase.toNat + (sel &&& 0xFFF8).toNat))
  else none

/-- The types that a register takes: code, writable data, readable. -/
def SegReg.takes : SegReg → BitVec 4 → Bool
  | .cs, type => type.getLsbD 3
  | .ss, type => !type.getLsbD 3 && type.getLsbD 1
  | _, type => !type.getLsbD 3 || type.getLsbD 1

def BootCpu.setSeg (r : SegReg) (g : Segment) (c : BootCpu) : BootCpu :=
  { c with segs := fun r' => if r' = r then g else c.segs r' }

/-- The descriptor at `a` has been used: the bit `STA_A` of its type is set. -/
def markAccessed (a : Nat) (mem : Memory) : Memory :=
  Function.update mem (a + 5) (mem (a + 5) ||| STA_A.setWidth 8)

/-- A load of a segment register, at privilege level 0. -/
def BootCpu.loadSeg (r : SegReg) (sel : BitVec 16) (c : BootCpu) : Option BootCpu :=
  if c.cr0 &&& CR0_PE = 0 then
    -- real mode: the limit and the type stay
    some (c.setSeg r { c.segs r with selector := sel, base := sel.setWidth 32 <<< 4 })
  else
    (c.descriptor sel).bind fun d =>
      if sel &&& 0xFFFC ≠ 0 ∧ d.sd_p = 1 ∧ d.sd_s = 1 ∧ d.sd_dpl = 0 ∧ r.takes d.sd_type then
        let a := c.physical (c.gdtBase + (sel &&& 0xFFF8).setWidth 32)
        some (({ c with mem := markAccessed a c.mem } : BootCpu).setSeg r
          ⟨sel, d.base, d.limit, d.sd_type ||| STA_A.setWidth 4⟩)
      else none

/-- A store through the stack segment. -/
def BootCpu.push (c : BootCpu) (bytes : List Byte) : Option BootCpu :=
  if SegReg.ss.takes (c.segs .ss).type then
    let esp := c.esp - BitVec.ofNat 32 bytes.length
    (c.access .ss esp bytes.length).map fun pa =>
      { c with esp, mem := writeBytes c.mem pa bytes }
  else none

/-! ## The code -/

inductive BootInstr where
  | cli
  | cld
  | xorwAx
  | movwAxTo (r : SegReg)
  | inbStatus
  | testbAl (imm : Byte)
  | jnz (target : Nat)
  | movbAl (imm : Byte)
  | outbAl (port : Nat)
  | lgdt (addr : Word)
  | movlCr0Eax
  | orlEax (imm : Word)
  | movlEaxCr0
  | ljmp (sel : BitVec 16) (target : Nat)
  | movwAx (imm : BitVec 16)
  | movlEsp (imm : Word)
  | call

/-- The addresses of the labels and of the instructions. -/
structure BootSymbols where
  start : Word
  gdt : Word
  gdtdesc : Word
  offset : Nat → Nat

def PROT_MODE_CSEG : BitVec 16 := 0x8
def PROT_MODE_DSEG : BitVec 16 := 0x10
def CR0_PE_ON : Word := 0x1

def BootSymbols.addr (s : BootSymbols) (k : Nat) : Word := s.start + BitVec.ofNat 32 (s.offset k)

/-- Instruction 6 is `seta20.1`, 11 is `seta20.2`, 21 is `protcseg`. -/
def BootSymbols.code (s : BootSymbols) : List BootInstr :=
  [.cli, .cld,
   .xorwAx, .movwAxTo .ds, .movwAxTo .es, .movwAxTo .ss,
   .inbStatus, .testbAl 0x2, .jnz 6,
   .movbAl 0xd1, .outbAl 0x64,
   .inbStatus, .testbAl 0x2, .jnz 11,
   .movbAl 0xdf, .outbAl 0x60,
   .lgdt s.gdtdesc, .movlCr0Eax, .orlEax CR0_PE_ON, .movlEaxCr0,
   .ljmp PROT_MODE_CSEG 21,
   .movwAx PROT_MODE_DSEG, .movwAxTo .ds, .movwAxTo .es, .movwAxTo .fs, .movwAxTo .gs,
   .movwAxTo .ss,
   .movlEsp s.start, .call]

/-- The sixteen bits of the limit and, with a 16-bit operand, the low 24 bits of the base. -/
def BootCpu.loadGdtr (pa : Nat) (c : BootCpu) : BootCpu :=
  { c with
    gdtLimit := c.mem (pa + 1) ++ c.mem pa
    gdtBase := 0#8 ++ c.mem (pa + 4) ++ c.mem (pa + 3) ++ c.mem (pa + 2) }

/-- One instruction; `c` is already at the next one. -/
def BootSymbols.exec (s : BootSymbols) (c : BootCpu) : BootInstr → Option BootCpu
  | .cli => some { c with intr := false }
  | .cld => some { c with df := false }
  | .xorwAx => some { c.setAx 0 with zf := true }
  | .movwAxTo r => c.loadSeg r c.ax
  | .inbStatus => some { c.setAl c.kbc.status with kbc := c.kbc.poll }
  | .testbAl imm => some { c with zf := c.al &&& imm = 0 }
  | .jnz target => some (if c.zf then c else { c with k := target })
  | .movbAl imm => some (c.setAl imm)
  | .outbAl port => some { c with kbc := c.kbc.outb port c.al }
  | .lgdt addr => (c.access .ds addr 6).map fun pa => c.loadGdtr pa
  | .movlCr0Eax => some { c with eax := c.cr0 }
  | .orlEax imm => some { c with eax := c.eax ||| imm, zf := c.eax ||| imm = 0 }
  | .movlEaxCr0 => some { c with cr0 := c.eax }
  | .ljmp sel target => (c.loadSeg .cs sel).map fun c => { c with k := target }
  | .movwAx imm => some (c.setAx imm)
  | .movlEsp imm => some { c with esp := imm }
  | .call => c.push (wordBytes (s.addr c.k))

/-- One step; the instruction has to be fetched where the firmware has put it. -/
def BootSymbols.step (s : BootSymbols) (c : BootCpu) : Option BootCpu :=
  if c.access .cs (s.addr c.k) 1 = some (s.addr c.k).toNat then
    s.code[c.k]?.bind (s.exec { c with k := c.k + 1 })
  else none

/-- Up to `bootmain`, which is behind the call; `none` is a fault, or not within the budget. -/
def BootSymbols.run (s : BootSymbols) : Nat → BootCpu → Option BootCpu
  | 0, _ => none
  | fuel + 1, c => if c.k = 29 then some c else (s.step c).bind (s.run fuel)

/-! ## Runs -/

/-- Every run from `c` comes to `c'`. -/
def BootSymbols.Reaches (s : BootSymbols) (c c' : BootCpu) : Prop :=
  ∃ n, ∀ fuel, s.run (n + fuel) c = s.run fuel c'

section

variable {s : BootSymbols} {c c' c'' : BootCpu}

theorem BootSymbols.Reaches.refl (c : BootCpu) : s.Reaches c c :=
  ⟨0, fun fuel => by rw [Nat.zero_add]⟩

theorem BootSymbols.Reaches.trans (h : s.Reaches c c') (h' : s.Reaches c' c'') :
    s.Reaches c c'' := by
  obtain ⟨n, hn⟩ := h
  obtain ⟨m, hm⟩ := h'
  exact ⟨n + m, fun fuel => by rw [Nat.add_assoc, hn, hm]⟩

theorem BootSymbols.Reaches.step (hk : c.k ≠ 29) (h : s.step c = some c') : s.Reaches c c' := by
  refine ⟨1, fun fuel => ?_⟩
  rw [Nat.add_comm, BootSymbols.run, if_neg hk, h, Option.bind_some]

end

/-! ## Addresses -/

/-- A descriptor of all addresses in the table of the boot sector. -/
def BootSymbols.Holds (s : BootSymbols) (mem : Memory) (sel : Nat) (type : Word) : Prop :=
  ∀ k < 8, mem (s.gdt.toNat + sel + k) = (segBytes type 0x0 0xffffffff).getD k 0

/-- Memory behind the first loads of the code and of the data segment. -/
def BootSymbols.marked (s : BootSymbols) (mem : Memory) : Memory :=
  markAccessed (s.gdt.toNat + 16) (markAccessed (s.gdt.toNat + 8) mem)

/-- What the firmware has loaded: the code and the table are in the boot sector. -/
structure BootSymbols.Loaded (s : BootSymbols) (mem : Memory) : Prop where
  start : s.start = 0x7c00
  code : ∀ k ≤ 29, s.offset k < 510
  gdt : 0x7c00 ≤ s.gdt.toNat ∧ s.gdt.toNat + 24 ≤ 0x7e00
  gdtdesc : 0x7c00 ≤ s.gdtdesc.toNat ∧ s.gdtdesc.toNat + 6 ≤ 0x7e00
  table : ∀ k < 24, mem (s.gdt.toNat + k) =
    (segNullBytes ++ segBytes (STA_X ||| STA_R) 0x0 0xffffffff ++
      segBytes STA_W 0x0 0xffffffff).getD k 0
  pointer : ∀ k < 6, mem (s.gdtdesc.toNat + k) =
    (wordDirective 0x17 ++ wordBytes s.gdt).getD k 0

section

variable {s : BootSymbols} {c c' : BootCpu}

/-- Below the second megabyte line 20 does not matter. -/
theorem BootCpu.physical_low {la : Word} (h : la.toNat < 0x100000) : c.physical la = la.toNat := by
  have hsame : la &&& ~~~0x100000 = la := by
    refine BitVec.eq_of_getLsbD_eq fun i hi => ?_
    have hmask : ∀ k < 32, (~~~(0x100000 : Word)).getLsbD k = decide (k ≠ 20) := by decide
    rw [BitVec.getLsbD_and, hmask i hi]
    by_cases h20 : i = 20
    · have hbit : la.getLsbD 20 = false := Nat.testBit_lt_two_pow h
      rw [h20, hbit]
      rfl
    · rw [decide_eq_true h20, Bool.and_true]
  unfold physical
  split
  · rfl
  · exact congrArg BitVec.toNat hsame

theorem BootSymbols.Loaded.addr {mem : Memory} (h : s.Loaded mem) {k : Nat} (hk : k ≤ 29) :
    (s.addr k).toNat < 0x7e00 := by
  have hoffset := h.code k hk
  have hstart : (0x7c00 : Word).toNat = 0x7c00 := rfl
  rw [BootSymbols.addr, h.start, BitVec.toNat_add, BitVec.toNat_ofNat, hstart]
  omega

/-! ## Steps -/

/-- The code segment that the boot sector runs in. -/
def Segment.Holds (g : Segment) : Prop := g.base = 0 ∧ 0xFFFF ≤ g.limit.toNat

theorem BootCpu.access_low {r : SegReg} (h : (c.segs r).Holds) {offset : Word} {len : Nat}
    (hlow : offset.toNat + len ≤ 0x10000) : c.access r offset len = some offset.toNat := by
  have hlimit := h.2
  have hzero : 0 + offset = offset := BitVec.zero_add offset
  rw [BootCpu.access, if_pos (by omega), h.1, hzero, physical_low (by omega)]

/-- One instruction. -/
theorem BootSymbols.Loaded.step {mem : Memory} (h : s.Loaded mem) {k : Nat} {i : BootInstr}
    (hk : c.k = k) (hcs : (c.segs .cs).Holds) (hi : s.code[k]? = some i)
    (hexec : s.exec { c with k := k + 1 } i = some c') : s.Reaches c c' := by
  have hlt : k < 29 := (List.getElem?_eq_some_iff.mp hi).1
  have haddr := h.addr (Nat.le_of_lt hlt)
  refine BootSymbols.Reaches.step (by omega) ?_
  rw [BootSymbols.step, hk, BootCpu.access_low hcs (by omega), if_pos rfl, hi]
  exact hexec

theorem al_setAl (c : BootCpu) (v : Byte) : (c.setAl v).al = v := by
  refine BitVec.eq_of_getLsbD_eq fun i hi => ?_
  have hmask : ∀ k < 8, (~~~(0xFF : Word)).getLsbD k = false := by decide
  simp (disch := omega) only [BootCpu.al, BootCpu.setAl, BitVec.getLsbD_setWidth,
    BitVec.getLsbD_or, BitVec.getLsbD_and, decide_eq_true, Bool.true_and]
  rw [hmask i hi, Bool.and_false, Bool.false_or]

theorem ax_setAx (c : BootCpu) (v : BitVec 16) : (c.setAx v).ax = v := by
  refine BitVec.eq_of_getLsbD_eq fun i hi => ?_
  have hmask : ∀ k < 16, (~~~(0xFFFF : Word)).getLsbD k = false := by decide
  simp (disch := omega) only [BootCpu.ax, BootCpu.setAx, BitVec.getLsbD_setWidth,
    BitVec.getLsbD_or, BitVec.getLsbD_and, decide_eq_true, Bool.true_and]
  rw [hmask i hi, Bool.and_false, Bool.false_or]

/-- In real mode, at the `k`th instruction. -/
structure BootSymbols.Real (c₀ : BootCpu) (k : Nat) (c : BootCpu) : Prop where
  k : c.k = k
  intr : c.intr = false
  mem : c.mem = c₀.mem
  cr0 : c.cr0 = c₀.cr0
  cs : (c.segs .cs).Holds
  ds : (c.segs .ds).Holds

theorem status_busy (q : Kbc) : q.status &&& 0x2 = 0 ↔ q.busy = 0 := by
  have hclear : ∀ flags : Byte, (flags &&& ~~~0x2) &&& 0x2 = 0 := by decide
  have hset : ∀ flags : Byte, (flags ||| 0x2) &&& 0x2 ≠ 0 := by decide
  unfold Kbc.status
  split
  · exact iff_of_true (hclear _) ‹_›
  · exact iff_of_false (hset _) ‹_›

end

section

variable {s : BootSymbols} {c₀ : BootCpu}

/-- **The loop ends with an empty input buffer**, however long that takes. -/
theorem BootSymbols.Loaded.wait {mem : Memory} (h : s.Loaded mem) {k : Nat}
    (hin : s.code[k]? = some .inbStatus) (htest : s.code[k + 1]? = some (.testbAl 0x2))
    (hjump : s.code[k + 2]? = some (.jnz k)) : ∀ (n : Nat) {c : BootCpu}, c.kbc.busy = n →
    Real c₀ k c → ∃ c', s.Reaches c c' ∧ Real c₀ (k + 3) c' ∧ c'.kbc = { c.kbc with busy := 0 }
  | n, c, hbusy, hc => by
    have hone : s.Reaches c { (c.setAl c.kbc.status) with k := k + 1, kbc := c.kbc.poll } :=
      h.step hc.k hc.cs hin rfl
    have htwo := hone.trans (h.step rfl hc.cs htest rfl)
    have hzf := (congrArg (fun v : Byte => v &&& 0x2 = 0) (al_setAl c c.kbc.status)).to_iff.trans
      (status_busy c.kbc)
    cases n with
    | zero =>
      have hpass := htwo.trans (h.step rfl hc.cs hjump
        (congrArg some (if_pos (decide_eq_true (hzf.mpr hbusy)))))
      refine ⟨_, hpass, ⟨rfl, hc.intr, hc.mem, hc.cr0, hc.cs, hc.ds⟩, ?_⟩
      show c.kbc.poll = _
      rw [Kbc.poll, hbusy]
    | succ n =>
      have hne : ¬c.kbc.busy = 0 := by omega
      obtain ⟨c₃, hpass, hreal₃, hkbc₃⟩ : ∃ c₃, s.Reaches c c₃ ∧ Real c₀ k c₃ ∧
          c₃.kbc = c.kbc.poll :=
        ⟨_, htwo.trans (h.step rfl hc.cs hjump
            (congrArg some (if_neg fun hz => hne (hzf.mp (of_decide_eq_true hz))))),
          ⟨rfl, hc.intr, hc.mem, hc.cr0, hc.cs, hc.ds⟩, rfl⟩
      have hless : c₃.kbc.busy = n := by
        rw [hkbc₃, Kbc.poll, hbusy]
        rfl
      obtain ⟨c', hreach, hreal, hkbc⟩ := BootSymbols.Loaded.wait h hin htest hjump n hless hreal₃
      exact ⟨c', hpass.trans hreach, hreal, hkbc.trans (hkbc₃ ▸ rfl)⟩

/-- The registers at the firmware's jump to the boot sector. -/
structure BootCpu.AtStart (c : BootCpu) : Prop where
  k : c.k = 0
  real : c.cr0 &&& CR0_PE = 0
  cs : (c.segs .cs).Holds
  limit : ∀ r, 0xFFFF ≤ (c.segs r).limit.toNat

/-- In real mode with a cleared `%ax`. -/
structure BootSymbols.Clear (c₀ : BootCpu) (k : Nat) (c : BootCpu) : Prop where
  k : c.k = k
  intr : c.intr = false
  mem : c.mem = c₀.mem
  cr0 : c.cr0 = c₀.cr0
  kbc : c.kbc = c₀.kbc
  ax : c.ax = 0
  cs : (c.segs .cs).Holds
  limit : ∀ r, 0xFFFF ≤ (c.segs r).limit.toNat

/-- A data segment at address 0. -/
theorem BootSymbols.Loaded.clear {mem : Memory} (h : s.Loaded mem) (hreal : c₀.cr0 &&& CR0_PE = 0)
    {k : Nat} {r : SegReg} (hr : r ≠ .cs) (hcode : s.code[k]? = some (.movwAxTo r)) {c : BootCpu}
    (hc : Clear c₀ k c) :
    ∃ c', s.Reaches c c' ∧ Clear c₀ (k + 1) c' ∧ (c'.segs r).base = 0 ∧
      ∀ r', r' ≠ r → c'.segs r' = c.segs r' := by
  have hload : ({ c with k := k + 1 } : BootCpu).loadSeg r c.ax = some (({ c with
      k := k + 1 } : BootCpu).setSeg r { c.segs r with selector := 0, base := 0 }) := by
    rw [hc.ax]
    exact if_pos (hc.cr0.symm ▸ hreal)
  have hstep := h.step hc.k hc.cs hcode hload
  have hsame : ∀ {r'} (_ : r' ≠ r) (g : Segment), (c.setSeg r g).segs r' = c.segs r' :=
    fun hne _ => if_neg hne
  have hself : ∀ g : Segment, (c.setSeg r g).segs r = g := fun _ => if_pos rfl
  refine ⟨_, hstep, ⟨rfl, hc.intr, hc.mem, hc.cr0, hc.kbc, hc.ax, ?_, fun r' => ?_⟩, ?_,
    fun r' hne => hsame hne _⟩
  · exact (hsame hr.symm _).symm ▸ hc.cs
  · by_cases hne : r' = r
    · rw [hne]
      exact (congrArg Segment.limit (hself _)).symm ▸ hc.limit r
    · exact (hsame hne _).symm ▸ hc.limit r'
  · exact congrArg Segment.base (hself _)

/-- The data segments are those of address 0. -/
theorem BootSymbols.Loaded.begin {c : BootCpu} (h : s.Loaded c.mem) (hc : c.AtStart) :
    ∃ c', s.Reaches c c' ∧ Real c 6 c' ∧ c'.kbc = c.kbc := by
  have hcli := h.step hc.k hc.cs rfl rfl
  have hcld := hcli.trans (h.step rfl hc.cs rfl rfl)
  obtain ⟨c₃, hxor, h₃⟩ : ∃ c₃, s.Reaches c c₃ ∧ Clear c 3 c₃ :=
    ⟨_, hcld.trans (h.step rfl hc.cs rfl rfl),
      ⟨rfl, rfl, rfl, rfl, rfl, ax_setAx _ 0, hc.cs, hc.limit⟩⟩
  obtain ⟨c₄, hds, h₄, hbase, -⟩ := h.clear hc.real (show SegReg.ds ≠ .cs by decide) rfl h₃
  obtain ⟨c₅, hes, h₅, -, hsame₅⟩ := h.clear hc.real (show SegReg.es ≠ .cs by decide) rfl h₄
  obtain ⟨c₆, hss, h₆, -, hsame₆⟩ := h.clear hc.real (show SegReg.ss ≠ .cs by decide) rfl h₅
  refine ⟨c₆, hxor.trans (hds.trans (hes.trans hss)),
    ⟨h₆.k, h₆.intr, h₆.mem, h₆.cr0, h₆.cs, ⟨?_, h₆.limit .ds⟩⟩, h₆.kbc⟩
  rw [hsame₆ .ds (by decide), hsame₅ .ds (by decide), hbase]

/-- **The address line is on.** -/
theorem BootSymbols.Loaded.seta20 {mem : Memory} (h : s.Loaded mem) {c : BootCpu}
    (hc : Real c₀ 6 c) :
    ∃ c', s.Reaches c c' ∧ Real c₀ 16 c' ∧ c'.kbc.a20 = true := by
  obtain ⟨c₁, hfirst, h₁, hkbc₁⟩ := h.wait rfl rfl rfl _ rfl hc
  obtain ⟨c₂, hcommand, h₂, hkbc₂⟩ : ∃ c₂, s.Reaches c₁ c₂ ∧ Real c₀ 11 c₂ ∧
      c₂.kbc.command = true := by
    have hmov := h.step h₁.k h₁.cs rfl rfl
    have hout := hmov.trans (h.step rfl h₁.cs rfl rfl)
    refine ⟨_, hout, ⟨rfl, h₁.intr, h₁.mem, h₁.cr0, h₁.cs, h₁.ds⟩, ?_⟩
    show (c₁.kbc.outb 0x64 (c₁.setAl 0xd1).al).command = true
    rw [al_setAl, hkbc₁]
    rfl
  obtain ⟨c₃, hsecond, h₃, hkbc₃⟩ := h.wait rfl rfl rfl _ rfl h₂
  have hmov := h.step h₃.k h₃.cs rfl rfl
  have hout := hmov.trans (h.step rfl h₃.cs rfl rfl)
  refine ⟨_, hfirst.trans (hcommand.trans (hsecond.trans hout)),
    ⟨rfl, h₃.intr, h₃.mem, h₃.cr0, h₃.cs, h₃.ds⟩, ?_⟩
  show (c₃.kbc.outb 0x60 (c₃.setAl 0xdf).al).a20 = true
  rw [al_setAl, hkbc₃]
  simp [Kbc.outb, Kbc.a20, hkbc₂]

/-! ## Protected mode -/

/-- In protected mode with the table of the boot sector, with `mem` in memory. -/
structure BootSymbols.Protected (s : BootSymbols) (c₀ : BootCpu) (mem : Memory) (c : BootCpu) :
    Prop where
  intr : c.intr = false
  mem : c.mem = mem
  cr0 : c.cr0 = c₀.cr0 ||| CR0_PE_ON
  gdtLimit : c.gdtLimit = 0x17
  gdtBase : c.gdtBase = s.gdt
  a20 : c.kbc.a20 = true

theorem protect_bit (cr0 : Word) : (cr0 ||| CR0_PE_ON) &&& CR0_PE ≠ 0 := by
  intro h
  have hbit := congrArg (fun x => x.getLsbD 0) h
  simp [CR0_PE_ON, CR0_PE] at hbit

/-- What is in the table of the boot sector. -/
theorem BootSymbols.Loaded.table_code {mem : Memory} (h : s.Loaded mem) :
    s.Holds mem 8 (STA_X ||| STA_R) := by
  have hcode : ∀ k < 8, (segNullBytes ++ segBytes (STA_X ||| STA_R) 0x0 0xffffffff ++
      segBytes STA_W 0x0 0xffffffff).getD (8 + k) 0 =
        (segBytes (STA_X ||| STA_R) 0x0 0xffffffff).getD k 0 := by decide
  intro k hk
  rw [Nat.add_assoc, h.table (8 + k) (by omega), hcode k hk]

theorem BootSymbols.Loaded.table_data {mem : Memory} (h : s.Loaded mem) :
    s.Holds mem 16 STA_W := by
  have hdata : ∀ k < 8, (segNullBytes ++ segBytes (STA_X ||| STA_R) 0x0 0xffffffff ++
      segBytes STA_W 0x0 0xffffffff).getD (16 + k) 0 =
        (segBytes STA_W 0x0 0xffffffff).getD k 0 := by decide
  intro k hk
  rw [Nat.add_assoc, h.table (16 + k) (by omega), hdata k hk]

/-- The mark is in the type of the descriptor. -/
theorem BootSymbols.Holds.mark {mem : Memory} {sel : Nat} {type : Word}
    (h : s.Holds mem sel type) :
    s.Holds (markAccessed (s.gdt.toNat + sel) mem) sel (type ||| STA_A) := by
  have hbyte : ((0x90 : Word) ||| (type ||| STA_A)).setWidth 8 =
      ((0x90 : Word) ||| type).setWidth 8 ||| STA_A.setWidth 8 := by
    rw [← BitVec.or_assoc, BitVec.setWidth_or]
  intro k hk
  by_cases h5 : k = 5
  · subst h5
    rw [markAccessed, Function.update_self, h 5 hk]
    exact hbyte.symm
  · rw [markAccessed, Function.update_of_ne (by omega), h k hk]
    match k, h5, hk with
    | 0, _, _ | 1, _, _ | 2, _, _ | 3, _, _ | 4, _, _ | 6, _, _ | 7, _, _ => rfl

/-- It leaves the other descriptors alone. -/
theorem BootSymbols.Holds.mark_other {mem : Memory} {sel other : Nat} {type : Word}
    (h : s.Holds mem sel type) (hne : sel + 8 ≤ other ∨ other + 8 ≤ sel) :
    s.Holds (markAccessed (s.gdt.toNat + other) mem) sel type := by
  intro k hk
  rw [markAccessed, Function.update_of_ne (by omega), h k hk]

/-- A used descriptor is as it was. -/
theorem BootSymbols.Holds.mark_self {mem : Memory} {sel : Nat} {type : Word}
    (h : s.Holds mem sel (type ||| STA_A)) : markAccessed (s.gdt.toNat + sel) mem = mem := by
  have hbyte : ((0x90 : Word) ||| (type ||| STA_A)).setWidth 8 ||| STA_A.setWidth 8 =
      ((0x90 : Word) ||| (type ||| STA_A)).setWidth 8 := by
    rw [← BitVec.or_assoc, BitVec.setWidth_or, BitVec.or_assoc, BitVec.or_self]
  have hmem : mem (s.gdt.toNat + sel + 5) ||| STA_A.setWidth 8 = mem (s.gdt.toNat + sel + 5) := by
    rw [h 5 (by decide)]
    exact hbyte
  rw [markAccessed, hmem, Function.update_eq_self]

/-- The segments of the table: all addresses, from 0 on. -/
def flatSegment (sel : BitVec 16) (type : Word) : Segment := ⟨sel, 0, 0xffffffff, type.setWidth 4⟩

def codeSegment : Segment := flatSegment PROT_MODE_CSEG (STA_X ||| STA_R ||| STA_A)
def dataSegment : Segment := flatSegment PROT_MODE_DSEG (STA_W ||| STA_A)

/-- **A load from the table**, which marks the descriptor. -/
theorem BootSymbols.Holds.loadSeg {mem : Memory} {type : Word} {sel : BitVec 16}
    (hholds : s.Holds mem sel.toNat type) (hend : s.gdt.toNat + 24 ≤ 0x7e00) {c : BootCpu}
    (hc : s.Protected c₀ mem c) {r : SegReg} (hsel : sel = PROT_MODE_CSEG ∨ sel = PROT_MODE_DSEG)
    (htype : type.toNat < 16) (htakes : r.takes (type.setWidth 4) = true) :
    c.loadSeg r sel = some (({ c with mem := markAccessed (s.gdt.toNat + sel.toNat) mem } :
      BootCpu).setSeg r (flatSegment sel (type ||| STA_A))) := by
  have hindex : sel &&& 0xFFF8 = sel ∧ sel &&& 0x4 = 0 ∧ sel &&& 0xFFFC ≠ 0 ∧ sel.toNat ≤ 16 := by
    rcases hsel with rfl | rfl <;> decide
  obtain ⟨hmask, hlocal, hnull, hlow⟩ := hindex
  have hread : segdescAt (fun a => c.mem (c.physical (BitVec.ofNat 32 a)))
      (c.gdtBase.toNat + sel.toNat) = SEG type 0x0 0xffffffff 0 := by
    refine segdescAt_segBytes htype _ _ fun k hk => ?_
    have haddr : (BitVec.ofNat 32 (s.gdt.toNat + sel.toNat + k)).toNat =
        s.gdt.toNat + sel.toNat + k := by
      rw [BitVec.toNat_ofNat]
      omega
    rw [hc.gdtBase, BootCpu.physical, if_pos hc.a20, haddr, hc.mem, hholds k hk]
  have hdesc : c.descriptor sel = some (SEG type 0x0 0xffffffff 0) := by
    rw [BootCpu.descriptor, hc.gdtLimit, hmask, hread,
      if_pos ⟨hlocal, show sel.toNat + 7 ≤ 23 by omega⟩]
  have hplace : c.physical (c.gdtBase + (sel &&& 0xFFF8).setWidth 32) =
      s.gdt.toNat + sel.toNat := by
    rw [BootCpu.physical, if_pos hc.a20, hc.gdtBase, hmask, BitVec.toNat_add,
      BitVec.toNat_setWidth]
    omega
  have hcached : (SEG type 0x0 0xffffffff 0).sd_type ||| STA_A.setWidth 4 =
      (type ||| STA_A).setWidth 4 := BitVec.setWidth_or.symm
  rw [BootCpu.loadSeg, hc.cr0, if_neg (protect_bit _), hdesc, Option.bind_some,
    if_pos ⟨hnull, rfl, rfl, rfl, htakes⟩, SEG_base, SEG_limit, hplace, hcached, hc.mem]
  rfl

/-- The pointer to the table, of which the processor takes 24 bits. -/
theorem gdt_base {gdt : Word} (h : gdt.toNat < 0x1000000) :
    0#8 ++ byteOf gdt 2 ++ byteOf gdt 1 ++ byteOf gdt 0 = gdt := by
  refine BitVec.eq_of_getLsbD_eq fun i hi => ?_
  by_cases hhigh : 24 ≤ i
  · have hpow : 2 ^ 24 ≤ 2 ^ i := Nat.pow_le_pow_right (by decide) hhigh
    have hnone : gdt.getLsbD i = false := Nat.testBit_lt_two_pow (Nat.lt_of_lt_of_le h hpow)
    simp (disch := omega) only [BitVec.getLsbD_append, if_neg, hnone, BitVec.getLsbD_zero]
  · rcases (by omega : i < 8 ∨ (8 ≤ i ∧ i < 16) ∨ (16 ≤ i ∧ i < 24)) with h' | h' | h' <;>
      simp (disch := omega) only [byteOf, BitVec.getLsbD_append, BitVec.getLsbD_setWidth,
        BitVec.getLsbD_ushiftRight, if_pos, if_neg, decide_eq_true, Bool.true_and] <;>
      exact congrArg _ (by omega)

/-- **The switch**: the far jump loads the code segment. -/
theorem BootSymbols.Loaded.switch (h : s.Loaded c₀.mem) {c : BootCpu} (hc : Real c₀ 16 c)
    (ha20 : c.kbc.a20 = true) :
    ∃ c', s.Reaches c c' ∧ s.Protected c₀ (markAccessed (s.gdt.toNat + 8) c₀.mem) c' ∧
      c'.k = 21 ∧ c'.segs .cs = codeSegment := by
  have hend := h.gdtdesc.2
  have hgdt := h.gdt.2
  have hpointer : ∀ k < 6, c.mem (s.gdtdesc.toNat + k) = _ := fun k hk =>
    (congrArg (fun m : Memory => m (s.gdtdesc.toNat + k)) hc.mem).trans (h.pointer k hk)
  have hlgdt := h.step hc.k hc.cs rfl (congrArg (Option.map fun pa => BootCpu.loadGdtr pa
    ({ c with k := 17 } : BootCpu)) (BootCpu.access_low hc.ds (by omega)))
  have hmov := hlgdt.trans (h.step rfl hc.cs rfl rfl)
  have horl := hmov.trans (h.step rfl hc.cs rfl rfl)
  obtain ⟨c₂₀, hcr0, hk, hcs, hprot⟩ : ∃ c₂₀, s.Reaches c c₂₀ ∧ c₂₀.k = 20 ∧
      (c₂₀.segs .cs).Holds ∧ s.Protected c₀ c₀.mem c₂₀ := by
    refine ⟨_, horl.trans (h.step rfl hc.cs rfl rfl), rfl, hc.cs, hc.intr, hc.mem, ?_, ?_, ?_,
      ha20⟩
    · exact congrArg (· ||| CR0_PE_ON) hc.cr0
    · show (c.mem (s.gdtdesc.toNat + 1) ++ c.mem (s.gdtdesc.toNat + 0) : BitVec 16) = 0x17
      have h0 : c.mem (s.gdtdesc.toNat + 0) = 0x17 := hpointer 0 (by decide)
      have h1 : c.mem (s.gdtdesc.toNat + 1) = 0 := hpointer 1 (by decide)
      rw [h0, h1]
      rfl
    · show 0#8 ++ c.mem (s.gdtdesc.toNat + 4) ++ c.mem (s.gdtdesc.toNat + 3) ++
        c.mem (s.gdtdesc.toNat + 2) = s.gdt
      have h2 : c.mem (s.gdtdesc.toNat + 2) = byteOf s.gdt 0 := hpointer 2 (by decide)
      have h3 : c.mem (s.gdtdesc.toNat + 3) = byteOf s.gdt 1 := hpointer 3 (by decide)
      have h4 : c.mem (s.gdtdesc.toNat + 4) = byteOf s.gdt 2 := hpointer 4 (by decide)
      rw [h2, h3, h4]
      exact gdt_base (by omega)
  have hat : s.Protected c₀ c₀.mem { c₂₀ with k := 21 } :=
    ⟨hprot.intr, hprot.mem, hprot.cr0, hprot.gdtLimit, hprot.gdtBase, hprot.a20⟩
  have hload := @BootSymbols.Holds.loadSeg s c₀ c₀.mem (STA_X ||| STA_R) PROT_MODE_CSEG
    h.table_code hgdt _ hat .cs (Or.inl rfl) (by decide) (by decide)
  have hjump : s.exec { c₂₀ with k := 21 } (.ljmp PROT_MODE_CSEG 21) =
      some (({ c₂₀ with k := 21, mem := markAccessed (s.gdt.toNat + 8) c₀.mem } :
        BootCpu).setSeg .cs codeSegment) := by
    rw [BootSymbols.exec, hload]
    rfl
  exact ⟨_, hcr0.trans (h.step hk hcs rfl hjump),
    ⟨hprot.intr, rfl, hprot.cr0, hprot.gdtLimit, hprot.gdtBase, hprot.a20⟩, rfl, rfl⟩

/-- At the `k`th instruction, with the data selector in `%ax`. -/
structure BootSymbols.Loading (s : BootSymbols) (c₀ : BootCpu) (mem : Memory) (k : Nat)
    (c : BootCpu) : Prop extends s.Protected c₀ mem c where
  k : c.k = k
  ax : c.ax = PROT_MODE_DSEG
  cs : c.segs .cs = codeSegment

theorem flatSegment_holds (sel : BitVec 16) (type : Word) : (flatSegment sel type).Holds :=
  ⟨rfl, show 0xFFFF ≤ (0xffffffff : Word).toNat by decide⟩

/-- A data segment of the table, used before or not. -/
theorem BootSymbols.Loaded.data (h : s.Loaded c₀.mem) {mem : Memory} {type : Word}
    (hholds : s.Holds mem 16 type) (htype : type = STA_W ∨ type = STA_W ||| STA_A) {k : Nat}
    {r : SegReg} (hr : r ≠ .cs) (hcode : s.code[k]? = some (.movwAxTo r)) {c : BootCpu}
    (hc : s.Loading c₀ mem k c) :
    ∃ c', s.Reaches c c' ∧ s.Loading c₀ (markAccessed (s.gdt.toNat + 16) mem) (k + 1) c' ∧
      c'.segs r = dataSegment ∧ ∀ r', r' ≠ r → c'.segs r' = c.segs r' := by
  have hat : s.Protected c₀ mem { c with k := k + 1 } :=
    ⟨hc.intr, hc.mem, hc.cr0, hc.gdtLimit, hc.gdtBase, hc.a20⟩
  have hsmall : type.toNat < 16 := by rcases htype with rfl | rfl <;> decide
  have htakes : r.takes (type.setWidth 4) = true := by
    cases r with
    | cs => exact absurd rfl hr
    | _ => rcases htype with rfl | rfl <;> decide
  have hcached : flatSegment PROT_MODE_DSEG (type ||| STA_A) = dataSegment := by
    rcases htype with rfl | rfl <;> rfl
  have hload := @BootSymbols.Holds.loadSeg s c₀ mem type PROT_MODE_DSEG hholds h.gdt.2 _ hat r
    (Or.inr rfl) hsmall htakes
  rw [hcached, ← hc.ax] at hload
  have hstep := h.step hc.k (hc.cs ▸ flatSegment_holds _ _) hcode hload
  refine ⟨_, hstep, ⟨⟨hc.intr, ?_, hc.cr0, hc.gdtLimit, hc.gdtBase, hc.a20⟩, rfl, hc.ax, ?_⟩,
    if_pos rfl, fun r' hne => if_neg hne⟩
  · rw [hc.ax]
    rfl
  · exact (if_neg hr.symm).trans hc.cs

/-- And one that was used. -/
theorem BootSymbols.Loaded.data_again (h : s.Loaded c₀.mem) {mem : Memory}
    (hholds : s.Holds mem 16 (STA_W ||| STA_A)) {k : Nat} {r : SegReg} (hr : r ≠ .cs)
    (hcode : s.code[k]? = some (.movwAxTo r)) {c : BootCpu} (hc : s.Loading c₀ mem k c) :
    ∃ c', s.Reaches c c' ∧ s.Loading c₀ mem (k + 1) c' ∧ c'.segs r = dataSegment ∧
      ∀ r', r' ≠ r → c'.segs r' = c.segs r' := by
  have hload := h.data hholds (Or.inr rfl) hr hcode hc
  rwa [hholds.mark_self] at hload

/-- Every address of every segment is its own place in memory. -/
def BootCpu.Flat (c : BootCpu) : Prop :=
  ∀ (r : SegReg) (offset : Word) (len : Nat), offset.toNat + len ≤ 0x100000000 →
    c.access r offset len = some offset.toNat

/-- The registers of segments in the entry of `bootmain`. -/
theorem BootSymbols.Loaded.load (h : s.Loaded c₀.mem) {c : BootCpu}
    (hc : s.Protected c₀ (markAccessed (s.gdt.toNat + 8) c₀.mem) c) (hk : c.k = 21)
    (hcs : c.segs .cs = codeSegment) :
    ∃ c', s.Reaches c c' ∧ s.Loading c₀ (s.marked c₀.mem) 27 c' ∧
      ∀ r, r ≠ .cs → c'.segs r = dataSegment := by
  have hmov := h.step hk (hcs ▸ flatSegment_holds _ _) rfl rfl
  obtain ⟨c₂₂, hax, h₂₂⟩ : ∃ c₂₂, s.Reaches c c₂₂ ∧
      s.Loading c₀ (markAccessed (s.gdt.toNat + 8) c₀.mem) 22 c₂₂ :=
    ⟨_, hmov, ⟨⟨hc.intr, hc.mem, hc.cr0, hc.gdtLimit, hc.gdtBase, hc.a20⟩, rfl, ax_setAx _ _, hcs⟩⟩
  have hfresh : s.Holds (markAccessed (s.gdt.toNat + 8) c₀.mem) 16 STA_W :=
    h.table_data.mark_other (Or.inr (Nat.le_refl 16))
  have hused : s.Holds (s.marked c₀.mem) 16 (STA_W ||| STA_A) := hfresh.mark
  obtain ⟨c₂₃, hds, h₂₃, hds', -⟩ :=
    h.data hfresh (Or.inl rfl) (show SegReg.ds ≠ .cs by decide) rfl h₂₂
  have h₂₃ : s.Loading c₀ (s.marked c₀.mem) 23 c₂₃ := h₂₃
  obtain ⟨c₂₄, hes, h₂₄, hes', hold₂₄⟩ :=
    h.data_again hused (show SegReg.es ≠ .cs by decide) rfl h₂₃
  obtain ⟨c₂₅, hfs, h₂₅, hfs', hold₂₅⟩ :=
    h.data_again hused (show SegReg.fs ≠ .cs by decide) rfl h₂₄
  obtain ⟨c₂₆, hgs, h₂₆, hgs', hold₂₆⟩ :=
    h.data_again hused (show SegReg.gs ≠ .cs by decide) rfl h₂₅
  obtain ⟨c₂₇, hss, h₂₇, hss', hold₂₇⟩ :=
    h.data_again hused (show SegReg.ss ≠ .cs by decide) rfl h₂₆
  refine ⟨c₂₇, hax.trans (hds.trans (hes.trans (hfs.trans (hgs.trans hss)))), h₂₇, fun r hr => ?_⟩
  cases r with
  | cs => exact absurd rfl hr
  | ds => rw [hold₂₇ _ (by decide), hold₂₆ _ (by decide), hold₂₅ _ (by decide),
      hold₂₄ _ (by decide), hds']
  | es => rw [hold₂₇ _ (by decide), hold₂₆ _ (by decide), hold₂₅ _ (by decide), hes']
  | fs => rw [hold₂₇ _ (by decide), hold₂₆ _ (by decide), hfs']
  | gs => rw [hold₂₇ _ (by decide), hgs']
  | ss => exact hss'

theorem BootCpu.flat_of_segments {c : BootCpu}
    (h : ∀ r, (c.segs r).base = 0 ∧ (c.segs r).limit = 0xffffffff) (ha20 : c.kbc.a20 = true) :
    c.Flat := by
  intro r offset len hlen
  have hmax : (0xffffffff : Word).toNat = 4294967295 := rfl
  have hzero : 0 + offset = offset := BitVec.zero_add offset
  rw [BootCpu.access, (h r).1, (h r).2, hmax, if_pos (by omega), hzero, BootCpu.physical,
    if_pos ha20]

/-- What the start of the boot sector leaves behind. -/
structure BootSymbols.Started (s : BootSymbols) (c₀ c : BootCpu) : Prop where
  intr : c.intr = false
  cr0 : c.cr0 = c₀.cr0 ||| CR0_PE_ON
  a20 : c.kbc.a20 = true
  esp : c.esp = 0x7bfc
  mem : c.mem = writeBytes (s.marked c₀.mem) 0x7bfc (wordBytes (s.addr 29))
  flat : c.Flat

/-- The call of `bootmain`. -/
theorem BootSymbols.Loaded.call (h : s.Loaded c₀.mem) {c : BootCpu}
    (hc : s.Loading c₀ (s.marked c₀.mem) 27 c)
    (hdata : ∀ r, r ≠ .cs → c.segs r = dataSegment) :
    ∃ c', s.Reaches c c' ∧ c'.k = 29 ∧ s.Started c₀ c' := by
  have hcs : (c.segs .cs).Holds := hc.cs ▸ flatSegment_holds _ _
  have hflat : c.Flat := by
    refine BootCpu.flat_of_segments (fun r => ?_) hc.a20
    by_cases hr : r = .cs
    · rw [hr, hc.cs]
      exact ⟨rfl, rfl⟩
    · rw [hdata r hr]
      exact ⟨rfl, rfl⟩
  obtain ⟨c₂₈, hstack, hsame⟩ : ∃ c₂₈, s.Reaches c c₂₈ ∧ c₂₈ = { c with k := 28, esp := s.start } :=
    ⟨_, h.step hc.k hcs rfl rfl, rfl⟩
  have hss : SegReg.ss.takes (c.segs .ss).type = true := by
    rw [hdata .ss (by decide)]
    decide
  have hlen : (wordBytes (s.addr 29)).length = 4 := rfl
  have hesp : s.start - BitVec.ofNat 32 4 = 0x7bfc := by
    rw [h.start]
    rfl
  have haccess : ({ c with k := 29, esp := s.start } : BootCpu).access .ss 0x7bfc 4 =
      some 0x7bfc := hflat .ss 0x7bfc 4 (by decide)
  have hpush : s.exec { c₂₈ with k := 29 } .call = some { c₂₈ with
      k := 29, esp := 0x7bfc
      mem := writeBytes (s.marked c₀.mem) 0x7bfc (wordBytes (s.addr 29)) } := by
    rw [hsame, BootSymbols.exec, BootCpu.push]
    simp only [hss, if_true, hlen, hesp]
    rw [haccess, Option.map_some, hc.mem]
  have hcall := h.step (congrArg BootCpu.k hsame) (hsame ▸ hcs) rfl hpush
  refine ⟨_, hstack.trans hcall, rfl, ?_⟩
  rw [hsame]
  exact ⟨hc.intr, hc.cr0, hc.a20, rfl, rfl, hflat⟩

/-- **The boot sector comes to `bootmain`**, however long the keyboard controller is busy: in
    protected mode, with interrupts off, the line A20 on and segments that change no address,
    on a stack below the sector. -/
theorem BootSymbols.Loaded.started {c : BootCpu} (h : s.Loaded c.mem) (hc : c.AtStart) :
    ∃ n c', (∀ fuel, n ≤ fuel → s.run fuel c = some c') ∧ s.Started c c' := by
  obtain ⟨c₁, hbegin, h₁, -⟩ := h.begin hc
  obtain ⟨c₂, hline, h₂, ha20⟩ := h.seta20 h₁
  obtain ⟨c₃, hswitch, h₃, hk₃, hcs₃⟩ := h.switch h₂ ha20
  obtain ⟨c₄, hload, h₄, hdata⟩ := h.load h₃ hk₃ hcs₃
  obtain ⟨c₅, hcall, hk₅, h₅⟩ := h.call h₄ hdata
  obtain ⟨n, hrun⟩ := hbegin.trans (hline.trans (hswitch.trans (hload.trans hcall)))
  refine ⟨n + 1, c₅, fun fuel hfuel => ?_, h₅⟩
  obtain ⟨rest, rfl⟩ := Nat.exists_eq_add_of_le hfuel
  rw [Nat.add_assoc, hrun, Nat.add_comm, BootSymbols.run, if_pos hk₅]

/-- **The switch to protected mode**: however long the keyboard controller is busy, `bootmain` is
    entered with interrupts off and the line A20 on, on a stack below the sector, with the two
    descriptors marked in its table; each address of each segment is its own place in memory, as
    the low ones were in real mode. -/
theorem boot_switch {c : BootCpu} (h : s.Loaded c.mem) (hc : c.AtStart) :
    ∃ n c', (∀ fuel, n ≤ fuel → s.run fuel c = some c') ∧ c'.intr = false ∧
      c'.cr0 = c.cr0 ||| CR0_PE_ON ∧ c'.kbc.a20 = true ∧ c'.esp = 0x7bfc ∧
      c'.mem = writeBytes (s.marked c.mem) 0x7bfc (wordBytes (s.addr 29)) ∧
      (∀ r (offset : Word) len, offset.toNat + len ≤ 0x100000000 →
        c'.access r offset len = some offset.toNat) ∧
      ∀ (offset : Word) len, offset.toNat + len ≤ 0x10000 →
        c'.access .cs offset len = c.access .cs offset len := by
  obtain ⟨n, c', hrun, h'⟩ := h.started hc
  refine ⟨n, c', hrun, h'.intr, h'.cr0, h'.a20, h'.esp, h'.mem, h'.flat, fun offset len hlow => ?_⟩
  rw [h'.flat .cs offset len (by omega), BootCpu.access_low hc.cs hlow]

end

/-! ## A boot sector -/

/-- The table and the pointer to it, behind instructions of three bytes each. -/
def bootSymbols : BootSymbols := ⟨0x7c00, 0x7c64, 0x7c7c, fun k => 3 * k⟩

def bootTable : List Byte :=
  segNullBytes ++ segBytes (STA_X ||| STA_R) 0x0 0xffffffff ++ segBytes STA_W 0x0 0xffffffff ++
    (wordDirective 0x17 ++ wordBytes 0x7c64)

def bootMemory : Memory := writeBytes (fun _ => 0) 0x7c64 bootTable

theorem bootSymbols_loaded : bootSymbols.Loaded bootMemory where
  start := rfl
  code := fun k (h : k ≤ 29) => show 3 * k < 510 by omega
  gdt := by decide
  gdtdesc := by decide
  table := by decide
  pointer := by decide

/-- The line A20 is off, and the controller is busy for a while behind each byte. -/
def bootCpu : BootCpu where
  k := 0
  eax := 0xAA55
  esp := 0x6F00
  zf := false
  intr := true
  df := true
  cr0 := 0x10
  segs _ := ⟨0, 0, 0xFFFF, 3⟩
  gdtLimit := 0
  gdtBase := 0
  kbc := ⟨5, [3, 0, 7], 0x14, false, 0xCD⟩
  mem := bootMemory

theorem bootCpu_atStart : bootCpu.AtStart where
  k := rfl
  real := rfl
  cs := ⟨rfl, show 0xFFFF ≤ (0xFFFF : Word).toNat by decide⟩
  limit := fun _ => show 0xFFFF ≤ (0xFFFF : Word).toNat by decide

/-- Behind the switch the second megabyte is apart from the first. -/
theorem boot_switch_high :
    ∃ n c', (∀ fuel, n ≤ fuel → bootSymbols.run fuel bootCpu = some c') ∧
      bootCpu.physical 0x100000 = 0 ∧ c'.access .ds 0x100000 4 = some 0x100000 := by
  obtain ⟨n, c', hrun, -, -, -, -, -, hflat, -⟩ := boot_switch bootSymbols_loaded bootCpu_atStart
  exact ⟨n, c', hrun, by decide, hflat .ds 0x100000 4 (by decide)⟩

end Jos
