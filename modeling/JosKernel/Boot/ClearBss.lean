import JosKernel.Boot.Handover
import JosKernel.Lib.Memset

/-!
# Clearing the uninitialised data through the page tables

The first thing that `i386_init` does, with paging on: `memset` of `lib/string.c` once more, with
its string instructions storing each byte where the page tables say.

* `Cpu.Paged.memset_spec` — no store of a block that is mapped and apart from the tables faults, and
  what is in memory then.
* `Cpu.Paged.shows_memset` — on the addresses that the kernel can write to this is the `memset` of
  the flat memory.
* `KernelBss.cleared` — the uninitialised data of a kernel image are such a block, and clearing
  them leaves its file and its stack alone.
-/

set_option autoImplicit false

namespace Jos

open RepString

/-! ## `memset` with paging -/

/-- The `w` low bytes of a register, the lowest first. -/
def regBytes (w : Nat) (eax : Word) : List Byte := (List.range w).map (byteOf eax)

/-- `cld; rep stosb` (`w = 1`) and `cld; rep stosl` (`w = 4`). -/
def Cpu.repStos (w : Nat) (eax : Word) : Nat → Word → Cpu → Option Cpu
  | 0, _, c => some c
  | ecx + 1, edi, c =>
      (c.store edi (regBytes w eax)).bind (Cpu.repStos w eax ecx (edi + BitVec.ofNat 32 w))

def Cpu.memset (v c n : Word) (cpu : Cpu) : Option Cpu :=
  memsetBy (some cpu) (fun w eax ecx edi => cpu.repStos w eax ecx edi) v c n

/-- `memset(__bss_start, 0, end - __bss_start)`. -/
def Cpu.clearBss (bss_start stop : Word) (c : Cpu) : Option Cpu :=
  c.memset bss_start 0 (stop - bss_start)

section

variable {s : EntrySymbols}

theorem EntrySymbols.OffTables.mono {a n a' n' : Nat} (h : s.OffTables a n) (h0 : a ≤ a')
    (h1 : a' + n' ≤ a + n) : s.OffTables a' n' :=
  fun x hx hx' => h x (by omega) (by omega)

theorem regBytes_replicate {w : Nat} {eax : Word} {b : Byte}
    (h : ∀ i < w, (eax >>> (8 * i)).setWidth 8 = b) : regBytes w eax = List.replicate w b := by
  refine List.eq_replicate_iff.mpr ⟨by rw [regBytes, List.length_map, List.length_range], ?_⟩
  intro x hx
  obtain ⟨i, hi, rfl⟩ := List.mem_map.mp hx
  exact h i (List.mem_range.mp hi)

/-- **The string instruction does not fault** on a block that is mapped and off the tables. -/
theorem Cpu.Paged.repStos_spec {w : Nat} {eax : Word} {b : Byte}
    (h : ∀ i < w, (eax >>> (8 * i)).setWidth 8 = b) : ∀ (k : Nat) {c : Cpu} {edi : Word} {pa : Nat},
    c.Paged s → edi.toNat = KERNBASE.toNat + pa → pa + w * k ≤ 4194304 → s.OffTables pa (w * k) →
    c.repStos w eax k edi = some { c with mem := writeBytes c.mem pa (List.replicate (w * k) b) }
  | 0, _, _, _, _, _, _, _ => rfl
  | k + 1, c, edi, pa, hpaged, hedi, hlen, hoff => by
    have hbase : KERNBASE.toNat = 4026531840 := rfl
    have hw : (List.replicate w b).length = w := List.length_replicate
    have hsplit : w * (k + 1) = w + w * k := by rw [Nat.mul_succ, Nat.add_comm]
    rw [hsplit] at hlen hoff ⊢
    have hone : s.OffTables pa (List.replicate w b).length := hoff.mono (Nat.le_refl pa) (by omega)
    have hunit := hpaged.store hedi (by omega) hone
    have hrest : s.OffTables (pa + w) (w * k) := hoff.mono (by omega) (by omega)
    have hnext : (edi + BitVec.ofNat 32 w).toNat = KERNBASE.toNat + (pa + w) := by
      rw [BitVec.toNat_add, BitVec.toNat_ofNat]
      omega
    rw [Cpu.repStos, regBytes_replicate h, hunit, Option.bind_some]
    refine (Cpu.Paged.repStos_spec h k (hpaged.write hone) hnext (by omega) hrest).trans ?_
    rw [← List.replicate_append_replicate, writeBytes_append, hw]

/-- **`memset` does not fault** on such a block, and fills it. -/
theorem Cpu.Paged.memset_spec {c : Cpu} {v n : Word} {pa : Nat} (hpaged : c.Paged s)
    (hv : v.toNat = KERNBASE.toNat + pa) (hlen : pa + n.toNat ≤ 4194304)
    (hoff : s.OffTables pa n.toNat) (b : Word) :
    c.memset v b n =
      some { c with mem := writeBytes c.mem pa (List.replicate n.toNat (b.setWidth 8)) } := by
  unfold Cpu.memset memsetBy
  by_cases hz : n = 0#32
  · rw [if_pos hz, hz]
    rfl
  · rw [if_neg hz]
    by_cases hw : v.toInt.tmod 4 = 0 ∧ n % 4#32 = 0#32
    · have hwords := four_mul_words hw.2
      have hrun := hpaged.repStos_spec (replicated_byte b) (n / 4#32).toNat hv (by omega)
        (by rwa [hwords])
      rw [hwords] at hrun
      rw [if_pos hw]
      exact hrun
    · have hrun := hpaged.repStos_spec (lowByte_unit b) n.toNat hv (by omega) (by rwa [Nat.one_mul])
      rw [Nat.one_mul] at hrun
      rw [if_neg hw]
      exact hrun

/-! ## The memory of the kernel -/

/-- A memory as the kernel finds it at the addresses that it can write to. -/
def Cpu.Shows (c : Cpu) (mem : Word → Byte) : Prop :=
  ∀ la pa, c.access true la = some pa → mem la = c.mem pa

theorem Cpu.exists_shows (c : Cpu) : ∃ mem, c.Shows mem := by
  refine ⟨fun la => ((c.access true la).map c.mem).getD 0, fun la pa h => ?_⟩
  simp only [h, Option.map_some, Option.getD_some]

/-- The addresses that the kernel can write to. -/
theorem entryView_write_iff (la : Word) (pa : Nat) :
    entryView true la = some pa ↔ la.toNat = KERNBASE.toNat + pa ∧ pa < 4194304 := by
  have hbase : KERNBASE.toNat = 4026531840 := rfl
  constructor
  · intro h
    unfold entryView at h
    split at h
    · cases h
    · split at h
      · obtain rfl := Option.some.inj h
        omega
      · cases h
  · rintro ⟨hla, hpa⟩
    exact entryView_at hla hpa true

/-- **On these addresses it is the `memset` of the flat memory.** -/
theorem Cpu.Paged.shows_memset {c : Cpu} {v n : Word} {pa : Nat} (hpaged : c.Paged s)
    (hv : v.toNat = KERNBASE.toNat + pa) (hlen : pa + n.toNat ≤ 4194304)
    (hoff : s.OffTables pa n.toNat) (b : Word) {m : Machine} (hshows : c.Shows m.mem) :
    Cpu.Shows { c with mem := writeBytes c.mem pa (List.replicate n.toNat (b.setWidth 8)) }
      (Jos.memset v b n m).2.mem := by
  have hbase : KERNBASE.toNat = 4026531840 := rfl
  have hsize : (List.replicate n.toNat (b.setWidth 8)).length = n.toNat := List.length_replicate
  intro la p hla
  have hafter := @Cpu.Paged.write c s hpaged pa (List.replicate n.toNat (b.setWidth 8))
    (by rwa [hsize])
  rw [hafter.access, ← hpaged.access] at hla
  have hplace := (entryView_write_iff la p).mp ((hpaged.access true la).symm.trans hla)
  show _ = writeBytes c.mem pa (List.replicate n.toNat (b.setWidth 8)) p
  rw [memset_mem, fill, writeBytes_apply]
  by_cases hin : (la - v).toNat < n.toNat
  · rw [if_pos hin, dif_pos (by rw [hsize]; bv_omega), List.getElem_replicate]
  · rw [if_neg hin, dif_neg (by rw [hsize]; bv_omega)]
    exact hshows la p hla

end

/-! ## The uninitialised data of a kernel -/

def KSTKSIZE : Nat := 8 * PGSIZE

/-- The kernel's stack. -/
def EntrySymbols.InStack (s : EntrySymbols) (pa : Nat) : Prop :=
  (RELOC s.bootstacktop).toNat ≤ pa + KSTKSIZE ∧ pa < (RELOC s.bootstacktop).toNat

instance (s : EntrySymbols) (pa : Nat) : Decidable (s.InStack pa) :=
  inferInstanceAs (Decidable (_ ∧ _))

/-- The segments of the kernel are in the mapped memory behind the first megabyte; the stack is in
    the file's part of one of them, and the uninitialised data are behind the file's part of one. -/
structure KernelBss (img : Memory) (s : EntrySymbols) (bss_start stop : Word) : Prop where
  above : ∀ p ∈ headers img, 0x100000 ≤ p.p_pa
  mapped : ∀ p ∈ headers img, p.p_pa + p.p_memsz ≤ 0x400000
  stack : ∃ p ∈ headers img, p.p_pa + KSTKSIZE ≤ (RELOC s.bootstacktop).toNat ∧
    (RELOC s.bootstacktop).toNat ≤ p.p_pa + p.p_filesz
  ordered : bss_start ≤ stop
  segment : ∃ p ∈ headers img, KERNBASE.toNat + (p.p_pa + p.p_filesz) ≤ bss_start.toNat ∧
    stop.toNat ≤ KERNBASE.toNat + (p.p_pa + p.p_memsz)

section

variable {img : Memory} {s : EntrySymbols} {bss_start stop : Word}

/-- No byte of a file's part is uninitialised. -/
theorem KernelBss.apart (h : KernelBss img s bss_start stop) (wf : WellFormed img) {q : Proghdr}
    (hq : q ∈ headers img) {x : Nat} (h0 : q.p_pa ≤ x) (h1 : x < q.p_pa + q.p_filesz) :
    KERNBASE.toNat + x < bss_start.toNat ∨ stop.toNat ≤ KERNBASE.toNat + x := by
  obtain ⟨p, hp, hfile, hmem⟩ := h.segment
  obtain ⟨i, hi, rfl⟩ := List.getElem_of_mem hp
  obtain ⟨j, hj, rfl⟩ := List.getElem_of_mem hq
  have hincreasing := List.pairwise_iff_getElem.mp wf.increasing
  have hsize := wf.filesz _ hq
  rcases Nat.lt_trichotomy i j with hlt | rfl | hlt
  · have hafter := hincreasing i j hi hj hlt
    omega
  · omega
  · have hbefore := hincreasing j i hj hi hlt
    omega

/-- No byte that the file brings to memory is, either. -/
theorem InFile.apart {pa : Nat} {bs : List Byte} (hin : InFile img pa bs)
    (h : KernelBss img s bss_start stop) (wf : WellFormed img) {x : Nat} (h0 : pa ≤ x)
    (h1 : x < pa + bs.length) :
    KERNBASE.toNat + x < bss_start.toNat ∨ stop.toNat ≤ KERNBASE.toNat + x := by
  obtain ⟨q, hq, hstart, hend, -⟩ := hin
  exact h.apart wf hq (by omega) (by omega)

theorem KernelBss.stack_apart (h : KernelBss img s bss_start stop) (wf : WellFormed img) {x : Nat}
    (hx : s.InStack x) :
    KERNBASE.toNat + x < bss_start.toNat ∨ stop.toNat ≤ KERNBASE.toNat + x := by
  obtain ⟨q, hq, hlow, htop⟩ := h.stack
  obtain ⟨h0, h1⟩ := hx
  exact h.apart wf hq (by omega) (by omega)

/-- The return address is on the stack. -/
theorem EntrySymbols.OnStack.inStack {x : Nat} (h : s.OnStack x) : s.InStack x := by
  have hsize : KSTKSIZE = 32768 := rfl
  obtain ⟨h0, h1⟩ := h
  exact ⟨by omega, h1⟩

/-- The block that is cleared, in memory. -/
theorem KernelBss.block (h : KernelBss img s bss_start stop) :
    ∃ pa, bss_start.toNat = KERNBASE.toNat + pa ∧ stop.toNat ≤ KERNBASE.toNat + 4194304 ∧
      (stop - bss_start).toNat = stop.toNat - bss_start.toNat := by
  obtain ⟨p, hp, hfile, hmem⟩ := h.segment
  have hmapped := h.mapped p hp
  have hordered := h.ordered
  exact ⟨bss_start.toNat - KERNBASE.toNat, by omega, by omega, by bv_omega⟩

/-- The page tables are in the file. -/
theorem KernelBss.offTables (h : KernelBss img s bss_start stop) (hk : KernelImage img s)
    {pa : Nat} (hpa : bss_start.toNat = KERNBASE.toNat + pa) :
    s.OffTables pa (stop.toNat - bss_start.toNat) := by
  intro x h0 h1
  constructor
  · by_contra hin
    have hfile := (hk.dir ((x - (RELOC s.entryPgdir).toNat) / 4) (by omega)).apart h hk.wellFormed
      (x := x) (by omega)
    have hlen : ∀ v, (wordBytes v).length = 4 := fun _ => rfl
    rw [hlen] at hfile
    omega
  · by_contra hin
    have hfile := (hk.table ((x - (RELOC s.entryPgtable).toNat) / 4) (by omega)).apart h
      hk.wellFormed (x := x) (by omega)
    have hlen : ∀ v, (wordBytes v).length = 4 := fun _ => rfl
    rw [hlen] at hfile
    omega

/-- **The uninitialised data are cleared without a page fault**, and the kernel finds zeros there;
    the rest of memory is left alone. -/
theorem KernelBss.cleared (h : KernelBss img s bss_start stop) (hk : KernelImage img s) {c : Cpu}
    (hpaged : c.Paged s) :
    ∃ c', c.clearBss bss_start stop = some c' ∧ c'.Paged s ∧
      (∀ m : Machine, c.Shows m.mem → c'.Shows (clearBss bss_start stop m).mem) ∧
      (∀ la, bss_start ≤ la → la < stop → ∃ pa, c'.access true la = some pa ∧ c'.mem pa = 0) ∧
      ∀ x, KERNBASE.toNat + x < bss_start.toNat ∨ stop.toNat ≤ KERNBASE.toNat + x →
        c'.mem x = c.mem x := by
  obtain ⟨pa, hstart, hstop, hsize⟩ := h.block
  have hbase : KERNBASE.toNat = 4026531840 := rfl
  have hordered : bss_start.toNat ≤ stop.toNat := h.ordered
  have hoff := h.offTables hk hstart
  rw [← hsize] at hoff
  have hlen : pa + (stop - bss_start).toNat ≤ 4194304 := by omega
  have hzeros : (List.replicate (stop - bss_start).toNat (0 : Byte)).length =
      stop.toNat - bss_start.toNat := List.length_replicate.trans hsize
  have hafter := @Cpu.Paged.write c s hpaged pa
    (List.replicate (stop - bss_start).toNat 0) (by rwa [List.length_replicate])
  refine ⟨_, hpaged.memset_spec hstart hlen hoff 0, hafter,
    fun m hm => hpaged.shows_memset hstart hlen hoff 0 hm, fun la h0 h1 => ?_, fun x hx => ?_⟩
  · have h0 : bss_start.toNat ≤ la.toNat := h0
    have h1 : la.toNat < stop.toNat := h1
    have hplace : la.toNat = KERNBASE.toNat + (la.toNat - KERNBASE.toNat) := by omega
    refine ⟨la.toNat - KERNBASE.toNat,
      (hafter.access true la).trans (entryView_at hplace (by omega) true), ?_⟩
    show writeBytes c.mem pa (List.replicate (stop - bss_start).toNat 0) _ = 0
    rw [writeBytes_apply, dif_pos (by omega), List.getElem_replicate]
  · show writeBytes c.mem pa (List.replicate (stop - bss_start).toNat 0) x = _
    rw [writeBytes_apply, dif_neg (by omega)]

end

end Jos
