import JosKernel.Format.Parts
import JosKernel.Format.Written
import JosKernel.Console.Terminal
import JosKernel.Monitor.Runcmd

/-!
# The commands of the monitor

What `mon_help` and `mon_kerninfo` of `kern/monitor.c` print.  The linker gives the link
addresses; the load address of a symbol is `KERNBASE` below.

Principal results: `kerninfo_reports_image` — the addresses and the footprint, for every image
that the linker can make; `runcmd_responds` — what any line of the monitor prints.
-/

set_option autoImplicit false

namespace Jos

variable {δ : Type} (d : Device δ) (syms : KernelSymbols)

/-! ## Help -/

/-- A line of the list of commands. -/
def Command.line (c : Command) : List Int :=
  stringText c.name.bytes ++ (plain (CStr.ofString " - ").bytes ++
    (stringText c.desc.bytes ++ plain (CStr.ofString "\n").bytes))

def helpText : List Int :=
  plain (CStr.ofString "help - Display this list of commands\n").bytes ++
    plain (CStr.ofString "kerninfo - Display information about the kernel\n").bytes

theorem output_help (c : Command) :
    output (CStr.ofString "%s - %s\n") [.str c.name, .str c.desc] = .ok c.line := by
  have hparts := @output_parts
    [.conv (strField c.name), .text (CStr.ofString " - ").bytes (by decide),
      .conv (strField c.desc), .text (CStr.ofString "\n").bytes (by decide)]
    (by simp [strField, bareDirective]) (CStr.ofString "%s - %s\n") (by
      show _ = (bareDirective .str).bytes ++ (_ ++ ((bareDirective .str).bytes ++ (_ ++ [])))
      decide +kernel)
  simp only [List.flatMap_cons, List.flatMap_nil, Part.printed, strField_text,
    List.append_nil] at hparts
  exact hparts

theorem monHelpLoop_prints : ∀ (cs : List Command) (m : Console δ),
    monHelpLoop d cs m = .ok (emit (cputchar d) (cs.flatMap Command.line) m)
  | [], _ => rfl
  | c :: cs, m => by
    rw [monHelpLoop, vcprintf_of_output d (output_help c) m, List.flatMap_cons, emit_append]
    exact monHelpLoop_prints cs _

theorem monHelp_prints (m : Console δ) :
    monHelp d m = .ok (emit (cputchar d) helpText m, 0) := by
  have htext : commands.flatMap Command.line = helpText := by decide +kernel
  rw [monHelp, monHelpLoop_prints, htext]
  rfl

/-! ## Addresses -/

/-- A line with the two addresses of a symbol. -/
def addressLine (name : String) (symbol : Word) : List Int :=
  plain (CStr.ofString name).bytes ++ (hexWord symbol ++ (plain (CStr.ofString " (virt)  ").bytes ++
    (hexWord (symbol - KERNBASE) ++ plain (CStr.ofString " (phys)\n").bytes)))

def kerninfoText : List Int :=
  plain (CStr.ofString "Special kernel symbols:\n").bytes ++
  (plain (CStr.ofString "  _start                  ").bytes ++ hexWord syms.start ++
    plain (CStr.ofString " (phys)\n").bytes) ++
  addressLine "  entry  " syms.entry ++ addressLine "  etext  " syms.etext ++
  addressLine "  edata  " syms.edata ++ addressLine "  end    " syms.end_ ++
  (plain (CStr.ofString "Kernel executable memory footprint: ").bytes ++
    decText ((ROUNDUP (syms.end_ - syms.entry) 1024#32).sdiv 1024#32) ++
    plain (CStr.ofString "KB\n").bytes)

theorem output_address {name : String} {fmt : CStr} (hname : IsText (CStr.ofString name).bytes)
    (hfmt : fmt.bytes = (CStr.ofString name).bytes ++
      (CStr.ofString "%08x (virt)  %08x (phys)\n").bytes) (symbol : Word) :
    output fmt [.word symbol, .word (symbol - KERNBASE)] = .ok (addressLine name symbol) := by
  have hparts := @output_parts
    [.text (CStr.ofString name).bytes hname, .conv (hexField symbol),
      .text (CStr.ofString " (virt)  ").bytes (by decide), .conv (hexField (symbol - KERNBASE)),
      .text (CStr.ofString " (phys)\n").bytes (by decide)]
    (by simp [hexField, hexDirective, fieldDirective]) fmt (by
      rw [hfmt, List.flatMap_cons]
      congr 1)
  simp only [List.flatMap_cons, List.flatMap_nil, Part.printed, hexField_text,
    List.append_nil] at hparts
  exact hparts

theorem output_start (v : Word) :
    output (CStr.ofString "  _start                  %08x (phys)\n") [.word v] =
      .ok (plain (CStr.ofString "  _start                  ").bytes ++ (hexWord v ++
        plain (CStr.ofString " (phys)\n").bytes)) := by
  have hparts := @output_parts
    [.text (CStr.ofString "  _start                  ").bytes (by decide), .conv (hexField v),
      .text (CStr.ofString " (phys)\n").bytes (by decide)]
    (by simp [hexField, hexDirective, fieldDirective])
    (CStr.ofString "  _start                  %08x (phys)\n")
    (by
      show _ = _ ++ (hexDirective.bytes ++ (_ ++ []))
      decide +kernel)
  simp only [List.flatMap_cons, List.flatMap_nil, Part.printed, hexField_text,
    List.append_nil] at hparts
  exact hparts

theorem output_header : output (CStr.ofString "Special kernel symbols:\n") [] =
    .ok (plain (CStr.ofString "Special kernel symbols:\n").bytes) :=
  output_text (by decide +kernel) []

theorem output_footprint (v : Word) :
    output (CStr.ofString "Kernel executable memory footprint: %dKB\n") [.word v] =
      .ok (plain (CStr.ofString "Kernel executable memory footprint: ").bytes ++ decText v ++
        plain (CStr.ofString "KB\n").bytes) :=
  output_dec_between (by decide +kernel) (by decide +kernel) (by decide +kernel) v

theorem monKerninfo_prints (m : Console δ) :
    monKerninfo d syms m = .ok (emit (cputchar d) (kerninfoText syms) m, 0) := by
  have hentry := @output_address "  entry  "
    (CStr.ofString "  entry  %08x (virt)  %08x (phys)\n") (by decide) (by decide +kernel) syms.entry
  have hetext := @output_address "  etext  "
    (CStr.ofString "  etext  %08x (virt)  %08x (phys)\n") (by decide) (by decide +kernel) syms.etext
  have hedata := @output_address "  edata  "
    (CStr.ofString "  edata  %08x (virt)  %08x (phys)\n") (by decide) (by decide +kernel) syms.edata
  have hend := @output_address "  end    "
    (CStr.ofString "  end    %08x (virt)  %08x (phys)\n") (by decide) (by decide +kernel) syms.end_
  unfold monKerninfo
  simp only [vcprintf_bind d output_header, vcprintf_bind d (output_start _),
    vcprintf_bind d hentry, vcprintf_bind d hetext, vcprintf_bind d hedata, vcprintf_bind d hend,
    vcprintf_bind d (output_footprint _), kerninfoText, emit_append]

/-! ### An image that is linked -/

/-- An image as the linker makes it: it is linked above `KERNBASE`, and its sections follow each
    other. -/
structure Linked : Prop where
  base : KERNBASE.toNat ≤ syms.entry.toNat
  text : syms.entry.toNat ≤ syms.etext.toNat
  data : syms.etext.toNat ≤ syms.edata.toNat
  bss : syms.edata.toNat ≤ syms.end_.toNat

/-- The size of the image in KB, rounded up. -/
def footprint : Nat := (syms.end_.toNat - syms.entry.toNat + 1023) / 1024

/-- There is room for 256 MB above `KERNBASE`, so that the size is a positive `int`. -/
theorem footprint_eq (h : Linked syms) :
    (ROUNDUP (syms.end_ - syms.entry) 1024#32).sdiv 1024#32 = BitVec.ofNat 32 (footprint syms) := by
  obtain ⟨hbase, htext, hdata, hbss⟩ := h
  have hkern : KERNBASE.toNat = 4026531840 := rfl
  have hend := syms.end_.isLt
  have hsize : (syms.end_ - syms.entry).toNat = syms.end_.toNat - syms.entry.toNat := by
    rw [BitVec.toNat_sub]
    omega
  have hkb : (1024#32).toNat = 1024 := rfl
  generalize hn : syms.end_ - syms.entry = n at hsize
  have hround : (ROUNDUP n 1024#32).toNat = (n.toNat + 1023) / 1024 * 1024 := by
    unfold ROUNDUP
    have hsum : (n + 1024#32 - 1#32).toNat = n.toNat + 1023 := by
      simp only [BitVec.toNat_sub, BitVec.toNat_add, BitVec.toNat_ofNat]
      omega
    rw [BitVec.toNat_sub, BitVec.toNat_umod, hsum, hkb]
    omega
  have hsign : (ROUNDUP n 1024#32).msb = false := by
    rw [BitVec.msb_eq_false_iff_two_mul_lt, hround]
    omega
  have hdivisor : (1024#32).msb = false := by decide
  rw [← BitVec.toNat_inj, BitVec.sdiv_eq, hsign, hdivisor]
  show ((ROUNDUP n 1024#32) / 1024#32).toNat = _
  rw [BitVec.toNat_udiv, hround, hkb, BitVec.toNat_ofNat, footprint, ← hsize]
  omega

theorem decText_field {n : Nat} (h : n < 2147483648) : decText (field n) = digits 10 n := by
  rw [decText, field_toInt h, if_neg (by omega), List.nil_append, Int.natAbs_natCast]

theorem footprint_text (h : Linked syms) :
    decText ((ROUNDUP (syms.end_ - syms.entry) 1024#32).sdiv 1024#32) =
      digits 10 (footprint syms) := by
  have hlt : footprint syms < 2147483648 := by
    have := syms.end_.isLt
    unfold footprint
    omega
  rw [footprint_eq syms h]
  exact decText_field hlt

/-- A line with the link address and the load address of a symbol. -/
def imageLine (name : String) (address : Nat) : List Int :=
  plain (CStr.ofString name).bytes ++ (hexDigits address ++
    (plain (CStr.ofString " (virt)  ").bytes ++
      (hexDigits (address - 0xF0000000) ++ plain (CStr.ofString " (phys)\n").bytes)))

/-- The report about an image. -/
def imageText : List Int :=
  plain (CStr.ofString "Special kernel symbols:\n").bytes ++
  (plain (CStr.ofString "  _start                  ").bytes ++ hexDigits syms.start.toNat ++
    plain (CStr.ofString " (phys)\n").bytes) ++
  imageLine "  entry  " syms.entry.toNat ++ imageLine "  etext  " syms.etext.toNat ++
  imageLine "  edata  " syms.edata.toNat ++ imageLine "  end    " syms.end_.toNat ++
  (plain (CStr.ofString "Kernel executable memory footprint: ").bytes ++
    digits 10 (footprint syms) ++ plain (CStr.ofString "KB\n").bytes)

theorem addressLine_eq {symbol : Word} (h : KERNBASE.toNat ≤ symbol.toNat) (name : String) :
    addressLine name symbol = imageLine name symbol.toNat := by
  have hkern : KERNBASE.toNat = 4026531840 := rfl
  have hsub : (symbol - KERNBASE).toNat = symbol.toNat - 4026531840 := by
    rw [BitVec.toNat_sub_of_le (BitVec.le_def.2 h), hkern]
  rw [addressLine, imageLine, hexWord, hexWord, hsub]

/-- **`mon_kerninfo` reports the image**: of each symbol the eight digits of its link address and
    of its load address, and the size of the image in KB, rounded up. -/
theorem kerninfo_reports_image (h : Linked syms) (m : Console δ) :
    monKerninfo d syms m = .ok (emit (cputchar d) (imageText syms) m, 0) := by
  have htext : kerninfoText syms = imageText syms := by
    have hbase := h.base
    have htext := h.text
    have hdata := h.data
    have hbss := h.bss
    rw [kerninfoText, imageText, footprint_text syms h, addressLine_eq hbase,
      addressLine_eq (hbase.trans htext), addressLine_eq ((hbase.trans htext).trans hdata),
      addressLine_eq (((hbase.trans htext).trans hdata).trans hbss), hexWord]
  rw [monKerninfo_prints, htext]

/-- An image of 103,301 bytes. -/
def linkedImage : KernelSymbols :=
  ⟨0x0010000C, 0xF010000C, 0xF0101A1B, 0xF0112300, 0xF0119391⟩

theorem kerninfo_reports_image_linked :
    monKerninfo readyDevice linkedImage lastCell =
      .ok (emit (cputchar readyDevice) (imageText linkedImage) lastCell, 0) :=
  kerninfo_reports_image readyDevice linkedImage
    ⟨by decide, by decide, by decide, by decide⟩ lastCell

/-! ## The response to a line -/

/-- What the monitor prints for a line. -/
def response (line : CStr) : List Int :=
  if MAXARGS ≤ (arguments line).length then tooManyText
  else match commandOf line with
    | some c => match c.func with
      | .help => helpText
      | .kerninfo => kerninfoText syms
    | none => refusal (arguments line)

/-- Any line is answered, and no command ends the monitor. -/
theorem runcmd_responds (line : CStr) (stack : Nat → Option Nat) (m : Console δ) :
    runcmd d syms line stack m = .ok (emit (cputchar d) (response syms line) m, 0) := by
  unfold response
  rcases parse_spec line stack with ⟨hfew, a, hparse, h, -⟩ | ⟨hmany, a, hparse, -⟩
  · rw [runcmd_of_args d syms hparse h m, if_neg (Nat.not_le.mpr hfew)]
    cases commandOf line with
    | none => rfl
    | some c =>
      simp only [Handler.call]
      cases c.func with
      | help => exact monHelp_prints d m
      | kerninfo => exact monKerninfo_prints d syms m
  · rw [runcmd_of_tooMany d syms hparse m, if_pos hmany]

end Jos
