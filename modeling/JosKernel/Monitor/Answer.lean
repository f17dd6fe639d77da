import JosKernel.Console.Typing
import JosKernel.Monitor.System

/-!
# What is typed is answered

Every call of `getchar` empties the keyboard controller and takes a character, as long as there
is one.  So what has arrived is read after as many calls as there are characters, whatever the
interrupts did before.

Principal results: `system_drained` — where the circular buffer never overruns, the monitor
reads every key and every serial byte; `typed_text_answered` — a text that is typed comes out of
the keyboard, the decoder and the buffer as it was, and the monitor answers it.
-/

set_option autoImplicit false

namespace Jos

open Transducer Merging

variable {ε : Type}

/-! ## Characters -/

theorem typed_range (bs : List Byte) (shift : Word) : ∀ c ∈ typed bs shift, 1 ≤ c ∧ c ≤ 255 := by
  intro c hc
  obtain ⟨hc, hne⟩ := List.mem_filter.mp hc
  have hrange := resultsOf_range bs shift c hc
  have hzero : c ≠ 0 := (of_decide_eq_true hne).1
  omega

theorem serialChars_range {serialExists : Bool} (events : List SystemEvent) :
    ∀ c ∈ serialChars serialExists events, 1 ≤ c ∧ c ≤ 255 := by
  intro c hc
  obtain ⟨ev, -, hc⟩ := List.mem_flatMap.mp hc
  have hcall : ∀ received, c ∈ characters (serialCalls serialExists (serialProcData received)) →
      1 ≤ c ∧ c ≤ 255 := by
    intro received hc
    have hrange := @InputEvent.characters_range serialExists
      (.serialIntr (serialProcData received)) (serialProcData_range received) c hc
    omega
  cases ev with
  | arrive s => cases hc
  | kbdIntr => cases hc
  | serialIntr received => exact hcall received hc
  | getchar received stack => exact hcall received hc

/-- The buffer keeps a character apart from every other. -/
theorem bytes_injective {cs cs' : List Int} (hcs : ∀ c ∈ cs, 1 ≤ c ∧ c ≤ 255)
    (hcs' : ∀ c ∈ cs', 1 ≤ c ∧ c ≤ 255) (h : bytes cs = bytes cs') : cs = cs' := by
  have hbyte : ∀ {cs : List Int}, (∀ c ∈ cs, 1 ≤ c ∧ c ≤ 255) → ∀ c ∈ cs, 0 ≤ c ∧ c < 256 := by
    intro cs hcs c hc
    have hrange := hcs c hc
    omega
  rw [← byteValues_bytes (hbyte hcs), h, byteValues_bytes (hbyte hcs')]

variable (d : Device ε) (syms : KernelSymbols) (serialExists : Bool)

variable {outside : Int → Byte} {con : Console (List Scan × ε)} {events : List SystemEvent}
  {S : System ε} {e : Editor (List Scan × ε)} {p : List Byte} {out : List (List Int)}

theorem System.Running.characters_range {cs : List Int}
    (h : S.Running syms serialExists outside con events e cs p out) :
    ∀ c ∈ characters S.input.results, 1 ≤ c ∧ c ≤ 255 := by
  intro c hc
  rcases mem_or h.delivered c hc with hc | hc
  · exact typed_range p 0 c hc
  · exact serialChars_range events c hc

theorem System.Running.read_range {cs : List Int}
    (h : S.Running syms serialExists outside con events e cs p out) :
    ∀ c ∈ S.input.read, 1 ≤ c ∧ c ≤ 255 := by
  intro c hc
  obtain ⟨hc, hne⟩ := List.mem_filter.mp hc
  exact (h.returned c hc).resolve_left (of_decide_eq_true hne)

/-! ## Reading -/

/-- Calls of `getchar` with nothing in the serial receiver. -/
def getchars (calls : List (Nat → Option Nat)) : List SystemEvent := calls.map (.getchar [])

/-- Nothing arrives with them. -/
theorem arrivals_calls (events : List SystemEvent) (calls : List (Nat → Option Nat)) :
    arrivals (events ++ getchars calls) = arrivals events := by
  have hnone : ∀ calls, arrivals (getchars calls) = [] := by
    intro calls
    induction calls with
    | nil => rfl
    | cons call calls ih => exact ih
  rw [arrivals, List.flatMap_append]
  exact (congrArg _ (hnone calls)).trans (List.append_nil _)

theorem serialChars_calls (events : List SystemEvent) (calls : List (Nat → Option Nat)) :
    serialChars serialExists (events ++ getchars calls) = serialChars serialExists events := by
  have hnone : ∀ calls, serialChars serialExists (getchars calls) = [] := by
    intro calls
    induction calls with
    | nil => rfl
    | cons call calls ih => cases serialExists <;> exact ih
  rw [serialChars, List.flatMap_append]
  exact (congrArg _ (hnone calls)).trans (List.append_nil _)

/-- The keyboard bytes in front of which nothing stalls have all been read. -/
theorem keys_read {keys p : List Byte} {tail : List Scan}
    (h : keys.map Scan.key = p.map Scan.key ++ tail) (htail : Stalled tail) :
    p = keys ∧ tail = [] := by
  have hnil : tail = [] := by
    cases tail with
    | nil => rfl
    | cons s tail =>
      have hmem : s ∈ keys.map Scan.key := by
        rw [h]
        exact List.mem_append_right _ List.mem_cons_self
      obtain ⟨b, -, rfl⟩ := List.mem_map.mp hmem
      exact absurd (htail _ rfl) Bool.false_ne_true
  rw [hnil, List.append_nil] at h
  exact ⟨((List.map_inj_right fun _ _ hb => (Scan.mk.inj hb).2).mp h).symm, hnil⟩

/-- **One call of `getchar`**: no key is left in the controller, and unless everything has been
    read there is one more character. -/
theorem System.Running.getchar {keys : List Byte}
    (h : S.Running syms serialExists outside con events e S.input.read p out)
    (hkeys : arrivals events = keys.map Scan.key) (hfifo : S.input.Fifo)
    (stack : Nat → Option Nat)
    (hroom : ∀ S', S.step d syms serialExists (.getchar [] stack) = .ok S' → S.HasRoom S') :
    ∃ S' e' out', S.step d syms serialExists (.getchar [] stack) = .ok S' ∧ S'.input.Fifo ∧
      S'.Running syms serialExists outside con (events ++ getchars [stack]) e' S'.input.read keys
        out' ∧
      min (S.input.read.length + 1)
        ((typed keys 0).length + (serialChars serialExists events).length) ≤
          S'.input.read.length := by
  obtain ⟨S', e', q, out', hstep, hserved, h'⟩ := h.step d syms serialExists (.getchar [] stack)
  have hfifo' := hserved.fifo hfifo (hroom S' hstep)
  have hdecoded := h'.decoded
  have hpending := hserved.stalled rfl
  rw [h'.monitor] at hpending
  have harrived := (arrivals_calls events [stack]).trans hkeys
  obtain ⟨hp, -⟩ := keys_read (harrived.symm.trans hdecoded) hpending
  rw [hp] at h'
  refine ⟨S', e', out', hstep, hfifo', h', ?_⟩
  rcases hserved.progress [] stack rfl with hnone | hmore
  · -- nothing is unread, so what was stored has been read
    have hlength := length_eq h'.delivered
    have hserial : serialChars serialExists (events ++ [SystemEvent.getchar [] stack]) =
        serialChars serialExists events := serialChars_calls serialExists events [stack]
    have hexact := congrArg List.length hfifo'.exact
    rw [hnone, List.append_nil, length_bytes, length_bytes, hlength, hserial] at hexact
    exact hexact ▸ Nat.min_le_right _ _
  · exact (Nat.min_le_left _ _).trans hmore

theorem System.Running.drain {keys : List Byte} : ∀ (calls : List (Nat → Option Nat))
    {events : List SystemEvent} {S : System ε} {e : Editor (List Scan × ε)} {p : List Byte}
    {out : List (List Int)}, S.Running syms serialExists outside con events e S.input.read p out →
    arrivals events = keys.map Scan.key → S.input.Fifo →
    S.NeverOverrun d syms serialExists (getchars calls) → p = keys ∨ calls ≠ [] →
    ∃ S' e' out', Transducer.run (System.step d syms serialExists) S (getchars calls) = .ok S' ∧
      S'.input.Fifo ∧
      S'.Running syms serialExists outside con (events ++ getchars calls) e' S'.input.read
        keys out' ∧
      min (S.input.read.length + calls.length)
        ((typed keys 0).length + (serialChars serialExists events).length) ≤
          S'.input.read.length
  | [], events, S, e, p, out, h, _, hfifo, _, hsome => by
    have hp : p = keys := hsome.resolve_right fun hne => hne rfl
    rw [hp] at h
    refine ⟨S, e, out, rfl, hfifo, ?_, Nat.min_le_left _ _⟩
    rw [getchars, List.map_nil, List.append_nil]
    exact h
  | stack :: calls, events, S, e, p, out, h, hkeys, hfifo, hnever, _ => by
    obtain ⟨S₁, hstep₁, hroom, hmore⟩ := hnever
    have hroom' : ∀ S', S.step d syms serialExists (.getchar [] stack) = .ok S' →
        S.HasRoom S' := by
      intro S' hstep'
      rw [hstep₁] at hstep'
      cases hstep'
      exact hroom
    obtain ⟨S₂, e₂, out₂, hstep₂, hfifo₂, h₂, hone⟩ := h.getchar d syms serialExists hkeys hfifo
      stack hroom'
    rw [hstep₁] at hstep₂
    cases hstep₂
    have harrived := (arrivals_calls events [stack]).trans hkeys
    obtain ⟨S', e', out', hrun, hfifo', h', hall⟩ :=
      System.Running.drain calls h₂ harrived hfifo₂ hmore (Or.inl rfl)
    refine ⟨S', e', out', ?_, hfifo', ?_, ?_⟩
    · rw [getchars, List.map_cons, Transducer.run, hstep₁]
      exact hrun
    · rw [List.append_assoc] at h'
      exact h'
    · rw [serialChars_calls] at hall
      rw [List.length_cons]
      omega

/-- **The monitor reads everything**, from any state on in which the queue is exact. -/
theorem System.Running.reads_all {keys : List Byte} {calls : List (Nat → Option Nat)}
    (h : S.Running syms serialExists outside con events e S.input.read p out)
    (hkeys : arrivals events = keys.map Scan.key) (hfifo : S.input.Fifo)
    (hnever : S.NeverOverrun d syms serialExists (getchars calls)) (hsome : calls ≠ [])
    (hcalls : (typed keys 0).length + (serialChars serialExists events).length ≤ calls.length) :
    ∃ S' e' out', Transducer.run (System.step d syms serialExists) S (getchars calls) = .ok S' ∧
      S'.Running syms serialExists outside con (events ++ getchars calls) e' S'.input.read
        keys out' ∧
      Merge (typed keys 0) (serialChars serialExists events) S'.input.read := by
  obtain ⟨S', e', out', hrun, hfifo', h', hall⟩ := h.drain d syms serialExists calls hkeys
    hfifo hnever (Or.inr hsome)
  have hdelivered := h'.delivered
  rw [serialChars_calls] at hdelivered
  have hexact := hfifo'.exact
  have hlength := congrArg List.length hexact
  rw [List.length_append, length_bytes, length_bytes, length_eq hdelivered] at hlength
  have hnone : S'.input.cons.unread = [] := List.length_eq_zero_iff.mp (by omega)
  rw [hnone, List.append_nil] at hexact
  have hread := bytes_injective (h'.read_range syms serialExists)
    (h'.characters_range syms serialExists) hexact
  exact ⟨S', e', out', hrun, h', hread ▸ hdelivered⟩

/-! ## Room -/

/-- As long as what has been typed and received would fit, nothing overruns. -/
theorem System.Running.roomy {keys : List Byte} : ∀ (more : List SystemEvent)
    {events : List SystemEvent} {S : System ε} {e : Editor (List Scan × ε)} {p : List Byte}
    {out : List (List Int)}, S.Running syms serialExists outside con events e S.input.read p out →
    arrivals (events ++ more) = keys.map Scan.key →
    (typed keys 0).length + (serialChars serialExists (events ++ more)).length ≤ 511 →
    S.NeverOverrun d syms serialExists more
  | [], _, _, _, _, _, _, _, _ => trivial
  | ev :: more, events, S, e, p, out, h, hkeys, hfew => by
    obtain ⟨S', e', q, out', hstep, -, h'⟩ := h.step d syms serialExists ev
    rw [List.append_cons] at hkeys hfew
    refine ⟨S', hstep, ?_, System.Running.roomy more h' hkeys hfew⟩
    have hdecoded := h'.decoded
    rw [arrivals, List.flatMap_append, ← arrivals, hdecoded, List.append_assoc] at hkeys
    obtain ⟨ks, rest, rfl, hks, -⟩ := List.map_eq_append_iff.mp hkeys.symm
    have hsame : ks = p ++ q := (List.map_inj_right fun _ _ hb => (Scan.mk.inj hb).2).mp hks
    rw [hsame, typed_append, List.length_append, serialChars, List.flatMap_append,
      List.length_append, ← serialChars] at hfew
    rw [HasRoom, length_eq h'.delivered]
    omega

/-! ## Whole runs -/

theorem System.NeverOverrun.append : ∀ (events : List SystemEvent) {more : List SystemEvent}
    {S S' : System ε}, S.NeverOverrun d syms serialExists (events ++ more) →
    Transducer.run (System.step d syms serialExists) S events = .ok S' →
    S.NeverOverrun d syms serialExists events ∧ S'.NeverOverrun d syms serialExists more
  | [], _, _, _, h, hrun => by
    cases hrun
    exact ⟨trivial, h⟩
  | ev :: events, more, S, S', ⟨S₁, hstep, hroom, hmore⟩, hrun => by
    rw [Transducer.run, hstep] at hrun
    obtain ⟨hevents, hlast⟩ := System.NeverOverrun.append events hmore hrun
    exact ⟨⟨S₁, hstep, hroom, hevents⟩, hlast⟩

/-- The run that reads everything. -/
theorem system_drained (buf : Int → Byte) (con : Console (List Scan × ε))
    {events : List SystemEvent} {keys : List Byte} {calls : List (Nat → Option Nat)}
    (hkeys : arrivals events = keys.map Scan.key) (hsome : calls ≠ [])
    (hcalls : (typed keys 0).length + (serialChars serialExists events).length ≤ calls.length)
    (hroom : ∀ S₀, System.start d buf con = .ok S₀ →
      S₀.NeverOverrun d syms serialExists (events ++ getchars calls)) :
    ∃ S e out, system d syms serialExists buf con (events ++ getchars calls) = .ok S ∧
      S.Running syms serialExists buf (con.withPending []) (events ++ getchars calls) e
        S.input.read keys out ∧
      Merge (typed keys 0) (serialChars serialExists events) S.input.read := by
  obtain ⟨S₀, e₀, hstart, hinit, h₀⟩ := System.start_running d syms serialExists buf con
  have hread : S₀.input.read = [] := by
    rw [hinit]
    rfl
  obtain ⟨S₁, e₁, p₁, out₁, hrun₁, hfifo₁, h₁⟩ :=
    System.Running.run d syms serialExists events (hread.symm ▸ h₀)
  obtain ⟨hnever, hlast⟩ := (hroom S₀ hstart).append d syms serialExists events hrun₁
  obtain ⟨S, e, out, hrun, h, hmerge⟩ := h₁.reads_all d syms serialExists hkeys
    (hfifo₁ (hinit.symm ▸ InputRun.init_fifo) hnever) hlast hsome hcalls
  refine ⟨S, e, out, ?_, h, hmerge⟩
  rw [system, hstart]
  exact (run_append _ events _ hrun₁).trans hrun

/-- What fits into the buffer never overruns it. -/
theorem neverOverrun_of_few {buf : Int → Byte} {con : Console (List Scan × ε)}
    {events : List SystemEvent} {keys : List Byte} (hkeys : arrivals events = keys.map Scan.key)
    (hfew : (typed keys 0).length + (serialChars serialExists events).length ≤ 511) :
    ∀ S₀, System.start d buf con = .ok S₀ → S₀.NeverOverrun d syms serialExists events := by
  intro S₀ hstart₀
  obtain ⟨S, e, hstart, hinit, h⟩ := System.start_running d syms serialExists buf con
  rw [hstart₀] at hstart
  cases hstart
  have hread : S₀.input.read = [] := by
    rw [hinit]
    rfl
  exact (hread.symm ▸ h : S₀.Running syms serialExists buf _ [] e S₀.input.read [] _).roomy d syms
    serialExists events hkeys hfew

/-- No modifier is held at first. -/
theorem released_zero : Released 0 := ⟨rfl, rfl, rfl⟩

theorem transcriptTexts_flatten (cs : List Int) :
    (transcriptTexts syms cs).flatten = transcript syms cs := by
  rw [transcriptTexts, List.flatten_cons, words_flatten]
  rfl

/-- **What is typed is answered**: a text is struck on the keyboard while bytes come in at the
    serial port and interrupts in any order, and the circular buffer never overruns.  After one
    call of `getchar` for each character the monitor has read the text and the serial bytes,
    and its transcript is what the devices show. -/
theorem typed_text_answered (buf : Int → Byte) (con : Console (List Scan × ε)) {text : List Byte}
    (htext : ∀ c ∈ text, Typable c) {events : List SystemEvent}
    (hstruck : arrivals events = (keystrokes 0 text).map Scan.key)
    {calls : List (Nat → Option Nat)} (hsome : calls ≠ [])
    (hcalls : text.length + (serialChars serialExists events).length ≤ calls.length)
    (hroom : ∀ S₀, System.start d buf con = .ok S₀ →
      S₀.NeverOverrun d syms serialExists (events ++ getchars calls)) :
    ∃ S e, system d syms serialExists buf con (events ++ getchars calls) = .ok S ∧
      S.monitor = .reading e ∧
      Merge (plain text) (serialChars serialExists events) S.input.read ∧
      (serialChars serialExists events = [] → S.input.read = plain text) ∧
      Held buf e.buf e.i ((shell syms).state [] S.input.read) ∧
      Printed (con.withPending []) e.con (transcript syms S.input.read) [] := by
  obtain ⟨htyped, -⟩ := typed_keystrokes released_zero text htext
  obtain ⟨S, e, out, hrun, h, hmerge⟩ := system_drained d syms serialExists buf con hstruck hsome
    (by rw [htyped, plain, List.length_map]; exact hcalls) hroom
  rw [htyped] at hmerge
  refine ⟨S, e, hrun, h.monitor, hmerge, fun hnone => eq_of_nil_right hmerge hnone, h.line, ?_⟩
  have htexts := h.texts
  have hprinted := h.printed
  rw [resets_keystrokes, List.replicate_zero] at htexts hprinted
  rw [eq_of_nil_right htexts rfl, transcriptTexts_flatten] at hprinted
  exact hprinted

/-- `help`, with an interrupt for each byte of the keyboard. -/
theorem typed_text_answered_help :
    ∃ (S : System Unit) (e : Editor (List Scan × Unit)),
      system readyDevice linkedImage false (fun _ => 0) ⟨⟨([], ()), []⟩, lastCell.crt⟩
          ((keystrokes 0 [0x68, 0x65, 0x6C, 0x70, 0x0A]).flatMap
              (fun b => [.arrive (Scan.key b), .kbdIntr]) ++
            getchars (List.replicate 5 fun _ => none)) = .ok S ∧
      S.monitor = .reading e ∧ S.input.read = [0x68, 0x65, 0x6C, 0x70, 0x0A] ∧
      sent LPT e.con.io.outs =
        (transcript linkedImage [0x68, 0x65, 0x6C, 0x70, 0x0A]).flatMap expansion := by
  have htext : ∀ c ∈ [0x68, 0x65, 0x6C, 0x70, 0x0A], Typable c := by decide +kernel
  obtain ⟨htyped, -⟩ := typed_keystrokes released_zero _ htext
  have hstruck : arrivals ((keystrokes 0 [0x68, 0x65, 0x6C, 0x70, 0x0A]).flatMap
      fun b => [.arrive (Scan.key b), .kbdIntr]) =
        (keystrokes 0 [0x68, 0x65, 0x6C, 0x70, 0x0A]).map Scan.key := by rfl
  have hserial : serialChars false ((keystrokes 0 [0x68, 0x65, 0x6C, 0x70, 0x0A]).flatMap
      fun b => [.arrive (Scan.key b), .kbdIntr]) = [] := by rfl
  obtain ⟨S, e, hrun, hmonitor, -, hread, -, hprinted⟩ := typed_text_answered readyDevice
    linkedImage false (fun _ => 0) ⟨⟨([], ()), []⟩, lastCell.crt⟩ htext hstruck
    (@List.replicate_succ_ne_nil _ 4 fun _ => none) (by rw [hserial]; decide)
    (neverOverrun_of_few readyDevice linkedImage false ((arrivals_calls _ _).trans hstruck)
      (by rw [serialChars_calls, hserial, htyped]; decide))
  have hread := hread hserial
  refine ⟨S, e, hrun, hmonitor, hread, ?_⟩
  have hsent := hprinted.streams LPT (Or.inr rfl)
  rw [hread] at hsent
  exact hsent

end Jos
