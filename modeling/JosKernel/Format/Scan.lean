import JosKernel.Format.Sink

/-!
# Scanning a format

An escape sequence is a `%`, a run of flags, digits, `*`, `.`, `#` and `l`, and one more
character.  The run is the longest one, so the scanner stops at the first other character,
the terminator at the latest; if that is not a conversion, the scanner moves back to the `%`
of this escape, because no character of the run is a `%`.

Principal results:
* `vprintfmtLoop_terminates` — a run ends, and stays inside the format, unless `va_arg` fails;
* `vprintfmtFrom_other` — an unrecognized escape is printed as if its `%` were ordinary text;
* `vprintfmtFrom_zeros` — with enough arguments a run ends normally.
-/

set_option autoImplicit false

namespace Jos

/-! ## Runs -/

/-- The labels whose case ends in `goto reswitch`. -/
def Label.again : Label → Bool
  | .minus | .zero | .digit | .star | .dot | .hash | .ell => true
  | _ => false

/-- Flags, digits, `*`, `.`, `#` and `l`. -/
def IsRun (run : List Byte) : Prop := ∀ c ∈ run, (label c).again

instance (run : List Byte) : Decidable (IsRun run) :=
  inferInstanceAs (Decidable (∀ c ∈ run, (label c).again))

/-- The loop test of `scanNumber`. -/
def stopsNumber (c : Byte) : Prop := c.toInt < (char '0').toInt ∨ c.toInt > (char '9').toInt

instance (c : Byte) : Decidable (stopsNumber c) :=
  inferInstanceAs (Decidable (_ ∨ _))

set_option maxRecDepth 4000 in
theorem label_star_iff : ∀ c : Byte, label c = .star ↔ c = char '*' := by decide +kernel

set_option maxRecDepth 4000 in
theorem again_of_digit : ∀ c : Byte, ¬stopsNumber c → (label c).again ∧ c ≠ char '*' := by
  decide +kernel

set_option maxRecDepth 4000 in
theorem ne_percent_of_again : ∀ c : Byte, (label c).again → c ≠ char '%' := by decide +kernel

set_option maxRecDepth 4000 in
theorem ne_zero_of_again : ∀ c : Byte, (label c).again → c ≠ 0 := by decide +kernel

theorem isRun_cons {c : Byte} {run : List Byte} :
    IsRun (c :: run) ↔ (label c).again ∧ IsRun run := List.forall_mem_cons

theorem isRun_append {run run' : List Byte} :
    IsRun (run ++ run') ↔ IsRun run ∧ IsRun run' := List.forall_mem_append

/-- Every text with a terminator is a run and one more character. -/
theorem exists_run : ∀ {after : List Byte}, 0 ∈ after →
    ∃ run ch rest, after = run ++ ch :: rest ∧ IsRun run ∧ (label ch).again = false
  | c :: after, h => by
    by_cases hc : (label c).again
    · have hrest : 0 ∈ after := by
        cases h with
        | head => exact absurd rfl (ne_zero_of_again _ hc)
        | tail _ hmem => exact hmem
      obtain ⟨run, ch, rest, rfl, hrun, hch⟩ := exists_run hrest
      exact ⟨c :: run, ch, rest, rfl, isRun_cons.mpr ⟨hc, hrun⟩, hch⟩
    · exact ⟨[], c, after, rfl, by simp [IsRun], by simpa using hc⟩

/-- The terminator is behind a conversion. -/
theorem zero_mem_of_conversion {run rest : List Byte} {ch : Byte} (hrun : IsRun run)
    (hch : label ch ≠ .other) (h : 0 ∈ run ++ ch :: rest) : 0 ∈ rest := by
  cases List.mem_append.mp h with
  | inl hmem => exact absurd rfl (ne_zero_of_again _ (hrun _ hmem))
  | inr hmem =>
    cases hmem with
    | head => exact absurd rfl hch
    | tail _ hrest => exact hrest

/-! ## The flag loop -/

/-- The argument list behind `k` arguments for `*`. -/
def takeWords : Nat → List Arg → Except Fault (List Arg)
  | 0, ap => .ok ap
  | k + 1, ap => do
      let (_, ap) ← vaArgWord ap
      takeWords k ap

theorem takeWords_map (ap : List Arg) :
    ∀ vs : List Word, takeWords vs.length (vs.map .word ++ ap) = .ok ap
  | [] => rfl
  | _ :: vs => takeWords_map ap vs

/-- A number ends inside the run, and it has no `*`. -/
theorem scanNumber_run {ch : Byte} (rest : List Byte) (hch : (label ch).again = false) :
    ∀ (run before : List Byte) (d : Byte) (precision : Int),
      ∃ digits run' value, run = digits ++ run' ∧ digits.count (char '*') = 0 ∧
        scanNumber d precision before (run ++ ch :: rest) =
          .ok (value, ⟨digits.reverse ++ before, run' ++ ch :: rest⟩)
  | [], before, d, precision => by
    have hstop : stopsNumber ch := Decidable.byContradiction fun hdigit => by
      rw [(again_of_digit ch hdigit).1] at hch
      cases hch
    exact ⟨[], [], _, rfl, rfl, by rw [List.nil_append, scanNumber]; exact if_pos hstop⟩
  | c :: run, before, d, precision => by
    rw [List.cons_append, scanNumber]
    by_cases hstop : stopsNumber c
    · exact ⟨[], c :: run, _, rfl, rfl, if_pos hstop⟩
    · obtain ⟨digits, run', value, rfl, hcount, hscan⟩ :=
        scanNumber_run rest hch run (c :: before) c
          (int32 (precision * 10 + d.toNat - (char '0').toNat))
      refine ⟨c :: digits, run', value, rfl, ?_, ?_⟩
      · rw [List.count_cons_of_ne (again_of_digit c hstop).2, hcount]
      · rw [List.reverse_cons, List.append_assoc digits.reverse]
        exact (if_neg hstop).trans hscan

/-- The flag loop stops behind the first character that is not in the run. -/
theorem reswitch_run {ch : Byte} (rest : List Byte) (hch : (label ch).again = false) :
    ∀ (fuel : Nat) (run before : List Byte) (e : Spec) (ap : List Arg), IsRun run →
      run.length < fuel →
      ∃ e', reswitch fuel ⟨before, run ++ ch :: rest⟩ e ap =
        (takeWords (run.count (char '*')) ap).map fun ap' =>
          (ch, ⟨ch :: run.reverse ++ before, rest⟩, e', ap')
  | 0, _, _, _, _, _, h => absurd h (Nat.not_lt_zero _)
  | fuel + 1, [], before, e, ap, _, _ => by
    refine ⟨e, ?_⟩
    rw [List.nil_append, reswitch]
    simp only [Cursor.next, Bind.bind, Except.bind]
    cases hl : label ch <;> first | rfl | simp [Label.again, hl] at hch
  | fuel + 1, c :: run, before, e, ap, hrun, hlen => by
    obtain ⟨hc, hrun'⟩ := isRun_cons.mp hrun
    have hlen' : run.length < fuel := by simpa using hlen
    have ih := fun e ap => reswitch_run rest hch fuel run (c :: before) e ap hrun' hlen'
    -- a flag that takes no argument
    have hplain : ∀ e', label c ≠ .star →
        ∃ e'', reswitch fuel ⟨c :: before, run ++ ch :: rest⟩ e' ap =
          (takeWords ((c :: run).count (char '*')) ap).map fun ap' =>
            (ch, ⟨ch :: (c :: run).reverse ++ before, rest⟩, e'', ap') := by
      intro e' hne
      obtain ⟨e'', h⟩ := ih e' ap
      refine ⟨e'', ?_⟩
      rw [h, List.count_cons_of_ne fun heq => hne ((label_star_iff c).mpr heq)]
      simp
    rw [List.cons_append, reswitch]
    simp only [Cursor.next, Bind.bind, Except.bind]
    cases hl : label c with
    | minus => exact hplain _ (by simp [hl])
    | zero => exact hplain _ (by simp [hl])
    | dot => exact hplain _ (by simp [hl])
    | hash => exact hplain _ (by simp [hl])
    | ell => exact hplain _ (by simp [hl])
    | digit =>
      obtain ⟨digits, run', value, rfl, hcount, hscan⟩ :=
        scanNumber_run rest hch run (c :: before) c 0
      have hne : c ≠ char '*' := fun heq => by
        rw [(label_star_iff c).mpr heq] at hl
        cases hl
      simp only [hscan]
      obtain ⟨e', h⟩ := reswitch_run rest hch fuel run' (digits.reverse ++ c :: before)
        (e.processPrecision value) ap (isRun_append.mp hrun').2
        (by rw [List.length_append] at hlen'; omega)
      refine ⟨e', ?_⟩
      rw [h, List.count_cons_of_ne hne, List.count_append, hcount]
      simp
    | star =>
      have hstar : c = char '*' := (label_star_iff c).mp hl
      have hcount : (c :: run).count (char '*') = run.count (char '*') + 1 := by
        rw [hstar, List.count_cons_self]
      rw [hcount, takeWords]
      simp only [vaArgInt]
      cases hw : vaArgWord ap with
      | error f => exact ⟨e, rfl⟩
      | ok r =>
        obtain ⟨e', h⟩ := ih (e.processPrecision r.1.toInt) r.2
        refine ⟨e', ?_⟩
        simp only [map_ok, h]
        simp [Bind.bind, Except.bind]
    | _ => simp [Label.again, hl] at hc

/-! ## Moving back -/

theorem rewindLoop_run (before : List Byte) :
    ∀ l after : List Byte, char '%' ∉ l →
      rewindLoop (l ++ char '%' :: before) after = .ok ⟨char '%' :: before, l.reverse ++ after⟩
  | [], _, _ => if_pos rfl
  | c :: l, after, h => by
    obtain ⟨hc, hl⟩ := not_or.mp (mt List.mem_cons.mpr h)
    rw [List.cons_append, rewindLoop, if_neg (Ne.symm hc), rewindLoop_run before l _ hl]
    simp

/-- The rewind stops at the `%` of its own escape. -/
theorem rewind_run {run : List Byte} (hrun : IsRun run) (ch : Byte) (before rest : List Byte) :
    rewind ⟨ch :: run.reverse ++ char '%' :: before, rest⟩ =
      .ok ⟨char '%' :: before, run ++ ch :: rest⟩ := by
  have hno : char '%' ∉ run.reverse := by
    intro hmem
    exact ne_percent_of_again _ (hrun _ (List.mem_reverse.mp hmem)) rfl
  show rewindLoop (run.reverse ++ char '%' :: before) (ch :: rest) = _
  rw [rewindLoop_run before _ _ hno, List.reverse_reverse]

/-! ## Arguments -/

/-- The computation fails only where `va_arg` finds no argument of the type asked for. -/
def Served {α : Type} (x : Except Fault α) : Prop := ∀ f, x = .error f → f = .badArg

theorem served_ok {α : Type} (a : α) : Served (.ok a) := fun _ h => by cases h

theorem served_badArg {α : Type} : Served (.error .badArg : Except Fault α) := fun _ h => by
  cases h
  rfl

theorem served_map {α β : Type} {x : Except Fault α} (f : α → β) (h : Served x) :
    Served (x.map f) := by
  cases x with
  | error e =>
    cases h e rfl
    exact served_badArg
  | ok a => exact served_ok _

theorem served_error {α β : Type} {x : Except Fault α} {f : Fault} (h : Served x)
    (hx : x = .error f) : Served (.error f : Except Fault β) := by
  cases h f hx
  exact served_badArg

theorem served_bind {α β : Type} {x : Except Fault α} {f : α → Except Fault β} (h : Served x)
    (hf : ∀ a, x = .ok a → Served (f a)) : Served (x >>= f) := by
  cases x with
  | error e =>
    cases h e rfl
    exact served_badArg
  | ok a => exact hf a rfl

theorem served_vaArgWord : ∀ ap, Served (vaArgWord ap)
  | [] => served_badArg
  | .word _ :: _ => served_ok _
  | .str _ :: _ => served_badArg

theorem served_vaArgInt (ap : List Arg) : Served (vaArgInt ap) := served_map _ (served_vaArgWord ap)

theorem served_vaArgQuad : ∀ ap, Served (vaArgQuad ap)
  | [] => served_badArg
  | [.word _] => served_badArg
  | .word _ :: .word _ :: _ => served_ok _
  | .word _ :: .str _ :: _ => served_badArg
  | .str _ :: _ => served_badArg

theorem served_vaArgStr : ∀ ap, Served (vaArgStr ap)
  | [] => served_badArg
  | .str _ :: _ => served_ok _
  | .word v :: ap => by
    rw [vaArgStr]
    split
    · exact served_ok _
    · exact served_badArg

theorem served_getuint (ap : List Arg) (lflag : Int) : Served (getuint ap lflag) := by
  unfold getuint
  split
  · exact served_map _ (served_vaArgQuad ap)
  · exact served_map _ (served_vaArgWord ap)

theorem served_getint (ap : List Arg) (lflag : Int) : Served (getint ap lflag) := by
  unfold getint
  split
  · exact served_map _ (served_vaArgQuad ap)
  · exact served_vaArgInt ap

theorem served_takeWords : ∀ (k : Nat) (ap : List Arg), Served (takeWords k ap)
  | 0, _ => served_ok _
  | k + 1, ap => served_bind (served_vaArgWord ap) fun r _ => served_takeWords k r.2

section Loop

variable {σ : Type} (putch : Int → σ → σ)

theorem served_convert (l : Label) (e : Spec) (ap : List Arg) (s : σ) :
    Served (convert putch l e ap s) := by
  cases l with
  | chr => exact served_bind (served_vaArgInt ap) fun _ _ => served_ok _
  | str => exact served_bind (served_vaArgStr ap) fun _ _ => served_ok _
  | dec =>
    refine served_bind (served_getint ap e.lflag) fun r _ => ?_
    simp only
    split <;> exact served_ok _
  | uns => exact served_bind (served_getuint ap e.lflag) fun _ _ => served_ok _
  | ptr => exact served_bind (served_vaArgWord ap) fun _ _ => served_ok _
  | hex => exact served_bind (served_getuint ap e.lflag) fun _ _ => served_ok _
  | _ => exact served_ok _

/-! ## One escape sequence -/

/-- The flag loop of an escape, with the budget that `escape` gives it. -/
theorem reswitch_escape {ch : Byte} {run : List Byte} (hrun : IsRun run)
    (hch : (label ch).again = false) (before rest : List Byte) (e : Spec) (ap : List Arg) :
    ∃ e', reswitch ((run ++ ch :: rest).length + 1) ⟨before, run ++ ch :: rest⟩ e ap =
      (takeWords (run.count (char '*')) ap).map fun ap' =>
        (ch, ⟨ch :: run.reverse ++ before, rest⟩, e', ap') :=
  reswitch_run rest hch _ run before e ap hrun (by rw [List.length_append]; omega)

/-- An unrecognized escape prints its `%` and leaves the rest to be scanned. -/
theorem escape_other (printfmt : CStr → List Arg → σ → Except Fault σ) {ch : Byte}
    {run : List Byte} (hrun : IsRun run) (hch : label ch = .other) (before rest : List Byte)
    (ap : List Arg) (s : σ) :
    escape putch printfmt ⟨char '%' :: before, run ++ ch :: rest⟩ ap s =
      (takeWords (run.count (char '*')) ap).map fun ap' =>
        (⟨char '%' :: before, run ++ ch :: rest⟩, ap', putch (char '%').toInt s) := by
  obtain ⟨e', h⟩ := reswitch_escape hrun (by rw [hch]; rfl) (char '%' :: before) rest Spec.init ap
  unfold escape
  rw [h, bind_map]
  simp only [hch, rewind_run hrun]
  cases takeWords (run.count (char '*')) ap <;> rfl

/-- Two nested calls of the formatter that print the same for `%e`. -/
def SameNested (printfmt printfmt' : CStr → List Arg → σ → Except Fault σ) : Prop :=
  (∀ v s, ∃ s', printfmt (CStr.ofString "error %d") [.word v] s = .ok s' ∧
    printfmt' (CStr.ofString "error %d") [.word v] s = .ok s') ∧
  ∀ p s, ∃ s', printfmt (CStr.ofString "%s") [.str p] s = .ok s' ∧
    printfmt' (CStr.ofString "%s") [.str p] s = .ok s'

theorem printError_same {printfmt printfmt' : CStr → List Arg → σ → Except Fault σ}
    (hp : SameNested printfmt printfmt') (err : Int) (s : σ) :
    ∃ s', printError printfmt err s = .ok s' ∧ printError printfmt' err s = .ok s' := by
  unfold printError
  simp only
  split
  · exact hp.1 _ s
  · exact hp.2 _ s

/-- A conversion consumes arguments, prints, and leaves what follows it. -/
theorem escape_conversion {printfmt printfmt' : CStr → List Arg → σ → Except Fault σ}
    (hp : SameNested printfmt printfmt') {ch : Byte} {run : List Byte} (hrun : IsRun run)
    (hch : (label ch).again = false) (hconv : label ch ≠ .other) (before rest : List Byte)
    (ap : List Arg) (s : σ) :
    ∃ r : Except Fault (List Arg × σ), Served r ∧
      escape putch printfmt ⟨char '%' :: before, run ++ ch :: rest⟩ ap s =
        r.map (fun r => (⟨ch :: run.reverse ++ char '%' :: before, rest⟩, r)) ∧
      escape putch printfmt' ⟨char '%' :: before, run ++ ch :: rest⟩ ap s =
        r.map (fun r => (⟨ch :: run.reverse ++ char '%' :: before, rest⟩, r)) := by
  obtain ⟨e', h⟩ := reswitch_escape hrun hch (char '%' :: before) rest Spec.init ap
  unfold escape
  rw [h, bind_map, bind_map]
  cases hw : takeWords (run.count (char '*')) ap with
  | error f => exact ⟨.error f, served_error (served_takeWords _ _) hw, rfl, rfl⟩
  | ok ap' =>
    simp only [Bind.bind, Except.bind]
    cases hl : label ch with
    | other => exact absurd hl hconv
    | err =>
      cases hv : vaArgInt ap' with
      | error f => exact ⟨.error f, served_error (served_vaArgInt _) hv, rfl, rfl⟩
      | ok r =>
        obtain ⟨s', h1, h2⟩ := printError_same hp r.1 s
        refine ⟨.ok (r.2, s'), served_ok _, ?_, ?_⟩
        · simp only [h1]
          rfl
        · simp only [h2]
          rfl
    | _ =>
      refine ⟨convert putch (label ch) e' ap' s, served_convert putch _ _ _ _, ?_, ?_⟩ <;>
        simp only [hl] <;> cases convert putch _ e' ap' s <;> rfl

/-! ## The outer loop -/

theorem vprintfmtLoop_text (fuel : Nat) {c : Byte} (hp : c ≠ char '%') (h0 : c ≠ 0)
    (before after : List Byte) (ap : List Arg) (s : σ) :
    vprintfmtLoop putch (fuel + 1) ⟨before, c :: after⟩ ap s =
      vprintfmtLoop putch fuel ⟨c :: before, after⟩ ap (putch c.toNat s) := by
  rw [vprintfmtLoop_succ]
  exact (if_pos hp).trans (if_neg h0)

theorem vprintfmtLoop_end (fuel : Nat) (before after : List Byte) (ap : List Arg) (s : σ) :
    vprintfmtLoop putch (fuel + 1) ⟨before, 0 :: after⟩ ap s = .ok s := rfl

theorem vprintfmtLoop_escape (fuel : Nat) (before after : List Byte) (ap : List Arg) (s : σ) :
    vprintfmtLoop putch (fuel + 1) ⟨before, char '%' :: after⟩ ap s =
      escape putch (fun fmt ap s => vprintfmtLoop putch fuel fmt.start ap s)
        ⟨char '%' :: before, after⟩ ap s >>= fun r => vprintfmtLoop putch fuel r.1 r.2.1 r.2.2 := by
  rw [vprintfmtLoop_succ]
  rfl

/-- A conversion without flags. -/
theorem vprintfmtLoop_conversion (fuel : Nat) {ch : Byte} (hch : (label ch).again = false)
    (hconv : label ch ≠ .other) (herr : label ch ≠ .err) (before rest : List Byte)
    (ap : List Arg) (s : σ) :
    vprintfmtLoop putch (fuel + 1) ⟨before, char '%' :: ch :: rest⟩ ap s =
      convert putch (label ch) Spec.init ap s >>= fun r =>
        vprintfmtLoop putch fuel ⟨ch :: char '%' :: before, rest⟩ r.1 r.2 := by
  have hflags : reswitch ((ch :: rest).length + 1) ⟨char '%' :: before, ch :: rest⟩ Spec.init ap =
      .ok (ch, ⟨ch :: char '%' :: before, rest⟩, Spec.init, ap) := by
    rw [reswitch]
    simp only [Cursor.next, Bind.bind, Except.bind]
    cases hl : label ch <;> first | rfl | simp [Label.again, hl] at hch
  rw [vprintfmtLoop_escape, escape, hflags]
  simp only [Bind.bind, Except.bind]
  cases hl : label ch with
  | other => exact absurd hl hconv
  | err => exact absurd hl herr
  | _ => cases convert putch _ Spec.init ap s <;> rfl

/-- What `%d` prints for a number. -/
def printInt (v : Word) (e : Spec) (s : σ) : σ :=
  if v.toInt < 0 then
    printnum putch (uint64 (-v.toInt)) 10 decimal_base e.width e.padc (putch (char '-').toInt s)
  else printnum putch v.toInt.toNat 10 decimal_base e.width e.padc s

theorem convert_dec (v : Word) {e : Spec} (he : e.lflag < 2) (ap : List Arg) (s : σ) :
    convert putch .dec e (.word v :: ap) s = .ok (ap, printInt putch v e s) := by
  have hget : getint (.word v :: ap) e.lflag = .ok (v.toInt, ap) := if_neg (by omega)
  rw [convert, hget]
  unfold printInt
  by_cases hneg : v.toInt < 0
  · rw [if_pos hneg]
    exact if_pos hneg
  · rw [if_neg hneg]
    exact if_neg hneg

/-- The nested call for an error without a text. -/
theorem printfmt_number (v : Word) (s : σ) (fuel : Nat) :
    vprintfmtLoop putch (fuel + 8) (CStr.ofString "error %d").start [.word v] s =
      .ok (printInt putch v Spec.init (emit putch [101, 114, 114, 111, 114, 32] s)) := by
  have hfmt : (CStr.ofString "error %d").start =
      ⟨[], [char 'e', char 'r', char 'r', char 'o', char 'r', char ' ', char '%', char 'd',
        0]⟩ := by
    decide
  rw [hfmt]
  repeat rw [vprintfmtLoop_text putch _ (by decide) (by decide)]
  rw [vprintfmtLoop_conversion putch _ (by decide) (by decide) (by decide)]
  show convert putch .dec Spec.init [.word v] _ >>= _ = _
  rw [convert_dec putch v (by decide)]
  rfl

/-- The nested call for an error text. -/
theorem printfmt_text (p : CStr) (s : σ) (fuel : Nat) :
    vprintfmtLoop putch (fuel + 2) (CStr.ofString "%s").start [.str p] s =
      .ok (printString putch Spec.init p s) := by
  have hfmt : (CStr.ofString "%s").start = ⟨[], [char '%', char 's', 0]⟩ := by
    decide
  rw [hfmt, vprintfmtLoop_conversion putch _ (by decide) (by decide) (by decide)]
  rfl

theorem sameNested_loop (fuel : Nat) (h : 8 ≤ fuel) :
    SameNested (fun fmt ap s => vprintfmtLoop putch fuel fmt.start ap s)
      (fun fmt ap s => vprintfmtLoop putch (fuel + 1) fmt.start ap s) := by
  obtain ⟨k, rfl⟩ := Nat.exists_eq_add_of_le' h
  constructor
  · intro v s
    exact ⟨_, printfmt_number putch v s k, printfmt_number putch v s (k + 1)⟩
  · intro p s
    exact ⟨_, printfmt_text putch p s (k + 6), printfmt_text putch p s (k + 7)⟩

/-- **Scanning ends**: with one step for each byte that is left, and eight for a nested call,
the loop fails only in `va_arg`, and more steps change nothing. -/
theorem vprintfmtLoop_terminates : ∀ (fuel : Nat) (fmt : Cursor) (ap : List Arg) (s : σ),
    0 ∈ fmt.after → fmt.after.length + 8 ≤ fuel →
    Served (vprintfmtLoop putch fuel fmt ap s) ∧
      vprintfmtLoop putch (fuel + 1) fmt ap s = vprintfmtLoop putch fuel fmt ap s
  | 0, _, _, _, _, hfuel => absurd hfuel (by omega)
  | fuel + 1, ⟨before, []⟩, ap, s, h0, _ => by cases h0
  | fuel + 1, ⟨before, c :: after⟩, ap, s, h0, hfuel => by
    have hlen : after.length + 8 ≤ fuel := by
      rw [List.length_cons] at hfuel
      omega
    by_cases hz : c = 0
    · subst hz
      exact ⟨by rw [vprintfmtLoop_end]; exact served_ok s, rfl⟩
    · have hafter : 0 ∈ after := by
        cases h0 with
        | head => exact absurd rfl hz
        | tail _ hmem => exact hmem
      by_cases hp : c = char '%'
      · subst hp
        obtain ⟨run, ch, rest, rfl, hrun, hch⟩ := exists_run hafter
        rw [vprintfmtLoop_escape, vprintfmtLoop_escape]
        by_cases hother : label ch = .other
        · -- the escape's own `%` is the only byte consumed
          rw [escape_other putch _ hrun hother, escape_other putch _ hrun hother, bind_map,
            bind_map]
          have ih := fun ap s => vprintfmtLoop_terminates fuel
            ⟨char '%' :: before, run ++ ch :: rest⟩ ap s hafter hlen
          exact ⟨served_bind (served_takeWords _ _) fun ap' _ => (ih ap' _).1,
            bind_congr fun ap' => (ih ap' _).2⟩
        · -- the conversion is consumed as well
          obtain ⟨r, hr, h1, h2⟩ := escape_conversion putch
            (sameNested_loop putch fuel (by omega)) hrun hch hother before rest ap s
          have hrest : 0 ∈ rest := zero_mem_of_conversion hrun hother hafter
          have ih := fun ap s => vprintfmtLoop_terminates fuel
            ⟨ch :: run.reverse ++ char '%' :: before, rest⟩ ap s hrest (by
              simp only [List.length_append, List.length_cons] at hlen ⊢
              omega)
          rw [h1, h2, bind_map, bind_map]
          exact ⟨served_bind hr fun r _ => (ih r.1 r.2).1, bind_congr fun r => (ih r.1 r.2).2⟩
      · rw [vprintfmtLoop_text putch _ hp hz, vprintfmtLoop_text putch _ hp hz]
        exact vprintfmtLoop_terminates fuel ⟨c :: before, after⟩ ap _ hafter hlen

/-! ## The formatter from a position on -/

/-- The formatter from a position of its format on. -/
def vprintfmtFrom (fmt : Cursor) (ap : List Arg) (s : σ) : Except Fault σ :=
  vprintfmtLoop putch (fmt.after.length + 8) fmt ap s

theorem vprintfmtLoop_eq_from {fmt : Cursor} (h0 : 0 ∈ fmt.after) {fuel : Nat}
    (hfuel : fmt.after.length + 8 ≤ fuel) (ap : List Arg) (s : σ) :
    vprintfmtLoop putch fuel fmt ap s = vprintfmtFrom putch fmt ap s := by
  obtain ⟨k, rfl⟩ := Nat.exists_eq_add_of_le hfuel
  induction k with
  | zero => rfl
  | succ k ih =>
    have hmore := (vprintfmtLoop_terminates putch (fmt.after.length + 8 + k) fmt ap s h0
      (by omega)).2
    exact hmore.trans (ih (by omega))

theorem vprintfmt_eq_from (fmt : CStr) (ap : List Arg) (s : σ) :
    vprintfmt putch fmt ap s = vprintfmtFrom putch fmt.start ap s :=
  vprintfmtLoop_eq_from putch (by simp [CStr.start]) (by simp [CStr.start]) ap s

/-- A run of the formatter ends normally or in `va_arg`. -/
theorem vprintfmt_served (fmt : CStr) (ap : List Arg) (s : σ) :
    Served (vprintfmt putch fmt ap s) :=
  (vprintfmtLoop_terminates putch _ fmt.start ap s (by simp [CStr.start])
    (by simp [CStr.start])).1

/-- Bytes that the formatter prints as they are. -/
def IsText (text : List Byte) : Prop := ∀ c ∈ text, c ≠ char '%' ∧ c ≠ 0

instance (text : List Byte) : Decidable (IsText text) :=
  inferInstanceAs (Decidable (∀ c ∈ text, c ≠ char '%' ∧ c ≠ 0))

/-- What the outer loop sends for ordinary text: unsigned bytes. -/
def plain (text : List Byte) : List Int := text.map fun c => (c.toNat : Int)

theorem isText_of_isRun {run : List Byte} (h : IsRun run) : IsText run := fun c hc =>
  ⟨ne_percent_of_again c (h c hc), ne_zero_of_again c (h c hc)⟩

theorem vprintfmtFrom_text {after : List Byte} (h0 : 0 ∈ after) (ap : List Arg) :
    ∀ (text before : List Byte) (s : σ), IsText text →
      vprintfmtFrom putch ⟨before, text ++ after⟩ ap s =
        vprintfmtFrom putch ⟨text.reverse ++ before, after⟩ ap (emit putch (plain text) s)
  | [], _, _, _ => rfl
  | c :: text, before, s, h => by
    obtain ⟨hc, htext⟩ := List.forall_mem_cons.mp h
    have hstep : vprintfmtFrom putch ⟨before, c :: (text ++ after)⟩ ap s =
        vprintfmtFrom putch ⟨c :: before, text ++ after⟩ ap (putch c.toNat s) :=
      vprintfmtLoop_text putch _ hc.1 hc.2 before _ ap s
    rw [List.cons_append, hstep, vprintfmtFrom_text h0 ap text _ _ htext, List.reverse_cons,
      List.append_assoc]
    rfl

/-- An unrecognized escape, as if its `%` were ordinary text. -/
theorem vprintfmtFrom_other {run rest : List Byte} {ch : Byte} (hrun : IsRun run)
    (hch : label ch = .other) (h0 : 0 ∈ ch :: rest) (before : List Byte) {vs : List Word}
    (hvs : run.count (char '*') = vs.length) (ap : List Arg) (s : σ) :
    vprintfmtFrom putch ⟨before, char '%' :: (run ++ ch :: rest)⟩ (vs.map .word ++ ap) s =
      vprintfmtFrom putch ⟨char '%' :: before, run ++ ch :: rest⟩ ap
        (putch (char '%').toInt s) := by
  rw [vprintfmtFrom, List.length_cons, Nat.add_right_comm, vprintfmtLoop_escape,
    escape_other putch _ hrun hch, hvs, takeWords_map, map_ok]
  exact vprintfmtLoop_eq_from putch (List.mem_append_right _ h0) (Nat.le_refl _) ap _

/-! ## Enough arguments -/

/-- `m` slots that hold 0: for every conversion the first of them is an argument it can take. -/
def zeros (m : Nat) : List Arg := List.replicate m (.word 0)

theorem zeros_add (k m : Nat) :
    zeros (k + m) = (List.replicate k (0 : Word)).map .word ++ zeros m := by
  rw [List.map_replicate, zeros, zeros, List.replicate_append_replicate]

/-- A number takes one slot or two. -/
theorem getint_zeros (m : Nat) (lflag : Int) :
    ∃ num k, m ≤ k ∧ getint (zeros (m + 2)) lflag = .ok (num, zeros k) := by
  rw [show zeros (m + 2) = .word 0 :: .word 0 :: zeros m from rfl, getint]
  split
  · exact ⟨_, m, Nat.le_refl m, rfl⟩
  · exact ⟨_, m + 1, Nat.le_succ m, rfl⟩

theorem getuint_zeros (m : Nat) (lflag : Int) :
    ∃ num k, m ≤ k ∧ getuint (zeros (m + 2)) lflag = .ok (num, zeros k) := by
  rw [show zeros (m + 2) = .word 0 :: .word 0 :: zeros m from rfl, getuint]
  split
  · exact ⟨_, m, Nat.le_refl m, rfl⟩
  · exact ⟨_, m + 1, Nat.le_succ m, rfl⟩

theorem convert_zeros (l : Label) (e : Spec) (m : Nat) (s : σ) :
    ∃ k s', m ≤ k ∧ convert putch l e (zeros (m + 2)) s = .ok (zeros k, s') := by
  cases l with
  | chr => exact ⟨m + 1, _, Nat.le_succ m, rfl⟩
  | str => exact ⟨m + 1, _, Nat.le_succ m, rfl⟩
  | ptr => exact ⟨m + 1, _, Nat.le_succ m, rfl⟩
  | dec =>
    obtain ⟨num, k, hk, hget⟩ := getint_zeros m e.lflag
    rw [convert, hget]
    by_cases hneg : num < 0
    · exact ⟨k, _, hk, if_pos hneg⟩
    · exact ⟨k, _, hk, if_neg hneg⟩
  | uns =>
    obtain ⟨num, k, hk, hget⟩ := getuint_zeros m e.lflag
    rw [convert, hget]
    exact ⟨k, _, hk, rfl⟩
  | hex =>
    obtain ⟨num, k, hk, hget⟩ := getuint_zeros m e.lflag
    rw [convert, hget]
    exact ⟨k, _, hk, rfl⟩
  | _ => exact ⟨m + 2, _, Nat.le_add_right m 2, rfl⟩

/-- A conversion takes one slot for each `*` and at most two for itself. -/
theorem escape_zeros {printfmt printfmt' : CStr → List Arg → σ → Except Fault σ}
    (hp : SameNested printfmt printfmt') {ch : Byte} {run : List Byte} (hrun : IsRun run)
    (hch : (label ch).again = false) (hconv : label ch ≠ .other) (before rest : List Byte)
    (m : Nat) (s : σ) :
    ∃ k s', m ≤ k ∧
      escape putch printfmt ⟨char '%' :: before, run ++ ch :: rest⟩
          (zeros (run.count (char '*') + (m + 2))) s =
        .ok (⟨ch :: run.reverse ++ char '%' :: before, rest⟩, zeros k, s') := by
  obtain ⟨e', h⟩ := reswitch_escape hrun hch (char '%' :: before) rest Spec.init
    (zeros (run.count (char '*') + (m + 2)))
  have hstars := takeWords_map (zeros (m + 2)) (List.replicate (run.count (char '*')) 0)
  rw [List.length_replicate, ← zeros_add] at hstars
  rw [hstars] at h
  unfold escape
  rw [h]
  simp only [map_ok, Bind.bind, Except.bind]
  cases hl : label ch with
  | other => exact absurd hl hconv
  | err =>
    obtain ⟨s', hprint, -⟩ := printError_same hp (0 : Word).toInt s
    have hone : vaArgInt (zeros (m + 2)) = .ok ((0 : Word).toInt, zeros (m + 1)) := rfl
    rw [hone]
    simp only [hprint]
    exact ⟨m + 1, s', Nat.le_succ m, rfl⟩
  | _ =>
    obtain ⟨k, s', hk, hconvert⟩ := convert_zeros putch (label ch) e' m s
    rw [hl] at hconvert
    simp only [hconvert]
    exact ⟨k, s', hk, rfl⟩

/-- Two slots for each byte are enough. -/
theorem vprintfmtFrom_zeros : ∀ (after before : List Byte) {m : Nat} (s : σ), 0 ∈ after →
    2 * after.length ≤ m → ∃ s', vprintfmtFrom putch ⟨before, after⟩ (zeros m) s = .ok s'
  | c :: after, before, m, s, h0, hm => by
    rw [List.length_cons] at hm
    by_cases hz : c = 0
    · subst hz
      exact ⟨s, vprintfmtLoop_end putch _ before after _ s⟩
    · have hafter : 0 ∈ after := (List.mem_cons.1 h0).resolve_left (Ne.symm hz)
      by_cases hp : c = char '%'
      · subst hp
        obtain ⟨run, ch, rest, rfl, hrun, hch⟩ := exists_run hafter
        have hcount : run.count (char '*') ≤ run.length := List.count_le_length
        rw [List.length_append, List.length_cons] at hm
        obtain ⟨n, rfl⟩ : ∃ n, m = run.count (char '*') + (n + 2) :=
          ⟨m - run.count (char '*') - 2, by omega⟩
        by_cases hother : label ch = .other
        · -- the `%` and the run are text
          have hrest : 0 ∈ ch :: rest := (List.mem_append.1 hafter).resolve_left fun hmem =>
            ne_zero_of_again _ (hrun _ hmem) rfl
          rw [zeros_add,
            vprintfmtFrom_other putch hrun hother hrest before (List.length_replicate).symm,
            vprintfmtFrom_text putch hrest _ run _ _ (isText_of_isRun hrun)]
          exact vprintfmtFrom_zeros (ch :: rest) _ _ hrest (by rw [List.length_cons]; omega)
        · have hrest : 0 ∈ rest := zero_mem_of_conversion hrun hother hafter
          obtain ⟨k, s', hk, hescape⟩ := escape_zeros putch
            (sameNested_loop putch _ (Nat.le_add_left 8 _)) hrun hch hother before rest n s
          rw [vprintfmtFrom, List.length_cons, Nat.add_right_comm, vprintfmtLoop_escape, hescape]
          show ∃ s'', vprintfmtLoop putch ((run ++ ch :: rest).length + 8)
            ⟨ch :: run.reverse ++ char '%' :: before, rest⟩ (zeros k) s' = .ok s''
          have hfuel : rest.length + 8 ≤ (run ++ ch :: rest).length + 8 := by
            rw [List.length_append, List.length_cons]
            omega
          rw [vprintfmtLoop_eq_from putch hrest hfuel]
          exact vprintfmtFrom_zeros rest _ _ hrest (by omega)
      · have hstep : vprintfmtFrom putch ⟨before, c :: after⟩ (zeros m) s =
            vprintfmtFrom putch ⟨c :: before, after⟩ (zeros m) (putch c.toNat s) :=
          vprintfmtLoop_text putch _ hp hz before after _ s
        rw [hstep]
        exact vprintfmtFrom_zeros after _ _ hafter (by omega)
termination_by after => after.length

/-- Unless an argument is missing, a run has an output. -/
theorem output_total {fmt : CStr} {ap : List Arg} (h : output fmt ap ≠ .error .badArg) :
    ∃ t, output fmt ap = .ok t := by
  cases hr : output fmt ap with
  | ok t => exact ⟨t, rfl⟩
  | error f =>
    cases vprintfmt_served collect fmt ap [] f hr
    exact absurd hr h

end Loop

/-- **Scanning a format is safe, ends, and falls back to literal output.**  It can only fail in
`va_arg`, and for every format there are arguments with which it does not. -/
theorem format_scan {σ : Type} (putch : Int → σ → σ) :
    (∀ (fmt : CStr) (ap : List Arg) (s : σ),
      ((∃ s', vprintfmt putch fmt ap s = .ok s') ∨
        vprintfmt putch fmt ap s = .error .badArg) ∧
      vprintfmt putch fmt ap s = vprintfmtFrom putch fmt.start ap s) ∧
    (∀ fmt : CStr, ∃ ap, ∀ s, ∃ s', vprintfmt putch fmt ap s = .ok s') ∧
    ∀ (before run rest : List Byte) (ch : Byte) (vs : List Word) (ap : List Arg) (s : σ),
      IsRun run → label ch = .other → 0 ∈ ch :: rest → run.count (char '*') = vs.length →
      vprintfmtFrom putch ⟨before, char '%' :: (run ++ ch :: rest)⟩ (vs.map .word ++ ap) s =
        vprintfmtFrom putch ⟨char '%' :: before, run ++ ch :: rest⟩ ap
          (putch (char '%').toInt s) ∧
      ∀ text after : List Byte, ch :: rest = text ++ after → IsText text → 0 ∈ after →
        vprintfmtFrom putch ⟨before, char '%' :: (run ++ ch :: rest)⟩ (vs.map .word ++ ap) s =
          vprintfmtFrom putch ⟨(char '%' :: (run ++ text)).reverse ++ before, after⟩ ap
            (emit putch (plain (char '%' :: (run ++ text))) s) := by
  refine ⟨?_, ?_, ?_⟩
  · intro fmt ap s
    refine ⟨?_, vprintfmt_eq_from putch fmt ap s⟩
    cases hr : vprintfmt putch fmt ap s with
    | ok s' => exact Or.inl ⟨s', rfl⟩
    | error f => exact Or.inr (congrArg _ (vprintfmt_served putch fmt ap s f hr))
  · intro fmt
    refine ⟨zeros (2 * fmt.start.after.length), fun s => ?_⟩
    rw [vprintfmt_eq_from]
    exact vprintfmtFrom_zeros putch _ [] s (by simp) (Nat.le_refl _)
  · intro before run rest ch vs ap s hrun hch h0 hvs
    have hother := vprintfmtFrom_other putch hrun hch h0 before hvs ap s
    refine ⟨hother, fun text after heq htext hafter => ?_⟩
    have hplain : IsText (run ++ text) :=
      List.forall_mem_append.mpr ⟨isText_of_isRun hrun, htext⟩
    rw [hother, heq, ← List.append_assoc, vprintfmtFrom_text putch hafter ap _ _ _ hplain,
      List.reverse_cons, List.append_assoc _ _ before]
    rfl

/-- `%-*q5` with one argument for the `*`. -/
theorem format_scan_unknown :
    output (CStr.ofString "%-*q5") [.word 7] = .ok (plain (CStr.ofString "%-*q5").bytes) := by
  have hscan := (format_scan collect).2.2 [] [char '-', char '*'] [char '5', 0] (char 'q') [7] [] []
    (by decide) (by decide) (by decide) (by decide)
  have htext := hscan.2 [char 'q', char '5'] [0] rfl (by decide) (by decide)
  exact ((format_scan collect).1 _ _ _).2.trans htext

end Jos
