import JosKernel.Format.Printfmt

/-!
# The formatter and its sink

`vprintfmt` treats its sink as a black box: it decides what to print from the format and the
arguments alone.  So two sinks that are related by a map of their states receive the same
characters, and every run is a fold of the sink over one list, `output`.

Principal results: `vprintfmtLoop_hom` — the formatter commutes with maps of sinks;
`vprintfmt_eq_output` — a run with any sink is a fold over `output fmt ap`.
-/

set_option autoImplicit false

namespace Jos

/-! ## Maps of sinks -/

section Hom

variable {σ τ : Type} {putch : Int → σ → σ} {putch' : Int → τ → τ} {h : σ → τ}

theorem pad_hom (hh : ∀ c s, h (putch c s) = putch' c (h s)) (c : Int) :
    ∀ (k : Nat) (s : σ), h (pad putch c k s) = pad putch' c k (h s)
  | 0, _ => rfl
  | k + 1, s => by rw [pad, pad, pad_hom hh c k, hh]

theorem printnum_hom (hh : ∀ c s, h (putch c s) = putch' c (h s)) (num base : Nat)
    (hbase : 2 ≤ base) (width padc : Int) (s : σ) :
    h (printnum putch num base hbase width padc s) =
      printnum putch' num base hbase width padc (h s) := by
  induction num using Nat.strongRecOn generalizing width with
  | _ num ih =>
    by_cases hle : base ≤ num
    · rw [printnum_of_le _ hle, printnum_of_le _ hle, hh,
        ih (num / base) (Nat.div_lt_self (by omega) (by omega))]
    · rw [printnum_of_lt _ (by omega), printnum_of_lt _ (by omega), hh, pad_hom hh]

theorem putString_hom (hh : ∀ c s, h (putch c s) = putch' c (h s)) (altflag : Bool) :
    ∀ (p : List Byte) (precision width : Int) (s : σ),
      putString putch' altflag p precision width (h s) =
        ((putString putch altflag p precision width s).1,
          h (putString putch altflag p precision width s).2)
  | [], _, _, _ => rfl
  | c :: p, precision, width, s => by
    unfold putString
    simp only
    split
    · rw [← putString_hom hh altflag p]
      congr 1
      split <;> rw [hh]
    · rfl

theorem padString_hom (hh : ∀ c s, h (putch c s) = putch' c (h s)) (e : Spec) (p : CStr) (s : σ) :
    padString putch' e p (h s) = ((padString putch e p s).1, h (padString putch e p s).2) := by
  unfold padString
  split
  · simp only [pad_hom hh]
  · rfl

theorem printString_hom (hh : ∀ c s, h (putch c s) = putch' c (h s)) (e : Spec) (p : CStr)
    (s : σ) : h (printString putch e p s) = printString putch' e p (h s) := by
  unfold printString
  simp only [padString_hom hh, putString_hom hh, pad_hom hh]

theorem convert_hom (hh : ∀ c s, h (putch c s) = putch' c (h s)) (l : Label) (e : Spec)
    (ap : List Arg) (s : σ) :
    (convert putch l e ap s).map (fun r => (r.1, h r.2)) = convert putch' l e ap (h s) := by
  unfold convert
  cases l
  case chr =>
    simp only [map_bind, map_ok, hh]
  case str =>
    simp only [map_bind, map_ok, printString_hom hh]
  case dec =>
    simp only [map_bind, apply_ite (Except.map _), map_ok, printnum_hom hh, hh]
  case uns =>
    simp only [map_bind, map_ok, printnum_hom hh]
  case ptr =>
    simp only [map_bind, map_ok, printnum_hom hh, hh]
  case hex =>
    simp only [map_bind, map_ok, printnum_hom hh]
  all_goals simp only [map_ok, hh]

theorem printError_hom {printfmt : CStr → List Arg → σ → Except Fault σ}
    {printfmt' : CStr → List Arg → τ → Except Fault τ}
    (hp : ∀ fmt ap s, (printfmt fmt ap s).map h = printfmt' fmt ap (h s)) (err : Int) (s : σ) :
    (printError printfmt err s).map h = printError printfmt' err (h s) := by
  unfold printError
  simp only
  split <;> exact hp _ _ _

theorem escape_hom (hh : ∀ c s, h (putch c s) = putch' c (h s))
    {printfmt : CStr → List Arg → σ → Except Fault σ}
    {printfmt' : CStr → List Arg → τ → Except Fault τ}
    (hp : ∀ fmt ap s, (printfmt fmt ap s).map h = printfmt' fmt ap (h s)) (fmt : Cursor)
    (ap : List Arg) (s : σ) :
    (escape putch printfmt fmt ap s).map (fun r => (r.1, r.2.1, h r.2.2)) =
      escape putch' printfmt' fmt ap (h s) := by
  unfold escape
  rw [map_bind]
  congr 1
  funext ⟨ch, fmt, e, ap⟩
  simp only
  split
  · rw [map_bind]
    congr 1
    funext ⟨err, ap⟩
    rw [map_bind, ← printError_hom hp, bind_map]
    rfl
  · rw [map_bind]
    congr 1
    funext fmt
    rw [map_ok, hh]
  · rw [map_bind, ← convert_hom hh, bind_map]
    rfl

/-- **The formatter commutes with maps of sinks.** -/
theorem vprintfmtLoop_hom (hh : ∀ c s, h (putch c s) = putch' c (h s)) :
    ∀ (fuel : Nat) (fmt : Cursor) (ap : List Arg) (s : σ),
      (vprintfmtLoop putch fuel fmt ap s).map h = vprintfmtLoop putch' fuel fmt ap (h s)
  | 0, _, _, _ => rfl
  | fuel + 1, fmt, ap, s => by
    have ih := vprintfmtLoop_hom hh fuel
    rw [vprintfmtLoop_succ, vprintfmtLoop_succ, map_bind]
    congr 1
    funext ⟨ch, fmt⟩
    simp only
    split
    · split
      · rfl
      · rw [ih, hh]
    · -- the nested call of `%e` runs on the same budget
      rw [map_bind, ← escape_hom hh (fun fmt ap s => ih fmt.start ap s), bind_map]
      congr 1
      funext ⟨fmt, ap, s⟩
      exact ih fmt ap s

end Hom

/-! ## The output of a run -/

/-- The sink that collects the characters. -/
def collect (c : Int) (t : List Int) : List Int := t ++ [c]

/-- Send a list of characters to a sink. -/
def emit {σ : Type} (putch : Int → σ → σ) (t : List Int) (s : σ) : σ :=
  t.foldl (fun s c => putch c s) s

/-- The characters that `vprintfmt` sends to its `putch`. -/
def output (fmt : CStr) (ap : List Arg) : Except Fault (List Int) := vprintfmt collect fmt ap []

variable {σ : Type} (putch : Int → σ → σ)

@[simp] theorem emit_nil (s : σ) : emit putch [] s = s := rfl

@[simp] theorem emit_cons (c : Int) (t : List Int) (s : σ) :
    emit putch (c :: t) s = emit putch t (putch c s) := rfl

theorem emit_append (t u : List Int) (s : σ) :
    emit putch (t ++ u) s = emit putch u (emit putch t s) := List.foldl_append

/-- **Every sink receives the same characters**: a run is a fold over the output. -/
theorem vprintfmt_eq_output (fmt : CStr) (ap : List Arg) (s : σ) :
    vprintfmt putch fmt ap s = (output fmt ap).map fun t => emit putch t s := by
  have hh : ∀ (c : Int) (t : List Int), emit putch (collect c t) s = putch c (emit putch t s) :=
    fun c t => emit_append putch t [c] s
  exact (vprintfmtLoop_hom hh _ fmt.start ap []).symm

theorem vprintfmt_of_output {fmt : CStr} {ap : List Arg} {t : List Int} (h : output fmt ap = .ok t)
    (s : σ) : vprintfmt putch fmt ap s = .ok (emit putch t s) := by
  rw [vprintfmt_eq_output, h, map_ok]

end Jos
