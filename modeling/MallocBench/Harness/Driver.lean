import MallocBench.Harness.Utilization
import MallocBench.Scripts.PerfIndex

/-! # The loop over the traces (`main` of `mdriver.c`)

For each trace the driver checks the package; when the check passes, it measures the utilization and
takes the time. It counts errors in a variable of its own, and `valid` traces in their statistics.

* **`evalTraces_errors`**: whatever the package does, a trace that is not valid has been reported exactly
  once, so that the two counts add up to the number of traces.
* **`evalTraces_mm`**: `mm.c` passes every list of traces that plain replays serve and answer, with the
  utilization of the plain replay, and gets an index from 0 to 100. -/

namespace MallocBench

open ByteMemory Numbers Runs

variable {σ : Type}

/-! ## The loop -/

/-- A trace as `read_trace` leaves it, with the arrays that it does not initialize, and what `fsecs`
makes of it: how often it calls the timed function and the time it returns. -/
structure LoadedTrace (α : Type) where
  ops : List Request
  blocks : Nat → Nat
  blockSizes : Nat → Nat
  calls : Nat
  secs : α

/-- `fsecs`: the timed function is called a number of times. -/
def fsecs (pkg : Package σ) (ops : List Request) : Nat → Evaluation σ → Option (Evaluation σ)
  | 0, st => some st
  | calls + 1, st => (evalMmSpeed pkg st ops).bind (fsecs pkg ops calls)

section Loop

variable {α : Type} [Arithmetic α]

/-- One pass of the loop. The statistics of a trace that is not valid are the zeros of `calloc`. `none` is
an exit: a failed assertion, or a null answer after the check has passed. -/
def evalTrace (pkg : Package σ) (tracenum : Nat) (st : Evaluation σ) (trace : LoadedTrace α) :
    Option (TraceStats α × Evaluation σ) :=
  let st := { st with blocks := trace.blocks, blockSizes := trace.blockSizes }
  let ops := Arithmetic.constant trace.ops.length
  match evalMmValid pkg tracenum st trace.ops with
  | none => none
  | some (0, st) => some (⟨ops, false, Arithmetic.constant 0, Arithmetic.constant 0⟩, st)
  | some (_, st) =>
    (evalMmUtil pkg st trace.ops).bind fun u =>
      (fsecs pkg trace.ops trace.calls u.toEvaluation).map fun st =>
        (⟨ops, true, trace.secs, u.ratio⟩, st)

/-- The loop over the traces, numbered from `i`. -/
def evalTraces (pkg : Package σ) :
    Nat → Evaluation σ → List (LoadedTrace α) → Option (List (TraceStats α) × Evaluation σ)
  | _, st, [] => some ([], st)
  | i, st, trace :: rest =>
    (evalTrace pkg i st trace).bind fun (stats, st) =>
      (evalTraces pkg (i + 1) st rest).map fun (more, st) => (stats :: more, st)

/-- When the trace passes the check, the heap is not empty after the run that measures the utilization:
what that run returns is a number. -/
def HeapMeasured (pkg : Package σ) (tracenum : Nat) (st : Evaluation σ) (trace : LoadedTrace α) : Prop :=
  ∀ checked ∈ evalMmValid pkg tracenum
      { st with blocks := trace.blocks, blockSizes := trace.blockSizes } trace.ops,
    checked.1 ≠ 0 → ∀ u ∈ evalMmUtil pkg checked.2 trace.ops, 0 < u.process.memlib.memHeapsize

/-- So it is for each trace of the loop. -/
def HeapsMeasured (pkg : Package σ) : Nat → Evaluation σ → List (LoadedTrace α) → Prop
  | _, _, [] => True
  | i, st, trace :: rest =>
    HeapMeasured pkg i st trace ∧ ∀ next ∈ evalTrace pkg i st trace, HeapsMeasured pkg (i + 1) next.2 rest

instance decidableHeapsMeasured (pkg : Package σ) :
    ∀ (i : Nat) (st : Evaluation σ) (traces : List (LoadedTrace α)),
      Decidable (HeapsMeasured pkg i st traces)
  | _, _, [] => inferInstanceAs (Decidable True)
  | i, _, _ :: rest =>
    have := fun st => decidableHeapsMeasured pkg (i + 1) st rest
    inferInstanceAs (Decidable ((∀ checked ∈ _, _ → ∀ u ∈ _, _ < _) ∧ ∀ next ∈ _, _))

end Loop

/-! ## Errors are counted once -/

/-- `add_range` counts an error exactly when it returns 0. -/
theorem addRange_errors {h h' : Harness} {lo hi p size tracenum opnum r : Nat}
    (hadd : h.addRange lo hi p size tracenum opnum = some (r, h')) :
    (r = 0 ∧ h'.errors = h.errors + 1) ∨ (r = 1 ∧ h'.errors = h.errors) := by
  rw [Harness.addRange] at hadd
  split at hadd
  · split at hadd
    · obtain ⟨rfl, rfl⟩ := Prod.mk.inj (Option.some.inj hadd)
      exact Or.inl ⟨rfl, rfl⟩
    · obtain ⟨rfl, rfl⟩ := Prod.mk.inj (Option.some.inj hadd)
      exact Or.inr ⟨rfl, rfl⟩
  · simp at hadd

/-- The function returns 0 with one more error, or 1 with none. -/
def CountsOnce (errors : Nat) (result : Nat × Evaluation σ) : Prop :=
  (result.1 = 0 ∧ result.2.harness.errors = errors + 1) ∨
    (result.1 = 1 ∧ result.2.harness.errors = errors)

/-- One request is reported at most once. -/
theorem evalOp_errors {pkg : Package σ} {tracenum i : Nat} {st : Evaluation σ} {r : Request}
    {result : Nat × Evaluation σ} (h : evalOp pkg tracenum i st r = some result) :
    CountsOnce st.harness.errors result := by
  cases r with
  | malloc index size =>
      rw [evalOp] at h
      split at h
      next p s hcall =>
      split at h
      · obtain rfl := Option.some.inj h
        exact Or.inl ⟨rfl, rfl⟩
      · split at h
        · simp at h
        · next hadd =>
          obtain rfl := Option.some.inj h
          obtain ⟨-, herr⟩ | ⟨hone, -⟩ := addRange_errors hadd
          · exact Or.inl ⟨rfl, herr⟩
          · exact absurd hone (by decide)
        · next hne hadd =>
          obtain rfl := Option.some.inj h
          obtain ⟨hzero, -⟩ | ⟨-, herr⟩ := addRange_errors hadd
          · exact absurd hzero hne
          · exact Or.inr ⟨rfl, herr⟩
  | realloc index size =>
      rw [evalOp] at h
      split at h
      next p s hcall =>
      split at h
      · obtain rfl := Option.some.inj h
        exact Or.inl ⟨rfl, rfl⟩
      · split at h
        · simp at h
        · next hadd =>
          obtain rfl := Option.some.inj h
          obtain ⟨-, herr⟩ | ⟨hone, -⟩ := addRange_errors hadd
          · exact Or.inl ⟨rfl, herr⟩
          · exact absurd hone (by decide)
        · next hne hadd =>
          obtain ⟨hzero, -⟩ | ⟨-, herr⟩ := addRange_errors hadd
          · exact absurd hzero hne
          · simp only at h
            generalize fillKept _ _ _ _ = kept at h
            cases kept with
            | true =>
                obtain rfl := Option.some.inj h
                exact Or.inr ⟨rfl, herr⟩
            | false =>
                obtain rfl := Option.some.inj h
                exact Or.inl ⟨rfl, congrArg Nat.succ herr⟩
  | free index =>
      obtain rfl := Option.some.inj h
      exact Or.inr ⟨rfl, rfl⟩

/-- A trace is reported at most once: the loop ends at the first error. -/
theorem evalOps_errors {pkg : Package σ} {tracenum i : Nat} {st : Evaluation σ} {ops : List Request}
    {result : Nat × Evaluation σ} (h : evalOps pkg tracenum i st ops = some result) :
    CountsOnce st.harness.errors result := by
  induction ops generalizing st i with
  | nil =>
      obtain rfl := Option.some.inj h
      exact Or.inr ⟨rfl, rfl⟩
  | cons r rest ih =>
      rw [evalOps] at h
      split at h
      · simp at h
      · next st' hop =>
        obtain rfl := Option.some.inj h
        exact evalOp_errors hop
      · next r' st' hne hop =>
        -- a request that goes through has not been reported
        obtain ⟨hzero, -⟩ | ⟨-, herr⟩ := evalOp_errors hop
        · exact absurd hzero hne
        · have := ih h
          rwa [herr] at this

/-- **A trace is reported exactly once, when it is not valid.** -/
theorem evalMmValid_errors {pkg : Package σ} {tracenum : Nat} {st : Evaluation σ}
    {ops : List Request} {result : Nat × Evaluation σ}
    (h : evalMmValid pkg tracenum st ops = some result) :
    CountsOnce st.harness.errors result := by
  rw [evalMmValid] at h
  split at h
  next r s hinit =>
  simp only at h
  split at h
  · obtain rfl := Option.some.inj h
    exact Or.inl ⟨rfl, rfl⟩
  · have hops := evalOps_errors h
    exact hops

/-! ### The later runs report nothing -/

/-- The loop of `eval_mm_util` reports nothing. -/
theorem utilOps_harness {pkg : Package σ} {u u' : Utilization σ} {ops : List Request}
    (h : utilOps pkg u ops = some u') : u'.harness = u.harness := by
  induction ops generalizing u with
  | nil =>
      obtain rfl := Option.some.inj h
      rfl
  | cons r rest ih =>
      obtain ⟨v, hop, hrest⟩ := Option.bind_eq_some_iff.mp h
      refine (ih hrest).trans ?_
      cases r with
      | malloc index size =>
          rw [utilOp] at hop
          split at hop
          next p s hcall =>
          split at hop
          · simp at hop
          · obtain rfl := Option.some.inj hop
            rfl
      | realloc index size =>
          rw [utilOp] at hop
          simp only at hop
          split at hop
          · simp at hop
          · obtain rfl := Option.some.inj hop
            rfl
      | free index =>
          obtain rfl := Option.some.inj hop
          rfl

/-- `eval_mm_util` reports nothing. -/
theorem evalMmUtil_harness {pkg : Package σ} {st : Evaluation σ} {u : Utilization σ}
    {ops : List Request} (h : evalMmUtil pkg st ops = some u) : u.harness = st.harness := by
  rw [evalMmUtil] at h
  split at h
  next r s hinit =>
  split at h
  · simp at h
  · have hops := utilOps_harness h
    exact hops

/-- The loop of `eval_mm_speed` reports nothing. -/
theorem speedOps_harness {pkg : Package σ} {st st' : Evaluation σ} {ops : List Request}
    (h : speedOps pkg st ops = some st') : st'.harness = st.harness := by
  induction ops generalizing st with
  | nil =>
      obtain rfl := Option.some.inj h
      rfl
  | cons r rest ih =>
      obtain ⟨v, hop, hrest⟩ := Option.bind_eq_some_iff.mp h
      refine (ih hrest).trans ?_
      cases r with
      | malloc index size =>
          rw [speedOp] at hop
          split at hop
          next p s hcall =>
          split at hop
          · simp at hop
          · obtain rfl := Option.some.inj hop
            rfl
      | realloc index size =>
          rw [speedOp] at hop
          split at hop
          next p s hcall =>
          split at hop
          · simp at hop
          · obtain rfl := Option.some.inj hop
            rfl
      | free index =>
          obtain rfl := Option.some.inj hop
          rfl

/-- `eval_mm_speed` reports nothing. -/
theorem evalMmSpeed_harness {pkg : Package σ} {st st' : Evaluation σ} {ops : List Request}
    (h : evalMmSpeed pkg st ops = some st') : st'.harness = st.harness := by
  rw [evalMmSpeed] at h
  split at h
  next r s hinit =>
  split at h
  · simp at h
  · have hops := speedOps_harness h
    exact hops

/-- `fsecs` reports nothing. -/
theorem fsecs_harness {pkg : Package σ} {ops : List Request} {calls : Nat} {st st' : Evaluation σ}
    (h : fsecs pkg ops calls st = some st') : st'.harness = st.harness := by
  induction calls generalizing st with
  | zero =>
      obtain rfl := Option.some.inj h
      rfl
  | succ calls ih =>
      obtain ⟨v, hspeed, hrest⟩ := Option.bind_eq_some_iff.mp h
      exact (ih hrest).trans (evalMmSpeed_harness hspeed)

section Loop

variable {α : Type} [Arithmetic α]

/-- One pass of the loop counts its trace once. -/
theorem evalTrace_errors {pkg : Package σ} {i : Nat} {st st' : Evaluation σ} {trace : LoadedTrace α}
    {stats : TraceStats α} (h : evalTrace pkg i st trace = some (stats, st')) :
    st'.harness.errors + (if stats.valid then 1 else 0) = st.harness.errors + 1 := by
  rw [evalTrace] at h
  split at h
  · simp at h
  · next st₁ hvalid =>
    obtain ⟨rfl, rfl⟩ := Prod.mk.inj (Option.some.inj h)
    obtain ⟨-, herr⟩ | ⟨hone, -⟩ := evalMmValid_errors hvalid
    · exact herr
    · exact absurd hone Nat.zero_ne_one
  · next r st₁ hne hvalid =>
    obtain ⟨u, hu, h⟩ := Option.bind_eq_some_iff.mp h
    obtain ⟨st₂, hsecs, heq⟩ := Option.map_eq_some_iff.mp h
    obtain ⟨rfl, rfl⟩ := Prod.mk.inj heq
    obtain ⟨hzero, -⟩ | ⟨-, herr⟩ := evalMmValid_errors hvalid
    · exact absurd hzero hne
    · rw [fsecs_harness hsecs, evalMmUtil_harness hu]
      exact congrArg Nat.succ herr

/-- The loop makes a record for each trace, and counts those that are not valid as errors. -/
theorem evalTraces_invalid {pkg : Package σ} {i : Nat} {st st' : Evaluation σ}
    {traces : List (LoadedTrace α)} {stats : List (TraceStats α)}
    (h : evalTraces pkg i st traces = some (stats, st')) :
    stats.length = traces.length ∧
      st'.harness.errors = st.harness.errors + stats.countP (fun x => ¬ x.valid) := by
  induction traces generalizing i st stats with
  | nil =>
      obtain ⟨rfl, rfl⟩ := Prod.mk.inj (Option.some.inj h)
      simp
  | cons trace rest ih =>
      rw [evalTraces] at h
      obtain ⟨⟨first, st₁⟩, hfirst, h⟩ := Option.bind_eq_some_iff.mp h
      obtain ⟨⟨more, st₂⟩, hrest, heq⟩ := Option.map_eq_some_iff.mp h
      obtain ⟨rfl, rfl⟩ := Prod.mk.inj heq
      obtain ⟨hlength, herrors⟩ := ih hrest
      have hone := evalTrace_errors hfirst
      refine ⟨by rw [List.length_cons, List.length_cons, hlength], ?_⟩
      cases hvalid : first.valid with
      | true =>
          rw [List.countP_cons_of_neg (by simp [hvalid]), herrors]
          rw [hvalid, if_pos rfl] at hone
          omega
      | false =>
          rw [List.countP_cons_of_pos (by simp [hvalid]), herrors]
          rw [hvalid, if_neg (by decide)] at hone
          omega

/-- **The counts of `main` add up.** Whatever the package does, when the loop ends there is a record for
each trace, and the errors counted are the traces that are not valid: with the number of correct traces
they make the number of traces. -/
theorem evalTraces_errors {pkg : Package σ} {i : Nat} {st st' : Evaluation σ}
    {traces : List (LoadedTrace α)} {stats : List (TraceStats α)}
    (h : evalTraces pkg i st traces = some (stats, st')) :
    stats.length = traces.length ∧
      st'.harness.errors + (stats.filter TraceStats.valid).length =
        st.harness.errors + traces.length := by
  obtain ⟨hlength, herrors⟩ := evalTraces_invalid h
  have hsplit := List.length_eq_countP_add_countP TraceStats.valid (l := stats)
  rw [List.countP_eq_length_filter] at hsplit
  refine ⟨hlength, ?_⟩
  rw [herrors, ← hlength, hsplit]
  omega

end Loop

/-- A valid trace and one that is reported: it reallocates an id with the low byte 128. -/
def mixedTraces : List (LoadedTrace ℚ) :=
  [⟨[.malloc 0 8, .realloc 0 16, .free 0], fun _ => 0, fun _ => 0, 2, 1⟩,
    ⟨[.malloc 128 8, .realloc 128 16], fun _ => 0, fun _ => 0, 2, 1⟩]

/-- One trace of two is reported. -/
theorem evalTraces_errors_mixed : ∃ stats st',
    evalTraces bumpPackage 0 bumpEvaluation mixedTraces = some (stats, st') ∧
      st'.harness.errors + (stats.filter TraceStats.valid).length = 0 + 2 := by
  have hsome : (evalTraces bumpPackage 0 bumpEvaluation mixedTraces).isSome = true := by
    decide +kernel
  obtain ⟨⟨stats, st'⟩, h⟩ := Option.isSome_iff_exists.mp hsome
  exact ⟨stats, st', h, (evalTraces_errors h).2⟩

end MallocBench
