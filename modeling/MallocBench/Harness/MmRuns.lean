import MallocBench.Harness.Driver

/-! # `mm.c` through the whole driver

All three runs of the driver call `mm.c` with the requests of the trace, each from a fresh heap over the
memory that the one before has left. What they get back depends on the requests alone, so a plain replay
tells what they find.

* **`mmPackage_contract`**: it honours the malloc contract.
* **`evalMmUtil_mm`**: the utilization is the high water mark of the trace over the heap of the plain
  replay.
* **`evalTraces_mm`**: `mm.c` passes every list of traces that plain replays serve and answer, and its
  index is from 0 to 100. -/

namespace MallocBench

open ByteMemory Numbers Runs

/-! ## The break -/

/-- `extend_heap` moves the break upwards only. -/
theorem extendHeap_memBrk_le (h : Heap) (words : Nat) :
    h.memBrk ≤ (extendHeap h words).2.memBrk := by
  rw [extendHeap]
  cases hs : h.memSbrk (toInt32 (extendSize words)) with
  | none => rw [← extendSize, hs]
  | some r =>
      obtain ⟨bp, s⟩ := r
      have hle := Memlib.memSbrk_memBrk_le hs
      rw [← extendSize, hs]
      exact hle

/-- `mm_malloc` never moves the break down. -/
theorem mmMalloc_memBrk_le {h h' : Heap} {size : Nat} {p : Option Nat}
    (hm : mmMalloc h size = some (p, h')) : h.memBrk ≤ h'.memBrk := by
  rw [mmMalloc] at hm
  split at hm
  · obtain ⟨-, rfl⟩ := Prod.mk.inj (Option.some.inj hm)
    exact le_rfl
  · simp only at hm
    split at hm
    · simp at hm
    · obtain ⟨-, rfl⟩ := Prod.mk.inj (Option.some.inj hm)
      exact (h.setMem_memBrk _).ge
    · have hext := extendHeap_memBrk_le h (max (adjustedSize size) chunksize / wsize)
      split at hm
      · next heq =>
        obtain ⟨-, rfl⟩ := Prod.mk.inj (Option.some.inj hm)
        rwa [heq] at hext
      · next heq =>
        obtain ⟨-, rfl⟩ := Prod.mk.inj (Option.some.inj hm)
        rw [heq] at hext
        rw [Heap.setMem_memBrk]
        exact hext

/-- Neither does `mm_realloc`. -/
theorem mmRealloc_memBrk_le {h h' : Heap} {ptr size : Nat} {p : Option Nat}
    (hm : mmRealloc h ptr size = some (p, h')) : h.memBrk ≤ h'.memBrk := by
  rw [mmRealloc] at hm
  split at hm
  · simp at hm
  · next heq =>
    obtain ⟨-, rfl⟩ := Prod.mk.inj (Option.some.inj hm)
    exact mmMalloc_memBrk_le heq
  · next heq =>
    obtain ⟨-, rfl⟩ := Prod.mk.inj (Option.some.inj hm)
    have hle := mmMalloc_memBrk_le heq
    exact hle

/-- **`mm.c` moves the break upwards only**, and the heap keeps its start. -/
theorem mmPackage_sbrkOnly : mmPackage.SbrkOnly where
  init s := (mmInit_layout (s := s.memlib.memResetBrk) rfl).2.2
  malloc size s := by
    rcases hm : mmMalloc s.heap size with _ | ⟨p, h⟩
    · simp [mmPackage, hm, answer]
    · simp only [mmPackage, hm, answer]
      exact ⟨mmMalloc_memStartBrk hm, mmMalloc_memBrk_le hm⟩
  realloc ptr size s := by
    rcases hm : mmRealloc s.heap ptr size with _ | ⟨p, h⟩
    · simp [mmPackage, hm, answer]
    · simp only [mmPackage, hm, answer]
      exact ⟨mmRealloc_memStartBrk hm, mmRealloc_memBrk_le hm⟩
  free ptr s := ⟨rfl, le_rfl⟩

/-- The package that only serves some requests moves the break like `mm.c`. -/
theorem servedPackage_sbrkOnly : servedPackage.SbrkOnly where
  init := mmPackage_sbrkOnly.init
  malloc size s := by
    simp only [servedPackage]
    split
    · exact mmPackage_sbrkOnly.malloc size s
    · exact ⟨rfl, le_rfl⟩
  realloc ptr size s := by
    simp only [servedPackage]
    split
    · exact mmPackage_sbrkOnly.realloc ptr size s
    · exact ⟨rfl, le_rfl⟩
  free := mmPackage_sbrkOnly.free

/-- **`mm.c` is a malloc package.** With the heap at a multiple of 8 it honours the contract in every
session whose requests the heap serves, whatever the client writes into its payloads, and it never moves
the start of the heap or moves the break down. -/
theorem mmPackage_contract (start : Process Nat) (halign : 8 ∣ start.memlib.memStartBrk) :
    Contract servedPackage start ∧ mmPackage.Extends servedPackage ∧ mmPackage.SbrkOnly :=
  ⟨servedPackage_contract start halign, mmPackage_extends, mmPackage_sbrkOnly⟩

/-- On a heap in blank memory. -/
theorem mmPackage_contract_blank :
    Contract servedPackage ⟨0, blankMemlib⟩ ∧ mmPackage.Extends servedPackage ∧ mmPackage.SbrkOnly :=
  mmPackage_contract _ (by decide)

section Start

variable {σ : Type} {pkg : Package σ}

/-- A request leaves the start of the heap. -/
theorem evalOp_memStartBrk (hbrk : pkg.SbrkOnly) {tracenum i : Nat} {st : Evaluation σ} {r : Request}
    {result : Nat × Evaluation σ} (h : evalOp pkg tracenum i st r = some result) :
    result.2.process.memlib.memStartBrk = st.process.memlib.memStartBrk := by
  cases r with
  | malloc index size =>
      have hcall := (hbrk.malloc size st.process).1
      rw [evalOp] at h
      split at h
      next p s heq =>
      rw [heq] at hcall
      split at h
      · obtain rfl := Option.some.inj h
        exact hcall
      · split at h
        · simp at h
        · obtain rfl := Option.some.inj h
          exact hcall
        · obtain rfl := Option.some.inj h
          exact hcall
  | realloc index size =>
      have hcall := (hbrk.realloc (st.blocks index) size st.process).1
      rw [evalOp] at h
      split at h
      next p s heq =>
      rw [heq] at hcall
      split at h
      · obtain rfl := Option.some.inj h
        exact hcall
      · split at h
        · simp at h
        · obtain rfl := Option.some.inj h
          exact hcall
        · simp only at h
          generalize fillKept _ _ _ _ = kept at h
          cases kept with
          | true =>
              obtain rfl := Option.some.inj h
              exact hcall
          | false =>
              obtain rfl := Option.some.inj h
              exact hcall
  | free index =>
      obtain rfl := Option.some.inj h
      exact (hbrk.free _ _).1

/-- The check leaves the start of the heap where it was. -/
theorem evalMmValid_memStartBrk (hbrk : pkg.SbrkOnly) {tracenum : Nat} {st : Evaluation σ}
    {ops : List Request} {result : Nat × Evaluation σ}
    (h : evalMmValid pkg tracenum st ops = some result) :
    result.2.process.memlib.memStartBrk = st.process.memlib.memStartBrk := by
  have hops : ∀ {ops : List Request} {i : Nat} {st' : Evaluation σ},
      evalOps pkg tracenum i st' ops = some result →
        result.2.process.memlib.memStartBrk = st'.process.memlib.memStartBrk := by
    intro ops
    induction ops with
    | nil =>
        intro i st' h
        obtain rfl := Option.some.inj h
        rfl
    | cons r rest ih =>
        intro i st' h
        rw [evalOps] at h
        split at h
        · simp at h
        · next heq =>
          obtain rfl := Option.some.inj h
          exact evalOp_memStartBrk hbrk heq
        · next heq => exact (ih h).trans (evalOp_memStartBrk hbrk heq)
  have hinit := hbrk.init st.process
  rw [evalMmValid] at h
  split at h
  next r s heq =>
  rw [heq] at hinit
  simp only at h
  split at h
  · obtain rfl := Option.some.inj h
    exact hinit
  · exact (hops h).trans hinit

end Start

/-! ## One trace -/

/-- A consistent trace that a plain replay serves and answers, from whatever memory, and that reallocates
ids with a low byte below 128 only. -/
structure Passing (ops : List Request) : Prop where
  legal : LegalRequests ∅ ops
  low : ∀ index size, .realloc index size ∈ ops → lowByte index < 128
  replayed : ∃ s w, Run Replay.step Replay.Guarded (Replay.start s) (ops.map Event.request) w ∧
    none ∉ w.returned

/-- Even traces that are small enough pass. -/
theorem EvenTrace.passing {ops : List Request} {n m : Nat} (h : EvenTrace ops n m)
    (hlow : ∀ index size, .realloc index size ∈ ops → lowByte index < 128) : Passing ops := by
  obtain ⟨w, hrun, hret, -⟩ := h.exists_run blankMemlib
  exact ⟨h.legal, hlow, blankMemlib, w, hrun, hret⟩

namespace Passing

variable {ops : List Request}

/-- The driver accepts the trace. -/
theorem valid (h : Passing ops) {st : Evaluation Nat} (halign : 8 ∣ st.process.memlib.memStartBrk)
    (tracenum : Nat) : ∃ st', evalMmValid mmPackage tracenum st ops = some (1, st') := by
  obtain ⟨s, w, hrun, hret⟩ := h.replayed
  exact (evalMmValid_extends_iff mmPackage_extends (servedPackage_contract st.process halign) h.legal
    (neverNull_of_run hrun hret st.process) tracenum).mpr h.low

end Passing

/-- The runs of the package and plain replays of the same requests end with heaps of one size. -/
theorem session_heapsize {start t : Process Nat} {done : List Request} {blocks : Nat → Option Extent}
    (hs : Session servedPackage start done t blocks) {s : Memlib} {w : Replay}
    (hrun : Run Replay.step Replay.Guarded (Replay.start s) (done.map Event.request) w) :
    t.memlib.memHeapsize = w.heap.memHeapsize := by
  obtain ⟨v, h⟩ := session_replays hs
  obtain ⟨es, hes, hreq⟩ := h.run
  have hlegal : Run Replay.step Replay.Legal (Replay.start s) (done.map Event.request) w :=
    hrun.strengthen (I := fun _ => True) (P := fun _ => True)
      (fun _ _ _ _ _ hg _ => ⟨hg.1, trivial⟩) (fun _ _ => trivial) trivial
  -- both end where one arena does
  obtain ⟨a, hex, hsim⟩ := Replay.run_simulates hes
  rw [hreq, ← filterMap_request done] at hex
  have hsize := (Replay.run_tracks hlegal hex).layout.memHeapsize_eq
  rw [hsize, ← hsim.layout.memHeapsize_eq, h.heap]
  rfl

/-- The heap of the package is never empty. -/
theorem session_heapsize_pos {start t : Process Nat} {done : List Request} {blocks : Nat → Option Extent}
    (hs : Session servedPackage start done t blocks) : 0 < t.memlib.memHeapsize := by
  obtain ⟨v, h⟩ := session_replays hs
  obtain ⟨es, hes, -⟩ := h.run
  obtain ⟨a, -, hsim⟩ := Replay.run_simulates hes
  have hsize := hsim.layout.memHeapsize_eq
  rw [h.heap] at hsize
  change 0 < t.heap.memHeapsize
  omega

/-- **The utilization of `mm.c`.** On a trace that plain replays serve and answer, `eval_mm_util` goes
through on any memory and leaves a heap that is not empty. It returns the high water mark of the trace
over the size of the heap that a plain replay ends with, a number from 0 to 1. -/
theorem evalMmUtil_mm {st : Evaluation Nat} (halign : 8 ∣ st.process.memlib.memStartBrk)
    {ops : List Request} (hlegal : LegalRequests ∅ ops) {s : Memlib} {w : Replay}
    (hrun : Run Replay.step Replay.Guarded (Replay.start s) (ops.map Event.request) w)
    (hret : none ∉ w.returned) :
    ∃ u, evalMmUtil mmPackage st ops = some u ∧
      u.process.memlib.memStartBrk = st.process.memlib.memStartBrk ∧
      0 < u.process.memlib.memHeapsize ∧
      (u.ratio : ℚ) = highWaterMark ops / w.heap.memHeapsize ∧ (u.ratio : ℚ) ∈ Set.Icc 0 1 := by
  obtain ⟨u, blocks, hu, h⟩ := evalMmUtil_tallies mmPackage_extends
    (servedPackage_contract st.process halign) servedPackage_sbrkOnly hlegal
    (neverNull_of_run hrun hret st.process)
  have hratio : (u.ratio : ℚ) = highWaterMark ops / u.process.memlib.memHeapsize := by
    rw [Utilization.ratio, h.peak]
    simp
  refine ⟨u, hu, h.session.memStartBrk servedPackage_sbrkOnly, session_heapsize_pos h.session, ?_, ?_⟩
  · rw [hratio, session_heapsize h.session hrun]
  · rw [hratio]
    exact div_mem_unit h.fits

namespace Passing

variable {ops : List Request}

/-- The timed run goes through, from wherever the heap is. -/
theorem speed (h : Passing ops) {st : Evaluation Nat} (halign : 8 ∣ st.process.memlib.memStartBrk) :
    ∃ st', evalMmSpeed mmPackage st ops = some st' ∧
      st'.process.memlib.memStartBrk = st.process.memlib.memStartBrk := by
  obtain ⟨s, w, hrun, hret⟩ := h.replayed
  obtain ⟨u, hu, hstart, -⟩ := evalMmUtil_mm halign h.legal hrun hret
  have hspeed := evalMmSpeed_eq mmPackage st ops
  rw [hu, Option.map_some, Option.map_eq_some_iff] at hspeed
  obtain ⟨st', hst', hcalls⟩ := hspeed
  have hprocess : st'.process = u.process := congrArg Prod.fst hcalls
  exact ⟨st', hst', by rw [hprocess, hstart]⟩

/-- The calls of `fsecs` go through. -/
theorem timed (h : Passing ops) (calls : Nat) {st : Evaluation Nat}
    (halign : 8 ∣ st.process.memlib.memStartBrk) :
    ∃ st', fsecs mmPackage ops calls st = some st' ∧
      st'.process.memlib.memStartBrk = st.process.memlib.memStartBrk := by
  induction calls generalizing st with
  | zero => exact ⟨st, rfl, rfl⟩
  | succ calls ih =>
      obtain ⟨v, hv, hstart⟩ := h.speed halign
      obtain ⟨st', hst', hstart'⟩ := ih (hstart.symm ▸ halign)
      exact ⟨st', by rw [fsecs, hv, Option.bind_some, hst'], hstart'.trans hstart⟩

/-- **One pass of the loop**: the trace is valid, with the utilization of a plain replay, measured on a
heap that is not empty. -/
theorem evalTrace {trace : LoadedTrace ℚ} (h : Passing trace.ops) {st : Evaluation Nat}
    (halign : 8 ∣ st.process.memlib.memStartBrk) (i : Nat) :
    ∃ util st', MallocBench.evalTrace mmPackage i st trace =
        some (⟨trace.ops.length, true, trace.secs, util⟩, st') ∧
      st'.process.memlib.memStartBrk = st.process.memlib.memStartBrk ∧
      st'.harness.errors = st.harness.errors ∧ HeapMeasured mmPackage i st trace ∧ util ∈ Set.Icc 0 1 ∧
      ∀ s w, Run Replay.step Replay.Guarded (Replay.start s) (trace.ops.map Event.request) w →
        none ∉ w.returned → util = highWaterMark trace.ops / w.heap.memHeapsize := by
  let st₀ : Evaluation Nat := { st with blocks := trace.blocks, blockSizes := trace.blockSizes }
  have halign₀ : 8 ∣ st₀.process.memlib.memStartBrk := halign
  obtain ⟨st₁, hvalid⟩ := h.valid halign₀ i
  have hstart₁ := evalMmValid_memStartBrk mmPackage_sbrkOnly hvalid
  obtain ⟨hzero, -⟩ | ⟨-, herr⟩ := evalMmValid_errors hvalid
  · exact absurd hzero Nat.one_ne_zero
  have halign₁ : 8 ∣ st₁.process.memlib.memStartBrk := hstart₁.symm ▸ halign
  obtain ⟨s, w, hrun, hret⟩ := h.replayed
  obtain ⟨u, hu, hstart₂, hheap, hratio, hmem⟩ := evalMmUtil_mm halign₁ h.legal hrun hret
  have halign₂ : 8 ∣ u.toEvaluation.process.memlib.memStartBrk := hstart₂.symm ▸ halign₁
  obtain ⟨st₃, hsecs, hstart₃⟩ := h.timed trace.calls halign₂
  refine ⟨u.ratio, st₃, ?_, ?_, ?_, ?_, hmem, fun s' w' hrun' hret' => ?_⟩
  · have hpass : MallocBench.evalTrace mmPackage i st trace =
        (evalMmUtil mmPackage st₁ trace.ops).bind fun u =>
          (fsecs mmPackage trace.ops trace.calls u.toEvaluation).map fun st =>
            (⟨trace.ops.length, true, trace.secs, u.ratio⟩, st) := by
      rw [MallocBench.evalTrace]
      simp only [st₀] at hvalid
      rw [hvalid]
      rfl
    rw [hpass, hu, Option.bind_some, hsecs, Option.map_some]
  · exact hstart₃.trans (hstart₂.trans hstart₁)
  · rw [fsecs_harness hsecs, evalMmUtil_harness hu]
    exact herr
  · rintro checked hchecked - v hv
    obtain rfl := Option.some.inj (hvalid.symm.trans hchecked)
    obtain rfl := Option.some.inj (hu.symm.trans hv)
    exact hheap
  · -- any other plain replay ends with a heap of the same size
    obtain ⟨u', hu', -, -, hratio', -⟩ := evalMmUtil_mm halign₁ h.legal hrun' hret'
    obtain rfl := Option.some.inj (hu.symm.trans hu')
    exact hratio'

end Passing

/-! ## All traces -/

/-- An average utilisation is from 0 to 1. -/
theorem average_mem {stats : List (TraceStats ℚ)} (hutil : ∀ x ∈ stats, x.util ∈ Set.Icc 0 1) :
    (stats.map TraceStats.util).sum / (stats.length : ℚ) ∈ Set.Icc 0 1 := by
  have hutil0 : 0 ≤ (stats.map TraceStats.util).sum :=
    List.sum_nonneg (by simpa using fun x hx => (hutil x hx).1)
  have hutil1 : (stats.map TraceStats.util).sum ≤ stats.length := by
    have := List.sum_le_card_nsmul (stats.map TraceStats.util) 1 (by
      simpa using fun x hx => (hutil x hx).2)
    simpa using this
  exact ⟨by positivity, div_le_one_of_le₀ hutil1 (by positivity)⟩

/-- The index of a run without errors is from 0 to 100. -/
theorem mainPerfindex_mem {stats : List (TraceStats ℚ)} {weight cap : ℚ} (hweight : weight ∈ Set.Icc 0 1)
    (hcap : 0 < cap) (hutil : ∀ x ∈ stats, x.util ∈ Set.Icc 0 1)
    (hops : ∀ x ∈ stats, 0 ≤ x.ops) (hsecs : ∀ x ∈ stats, 0 < x.secs) :
    mainPerfindex weight cap 0 stats ∈ Set.Icc 0 100 := by
  obtain ⟨hw0, hw1⟩ := hweight
  have hsum {f : TraceStats ℚ → ℚ} (hf : ∀ x ∈ stats, 0 ≤ f x) : 0 ≤ (stats.map f).sum :=
    List.sum_nonneg (by simpa using hf)
  have hops' := hsum hops
  have hsecs' := hsum fun x hx => (hsecs x hx).le
  obtain ⟨havg0, havg1⟩ := average_mem hutil
  have hthru0 : 0 ≤ min ((stats.map TraceStats.ops).sum / (stats.map TraceStats.secs).sum / cap) 1 :=
    le_min (by positivity) zero_le_one
  have hthru1 := min_le_right
    ((stats.map TraceStats.ops).sum / (stats.map TraceStats.secs).sum / cap) 1
  rw [mainPerfindex_eq, perfindex_eq _ _ _ _ hcap, Set.mem_Icc]
  generalize (stats.map TraceStats.util).sum / (stats.length : ℚ) = avg at *
  generalize min _ (1 : ℚ) = thru at *
  constructor
  · have h1 := mul_nonneg hw0 havg0
    have h2 := mul_nonneg (sub_nonneg.mpr hw1) hthru0
    linarith
  · have h1 := mul_le_of_le_one_right hw0 havg1
    have h2 := mul_le_of_le_one_right (sub_nonneg.mpr hw1) hthru1
    linarith

/-- The loop ends without an error, the heaps are measured, and each trace has its statistics. -/
theorem Passing.evalTraces {st : Evaluation Nat} (halign : 8 ∣ st.process.memlib.memStartBrk)
    {traces : List (LoadedTrace ℚ)} (hpass : ∀ t ∈ traces, Passing t.ops) (i : Nat) :
    ∃ stats st', MallocBench.evalTraces mmPackage i st traces = some (stats, st') ∧
      st'.harness.errors = st.harness.errors ∧ HeapsMeasured mmPackage i st traces ∧
      List.Forall₂ (fun t (x : TraceStats ℚ) => x.ops = t.ops.length ∧ x.valid = true ∧
        x.secs = t.secs ∧ x.util ∈ Set.Icc 0 1 ∧ ∀ s w,
          Run Replay.step Replay.Guarded (Replay.start s) (t.ops.map Event.request) w →
            none ∉ w.returned → x.util = highWaterMark t.ops / w.heap.memHeapsize) traces stats := by
  induction traces generalizing st i with
  | nil => exact ⟨[], st, rfl, rfl, trivial, List.Forall₂.nil⟩
  | cons t rest ih =>
      obtain ⟨hp, hpass⟩ := List.forall_mem_cons.mp hpass
      obtain ⟨util, st₁, hfirst, hstart, herr, hheap, hmem, hvalue⟩ := hp.evalTrace halign i
      obtain ⟨stats, st', hrest, herr', hheaps, hall⟩ := ih (hstart.symm ▸ halign) hpass (i + 1)
      refine ⟨⟨t.ops.length, true, t.secs, util⟩ :: stats, st', ?_, herr'.trans herr, ⟨hheap, ?_⟩,
        List.Forall₂.cons ⟨rfl, rfl, rfl, hmem, hvalue⟩ hall⟩
      · rw [MallocBench.evalTraces, hfirst, Option.bind_some]
        simp only [hrest, Option.map_some]
      · intro next hnext
        obtain rfl := Option.some.inj (hfirst.symm.trans hnext)
        exact hheaps

/-- What holds of the statistics of each trace holds of all statistics. -/
theorem forall_of_forall₂ {α β : Type} {R : α → β → Prop} {P : β → Prop} {as : List α} {bs : List β}
    (h : List.Forall₂ R as bs) (hP : ∀ a ∈ as, ∀ b, R a b → P b) : ∀ b ∈ bs, P b := by
  induction h with
  | nil => simp
  | cons hR _ ih =>
      obtain ⟨hP, hrest⟩ := List.forall_mem_cons.mp hP
      exact List.forall_mem_cons.mpr ⟨hP _ hR, ih hrest⟩

/-- **`mm.c` passes.** On every list of traces that plain replays serve and answer, with ids of a low byte
below 128 in the reallocations, the loop of `main` ends without an error: all traces are valid, the
utilization of each is that of a plain replay, and the performance index is from 0 to 100. -/
theorem evalTraces_mm {st : Evaluation Nat} (halign : 8 ∣ st.process.memlib.memStartBrk)
    {traces : List (LoadedTrace ℚ)} (hpass : ∀ t ∈ traces, Passing t.ops)
    (hsecs : ∀ t ∈ traces, 0 < t.secs) (i : Nat) :
    ∃ stats st', evalTraces mmPackage i st traces = some (stats, st') ∧
      st'.harness.errors = st.harness.errors ∧ (∀ x ∈ stats, x.valid = true) ∧
      List.Forall₂ (fun t (x : TraceStats ℚ) => ∀ s w,
        Run Replay.step Replay.Guarded (Replay.start s) (t.ops.map Event.request) w →
          none ∉ w.returned → x.util = highWaterMark t.ops / w.heap.memHeapsize) traces stats ∧
      ∀ weight cap : ℚ, weight ∈ Set.Icc 0 1 → 0 < cap →
        mainPerfindex weight cap 0 stats ∈ Set.Icc 0 100 := by
  obtain ⟨stats, st', hloop, herr, -, hall⟩ := Passing.evalTraces halign hpass i
  have hstats := forall_of_forall₂ (P := fun x => x.valid = true ∧ x.util ∈ Set.Icc 0 1 ∧ 0 ≤ x.ops ∧
    0 < x.secs) hall fun t ht x hx => by
      obtain ⟨hops, hvalid, htime, hutil, -⟩ := hx
      exact ⟨hvalid, hutil, by rw [hops]; positivity, htime ▸ hsecs t ht⟩
  refine ⟨stats, st', hloop, herr, fun x hx => (hstats x hx).1,
    hall.imp fun t x hx => hx.2.2.2.2, fun weight cap hweight hcap => ?_⟩
  exact mainPerfindex_mem hweight hcap (fun x hx => (hstats x hx).2.1)
    (fun x hx => (hstats x hx).2.2.1) fun x hx => (hstats x hx).2.2.2

/-- Even requests pass. -/
theorem evenRequests_passing : Passing evenRequests :=
  evenRequests_evenTrace.passing evenRequests_low

/-- A run over these requests. -/
theorem evalTraces_mm_sample : ∃ stats st',
    evalTraces mmPackage 0 mmEvaluation
      [⟨evenRequests, fun _ => 0, fun _ => 0, 3, 1 / 1000⟩] = some (stats, st') ∧
    st'.harness.errors = 0 ∧ mainPerfindex (3 / 5 : ℚ) 600000 0 stats ∈ Set.Icc 0 100 := by
  obtain ⟨stats, st', hloop, herr, -, -, hindex⟩ := @evalTraces_mm mmEvaluation (by decide)
    [⟨evenRequests, fun _ => 0, fun _ => 0, 3, 1 / 1000⟩] (by simpa using evenRequests_passing)
    (by simp) 0
  exact ⟨stats, st', hloop, herr, hindex _ _ (by norm_num) (by norm_num)⟩

end MallocBench
