import MallocBench.Harness.Acceptance
import MallocBench.Memory.Intervals
import MallocBench.Numbers.Exact
import Mathlib.Data.Finset.Lattice.Fold
import Mathlib.Order.Lattice.Nat

/-! # The space utilization and the timed run (`eval_mm_util`, `eval_mm_speed`)

After a trace has passed the check, the driver replays it twice more: to measure how much of the heap
the payloads take, and to take the time. Neither run checks anything; a null answer ends the driver.

* **`evalMmUtil_eq`**: for a package that honours the contract and moves the break upwards only, the run
  goes through, the sum of the payloads never leaves the range of `int`, and unless the trace is empty,
  the ratio is that of the high water mark of the trace to a heap that is not empty, a number from 0 to 1.
* **`evalMmSpeed_eq`**: the timed run makes the same calls. -/

namespace MallocBench

open ByteMemory Numbers

variable {σ : Type}

/-! ## The driver -/

/-- What `eval_mm_util` works on. -/
structure Utilization (σ : Type) extends Evaluation σ where
  /-- `total_size`. -/
  totalSize : Int
  /-- `max_total_size`. -/
  maxTotalSize : Int

/-- Remember region and size. -/
def Evaluation.region (st : Evaluation σ) (s : Process σ) (index p size : Nat) : Evaluation σ :=
  { st with
    process := s
    blocks := Function.update st.blocks index p
    blockSizes := Function.update st.blockSizes index size }

/-- Another total, and the statistics after it. -/
def Utilization.count (u : Utilization σ) (st : Evaluation σ) (change : Int) : Utilization σ :=
  let totalSize := u.totalSize + change
  { st with
    totalSize
    maxTotalSize := if totalSize > u.maxTotalSize then totalSize else u.maxTotalSize }

/-- One pass of the loop of `eval_mm_util`. `none` is the exit after an error. -/
def utilOp (pkg : Package σ) (u : Utilization σ) : Request → Option (Utilization σ)
  | .malloc index size =>
    match pkg.mmMalloc size u.process with
    | (p, s) =>
      if p = 0 then none
      else some (u.count (u.region s index p size) size)
  | .realloc index newsize =>
    let oldsize := u.blockSizes index
    match pkg.mmRealloc (u.blocks index) newsize u.process with
    | (newp, s) =>
      if newp = 0 then none
      else some (u.count (u.region s index newp newsize) (newsize - oldsize))
  | .free index =>
    -- the maximum is left alone
    some { u with
      process := pkg.mmFree (u.blocks index) u.process
      totalSize := u.totalSize - u.blockSizes index }

/-- The loop. -/
def utilOps (pkg : Package σ) : Utilization σ → List Request → Option (Utilization σ)
  | u, [] => some u
  | u, r :: rest => (utilOp pkg u r).bind fun u => utilOps pkg u rest

/-- The run behind `eval_mm_util`. -/
def evalMmUtil (pkg : Package σ) (st : Evaluation σ) (ops : List Request) : Option (Utilization σ) :=
  match pkg.mmInit st.process.resetBrk with
  | (r, s) =>
    if r < 0 then none
    else utilOps pkg { st with process := s, totalSize := 0, maxTotalSize := 0 } ops

/-- What `eval_mm_util` returns after the run. The quotient is a number only for a heap that is not empty:
on doubles the one of an empty heap is not a number, or infinite. -/
def Utilization.ratio {α : Type} [Arithmetic α] (u : Utilization σ) : α :=
  Arithmetic.divide (Arithmetic.constant u.maxTotalSize)
    (Arithmetic.constant u.process.memlib.memHeapsize)

/-- One pass of the loop of `eval_mm_speed`. -/
def speedOp (pkg : Package σ) (st : Evaluation σ) : Request → Option (Evaluation σ)
  | .malloc index size =>
    match pkg.mmMalloc size st.process with
    | (p, s) =>
      if p = 0 then none
      else some { st with process := s, blocks := Function.update st.blocks index p }
  | .realloc index newsize =>
    match pkg.mmRealloc (st.blocks index) newsize st.process with
    | (newp, s) =>
      if newp = 0 then none
      else some { st with process := s, blocks := Function.update st.blocks index newp }
  | .free index => some { st with process := pkg.mmFree (st.blocks index) st.process }

/-- The loop. -/
def speedOps (pkg : Package σ) : Evaluation σ → List Request → Option (Evaluation σ)
  | st, [] => some st
  | st, r :: rest => (speedOp pkg st r).bind fun st => speedOps pkg st rest

/-- `eval_mm_speed`. -/
def evalMmSpeed (pkg : Package σ) (st : Evaluation σ) (ops : List Request) :
    Option (Evaluation σ) :=
  match pkg.mmInit st.process.resetBrk with
  | (r, s) => if r < 0 then none else speedOps pkg { st with process := s } ops

/-! ## The timed run makes the same calls -/

/-- What the calls depend on. -/
def Evaluation.calls (st : Evaluation σ) : Process σ × (Nat → Nat) := (st.process, st.blocks)

/-- A request makes the same calls in both runs. -/
theorem speedOp_calls (pkg : Package σ) {st : Evaluation σ} {u : Utilization σ}
    (h : st.calls = u.calls) (r : Request) :
    (speedOp pkg st r).map Evaluation.calls =
      (utilOp pkg u r).map fun u => u.toEvaluation.calls := by
  obtain ⟨hprocess, hblocks⟩ := Prod.mk.inj h
  cases r with
  | malloc index size =>
      simp only [speedOp, utilOp, hprocess, hblocks]
      split <;> rfl
  | realloc index size =>
      simp only [speedOp, utilOp, hprocess, hblocks]
      split <;> rfl
  | free index =>
      simp only [speedOp, utilOp, hprocess, hblocks]
      rfl

/-- So do all requests. -/
theorem speedOps_calls (pkg : Package σ) {st : Evaluation σ} {u : Utilization σ}
    (h : st.calls = u.calls) (ops : List Request) :
    (speedOps pkg st ops).map Evaluation.calls =
      (utilOps pkg u ops).map fun u => u.toEvaluation.calls := by
  induction ops generalizing st u with
  | nil => exact congrArg some h
  | cons r rest ih =>
      have hop := speedOp_calls pkg h r
      rw [speedOps, utilOps]
      cases hs : speedOp pkg st r with
      | none =>
          rw [hs, Option.map_none, eq_comm, Option.map_eq_none_iff] at hop
          rw [hop]
          rfl
      | some st' =>
          rw [hs, Option.map_some, eq_comm, Option.map_eq_some_iff] at hop
          obtain ⟨u', hu, hcalls⟩ := hop
          rw [hu]
          exact ih hcalls.symm

/-- **The timed run** calls the package exactly as the measured one does, and ends in the same state of
the process. -/
theorem evalMmSpeed_eq (pkg : Package σ) (st : Evaluation σ) (ops : List Request) :
    (evalMmSpeed pkg st ops).map Evaluation.calls =
      (evalMmUtil pkg st ops).map fun u => u.toEvaluation.calls := by
  rw [evalMmSpeed, evalMmUtil]
  split
  next r s hinit =>
  by_cases hr : r < 0
  · rw [if_pos hr, if_pos hr]
    rfl
  · rw [if_neg hr, if_neg hr]
    exact speedOps_calls pkg
      (u := { st with process := s, totalSize := 0, maxTotalSize := 0 }) rfl ops

/-! ## What a trace asks for -/

/-- The sizes last asked for under the ids. -/
def Request.sizeAfter (sizes : Nat → Nat) : Request → Nat → Nat
  | .malloc index size => Function.update sizes index size
  | .realloc index size => Function.update sizes index size
  | .free _ => sizes

/-- The sizes after some requests. -/
def sizesAfter (requests : List Request) : Nat → Nat := requests.foldl Request.sizeAfter fun _ => 0

/-- The bytes of the payloads that are live after the requests. -/
def liveBytes (requests : List Request) : Nat := ∑ i ∈ liveIds requests, sizesAfter requests i

/-- The high water mark of a trace: what an allocator without any overhead needs. -/
def highWaterMark (requests : List Request) : Nat :=
  (Finset.range (requests.length + 1)).sup fun k => liveBytes (requests.take k)

/-- The last request sets its size. -/
theorem sizesAfter_concat (requests : List Request) (r : Request) :
    sizesAfter (requests ++ [r]) = r.sizeAfter (sizesAfter requests) := List.foldl_concat ..

/-- The last request raises the high water mark to what is live after it. -/
theorem highWaterMark_concat (requests : List Request) (r : Request) :
    highWaterMark (requests ++ [r]) = max (highWaterMark requests) (liveBytes (requests ++ [r])) := by
  rw [highWaterMark, List.length_append, List.length_singleton, Finset.range_add_one, Finset.sup_insert,
    max_comm, highWaterMark]
  congr 1
  · refine Finset.sup_congr rfl fun k hk => ?_
    rw [Finset.mem_range] at hk
    rw [List.take_append_of_le_length (by omega)]
  · rw [List.take_of_length_le (by simp)]

/-- What is live after a part of the trace is never more than the high water mark. -/
theorem liveBytes_take_le_highWaterMark (requests : List Request) {k : Nat} (h : k ≤ requests.length) :
    liveBytes (requests.take k) ≤ highWaterMark requests :=
  Finset.le_sup (f := fun k => liveBytes (requests.take k)) (Finset.mem_range.mpr (Nat.lt_succ_of_le h))

/-- What is live at the end is never more than the high water mark. -/
theorem liveBytes_le_highWaterMark (requests : List Request) :
    liveBytes requests ≤ highWaterMark requests := by
  have hlast := liveBytes_take_le_highWaterMark requests le_rfl
  rwa [List.take_length] at hlast

/-- A new payload. -/
theorem liveBytes_malloc {requests : List Request} {index : Nat} (h : index ∉ liveIds requests)
    (size : Nat) :
    liveBytes (requests ++ [.malloc index size]) = liveBytes requests + size := by
  rw [liveBytes, liveIds_concat, sizesAfter_concat, Request.liveAfter, Request.sizeAfter,
    Finset.sum_insert h, Function.update_self, Nat.add_comm, liveBytes]
  congr 1
  exact Finset.sum_congr rfl fun i hi => Function.update_of_ne (ne_of_mem_of_not_mem hi h) ..

/-- A payload in the place of an old one. -/
theorem liveBytes_realloc {requests : List Request} {index : Nat} (h : index ∈ liveIds requests)
    (size : Nat) :
    liveBytes (requests ++ [.realloc index size]) + sizesAfter requests index =
      liveBytes requests + size := by
  rw [liveBytes, liveIds_concat, sizesAfter_concat, Request.liveAfter, Request.sizeAfter,
    ← Finset.add_sum_erase _ _ h, Function.update_self, liveBytes, ← Finset.add_sum_erase _ _ h]
  have hrest : ∑ i ∈ (liveIds requests).erase index,
      Function.update (sizesAfter requests) index size i =
        ∑ i ∈ (liveIds requests).erase index, sizesAfter requests i :=
    Finset.sum_congr rfl fun i hi => Function.update_of_ne (Finset.ne_of_mem_erase hi) ..
  omega

/-- A payload given back. -/
theorem liveBytes_free {requests : List Request} {index : Nat} (h : index ∈ liveIds requests) :
    liveBytes (requests ++ [.free index]) + sizesAfter requests index = liveBytes requests := by
  rw [liveBytes, liveIds_concat, sizesAfter_concat, Request.liveAfter, Request.sizeAfter, liveBytes,
    ← Finset.add_sum_erase _ _ h, Nat.add_comm]

/-- A trace that is not empty starts with a payload, so that its high water mark is positive. -/
theorem highWaterMark_pos {requests : List Request} (hlegal : LegalRequests ∅ requests)
    (hne : requests ≠ []) : 0 < highWaterMark requests := by
  cases requests with
  | nil => exact absurd rfl hne
  | cons r rest =>
      cases r with
      | malloc index size =>
          obtain ⟨hfresh, hsize, -⟩ := hlegal
          have hfirst := liveBytes_take_le_highWaterMark (.malloc index size :: rest) (k := 1) (by simp)
          have hone := @liveBytes_malloc [] index hfresh size
          rw [List.nil_append] at hone
          rw [List.take_succ_cons, List.take_zero, hone] at hfirst
          omega
      | realloc index size => exact absurd hlegal.1 (Finset.notMem_empty index)
      | free index => exact absurd hlegal.1 (Finset.notMem_empty index)

/-! ## Packages over `mem_sbrk` -/

/-- The package reaches the memory system through `mem_sbrk`: the heap keeps its start, and the break
moves upwards only. -/
structure Package.SbrkOnly (pkg : Package σ) : Prop where
  init : ∀ s : Process σ, (pkg.mmInit s.resetBrk).2.memlib.memStartBrk = s.memlib.memStartBrk
  malloc : ∀ size s, (pkg.mmMalloc size s).2.memlib.memStartBrk = s.memlib.memStartBrk ∧
    s.memlib.memBrk ≤ (pkg.mmMalloc size s).2.memlib.memBrk
  realloc : ∀ ptr size s, (pkg.mmRealloc ptr size s).2.memlib.memStartBrk = s.memlib.memStartBrk ∧
    s.memlib.memBrk ≤ (pkg.mmRealloc ptr size s).2.memlib.memBrk
  free : ∀ ptr s, (pkg.mmFree ptr s).memlib.memStartBrk = s.memlib.memStartBrk ∧
    s.memlib.memBrk ≤ (pkg.mmFree ptr s).memlib.memBrk

section Sessions

variable {pkg : Package σ} {start s : Process σ} {done : List Request}
  {blocks : Nat → Option Extent}

/-- In a session the heap keeps its start. -/
theorem Session.memStartBrk (hs : Session pkg start done s blocks) (hbrk : pkg.SbrkOnly) :
    s.memlib.memStartBrk = start.memlib.memStartBrk := by
  induction hs with
  | init => exact hbrk.init _
  | @malloc done s t _ _ size p _ _ _ hcall _ ih =>
      have h := (hbrk.malloc size s).1
      rw [hcall] at h
      exact h.trans ih
  | @realloc done s t _ _ size p old _ _ _ hcall _ ih =>
      have h := (hbrk.realloc old.ptr size s).1
      rw [hcall] at h
      exact h.trans ih
  | free _ _ ih => exact (hbrk.free _ _).1.trans ih
  | write _ _ _ ih => exact ih

/-- Live payloads are not at null. -/
theorem Session.ptr_ne_zero (hs : Session pkg start done s blocks) :
    ∀ i b, blocks i = some b → b.ptr ≠ 0 := by
  induction hs with
  | init => exact fun i b hb => absurd hb (by simp)
  | malloc _ _ _ _ hp ih =>
      intro i b hb
      obtain ⟨-, rfl⟩ | ⟨-, hb⟩ := of_update_some hb
      · exact hp
      · exact ih i b hb
  | realloc _ _ _ _ hp ih =>
      intro i b hb
      obtain ⟨-, rfl⟩ | ⟨-, hb⟩ := of_update_some hb
      · exact hp
      · exact ih i b hb
  | free _ _ ih => exact fun i b hb => ih i b (of_update_none hb).2
  | write _ _ _ ih => exact ih

/-- **The payloads fit into the heap together.** -/
theorem Session.sum_sizes_le (hs : Session pkg start done s blocks) (hcontract : Contract pkg start)
    {live : Finset Nat} {sizes : Nat → Nat}
    (hlive : ∀ i ∈ live, ∃ b, blocks i = some b ∧ b.size = sizes i) :
    ∑ i ∈ live, sizes i ≤ s.memlib.memHeapsize := by
  refine Intervals.sum_length_le live (fun i => ((blocks i).map Extent.ptr).getD 0) sizes
    (fun i hi => ?_) fun i hi j hj hij => ?_
  · obtain ⟨b, hb, hsize⟩ := hlive i hi
    obtain ⟨hlo, hhi⟩ := hcontract.inHeap hs i b hb
    have hpos := hs.size_pos i b hb
    have hne := hs.ptr_ne_zero i b hb
    rw [Memlib.memHeapLo] at hlo
    rw [Memlib.memHeapHi] at hhi
    simp only [hb, Option.map_some, Option.getD_some]
    omega
  · obtain ⟨a, ha, hasize⟩ := hlive i hi
    obtain ⟨b, hb, hbsize⟩ := hlive j hj
    have hapos := hs.size_pos i a ha
    have hbpos := hs.size_pos j b hb
    have hdisjoint := hcontract.disjoint hs i j a b hij ha hb
    rw [Extent.addresses, Extent.addresses,
      Intervals.disjoint_Icc_iff (by omega) (by omega)] at hdisjoint
    simp only [ha, hb, Option.map_some, Option.getD_some]
    omega

end Sessions

/-! ## The run -/

/-- The run has measured a session: it knows the payloads, their total and the high water mark, which
fits into the heap. -/
structure Tallies (pkg : Package σ) (start : Process σ) (done : List Request) (u : Utilization σ)
    (blocks : Nat → Option Extent) : Prop where
  session : Session pkg start done u.process blocks
  region : ∀ i b, blocks i = some b →
    u.blocks i = b.ptr ∧ u.blockSizes i = b.size ∧ b.size = sizesAfter done i
  live : ∀ i, i ∈ liveIds done ↔ blocks i ≠ none
  total : u.totalSize = liveBytes done
  peak : u.maxTotalSize = highWaterMark done
  fits : highWaterMark done ≤ u.process.memlib.memHeapsize

namespace Tallies

variable {pkg pkg' : Package σ} {start s t : Process σ} {done : List Request} {u : Utilization σ}
  {blocks : Nat → Option Extent} {index size p : Nat}

/-- The heap of a later state with the same start and no lower break is not smaller. -/
theorem heapsize_mono (h : Tallies pkg start done u blocks)
    (hstart : t.memlib.memStartBrk = u.process.memlib.memStartBrk)
    (hbrk : u.process.memlib.memBrk ≤ t.memlib.memBrk) :
    highWaterMark done ≤ t.memlib.memHeapsize := by
  refine h.fits.trans ?_
  rw [Memlib.memHeapsize, Memlib.memHeapsize, hstart]
  omega

/-- The payloads after a request under an index. -/
theorem region_update (h : Tallies pkg start done u blocks) {r : Request}
    (hr : r.sizeAfter (sizesAfter done) = Function.update (sizesAfter done) index size) (i : Nat)
    (b : Extent) (hb : Function.update blocks index (some ⟨p, size⟩) i = some b) :
    Function.update u.blocks index p i = b.ptr ∧
      Function.update u.blockSizes index size i = b.size ∧ b.size = sizesAfter (done ++ [r]) i := by
  rw [sizesAfter_concat, hr]
  obtain ⟨rfl, rfl⟩ | ⟨hi, hb⟩ := of_update_some hb
  · simp
  · simp only [Function.update_of_ne hi]
    exact h.region i b hb

/-- A request that grants a payload: the total after it is that of the trace, and fits. -/
theorem grant (h : Tallies pkg start done u blocks) (hcontract : Contract pkg start) {r : Request}
    (hs : Session pkg start (done ++ [r]) t (Function.update blocks index (some ⟨p, size⟩)))
    (hr : r.sizeAfter (sizesAfter done) = Function.update (sizesAfter done) index size)
    (hids : r.liveAfter (liveIds done) = insert index (liveIds done)) {change : Int}
    (hchange : (liveBytes (done ++ [r]) : Int) = liveBytes done + change)
    (hstart : t.memlib.memStartBrk = u.process.memlib.memStartBrk)
    (hbrk : u.process.memlib.memBrk ≤ t.memlib.memBrk) :
    Tallies pkg start (done ++ [r]) (u.count (u.region t index p size) change)
      (Function.update blocks index (some ⟨p, size⟩)) := by
  have hlive : ∀ i, i ∈ liveIds (done ++ [r]) ↔
      Function.update blocks index (some ⟨p, size⟩) i ≠ none := by
    rw [liveIds_concat, hids]
    exact mem_insert_iff_update h.live index _
  have hregion := h.region_update (p := p) hr
  have hfit : liveBytes (done ++ [r]) ≤ t.memlib.memHeapsize := by
    refine hs.sum_sizes_le hcontract fun i hi => ?_
    obtain ⟨b, hb⟩ := Option.ne_none_iff_exists'.mp ((hlive i).mp hi)
    exact ⟨b, hb, (hregion i b hb).2.2⟩
  have htotal : (u.count (u.region t index p size) change).totalSize =
      liveBytes (done ++ [r]) := by
    rw [hchange, ← h.total]
    rfl
  refine ⟨hs, hregion, hlive, htotal, ?_, ?_⟩
  · have hmax : (u.count (u.region t index p size) change).maxTotalSize =
        max u.maxTotalSize (u.count (u.region t index p size) change).totalSize := by
      show (if u.totalSize + change > u.maxTotalSize then u.totalSize + change else u.maxTotalSize) =
        max u.maxTotalSize (u.totalSize + change)
      split <;> omega
    rw [hmax, htotal, h.peak, highWaterMark_concat, Nat.cast_max]
  · rw [highWaterMark_concat]
    exact max_le (h.heapsize_mono hstart hbrk) hfit

section Steps

variable (h : Tallies pkg start done u blocks) (hext : pkg'.Extends pkg)
  (hcontract : Contract pkg start) (hbrk : pkg.SbrkOnly)

include h hext hbrk

/-- **A release is measured.** -/
theorem free (hmem : index ∈ liveIds done) :
    ∃ u', utilOp pkg' u (.free index) = some u' ∧
      Tallies pkg start (done ++ [.free index]) u' (Function.update blocks index none) := by
  obtain ⟨old, hold⟩ := Option.ne_none_iff_exists'.mp ((h.live index).mp hmem)
  obtain ⟨hptr, holdsize, hafter⟩ := h.region index old hold
  have hmono := hbrk.free old.ptr u.process
  have hsum := liveBytes_free hmem
  have hle := liveBytes_le_highWaterMark done
  have hpeak : highWaterMark (done ++ [.free index]) = highWaterMark done := by
    rw [highWaterMark_concat]
    omega
  refine ⟨_, rfl, ⟨?_, fun i b hb => ?_, ?_, ?_, ?_, ?_⟩⟩
  · simp only [hext.free, hptr]
    exact h.session.free hold
  · obtain ⟨-, hb⟩ := of_update_none hb
    rw [sizesAfter_concat]
    exact h.region i b hb
  · rw [liveIds_concat]
    exact mem_erase_iff_update h.live index
  · simp only [h.total, holdsize, hafter]
    omega
  · rw [hpeak]
    exact h.peak
  · rw [hpeak]
    simp only [hext.free, hptr]
    exact h.heapsize_mono hmono.1 hmono.2

include hcontract

/-- **An allocation is measured.** -/
theorem malloc (hfresh : index ∉ liveIds done) (hsize : 0 < size)
    (hnull : (pkg.mmMalloc size u.process).1 ≠ 0) :
    ∃ u' b, utilOp pkg' u (.malloc index size) = some u' ∧
      Tallies pkg start (done ++ [.malloc index size]) u' (Function.update blocks index (some b)) := by
  obtain ⟨p, s, hcall⟩ : ∃ p s, pkg.mmMalloc size u.process = (p, s) := ⟨_, _, rfl⟩
  have hmono := hbrk.malloc size u.process
  rw [hcall] at hnull hmono
  have hnone : blocks index = none := not_not.mp (mt (h.live index).mpr hfresh)
  have hs := h.session.malloc hnone hsize hcall hnull
  refine ⟨u.count (u.region s index p size) size, ⟨p, size⟩, ?_,
    h.grant hcontract hs rfl rfl ?_ hmono.1 hmono.2⟩
  · rw [utilOp, hext.malloc size u.process (by rwa [hcall]), hcall]
    simp only
    rw [if_neg hnull]
  · rw [liveBytes_malloc hfresh]
    rfl

/-- **A reallocation is measured.** -/
theorem realloc (hmem : index ∈ liveIds done) (hsize : 0 < size)
    (hnull : ∀ old, blocks index = some old → (pkg.mmRealloc old.ptr size u.process).1 ≠ 0) :
    ∃ u' b, utilOp pkg' u (.realloc index size) = some u' ∧
      Tallies pkg start (done ++ [.realloc index size]) u'
        (Function.update blocks index (some b)) := by
  obtain ⟨old, hold⟩ := Option.ne_none_iff_exists'.mp ((h.live index).mp hmem)
  obtain ⟨hptr, holdsize, hafter⟩ := h.region index old hold
  obtain ⟨p, s, hcall⟩ : ∃ p s, pkg.mmRealloc old.ptr size u.process = (p, s) := ⟨_, _, rfl⟩
  have hmono := hbrk.realloc old.ptr size u.process
  have hnull := hnull old hold
  rw [hcall] at hnull hmono
  have hs := h.session.realloc hold hsize hcall hnull
  have hids : Request.liveAfter (liveIds done) (.realloc index size) =
      insert index (liveIds done) := (Finset.insert_eq_of_mem hmem).symm
  refine ⟨u.count (u.region s index p size) (size - u.blockSizes index), ⟨p, size⟩, ?_,
    h.grant hcontract hs rfl hids ?_ hmono.1 hmono.2⟩
  · rw [utilOp, hptr, hext.realloc old.ptr size u.process (by rwa [hcall]), hcall]
    simp only
    rw [if_neg hnull]
  · have hsum := liveBytes_realloc hmem size
    rw [holdsize, hafter]
    omega

end Steps

/-- The loop over the requests that are left. -/
theorem utilOps (hext : pkg'.Extends pkg) (hcontract : Contract pkg start) (hbrk : pkg.SbrkOnly)
    {rest : List Request} (h : Tallies pkg start done u blocks)
    (hlegal : LegalRequests (liveIds done) rest) (hnull : NeverNull pkg start (done ++ rest)) :
    ∃ u' blocks', MallocBench.utilOps pkg' u rest = some u' ∧
      Tallies pkg start (done ++ rest) u' blocks' := by
  induction rest generalizing done u blocks with
  | nil => exact ⟨u, blocks, rfl, by rwa [List.append_nil]⟩
  | cons r rest ih =>
      have hprefix : done ++ [r] <+: done ++ r :: rest := ⟨rest, by simp⟩
      have hrest : done ++ r :: rest = done ++ [r] ++ rest := by simp
      rw [MallocBench.utilOps, hrest]
      rw [hrest] at hnull
      cases r with
      | malloc index size =>
          obtain ⟨hfresh, hsize, hlegal⟩ := hlegal
          obtain ⟨u', b, hop, h'⟩ := h.malloc hext hcontract hbrk hfresh hsize
            (hnull.malloc h.session _ _ (hrest ▸ hprefix))
          rw [hop]
          exact ih h' (by rwa [liveIds_concat]) hnull
      | realloc index size =>
          obtain ⟨hmem, hsize, hlegal⟩ := hlegal
          obtain ⟨u', b, hop, h'⟩ := h.realloc hext hcontract hbrk hmem hsize
            fun old => hnull.realloc h.session _ _ old (hrest ▸ hprefix)
          rw [hop]
          exact ih h' (by rwa [liveIds_concat]) hnull
      | free index =>
          obtain ⟨hmem, hlegal⟩ := hlegal
          obtain ⟨u', hop, h'⟩ := h.free hext hbrk hmem
          rw [hop]
          exact ih h' (by rwa [liveIds_concat]) hnull

end Tallies

/-- The measured run goes through, also with a package that answers where `pkg` answers null. -/
theorem evalMmUtil_tallies {pkg pkg' : Package σ} (hext : pkg'.Extends pkg) {st : Evaluation σ}
    (hcontract : Contract pkg st.process) (hbrk : pkg.SbrkOnly) {requests : List Request}
    (hlegal : LegalRequests ∅ requests) (hnull : NeverNull pkg st.process requests) :
    ∃ u blocks, evalMmUtil pkg' st requests = some u ∧
      Tallies pkg st.process requests u blocks := by
  have hinit : ¬ (pkg.mmInit st.process.resetBrk).1 < 0 := not_lt.mpr hcontract.init
  have hnull' : NeverNull pkg st.process ([] ++ requests) := hnull
  have hstart : Tallies pkg st.process [] { st with
      process := (pkg.mmInit st.process.resetBrk).2
      totalSize := 0
      maxTotalSize := 0 } fun _ => none :=
    ⟨Session.init, by simp, by simp [liveIds], rfl, rfl, by simp [highWaterMark, liveBytes, liveIds]⟩
  obtain ⟨u, blocks, hops, h⟩ := hstart.utilOps hext hcontract hbrk hlegal hnull'
  refine ⟨u, blocks, ?_, h⟩
  simp only [evalMmUtil, hext.init]
  rw [if_neg hinit, hops]

/-- A ratio of a part to the whole. -/
theorem div_mem_unit {a b : Nat} (h : a ≤ b) : 0 ≤ (a : ℚ) / b ∧ (a : ℚ) / b ≤ 1 :=
  ⟨by positivity, div_le_one_of_le₀ (by exact_mod_cast h) (by positivity)⟩

/-- **The utilization.** With a package that honours the contract and moves the break upwards only,
`eval_mm_util` goes through every consistent trace without a null answer. Its maximum is the high water
mark of the trace, which is never more than the heap and so in the range of `int`. Unless the trace is
empty, the heap is not empty after it, and what the run returns is their ratio, from 0 to 1. -/
theorem evalMmUtil_eq {pkg : Package σ} {st : Evaluation σ} (hcontract : Contract pkg st.process)
    (hbrk : pkg.SbrkOnly) {requests : List Request} (hlegal : LegalRequests ∅ requests)
    (hnull : NeverNull pkg st.process requests) :
    ∃ u, evalMmUtil pkg st requests = some u ∧ u.totalSize = liveBytes requests ∧
      u.maxTotalSize = highWaterMark requests ∧
      highWaterMark requests ≤ u.process.memlib.memHeapsize ∧
      u.process.memlib.memHeapsize ≤ maxHeap ∧
      (requests ≠ [] → 0 < u.process.memlib.memHeapsize ∧
        (u.ratio : ℚ) = highWaterMark requests / u.process.memlib.memHeapsize ∧
        (u.ratio : ℚ) ∈ Set.Icc 0 1) := by
  have hext : pkg.Extends pkg := ⟨rfl, fun _ _ _ => rfl, fun _ _ _ _ => rfl, rfl⟩
  obtain ⟨u, blocks, hu, h⟩ := evalMmUtil_tallies hext hcontract hbrk hlegal hnull
  refine ⟨u, hu, h.total, h.peak, h.fits, ?_, fun hne => ?_⟩
  · have hmax := u.process.memlib.max_eq
    have hle := u.process.memlib.brk_le_max
    rw [Memlib.memHeapsize]
    omega
  · have hratio : (u.ratio : ℚ) = highWaterMark requests / u.process.memlib.memHeapsize := by
      rw [Utilization.ratio, h.peak]
      simp
    refine ⟨(highWaterMark_pos hlegal hne).trans_le h.fits, hratio, ?_⟩
    rw [hratio]
    exact div_mem_unit h.fits

/-- The simplest package raises the break by `mem_sbrk`. -/
theorem bumpPackage_sbrkOnly : bumpPackage.SbrkOnly := by
  have hmalloc : ∀ size s, (bumpMalloc size s).2.memlib.memStartBrk = s.memlib.memStartBrk ∧
      s.memlib.memBrk ≤ (bumpMalloc size s).2.memlib.memBrk := by
    intro size s
    rw [bumpMalloc]
    split
    · exact ⟨rfl, le_rfl⟩
    · next hm => exact ⟨Memlib.memSbrk_memStartBrk hm, Memlib.memSbrk_memBrk_le hm⟩
  refine ⟨fun s => rfl, hmalloc, fun ptr size s => ?_, fun ptr s => ⟨rfl, le_rfl⟩⟩
  have h := hmalloc size s
  show (bumpRealloc ptr size s).2.memlib.memStartBrk = s.memlib.memStartBrk ∧
    s.memlib.memBrk ≤ (bumpRealloc ptr size s).2.memlib.memBrk
  rw [bumpRealloc]
  split
  · next hcall => rwa [hcall] at h
  · next hcall => rwa [hcall] at h

/-- Two payloads of 8 and 16 bytes, the first one grown to 16. -/
theorem evalMmUtil_eq_bump : ∃ u,
    evalMmUtil bumpPackage bumpEvaluation [.malloc 0 8, .malloc 1 16, .realloc 0 16] = some u ∧
      u.maxTotalSize = 32 ∧ 0 < u.process.memlib.memHeapsize := by
  obtain ⟨u, hu, -, hpeak, -, -, hratio⟩ := @evalMmUtil_eq _ bumpPackage bumpEvaluation
    (bumpPackage_contract _) bumpPackage_sbrkOnly [.malloc 0 8, .malloc 1 16, .realloc 0 16]
    (by simp [LegalRequests]) (bumpPackage_neverNull (by decide) (by decide))
  have hmark : highWaterMark [.malloc 0 8, .malloc 1 16, .realloc 0 16] = 32 := by decide
  exact ⟨u, hu, by rw [hpeak, hmark]; rfl, (hratio (by simp)).1⟩

/-- An empty trace may leave the heap empty. -/
example : (evalMmUtil bumpPackage bumpEvaluation []).map (fun u => u.process.memlib.memHeapsize) = some 0 :=
  rfl

end MallocBench
