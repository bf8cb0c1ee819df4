import MallocBench.Harness.MmRuns
import MallocBench.Traces.Generators

/-! # `mm.c` on the coalescing trace

Each round of `gen_coalescing.pl` allocates two blocks, releases them, and asks for one of twice the
size. When a block is longer than a chunk, the first round makes the heap as large as two blocks and a
chunk. Since the two blocks are joined when they are released, no later round makes it any larger.

* **`Reached.round`**: a round leads from one free block back to one free block.
* **`coalescing_utilization`**: the driver accepts the trace, whatever the number of rounds, and its
  utilization is that of the first round. -/

namespace MallocBench

open ByteMemory Segments Runs

/-! ## Plain replays, request by request -/

/-- A plain replay of the requests is served and answered, and followed by the arena. -/
structure Reached (s : Memlib) (done : List Request) (a : Arena) : Prop where
  run : ∃ w, Run Replay.step Replay.Guarded (Replay.start s) (done.map Event.request) w ∧ Accounted w a
  answered : none ∉ a.returned
  live : ∀ i, i ∈ liveIds done ↔ a.table i ≠ none

namespace Reached

variable {s : Memlib} {done : List Request} {a : Arena} {index size : Nat}

/-- Nothing is reached without requests but the start. -/
theorem start (s : Memlib) : Reached s [] Arena.start :=
  ⟨⟨_, Run.nil _, Accounted.start s⟩, by simp [Arena.start], fun i => by simp [liveIds, Arena.start]⟩

/-- One more request. -/
theorem concat (h : Reached s done a) {r : Request} {b : Arena}
    (hlegal : ∀ w, Accounted w a → w.Legal (.request r)) (hserve : a.serve r = some b)
    (hanswered : none ∉ b.returned)
    (hlive : ∀ i, i ∈ r.liveAfter (liveIds done) ↔ b.table i ≠ none) : Reached s (done ++ [r]) b := by
  obtain ⟨w, hrun, hw⟩ := h.run
  have hserved : w.Served (.request r) :=
    (hw.simulates.served_iff r).mpr (Arena.serve_eq_some.mp hserve).1
  have hmove : advance Arena.serve a (Event.request r).toRequest = some b := hserve
  obtain ⟨w', hstep, -⟩ := hw.simulates.step (hlegal w hw) hmove
  obtain ⟨b', hb', hw'⟩ := hw.step ⟨hlegal w hw, hserved⟩ hstep
  obtain rfl := Option.some.inj (hmove.symm.trans hb')
  refine ⟨⟨w', ?_, hw'⟩, hanswered, ?_⟩
  · rw [List.map_append]
    exact hrun.concat ⟨hlegal w hw, hserved⟩ hstep
  · rw [liveIds_concat]
    exact hlive

/-- **An allocation** that leaves no sliver. -/
theorem malloc (h : Reached s done a) (index : Nat) (hfresh : index ∉ liveIds done) (hpos : 0 < size)
    (hroom : (requestBlock size).size ≤ heapRoom) {g : Focus 8 16}
    (hg : allocateBlock a.list size = some g) (hsliver : ¬ LeavesSliver a.list (requestBlock size)) :
    Reached s (done ++ [.malloc index size]) ⟨g.list, Function.update a.table index (some (g.offset, size)),
      a.returned ++ [some (g.offset + 16)]⟩ := by
  have hle := size_add_le_requestBlock size
  rw [heapRoom_eq] at hroom
  have hnone : a.table index = none := by
    by_contra hsome
    exact hfresh ((h.live index).mpr hsome)
  refine h.concat (fun w hw => ⟨?_, hpos, ?_⟩) (Arena.serve_eq_some.mpr ⟨?_, ?_⟩) ?_ fun i => ?_
  · rw [hw.simulates.table, Option.map_eq_none_iff] at hnone
    exact hnone
  · exact show size ≤ 2 ^ 31 - 1 by omega
  · exact .inr (.inr ⟨by omega, by rw [adjustedSize_eq (by omega)]; omega, hsliver⟩)
  · rw [Arena.move, hg]
  · simpa using h.answered
  · rw [Request.liveAfter, Finset.mem_insert, h.live]
    by_cases hi : i = index
    · simp [hi]
    · simp [hi]

/-- **A release** leaves the heap as large as it is. -/
theorem free (h : Reached s done a) (index : Nat) (hlive : index ∈ liveIds done) :
    ∃ b, Reached s (done ++ [.free index]) b ∧ total b.list = total a.list := by
  obtain ⟨w, hrun, hw⟩ := h.run
  have hlegal : ∀ w, Accounted w a → w.Legal (.request (.free index)) := fun w hw => by
    have hsome := (h.live index).mp hlive
    rw [hw.simulates.table] at hsome
    exact Option.isSome_iff_ne_none.mpr fun hnone => hsome (by rw [hnone]; rfl)
  obtain ⟨b, hb⟩ := hw.simulates.moves ⟨hlegal w hw, trivial⟩
  have hserve : a.serve (.free index) = some b := hb
  obtain ⟨old, f, -, hlist, -, rfl⟩ := Arena.move_free (Arena.serve_eq_some.mp hserve).2
  refine ⟨_, h.concat hlegal hserve h.answered fun i => ?_, ?_⟩
  · rw [Request.liveAfter, Finset.mem_erase, h.live]
    by_cases hi : i = index
    · simp [hi]
    · simp [hi]
  · rw [← hlist]
    exact Focus.total_release f

/-- When nothing is live, the region is one free block. -/
theorem drained (h : Reached s done a) (hnone : liveIds done = ∅) (hpos : 0 < total a.list) :
    ∃ f : Block, a.list = [f] ∧ f.alloc = false := by
  obtain ⟨w, -, hw⟩ := h.run
  refine hw.drained (fun i => ?_) hpos
  have hi : ¬ a.table i ≠ none := fun hi => Finset.notMem_empty i (hnone ▸ (h.live i).mpr hi)
  rwa [hw.simulates.table, not_not, Option.map_eq_none_iff] at hi

end Reached

/-! ## Blocks longer than a chunk -/

/-- **A request behind blocks in use** is carved off the free block at the end, which grows by the length
of the request when it is too short. -/
theorem allocateBlock_last {pre : List Block} {f : Block} {size : Nat}
    (hpre : ∀ b ∈ pre, b.alloc = true) (hf : f.alloc = false) (hlong : chunksize ≤ (requestBlock size).size)
    (hfit : f.size < (requestBlock size).size ∨ (requestBlock size).size + 16 ≤ f.size)
    (hroom : f.size < (requestBlock size).size →
      total pre + f.size + (requestBlock size).size ≤ heapRoom) :
    ∃ rest : Block, rest.alloc = false ∧
      (f.size < (requestBlock size).size ∧ rest.size = f.size ∨
        (requestBlock size).size ≤ f.size ∧ rest.size + (requestBlock size).size = f.size) ∧
      allocateBlock (pre ++ [f]) size = some ⟨pre, requestBlock size, [rest]⟩ ∧
      ¬ LeavesSliver (pre ++ [f]) (requestBlock size) := by
  set r := requestBlock size with hr
  have hused : r.used = r := rfl
  have hcarve : ∀ mid : Block, r.size + 16 ≤ mid.size → ∃ rest : Block, rest.alloc = false ∧
      rest.size = mid.size - r.size ∧ Focus.carve ⟨pre, mid, []⟩ r = ⟨pre, r, [rest]⟩ := fun mid hmid =>
    ⟨_, rfl, rfl, by rw [Focus.carve, dif_pos hmid, hused]⟩
  by_cases hshort : f.size < r.size
  · have hnone : firstFit r.size (pre ++ [f]) = none := firstFit_none.mpr fun b hb hfree => by
      rcases List.mem_append.mp hb with hb | hb
      · rw [hpre b hb] at hfree
        cases hfree
      · rwa [List.mem_singleton.mp hb]
    have hexpend : (expendBlock r).size = r.size := max_eq_left hlong
    obtain ⟨hu, -⟩ | ⟨cs, c, hsplit, -, hgrown⟩ := grown_cases (pre ++ [f]) (expendBlock r)
    · have hlast := hu f (by simp)
      rw [hf] at hlast
      cases hlast
    · obtain ⟨rfl, hc⟩ := List.append_inj' hsplit rfl
      obtain rfl := List.singleton_inj.mp hc
      have hmid : (f.merge (expendBlock r)).size = f.size + r.size := by
        rw [Segment.merge_size, hexpend]
      have hleast := f.least_le
      obtain ⟨rest, hfree, hsize, heq⟩ := hcarve _ (by rw [hmid]; omega)
      refine ⟨rest, hfree, .inl ⟨hshort, by rw [hsize, hmid]; omega⟩, ?_, ?_⟩
      · have hfits : total (pre ++ [f]) + (expendBlock r).size ≤ heapRoom := by
          rw [total_concat, hexpend]
          exact hroom hshort
        rw [allocateBlock, ← hr, allocate, hnone]
        simp only [if_pos hfits, hgrown, heq]
      · rw [LeavesSliver, hnone]
        simp only [hgrown, hmid]
        omega
  · have hfound : firstFit r.size (pre ++ [f]) = some ⟨pre, f, []⟩ := by
      clear hroom hcarve
      induction pre with
      | nil => exact if_pos ⟨hf, not_lt.mp hshort⟩
      | cons b pre ih =>
          rw [List.cons_append, firstFit, if_neg (by simp [hpre b List.mem_cons_self]),
            ih fun c hc => hpre c (List.mem_cons_of_mem _ hc)]
          rfl
    obtain ⟨rest, hfree, hsize, heq⟩ := hcarve f (by omega)
    refine ⟨rest, hfree, .inr ⟨by omega, by omega⟩, ?_, ?_⟩
    · rw [allocateBlock, ← hr, allocate, hfound]
      simp only [heq]
    · rw [LeavesSliver, hfound]
      simp only
      omega

/-! ## A round -/

/-- A round of `gen_coalescing.pl`. -/
def coalescingRound (blkSize i : Nat) : List Request :=
  [.malloc i blkSize, .malloc (i + 1) blkSize, .free i, .free (i + 1), .malloc (i + 2) (2 * blkSize),
    .free (i + 2)]

section Round

variable {done : List Request} {blkSize : Nat}

/-- What is live in a round that starts with nothing. -/
theorem liveIds_round (hnone : liveIds done = ∅) (i : Nat) (r₁ r₂ r₃ : Nat) :
    liveIds (done ++ [Request.malloc i r₁]) = {i} ∧
      liveIds (done ++ [Request.malloc i r₁] ++ [Request.malloc (i + 1) r₂]) = {i, i + 1} ∧
      liveIds (done ++ [Request.malloc i r₁] ++ [Request.malloc (i + 1) r₂] ++ [Request.free i]) =
        {i + 1} ∧
      liveIds (done ++ [Request.malloc i r₁] ++ [Request.malloc (i + 1) r₂] ++ [Request.free i] ++
        [Request.free (i + 1)]) = ∅ ∧
      liveIds (done ++ [Request.malloc i r₁] ++ [Request.malloc (i + 1) r₂] ++ [Request.free i] ++
        [Request.free (i + 1)] ++ [Request.malloc (i + 2) r₃]) = {i + 2} ∧
      liveIds (done ++ [Request.malloc i r₁] ++ [Request.malloc (i + 1) r₂] ++ [Request.free i] ++
        [Request.free (i + 1)] ++ [Request.malloc (i + 2) r₃] ++ [Request.free (i + 2)]) = ∅ := by
  simp only [liveIds_concat, hnone, Request.liveAfter]
  refine ⟨rfl, ?_, ?_, ?_, ?_, ?_⟩ <;> ext j <;> simp <;> omega

/-- **A round leads from one free block back to one**, of a chunk and two blocks. -/
theorem Reached.round {s : Memlib} {a : Arena} (h : Reached s done a) (blkSize : Nat)
    (hnone : liveIds done = ∅)
    (hlong : chunksize < (requestBlock blkSize).size)
    (hroom : 4096 + 2 * (requestBlock blkSize).size ≤ heapRoom)
    (hsize : total a.list = 4096 ∨ total a.list = 4096 + 2 * (requestBlock blkSize).size) (i : Nat) :
    ∃ b, Reached s (done ++ coalescingRound blkSize i) b ∧
      liveIds (done ++ coalescingRound blkSize i) = ∅ ∧
      total b.list = 4096 + 2 * (requestBlock blkSize).size := by
  have hchunk : chunksize = 4096 := rfl
  have hbig : (requestBlock blkSize).size = 8 * ((blkSize + 15) / 8) := by
    rw [requestBlock_size, if_neg fun hle => ?_]
    rw [requestBlock_size, if_pos hle] at hlong
    omega
  have hdouble : (requestBlock (2 * blkSize)).size = 8 * ((2 * blkSize + 15) / 8) := by
    rw [requestBlock_size, if_neg (by omega)]
  obtain ⟨hone, htwo, hthree, hfour, hfive, hsix⟩ := liveIds_round hnone i blkSize blkSize (2 * blkSize)
  -- the two blocks
  obtain ⟨f, hlist, hf⟩ := h.drained hnone (by omega)
  have hfsize : f.size = total a.list := by rw [hlist]; simp
  obtain ⟨rest, hrest, hrestsize, hg, hsliver⟩ := @allocateBlock_last [] f blkSize (by simp) hf hlong.le
    (by omega) fun _ => by simp; omega
  have h₁ := h.malloc i (by simp [hnone]) (by omega) (by omega) (hlist ▸ hg) (hlist ▸ hsliver)
  obtain ⟨rest', hrest', hrestsize', hg', hsliver'⟩ := @allocateBlock_last [requestBlock blkSize] rest blkSize
    (by simp [requestBlock]) hrest hlong.le (by omega) fun _ => by simp; omega
  have h₂ := h₁.malloc (i + 1) (by rw [hone]; simp) (by omega) (by omega) hg' hsliver'
  -- they are joined again
  obtain ⟨c, h₃, hc⟩ := h₂.free i (by rw [htwo]; simp)
  obtain ⟨d, h₄, hd⟩ := h₃.free (i + 1) (by rw [hthree]; simp)
  have htotal : total d.list = 4096 + 2 * (requestBlock blkSize).size := by
    rw [hd, hc]
    simp [Focus.list]
    omega
  -- so that the large block finds room
  obtain ⟨e, hlist', he⟩ := h₄.drained hfour (by omega)
  have hesize : e.size = total d.list := by rw [hlist']; simp
  obtain ⟨last, -, hlast, hg'', hsliver''⟩ := @allocateBlock_last [] e (2 * blkSize) (by simp) he (by omega)
    (by omega) fun _ => by simp; omega
  have h₅ := h₄.malloc (i + 2) (by rw [hfour]; simp) (by omega) (by omega) (hlist' ▸ hg'')
    (hlist' ▸ hsliver'')
  obtain ⟨b, h₆, hb⟩ := h₅.free (i + 2) (by rw [hfive]; simp)
  have hround : done ++ coalescingRound blkSize i = done ++ [.malloc i blkSize] ++ [.malloc (i + 1) blkSize] ++
      [.free i] ++ [.free (i + 1)] ++ [.malloc (i + 2) (2 * blkSize)] ++ [.free (i + 2)] := by
    simp [coalescingRound]
  refine ⟨b, hround ▸ h₆, hround ▸ hsix, ?_⟩
  rw [hb]
  simp [Focus.list]
  omega

/-- A release does not count. -/
theorem highWaterMark_free {index : Nat} (h : index ∈ liveIds done) :
    highWaterMark (done ++ [.free index]) = highWaterMark done := by
  have hless := liveBytes_free h
  have hle := liveBytes_le_highWaterMark done
  rw [highWaterMark_concat]
  omega

/-- The most a round asks for at once is one large block, or two small ones. -/
theorem highWaterMark_round (hnone : liveIds done = ∅) (i : Nat) :
    highWaterMark (done ++ coalescingRound blkSize i) = max (highWaterMark done) (2 * blkSize) := by
  obtain ⟨hone, htwo, hthree, hfour, hfive, hsix⟩ := liveIds_round hnone i blkSize blkSize (2 * blkSize)
  have hempty : ∀ requests : List Request, liveIds requests = ∅ → liveBytes requests = 0 :=
    fun requests hreq => by rw [liveBytes, hreq, Finset.sum_empty]
  have hround : done ++ coalescingRound blkSize i = done ++ [.malloc i blkSize] ++ [.malloc (i + 1) blkSize] ++
      [.free i] ++ [.free (i + 1)] ++ [.malloc (i + 2) (2 * blkSize)] ++ [.free (i + 2)] := by
    simp [coalescingRound]
  rw [hround, highWaterMark_free (by rw [hfive]; simp), highWaterMark_concat,
    liveBytes_malloc (by rw [hfour]; simp), hempty _ hfour, highWaterMark_free (by rw [hthree]; simp),
    highWaterMark_free (by rw [htwo]; simp), highWaterMark_concat, liveBytes_malloc (by rw [hone]; simp),
    highWaterMark_concat, liveBytes_malloc (by simp [hnone]), hempty _ hnone]
  omega

end Round

/-! ## The trace -/

section Trace

variable {blkSize : Nat}

/-- **All rounds.** -/
theorem coalescing_reached (hlong : chunksize < (requestBlock blkSize).size)
    (hroom : 4096 + 2 * (requestBlock blkSize).size ≤ heapRoom) (s : Memlib) (n : Nat) :
    ∃ a, Reached s (coalescingTrace blkSize (n + 1)).requests a ∧
      liveIds (coalescingTrace blkSize (n + 1)).requests = ∅ ∧
      total a.list = 4096 + 2 * (requestBlock blkSize).size ∧
      highWaterMark (coalescingTrace blkSize (n + 1)).requests = 2 * blkSize := by
  induction n with
  | zero =>
      obtain ⟨a, ha, hnone, hsize⟩ := (Reached.start s).round blkSize rfl hlong hroom (.inl rfl) 0
      refine ⟨a, ha, hnone, hsize, ?_⟩
      have hpeak := @highWaterMark_round [] blkSize rfl 0
      exact hpeak.trans (by simp [highWaterMark, liveBytes, liveIds])
  | succ n ih =>
      obtain ⟨a, ha, hnone, hsize, hpeak⟩ := ih
      have hnext : (coalescingTrace blkSize (n + 1 + 1)).requests =
          (coalescingTrace blkSize (n + 1)).requests ++ coalescingRound blkSize (3 * (n + 1)) := by
        rw [coalescingTrace, coalescingTrace, List.range_succ, List.flatMap_append,
          List.flatMap_singleton]
        rfl
      obtain ⟨b, hb, hnone', hsize'⟩ := ha.round blkSize hnone hlong hroom (.inr hsize) (3 * (n + 1))
      rw [hnext]
      exact ⟨b, hb, hnone', hsize', by rw [highWaterMark_round hnone, hpeak, max_self]⟩

/-- **`mm.c` on the coalescing trace**, for blocks longer than a chunk of which two fit. On any memory,
the driver accepts the trace whatever the number of rounds, and its utilization is that of one round:
two blocks, over the heap with a chunk and two blocks. -/
theorem coalescing_utilization {numIters : Nat} (h : (Script.coalescing blkSize numIters).Ok)
    (hlong : chunksize < (requestBlock blkSize).size)
    (hroom : 4112 + 2 * (requestBlock blkSize).size ≤ maxHeap) {st : Evaluation Nat}
    (halign : 8 ∣ st.process.memlib.memStartBrk) (tracenum : Nat) :
    (∃ st', evalMmValid mmPackage tracenum st (coalescingTrace blkSize numIters).requests = some (1, st')) ∧
      ∃ u, evalMmUtil mmPackage st (coalescingTrace blkSize numIters).requests = some u ∧
        (u.ratio : ℚ) = (2 * blkSize : ℕ) / (4112 + 2 * (requestBlock blkSize).size : ℕ) := by
  have hfine := coalescing_fine h
  have hlegal : LegalRequests ∅ (coalescingTrace blkSize numIters).requests :=
    legalRequests_iff.mpr ⟨hfine.consistent, hfine.sized⟩
  obtain ⟨-, hn, -⟩ := h
  obtain ⟨n, rfl⟩ : ∃ n, numIters = n + 1 := ⟨numIters - 1, by omega⟩
  have hmax := maxHeap_eq
  have hheap := heapRoom_eq
  obtain ⟨a, ⟨⟨w, hrun, hw⟩, hanswered, -⟩, -, hsize, hpeak⟩ :=
    coalescing_reached hlong (by omega) st.process.memlib n
  have hret : none ∉ w.returned := hw.simulates.returned ▸ hanswered
  obtain ⟨u, hu, -, -, hratio, -⟩ := evalMmUtil_mm halign hlegal hrun hret
  refine ⟨?_, u, hu, ?_⟩
  · refine (evalMmValid_extends_iff mmPackage_extends (servedPackage_contract st.process halign) hlegal
      (neverNull_of_run hrun hret st.process) tracenum).mpr fun index size hmem => ?_
    simp [coalescingTrace] at hmem
  · rw [hratio, hpeak, hw.simulates.layout.memHeapsize_eq, hsize]
    congr 2
    omega

/-- The trace that the script makes. -/
theorem coalescing_utilization_genCoalescing :
    ∃ u, evalMmUtil mmPackage mmEvaluation Script.genCoalescing.trace.requests = some u ∧
      (u.ratio : ℚ) = 117 / 176 := by
  obtain ⟨u, hu, hratio⟩ := (@coalescing_utilization 4095 2400 (by norm_num [Script.Ok]) (by decide)
    (by decide) mmEvaluation (by decide) 0).2
  refine ⟨u, hu, hratio.trans ?_⟩
  norm_num [requestBlock_size]

end Trace

end MallocBench
