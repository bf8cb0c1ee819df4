import MallocBench.Allocator.Capacity
import MallocBench.Harness.MmPackage
import MallocBench.Harness.Validity

/-! # The driver accepts `mm.c`

`eval_mm_valid` replays a trace against a package and checks what it is given. Here the package is
`mm.c`, and the replay of the driver is compared with a plain one, without the fills.

* **`evalMmValid_mm_iff`**: a trace that a plain replay serves and answers is accepted by the driver,
  exactly when it reallocates ids with a low byte below 128 only.
* **`evalMmValid_mm_even`**: so is every consistent trace of even requests that is small enough for the
  heap, whatever the memory holds. -/

namespace MallocBench

open ByteMemory Segments Runs

/-! ## Packages that differ in null answers -/

section Extends

variable {σ : Type} {pkg pkg' : Package σ}

/-- The package answers as `pkg` does, wherever `pkg` does not answer null. -/
structure Package.Extends (pkg' pkg : Package σ) : Prop where
  init : pkg'.mmInit = pkg.mmInit
  malloc : ∀ size s, (pkg.mmMalloc size s).1 ≠ 0 → pkg'.mmMalloc size s = pkg.mmMalloc size s
  realloc : ∀ ptr size s, (pkg.mmRealloc ptr size s).1 ≠ 0 →
    pkg'.mmRealloc ptr size s = pkg.mmRealloc ptr size s
  free : pkg'.mmFree = pkg.mmFree

/-- `mm.c` answers whatever the package that only serves some requests answers. -/
theorem mmPackage_extends : mmPackage.Extends servedPackage :=
  ⟨rfl, fun _ _ => served_malloc_eq, fun _ _ _ => served_realloc_eq, rfl⟩

/-- A request that is rejected ends the loop. -/
theorem evalOps_stop {tracenum i : Nat} {st st' : Evaluation σ} {r : Request}
    (h : evalOp pkg tracenum i st r = some (0, st')) (rest : List Request) :
    evalOps pkg tracenum i st (r :: rest) = some (0, st') := by
  rw [evalOps, h]
  rfl

/-- The loop over the requests that are left does the same with both packages. -/
theorem evalOps_extends (hext : pkg'.Extends pkg) {start : Process σ} (hcontract : Contract pkg start)
    {done rest : List Request} (hnull : NeverNull pkg start (done ++ rest)) {st : Evaluation σ}
    {blocks : Nat → Option Extent} (hf : Follows pkg start done st blocks) {live : Finset Nat}
    (hlive : ∀ i, i ∈ live ↔ blocks i ≠ none) (hlegal : LegalRequests live rest) (tracenum i : Nat) :
    evalOps pkg' tracenum i st rest = evalOps pkg tracenum i st rest := by
  induction rest generalizing done st blocks live i with
  | nil => rfl
  | cons r rest ih =>
      have hsofar : done ++ [r] <+: done ++ r :: rest := ⟨rest, by simp⟩
      have hrest : done ++ r :: rest = done ++ [r] ++ rest := by simp
      cases r with
      | malloc index size =>
          obtain ⟨hfresh, hsize, hlegal⟩ := hlegal
          have hcall := hnull.malloc hf.session index size hsofar
          obtain ⟨st', b, hop, hf'⟩ := evalOp_malloc hcontract hf tracenum i
            (not_not.mp (mt (hlive index).mpr hfresh)) hsize hcall
          have hop' : evalOp pkg' tracenum i st (.malloc index size) = some (1, st') := by
            rw [← hop]
            simp only [evalOp, hext.malloc _ _ hcall]
          rw [evalOps_cons hop, evalOps_cons hop',
            ih (hrest ▸ hnull) hf' (mem_insert_iff_update hlive index b) hlegal]
      | realloc index size =>
          obtain ⟨hmem, hsize, hlegal⟩ := hlegal
          obtain ⟨old, hold⟩ := Option.ne_none_iff_exists'.mp ((hlive index).mp hmem)
          have hcall := hnull.realloc hf.session index size old hsofar hold
          obtain ⟨st', b, hop, hf'⟩ := evalOp_realloc hcontract hf tracenum i hold hsize hcall
          have hop' : evalOp pkg' tracenum i st (.realloc index size) =
              evalOp pkg tracenum i st (.realloc index size) := by
            rw [← (hf.describes.region index old hold).1] at hcall
            simp only [evalOp, hext.realloc _ _ _ hcall]
          rw [hop] at hop'
          by_cases hlow : lowByte index < 128
          · rw [if_pos hlow] at hop hop'
            have hlive' := mem_insert_iff_update hlive index b
            rw [Finset.insert_eq_of_mem hmem] at hlive'
            rw [evalOps_cons hop, evalOps_cons hop', ih (hrest ▸ hnull) (hf' hlow) hlive' hlegal]
          · -- both functions return here
            rw [if_neg hlow] at hop hop'
            rw [evalOps_stop hop, evalOps_stop hop']
      | free index =>
          obtain ⟨hmem, hlegal⟩ := hlegal
          obtain ⟨old, hold⟩ := Option.ne_none_iff_exists'.mp ((hlive index).mp hmem)
          obtain ⟨st', hop, hf'⟩ := evalOp_free hcontract hf tracenum i hold
          have hop' : evalOp pkg' tracenum i st (.free index) = some (1, st') := by
            rw [← hop]
            simp only [evalOp, hext.free]
          rw [evalOps_cons hop, evalOps_cons hop',
            ih (hrest ▸ hnull) hf' (mem_erase_iff_update hlive index) hlegal]

/-- **The driver does not see where the packages differ**, on traces without a null answer: it accepts
both on the same ones. -/
theorem evalMmValid_extends_iff (hext : pkg'.Extends pkg) {st : Evaluation σ}
    (hcontract : Contract pkg st.process) {requests : List Request}
    (hlegal : LegalRequests ∅ requests) (hnull : NeverNull pkg st.process requests)
    (tracenum : Nat) :
    (∃ st', evalMmValid pkg' tracenum st requests = some (1, st')) ↔
      ∀ index size, .realloc index size ∈ requests → lowByte index < 128 := by
  have hinit : ¬ (pkg.mmInit st.process.resetBrk).1 < 0 := not_lt.mpr hcontract.init
  have hnull' : NeverNull pkg st.process ([] ++ requests) := hnull
  have hfollows : Follows pkg st.process [] { st with
      process := (pkg.mmInit st.process.resetBrk).2
      harness := st.harness.clearRanges } fun _ => none :=
    ⟨Session.init, by simp, by simp, by simp [Harness.clearRanges], List.Pairwise.nil⟩
  simp only [evalMmValid, hext.init]
  rw [if_neg hinit, evalOps_extends hext hcontract hnull' hfollows (by simp) hlegal tracenum 0]
  exact evalOps_iff hcontract hnull' hfollows (by simp) hlegal tracenum 0

end Extends

/-! ## Traces that are answered -/

/-- The events of a replay without writes. -/
theorem filterMap_request (requests : List Request) :
    (requests.map Event.request).filterMap Event.toRequest = requests := by
  rw [List.filterMap_map]
  exact List.filterMap_some

/-- A move only adds to the results. -/
theorem Arena.returned_prefix_serve {a b : Arena} {r : Request} (h : a.serve r = some b) :
    a.returned <+: b.returned := by
  have hmove := (Arena.serve_eq_some.mp h).2
  cases r with
  | malloc index size =>
      obtain ⟨-, rfl⟩ | ⟨g, -, rfl⟩ := Arena.move_malloc hmove
      · exact List.prefix_append _ _
      · exact List.prefix_append _ _
  | realloc index size =>
      obtain ⟨old, -, ⟨-, rfl⟩ | ⟨g, f, -, -, -, -, rfl⟩⟩ := Arena.move_realloc hmove
      · exact List.prefix_append _ _
      · exact List.prefix_append _ _
  | free index =>
      obtain ⟨old, f, -, -, -, rfl⟩ := Arena.move_free hmove
      exact List.prefix_rfl

/-- An execution without a null result passes, before each of its requests, through an arena that
answers the request. -/
theorem Arena.exec_answered {a : Arena} {requests done : List Request} {r : Request}
    (hex : exec Arena.serve Arena.start requests = some a) (hret : none ∉ a.returned)
    (hsofar : done ++ [r] <+: requests) :
    ∃ b c, exec Arena.serve Arena.start done = some b ∧ b.serve r = some c ∧ none ∉ c.returned := by
  obtain ⟨rest, rfl⟩ := hsofar
  rw [exec_append, exec_append] at hex
  obtain ⟨c, hc, hrest⟩ := Option.bind_eq_some_iff.mp hex
  obtain ⟨b, hb, hbc⟩ := Option.bind_eq_some_iff.mp hc
  obtain ⟨c', hc', heq⟩ := Option.bind_eq_some_iff.mp hbc
  obtain rfl := Option.some.inj heq
  refine ⟨b, c', hb, hc', fun hmem => hret ?_⟩
  refine List.IsPrefix.subset ?_ hmem
  exact exec_invariant (I := fun d => c'.returned <+: d.returned)
    (fun _ _ _ hd hs => hd.trans (Arena.returned_prefix_serve hs)) hrest List.prefix_rfl

/-- **The guarded package answers** the requests that an arena answers. -/
theorem servedPackage_neverNull (start : Process Nat) {requests : List Request} {a : Arena}
    (hex : exec Arena.serve Arena.start requests = some a) (hret : none ∉ a.returned)
    (hmalloc : ∀ index size, .malloc index size ∈ requests → 1 ≤ size ∧ size ≤ intMax)
    (hrealloc : ∀ index size, .realloc index size ∈ requests → size < 2 ^ 64) :
    NeverNull servedPackage start requests where
  malloc {done s blocks} hs index size hsofar := by
    obtain ⟨hpos, hmax⟩ := hmalloc index size (hsofar.subset (by simp))
    obtain ⟨w, h⟩ := session_replays hs
    obtain ⟨es, hrun, hes⟩ := h.run
    obtain ⟨b, c, hb, hc, hanswer⟩ := Arena.exec_answered hex hret hsofar
    obtain ⟨b', hb', hsim⟩ := Replay.run_simulates hrun
    rw [hes, hb] at hb'
    obtain rfl := Option.some.inj hb'
    obtain ⟨hserved, hmove⟩ := Arena.serve_eq_some.mp hc
    have hl := hsim.layout
    rw [h.heap] at hl
    obtain ⟨-, rfl⟩ | ⟨g, hg, -⟩ := Arena.move_malloc hmove
    · simp [Arena.refuse] at hanswer
    · have hserves : s.heap.Serves size := (serves_iff hl size).mpr hserved
      obtain ⟨h', hm, -⟩ := mmMalloc_some hl (by omega) hserves hg
      simp only [servedPackage, mmPackage]
      rw [if_pos ⟨hmax, hserves⟩, hm]
      simp [answer]
  realloc {done s blocks} hs index size old hsofar hlive := by
    have hmax := hrealloc index size (hsofar.subset (by simp))
    obtain ⟨w, h⟩ := session_replays hs
    obtain ⟨es, hrun, hes⟩ := h.run
    obtain ⟨q, hq, rfl⟩ := h.live hlive
    obtain ⟨b, c, hb, hc, hanswer⟩ := Arena.exec_answered hex hret hsofar
    obtain ⟨b', hb', hsim⟩ := Replay.run_simulates hrun
    rw [hes, hb] at hb'
    obtain rfl := Option.some.inj hb'
    obtain ⟨hserved, hmove⟩ := Arena.serve_eq_some.mp hc
    obtain ⟨d, hd, hused, -⟩ := (hsim.held index q hq).block
    have hl := hsim.layout
    rw [h.heap] at hl hd
    obtain ⟨-, -, ⟨-, rfl⟩ | ⟨g, f, hpos, hg, -⟩⟩ := Arena.move_realloc hmove
    · simp [Arena.refuse] at hanswer
    · have hserves : s.heap.Serves size := (serves_iff hl size).mpr hserved
      obtain ⟨-, h', -, -, -, hm, -⟩ := mmRealloc_some hl hd hused hpos hserves hg
      simp only [servedPackage, mmPackage, Payload.extent]
      rw [if_pos ⟨hmax, hserves⟩, hm]
      simp [answer]

/-- What a legal run requests. -/
theorem Replay.legal_of_run {s : Memlib} {es : List Event} {w : Replay}
    (h : Run Replay.step Replay.Guarded (Replay.start s) es w) :
    (∀ index size, .malloc index size ∈ es.filterMap Event.toRequest → 1 ≤ size ∧ size ≤ intMax) ∧
      ∀ index size, .realloc index size ∈ es.filterMap Event.toRequest → size < 2 ^ 64 := by
  refine h.history (I := fun done _ =>
    (∀ index size, .malloc index size ∈ done.filterMap Event.toRequest → 1 ≤ size ∧ size ≤ intMax) ∧
      ∀ index size, .realloc index size ∈ done.filterMap Event.toRequest → size < 2 ^ 64)
    (by simp) ?_
  rintro done e w w' - ⟨hmalloc, hrealloc⟩ hg -
  rw [List.filterMap_append]
  refine ⟨fun index size hmem => ?_, fun index size hmem => ?_⟩
  · rcases List.mem_append.mp hmem with hmem | hmem
    · exact hmalloc index size hmem
    · obtain ⟨e', he', heq⟩ := List.mem_filterMap.mp hmem
      obtain rfl := List.mem_singleton.mp he'
      cases e' with
      | write index off v => simp [Event.toRequest] at heq
      | request r =>
          obtain rfl := Option.some.inj heq
          exact hg.1.2
  · rcases List.mem_append.mp hmem with hmem | hmem
    · exact hrealloc index size hmem
    · obtain ⟨e', he', heq⟩ := List.mem_filterMap.mp hmem
      obtain rfl := List.mem_singleton.mp he'
      cases e' with
      | write index off v => simp [Event.toRequest] at heq
      | request r =>
          obtain rfl := Option.some.inj heq
          exact hg.1.2

/-- A trace that a plain replay serves and answers is answered in every session, on any memory. -/
theorem neverNull_of_run {requests : List Request} {s : Memlib} {w : Replay}
    (hrun : Run Replay.step Replay.Guarded (Replay.start s) (requests.map Event.request) w)
    (hret : none ∉ w.returned) (start : Process Nat) : NeverNull servedPackage start requests := by
  obtain ⟨a, hex, hsim⟩ := Replay.run_simulates hrun
  obtain ⟨hmalloc, hrealloc⟩ := Replay.legal_of_run hrun
  rw [filterMap_request] at hex hmalloc hrealloc
  rw [hsim.returned] at hret
  exact servedPackage_neverNull start hex hret hmalloc hrealloc

/-- **The driver accepts `mm.c`.** Take a consistent trace that a plain replay serves and answers, from
whatever memory. On any other memory, with the heap at a multiple of 8, the driver accepts `mm.c` on
the trace exactly when it reallocates ids with a low byte below 128 only. -/
theorem evalMmValid_mm_iff {st : Evaluation Nat} (halign : 8 ∣ st.process.memlib.memStartBrk)
    {requests : List Request} (hlegal : LegalRequests ∅ requests) {s : Memlib} {w : Replay}
    (hrun : Run Replay.step Replay.Guarded (Replay.start s) (requests.map Event.request) w)
    (hret : none ∉ w.returned) (tracenum : Nat) :
    (∃ st', evalMmValid mmPackage tracenum st requests = some (1, st')) ↔
      ∀ index size, .realloc index size ∈ requests → lowByte index < 128 :=
  evalMmValid_extends_iff mmPackage_extends (servedPackage_contract st.process halign) hlegal
    (neverNull_of_run hrun hret st.process) tracenum

/-- The driver before a trace, with `mm.c` and the heap at 1024. -/
def mmEvaluation : Evaluation Nat where
  process := ⟨0, blankMemlib⟩
  harness := Harness.start 0 ""
  blocks _ := 0
  blockSizes _ := 0

/-- A trace of two payloads, one of which is reallocated. -/
theorem evalMmValid_mm_iff_sample :
    (∃ st', evalMmValid mmPackage 0 mmEvaluation [.malloc 0 24, .malloc 1 4000, .realloc 0 100,
        .free 1] = some (1, st')) ↔
      ∀ index size, .realloc index size ∈
        [Request.malloc 0 24, .malloc 1 4000, .realloc 0 100, .free 1] → lowByte index < 128 := by
  obtain ⟨w, hw, hret⟩ := exists_run_of_any Replay.step Replay.Guarded (Replay.start staleMemlib)
    ([Request.malloc 0 24, .malloc 1 4000, .realloc 0 100, .free 1].map Event.request)
    (fun w => decide (none ∉ w.returned)) (by decide +kernel)
  exact evalMmValid_mm_iff (by decide) (by simp [LegalRequests]) hw (of_decide_eq_true hret) 0

/-! ## Even traces -/

/-- Legal requests, one list after the other. -/
theorem legalRequests_append {live : Finset Nat} {xs ys : List Request} :
    LegalRequests live (xs ++ ys) ↔
      LegalRequests live xs ∧ LegalRequests (xs.foldl Request.liveAfter live) ys := by
  induction xs generalizing live with
  | nil => simp [LegalRequests]
  | cons r xs ih =>
      cases r with
      | malloc index size =>
          simp only [List.cons_append, LegalRequests, ih, List.foldl_cons, Request.liveAfter, and_assoc]
      | realloc index size =>
          simp only [List.cons_append, LegalRequests, ih, List.foldl_cons, Request.liveAfter, and_assoc]
      | free index =>
          simp only [List.cons_append, LegalRequests, ih, List.foldl_cons, Request.liveAfter, and_assoc]

/-- The payloads are under exactly these ids. -/
def Replay.LiveAt (w : Replay) (live : Finset Nat) : Prop := ∀ i, i ∈ live ↔ w.blocks i ≠ none

/-- A request that is not answered with null makes its id live, and a release makes it dead. -/
theorem Replay.LiveAt.step {w w' : Replay} {live : Finset Nat} (h : w.LiveAt live) {r : Request}
    (hs : w.step (.request r) = some w') (hret : none ∉ w'.returned) :
    w'.LiveAt (r.liveAfter live) := by
  refine fun i => ⟨fun hi => ?_, Replay.live_step hs (fun i => (h i).mpr) i⟩
  rw [Replay.step] at hs
  cases r with
  | malloc index size =>
      rw [Replay.serve] at hs
      split at hs
      · simp at hs
      · obtain rfl := Option.some.inj hs
        simp at hret
      · obtain rfl := Option.some.inj hs
        by_cases hidx : i = index
        · subst hidx
          simp
        · simp only [Function.update_of_ne hidx]
          exact (h i).mp (Finset.mem_of_mem_insert_of_ne hi hidx)
  | realloc index size =>
      rw [Replay.serve] at hs
      split at hs
      · simp at hs
      · split at hs
        · simp at hs
        · obtain rfl := Option.some.inj hs
          simp at hret
        · obtain rfl := Option.some.inj hs
          by_cases hidx : i = index
          · subst hidx
            simp
          · simp only [Function.update_of_ne hidx]
            exact (h i).mp hi
  | free index =>
      rw [Replay.serve] at hs
      split at hs
      · simp at hs
      · obtain rfl := Option.some.inj hs
        obtain ⟨hidx, hi⟩ := Finset.mem_erase.mp hi
        simp only [Function.update_of_ne hidx]
        exact (h i).mp hi

/-- The next request of a consistent trace is legal in a replay of those before. -/
theorem Replay.LiveAt.legal {w : Replay} {live : Finset Nat} (h : w.LiveAt live) {r : Request}
    (hlegal : LegalRequests live [r]) (hmax : r.blockSize ≤ maxHeap) :
    w.Legal (.request r) := by
  have hint : intMax = 2147483647 := rfl
  rw [maxHeap_eq] at hmax
  cases r with
  | malloc index size =>
      obtain ⟨hfresh, hsize, -⟩ := hlegal
      have hle := size_add_le_requestBlock size
      rw [Request.blockSize] at hmax
      exact ⟨not_not.mp (mt (h index).mpr hfresh), hsize, by omega⟩
  | realloc index size =>
      obtain ⟨hmem, -, -⟩ := hlegal
      have hle := size_add_le_requestBlock size
      rw [Request.blockSize] at hmax
      exact ⟨Option.isSome_iff_ne_none.mpr ((h index).mp hmem), by omega⟩
  | free index =>
      obtain ⟨hmem, -⟩ := hlegal
      exact Option.isSome_iff_ne_none.mpr ((h index).mp hmem)

/-- A trace that asks for blocks that are multiples of 16 and not longer than `m`, with at most `n` ids
live at once, where blocks of this number and length fit into the heap. -/
structure EvenTrace (requests : List Request) (n m : Nat) : Prop where
  legal : LegalRequests ∅ requests
  live : ∀ done, done <+: requests → (liveIds done).card ≤ n
  sizes : ∀ r ∈ requests, 16 ∣ r.blockSize ∧ r.blockSize ≤ m
  room : blockBound n m + 16 ≤ maxHeap

namespace EvenTrace

variable {requests : List Request} {n m : Nat}

/-- A block of the trace is shorter than the heap. -/
theorem blockSize_le (h : EvenTrace requests n m) {r : Request} (hr : r ∈ requests) :
    r.blockSize ≤ maxHeap := by
  have hroom := h.room
  have hsize := (h.sizes r hr).2
  rw [blockBound] at hroom
  omega

/-- Each request is even. -/
theorem even (h : EvenTrace requests n m) {r : Request} (hr : r ∈ requests) : r.Even := by
  have hdvd := (h.sizes r hr).1
  have hle := h.blockSize_le hr
  have hint : intMax = 2147483647 := rfl
  rw [maxHeap_eq] at hle
  cases r with
  | malloc index size => exact hdvd
  | realloc index size =>
      have := size_add_le_requestBlock size
      rw [Request.blockSize] at hle
      exact ⟨hdvd, by omega⟩
  | free index => trivial

/-- The first requests of an even trace are an even trace. -/
theorem of_append {done : List Request} {rest : List Request} (h : EvenTrace (done ++ rest) n m) :
    EvenTrace done n m :=
  ⟨(legalRequests_append.mp h.legal).1, fun pre hpre => h.live pre (hpre.trans (List.prefix_append _ _)),
    fun r hr => h.sizes r (List.mem_append_left _ hr), h.room⟩

/-- No reallocation of a consistent trace is to size zero. -/
theorem realloc_pos {live : Finset Nat} (h : LegalRequests live requests) (index : Nat) :
    .realloc index 0 ∉ requests := by
  induction requests generalizing live with
  | nil => exact List.not_mem_nil
  | cons r requests ih =>
      intro hmem
      cases r with
      | malloc i size =>
          rcases List.mem_cons.mp hmem with heq | hmem
          · simp at heq
          · exact ih h.2.2 hmem
      | realloc i size =>
          rcases List.mem_cons.mp hmem with heq | hmem
          · obtain ⟨-, rfl⟩ := Request.realloc.inj heq
            exact absurd h.2.1 (by decide)
          · exact ih h.2.2 hmem
      | free i =>
          rcases List.mem_cons.mp hmem with heq | hmem
          · simp at heq
          · exact ih h.2 hmem

/-- After every run that the heap serves, the next such event is served. -/
theorem Replay.run_enabled {s : Memlib} {es : List Event} {w : Replay} {e : Event}
    (h : Run Replay.step Replay.Guarded (Replay.start s) es w) (he : w.Guarded e) :
    ∃ w', w.step e = some w' := by
  obtain ⟨a, -, hsim⟩ := Replay.run_simulates h
  obtain ⟨b, hb⟩ := hsim.moves he
  obtain ⟨w', hw, -⟩ := hsim.step he.1 hb
  exact ⟨w', hw⟩

/-- **An even trace is served and answered**, from whatever memory. -/
theorem exists_run (h : EvenTrace requests n m) (s : Memlib) :
    ∃ w, Run Replay.step Replay.Guarded (Replay.start s) (requests.map Event.request) w ∧
      none ∉ w.returned ∧ w.LiveAt (liveIds requests) ∧ w.Even := by
  induction requests using List.reverseRecOn with
  | nil =>
      exact ⟨_, Run.nil _, by simp [Replay.start], fun i => by simp [liveIds, Replay.start],
        Replay.Even.start s⟩
  | append_singleton done r ih =>
      obtain ⟨w, hrun, -, hlive, heven⟩ := ih h.of_append
      have hr : r ∈ done ++ [r] := by simp
      have hlegal := hlive.legal (legalRequests_append.mp h.legal).2 (h.blockSize_le hr)
      have hreq : ∀ r', (Event.request r).toRequest = some r' → r'.Even := by
        intro r' heq
        obtain rfl := Option.some.inj heq
        exact h.even hr
      have hguard := heven.guarded hlegal hreq
      obtain ⟨w', hstep⟩ := Replay.run_enabled hrun hguard
      have hrun' := hrun.concat hguard hstep
      have hmap : done.map Event.request ++ [Event.request r] = (done ++ [r]).map Event.request := by
        simp
      rw [hmap] at hrun'
      have hlive' := h.live
      have hsizes' : ∀ r' ∈ done ++ [r], r'.blockSize ≤ m := fun r' hr' => (h.sizes r' hr').2
      rw [← filterMap_request (done ++ [r])] at hlive' hsizes'
      have hanswered : none ∉ w'.returned := by
        obtain ⟨a, ha, -, hans⟩ := Replay.run_within hrun' hlive' hsizes'
        have hroom := h.room
        rw [maxHeap_eq] at hroom
        rw [ha.simulates.returned]
        refine (hans (by rw [heapRoom_eq]; omega)).notMem ?_
        rw [filterMap_request]
        exact realloc_pos h.legal
      refine ⟨w', hrun', hanswered, ?_, heven.step hguard hreq hstep⟩
      rw [liveIds_concat]
      exact hlive.step hstep hanswered

end EvenTrace

/-- **The driver accepts `mm.c` on every even trace** that reallocates ids with a low byte below 128
only, whatever the memory holds, with the heap at a multiple of 8. -/
theorem evalMmValid_mm_even {st : Evaluation Nat} (halign : 8 ∣ st.process.memlib.memStartBrk)
    {requests : List Request} {n m : Nat} (h : EvenTrace requests n m)
    (hlow : ∀ index size, .realloc index size ∈ requests → lowByte index < 128) (tracenum : Nat) :
    ∃ st', evalMmValid mmPackage tracenum st requests = some (1, st') := by
  obtain ⟨w, hrun, hret, -⟩ := h.exists_run st.process.memlib
  exact (evalMmValid_extends_iff mmPackage_extends (servedPackage_contract st.process halign) h.legal
    (neverNull_of_run hrun hret st.process) tracenum).mpr hlow

/-- The requests of `evenEvents` and the release of the other id. -/
def evenRequests : List Request :=
  [.malloc 0 24, .malloc 1 4004, .realloc 0 100, .free 1, .free 0]

/-- These requests are even, for at most two payloads of 4016 bytes. -/
theorem evenRequests_evenTrace : EvenTrace evenRequests 2 4016 := by
  refine ⟨?_, ?_, ?_, by decide⟩
  · simp [LegalRequests, evenRequests]
  · intro done hdone
    have hall : ∀ done ∈ evenRequests.inits, (liveIds done).card ≤ 2 := by decide
    exact hall done ((List.mem_inits _ _).mpr hdone)
  · decide

/-- They reallocate an id below 128. -/
theorem evenRequests_low (index size : Nat) (hmem : .realloc index size ∈ evenRequests) :
    lowByte index < 128 := by
  simp only [evenRequests, List.mem_cons, List.not_mem_nil, or_false, reduceCtorEq, false_or,
    Request.realloc.injEq] at hmem
  rw [hmem.1]
  decide

/-- The driver accepts them. -/
theorem evalMmValid_mm_even_sample :
    ∃ st', evalMmValid mmPackage 0 mmEvaluation evenRequests = some (1, st') :=
  evalMmValid_mm_even (by decide) evenRequests_evenTrace evenRequests_low 0

end MallocBench
