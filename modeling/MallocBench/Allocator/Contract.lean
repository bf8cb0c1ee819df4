import MallocBench.Allocator.Replay

/-! # What holds over whole replays

Three results on replays from a reset heap, each for every run whose requests the heap serves:

* `replay_wellFormed`: the heap stays well formed, and no request gets stuck;
* `replay_payloads`: live payloads are aligned, inside the heap, disjoint, and hold the client's
  bytes;
* `replay_deterministic`: the results depend on the requests alone, not on what the memory held or
  on what the client writes.

All three fail without the condition, and by the same defect of `place`: when the free block is
exactly 8 bytes too long, the 8 bytes left over keep whatever word was there, and the next walk reads
that word as a header. Each result is followed by a run that shows it. -/

namespace MallocBench

open ByteMemory Segments Runs

/-! ## The start of the heap stays put -/

/-- `extend_heap` leaves the start of the heap. -/
theorem extendHeap_memStartBrk (h : Heap) (words : Nat) :
    (extendHeap h words).2.memStartBrk = h.memStartBrk := by
  rw [extendHeap]
  cases hs : h.memSbrk (toInt32 (extendSize words)) with
  | none => rw [← extendSize, hs]
  | some r =>
      obtain ⟨bp, s⟩ := r
      have hst := Memlib.memSbrk_memStartBrk hs
      rw [← extendSize, hs]
      exact hst

/-- So does `mm_malloc`. -/
theorem mmMalloc_memStartBrk {h h' : Heap} {size : Nat} {p : Option Nat}
    (hm : mmMalloc h size = some (p, h')) : h'.memStartBrk = h.memStartBrk := by
  rw [mmMalloc] at hm
  split at hm
  · obtain ⟨-, rfl⟩ := Prod.mk.inj (Option.some.inj hm)
    rfl
  · simp only at hm
    split at hm
    · simp at hm
    · obtain ⟨-, rfl⟩ := Prod.mk.inj (Option.some.inj hm)
      exact h.setMem_memStartBrk _
    · have hext := extendHeap_memStartBrk h (max (adjustedSize size) chunksize / wsize)
      split at hm
      · next heq =>
        obtain ⟨-, rfl⟩ := Prod.mk.inj (Option.some.inj hm)
        rwa [heq] at hext
      · next heq =>
        obtain ⟨-, rfl⟩ := Prod.mk.inj (Option.some.inj hm)
        rw [heq] at hext
        rw [Heap.setMem_memStartBrk, hext]

/-- So does `mm_realloc`. -/
theorem mmRealloc_memStartBrk {h h' : Heap} {ptr size : Nat} {p : Option Nat}
    (hm : mmRealloc h ptr size = some (p, h')) : h'.memStartBrk = h.memStartBrk := by
  rw [mmRealloc] at hm
  split at hm
  · simp at hm
  · next heq =>
    obtain ⟨-, rfl⟩ := Prod.mk.inj (Option.some.inj hm)
    exact mmMalloc_memStartBrk heq
  · next heq =>
    obtain ⟨-, rfl⟩ := Prod.mk.inj (Option.some.inj hm)
    rw [← mmMalloc_memStartBrk heq]
    rfl

/-- No event moves the start of the heap. -/
theorem Replay.step_memStartBrk {w w' : Replay} {e : Event} (h : w.step e = some w') :
    w'.heap.memStartBrk = w.heap.memStartBrk := by
  cases e with
  | write index off v =>
      rw [Replay.step] at h
      split at h
      · simp at h
      · obtain rfl := Option.some.inj h
        rfl
  | request r =>
      rw [Replay.step] at h
      cases r with
      | malloc index size =>
          rw [Replay.serve] at h
          split at h
          · simp at h
          all_goals
            next heq =>
              obtain rfl := Option.some.inj h
              exact mmMalloc_memStartBrk heq
      | realloc index size =>
          rw [Replay.serve] at h
          split at h
          · simp at h
          · split at h
            · simp at h
            all_goals
              next heq =>
                obtain rfl := Option.some.inj h
                exact mmRealloc_memStartBrk heq
      | free index =>
          rw [Replay.serve] at h
          split at h
          · simp at h
          · obtain rfl := Option.some.inj h
            rfl

/-- Over a whole run the heap starts where the array does. -/
theorem Replay.run_memStartBrk {s : Memlib} {guard : Replay → Event → Prop} {es : List Event}
    {w : Replay} (h : Run Replay.step guard (Replay.start s) es w) :
    w.heap.memStartBrk = s.memStartBrk :=
  h.invariant (I := fun w => w.heap.memStartBrk = s.memStartBrk)
    (fun _ _ _ hw _ hs => (Replay.step_memStartBrk hs).trans hw)
    (mmInit_layout (s := s.memResetBrk) rfl).2.2

/-! ## Runs follow arenas -/

/-- A guarded run is followed by its arena. -/
theorem Replay.run_simulates {s : Memlib} {es : List Event} {w : Replay}
    (h : Run Replay.step Replay.Guarded (Replay.start s) es w) :
    ∃ a, exec Arena.serve Arena.start (es.filterMap Event.toRequest) = some a ∧
      Simulates w a := by
  refine h.exec_of_enabled (fun w a e w' hsim hg hs => ?_) (Simulates.start s)
  -- the arena moves, and the step the replay makes with it is the one the run made
  obtain ⟨b, hb⟩ := hsim.moves hg
  obtain ⟨w'', hs', hsim'⟩ := hsim.step hg.1 hb
  rw [hs] at hs'
  obtain rfl := Option.some.inj hs'
  exact ⟨b, hb, hsim'⟩

/-- A legal run whose requests an arena executes ends where the arena does. -/
theorem Replay.run_tracks {s : Memlib} {es : List Event} {w : Replay} {a : Arena}
    (h : Run Replay.step Replay.Legal (Replay.start s) es w)
    (hex : exec Arena.serve Arena.start (es.filterMap Event.toRequest) = some a) :
    Simulates w a := by
  refine h.tracks (fun w a e w' b hsim hl hs hb => ?_) (Simulates.start s) hex
  obtain ⟨w'', hs', hsim'⟩ := hsim.step hl hb
  rw [hs] at hs'
  obtain rfl := Option.some.inj hs'
  exact hsim'

/-! ## Well-formedness -/

/-- **The heap stays well formed.** From a reset heap with arbitrary contents, `mm_init` succeeds;
after every run of legal events that the heap serves, the heap is well formed, and the next such
event is served too. -/
theorem replay_wellFormed {s : Memlib} {es : List Event} {w : Replay}
    (h : Run Replay.step Replay.Guarded (Replay.start s) es w) :
    (mmInit s.memResetBrk).1 = 0 ∧ w.heap.WellFormed ∧
      ∀ e, w.Guarded e → ∃ w', w.step e = some w' := by
  obtain ⟨a, -, hsim⟩ := Replay.run_simulates h
  refine ⟨(mmInit_layout rfl).1, ⟨a.list, hsim.layout⟩, fun e he => ?_⟩
  obtain ⟨b, hb⟩ := hsim.moves he
  obtain ⟨w', hw, -⟩ := hsim.step he.1 hb
  exact ⟨w', hw⟩

/-- A memory system over memory of zero bytes. -/
def blankMemlib : Memlib := Memlib.memInit (fun _ => 0) 1024

/-- A replay with two allocations, a write, a reallocation and a release. -/
def sampleEvents : List Event :=
  [.request (.malloc 0 24), .request (.malloc 1 4000), .write 0 3 7, .request (.realloc 0 100),
    .request (.free 1)]

/-- A run with client writes, releases and a reallocation. -/
theorem replay_wellFormed_sample : ∃ w,
    Run Replay.step Replay.Guarded (Replay.start blankMemlib) sampleEvents w ∧
      w.heap.WellFormed := by
  obtain ⟨w, hw, -⟩ := exists_run_of_any Replay.step Replay.Guarded
    (Replay.start blankMemlib) sampleEvents (fun _ => true) (by decide +kernel)
  exact ⟨w, hw, (replay_wellFormed hw).2.1⟩

/-- A walk that steps from the first block onto a word of size zero before the break does not spell
a block list. -/
theorem not_wellFormed_of_gap {h : Heap} {n : Nat}
    (hsize : getSize h.mem (h.heapListp + 8 - 4) = n)
    (hgap : getSize h.mem (h.heapListp + 8 + n - 4) = 0)
    (hbrk : h.heapListp + 8 + n < h.memBrk) : ¬ h.WellFormed := by
  rintro ⟨bs, hl⟩
  have hend := hl.tiled.brk_eq
  have hwalk := hl.tiled.walk
  cases bs with
  | nil =>
      rw [total_nil] at hend
      omega
  | cons b bs =>
      obtain ⟨hb, hrest⟩ := chain_cons.mp hwalk
      have hbsize : n = b.size := hsize.symm.trans hb.size
      cases bs with
      | nil =>
          rw [total_cons, total_nil] at hend
          omega
      | cons c bs =>
          -- a second block would have the size read in the gap, which is zero
          have hcsize := (chain_cons.mp hrest).1.size
          rw [hdrp_eq, ← hbsize, hgap] at hcsize
          have := c.least_le
          omega

/-- After one request for 4080 bytes of the fresh chunk of 4096, the heap is not well formed. -/
theorem replay_not_wellFormed : ∃ w,
    Run Replay.step Replay.Legal (Replay.start blankMemlib) [.request (.malloc 0 4080)] w ∧
      ¬ w.heap.WellFormed := by
  obtain ⟨w, hw, hp⟩ := exists_run_of_any Replay.step Replay.Legal
    (Replay.start blankMemlib) [.request (.malloc 0 4080)]
    (fun w => decide (getSize w.heap.mem (w.heap.heapListp + 8 - 4) = 4088 ∧
      getSize w.heap.mem (w.heap.heapListp + 8 + 4088 - 4) = 0 ∧
      w.heap.heapListp + 8 + 4088 < w.heap.memBrk)) (by decide +kernel)
  obtain ⟨hsize, hgap, hbrk⟩ := of_decide_eq_true hp
  exact ⟨w, hw, not_wellFormed_of_gap hsize hgap hbrk⟩

/-! ## Payloads -/

/-- **The client's contract.** When the heap starts at a multiple of 8, then after every run of legal
events that the heap serves, every live payload starts at a multiple of 8, lies inside the heap, and
holds the bytes the client knows; two live payloads do not overlap. -/
theorem replay_payloads {s : Memlib} (hs : 8 ∣ s.memStartBrk) {es : List Event} {w : Replay}
    (h : Run Replay.step Replay.Guarded (Replay.start s) es w) :
    (∀ i p, w.blocks i = some p →
      8 ∣ p.ptr ∧ w.heap.memHeapLo ≤ p.ptr ∧ p.ptr + p.size ≤ w.heap.memHeapHi + 1 ∧
        ∀ k, k < p.size → w.heap.mem (p.ptr + k) = p.bytes k) ∧
    ∀ i j p q, w.blocks i = some p → w.blocks j = some q → i ≠ j →
      p.ptr + p.size ≤ q.ptr ∨ q.ptr + q.size ≤ p.ptr := by
  obtain ⟨a, -, hsim⟩ := Replay.run_simulates h
  have hstart := Replay.run_memStartBrk h
  have hlistp : w.heap.heapListp = w.heap.memStartBrk + 8 := hsim.layout.listp
  have hbrk := hsim.layout.tiled.brk_eq
  constructor
  · intro i p hp
    obtain ⟨⟨c, hc, -, hsize⟩, hbytes⟩ := hsim.held i p hp
    obtain ⟨hlo, hhi⟩ := bounds_of_mem_located hc
    have hdvd := dvd_of_mem_located hc
    refine ⟨?_, ?_, ?_, hbytes⟩
    · omega
    · rw [Memlib.memHeapLo]
      omega
    · rw [Memlib.memHeapHi]
      omega
  · intro i j p q hp hq hij
    obtain ⟨⟨c, hc, -, hcsize⟩, -⟩ := hsim.held i p hp
    obtain ⟨⟨d, hd, -, hdsize⟩, -⟩ := hsim.held j q hq
    -- two payloads are in two blocks, and blocks do not overlap
    have := located_disjoint hc hd (hsim.apart i j p q hp hq hij)
    omega

/-- A byte of a payload after such a run. -/
theorem replay_payloads_sample : ∃ w p,
    Run Replay.step Replay.Guarded (Replay.start blankMemlib) sampleEvents w ∧
      w.blocks 0 = some p ∧ 8 ∣ p.ptr ∧ w.heap.mem (p.ptr + 3) = p.bytes 3 := by
  obtain ⟨w, hw, hlive⟩ := exists_run_of_any Replay.step Replay.Guarded
    (Replay.start blankMemlib) sampleEvents
    (fun w => (w.blocks 0).any fun p : Payload => decide (3 < p.size)) (by decide +kernel)
  obtain ⟨p, hp, hsize⟩ := (Option.any_eq_true _ _).mp hlive
  have hheld := (replay_payloads (by decide) hw).1 0 p hp
  exact ⟨w, p, hw, hp, hheld.1, hheld.2.2.2 3 (of_decide_eq_true hsize)⟩

/-- A memory system over memory that holds the word 4096 in the last 8 bytes of the first chunk, and
zero bytes elsewhere. -/
def staleMemlib : Memlib := Memlib.memInit (fun a => if a = 5125 then 16 else 0) 1024

/-- The requests that leave 8 bytes of the first chunk and then walk over them. -/
def sliverEvents : List Event := [.request (.malloc 0 4080), .request (.malloc 1 16)]

/-- On stale memory the second payload ends outside the heap. -/
theorem replay_payload_outside : ∃ w p,
    Run Replay.step Replay.Legal (Replay.start staleMemlib) sliverEvents w ∧
      w.blocks 1 = some p ∧ w.heap.memHeapHi + 1 < p.ptr + p.size := by
  obtain ⟨w, hw, hlive⟩ := exists_run_of_any Replay.step Replay.Legal
    (Replay.start staleMemlib) sliverEvents
    (fun w => (w.blocks 1).any fun p : Payload => decide (w.heap.memHeapHi + 1 < p.ptr + p.size))
    (by decide +kernel)
  obtain ⟨p, hp, hout⟩ := (Option.any_eq_true _ _).mp hlive
  exact ⟨w, p, hw, hp, of_decide_eq_true hout⟩

/-! ## Determinism -/

/-- **Results depend on the requests alone.** Take a run of legal events that the heap serves, and
any other run of legal events, from any other contents and any other start of the heap, that makes
the same requests: both return the same sequence of nulls and offsets and end with the same heap
size. -/
theorem replay_deterministic {s₁ s₂ : Memlib} {es₁ es₂ : List Event} {w₁ w₂ : Replay}
    (h₁ : Run Replay.step Replay.Guarded (Replay.start s₁) es₁ w₁)
    (h₂ : Run Replay.step Replay.Legal (Replay.start s₂) es₂ w₂)
    (hes : es₁.filterMap Event.toRequest = es₂.filterMap Event.toRequest) :
    w₁.returned = w₂.returned ∧
      w₁.heap.memBrk - w₁.heap.memStartBrk = w₂.heap.memBrk - w₂.heap.memStartBrk := by
  obtain ⟨a, hex, hsim₁⟩ := Replay.run_simulates h₁
  rw [hes] at hex
  have hsim₂ := Replay.run_tracks h₂ hex
  -- the heap size is that of the arena, which both runs share
  have hend : ∀ {w : Replay}, Simulates w a → w.heap.memBrk - w.heap.memStartBrk
      = 16 + total a.list := by
    intro w hsim
    have hlistp : w.heap.heapListp = w.heap.memStartBrk + 8 := hsim.layout.listp
    have hbrk := hsim.layout.tiled.brk_eq
    omega
  exact ⟨hsim₁.returned.trans hsim₂.returned.symm, (hend hsim₁).trans (hend hsim₂).symm⟩

/-- The same requests on stale memory, without the client writes. -/
theorem replay_deterministic_sample : ∃ w₁ w₂,
    Run Replay.step Replay.Guarded (Replay.start blankMemlib) sampleEvents w₁ ∧
    Run Replay.step Replay.Legal (Replay.start staleMemlib)
      (sampleEvents.filter fun e => e.toRequest.isSome) w₂ ∧ w₁.returned = w₂.returned := by
  obtain ⟨w₁, hw₁, -⟩ := exists_run_of_any Replay.step Replay.Guarded
    (Replay.start blankMemlib) sampleEvents
    (fun _ => true) (by decide +kernel)
  obtain ⟨w₂, hw₂, -⟩ := exists_run_of_any Replay.step Replay.Legal
    (Replay.start staleMemlib) (sampleEvents.filter fun e => e.toRequest.isSome)
    (fun _ => true) (by decide +kernel)
  exact ⟨w₁, w₂, hw₁, hw₂, (replay_deterministic hw₁ hw₂ (by decide)).1⟩

/-- On blank and on stale memory the same requests return different offsets. -/
theorem replay_results_differ : ∃ w₁ w₂,
    Run Replay.step Replay.Legal (Replay.start blankMemlib) sliverEvents w₁ ∧
    Run Replay.step Replay.Legal (Replay.start staleMemlib) sliverEvents w₂ ∧
      w₁.returned ≠ w₂.returned := by
  obtain ⟨w₁, hw₁, h₁⟩ := exists_run_of_any Replay.step Replay.Legal
    (Replay.start blankMemlib) sliverEvents
    (fun w => decide (w.returned = [some 16, some 4112])) (by decide +kernel)
  obtain ⟨w₂, hw₂, h₂⟩ := exists_run_of_any Replay.step Replay.Legal
    (Replay.start staleMemlib) sliverEvents
    (fun w => decide (w.returned = [some 16, some 4104])) (by decide +kernel)
  refine ⟨w₁, w₂, hw₁, hw₂, ?_⟩
  rw [of_decide_eq_true h₁, of_decide_eq_true h₂]
  decide

end MallocBench
