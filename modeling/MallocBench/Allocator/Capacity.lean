import MallocBench.Allocator.Accounting
import Mathlib.Data.Finset.Card
import Mathlib.Data.Finset.Image

/-! # How large the heap gets

The heap is extended only when no free block is long enough, and its free blocks lie between blocks in
use. So the number of ids that are live at once and the longest block that is asked for bound the heap
over a whole replay, and with it whether a request can be refused at all.

* **`replay_heap_bound`**: the bound, and no refusal but of size zero when it is within the heap.
* **`replay_even_sizes`**: requests whose blocks are multiples of 16 never leave a sliver, so every
  legal replay of them is served. -/

namespace MallocBench

open ByteMemory Segments Runs

/-! ## The bound -/

/-- The size of the block a request needs. -/
def Request.blockSize : Request → Nat
  | .malloc _ size => (requestBlock size).size
  | .realloc _ size => (requestBlock size).size
  | .free _ => 0

/-- The bytes that blocks can take when at most `n` are in use at once and none is longer than `m`: the
blocks in use, one more free block than those, each too short for the next request, and the block the
heap is extended by. -/
def blockBound (n m : Nat) : Nat := n * m + (n + 1) * (m - 8) + max m 4096

/-- The request is answered with a pointer or null. -/
def Request.isAnswered : Request → Bool
  | .malloc _ _ => true
  | .realloc _ _ => true
  | .free _ => false

/-- Each answer is that of its request, and null only for a reallocation to size zero. -/
def OnlyZeroNull (requests : List Request) (returned : List (Option Nat)) : Prop :=
  List.Forall₂ (fun r answer => answer = none → ∃ index, r = .realloc index 0)
    (requests.filter Request.isAnswered) returned

/-- One more request with its answer. -/
theorem OnlyZeroNull.concat {requests : List Request} {returned : List (Option Nat)}
    (h : OnlyZeroNull requests returned) {r : Request} (hr : r.isAnswered = true) {answer : Option Nat}
    (hanswer : answer = none → ∃ index, r = .realloc index 0) :
    OnlyZeroNull (requests ++ [r]) (returned ++ [answer]) := by
  rw [OnlyZeroNull, List.filter_append, List.filter_singleton, hr]
  exact List.rel_append h (.cons hanswer .nil)

/-- Without reallocations to size zero there is no null. -/
theorem OnlyZeroNull.notMem {requests : List Request} {returned : List (Option Nat)}
    (h : OnlyZeroNull requests returned) (hpos : ∀ index, .realloc index 0 ∉ requests) :
    none ∉ returned := by
  intro hmem
  obtain ⟨i, hi, hnone⟩ := List.getElem_of_mem hmem
  have hi' : i < (requests.filter Request.isAnswered).length := by rwa [h.length_eq]
  obtain ⟨index, hindex⟩ := h.get hi' hi hnone
  have hreq := List.get_mem (requests.filter Request.isAnswered) ⟨i, hi'⟩
  rw [hindex] at hreq
  exact hpos index (List.mem_of_mem_filter hreq)

/-- The blocks in use are at most as many as the live ids. -/
theorem Arena.Accounts.usedAt_length_le {a : Arena} (h : a.Accounts) {live : Finset Nat}
    (hlive : ∀ i, a.table i ≠ none → i ∈ live) : (usedAt 0 a.list).length ≤ live.card := by
  let offsets := ((usedAt 0 a.list).map Prod.fst).toFinset
  have hcard : offsets.card = (usedAt 0 a.list).length := by
    rw [List.toFinset_card_of_nodup (usedAt_nodup (by decide) 0 a.list), List.length_map]
  -- the offset of a block in use is that of a live entry
  have hsub : offsets ⊆ live.image fun i => ((a.table i).getD (0, 0)).1 := by
    intro off hoff
    obtain ⟨⟨off, c⟩, hc, rfl⟩ := List.mem_map.mp (List.mem_toFinset.mp hoff)
    obtain ⟨i, size, hi, -⟩ := h off c hc
    exact Finset.mem_image.mpr ⟨i, hlive i (by simp [hi]), by simp [hi]⟩
  calc (usedAt 0 a.list).length = offsets.card := hcard.symm
    _ ≤ (live.image fun i => ((a.table i).getD (0, 0)).1).card := Finset.card_le_card hsub
    _ ≤ live.card := Finset.card_image_le

/-- What a replay keeps besides its accounts: the entries of the table are live and not too long, and
the region is within a bound. -/
structure Arena.Within (a : Arena) (live : Finset Nat) (m bound : Nat) : Prop where
  live : ∀ i, a.table i ≠ none → i ∈ live
  sizes : ∀ i off size, a.table i = some (off, size) → (requestBlock size).size ≤ m
  total : total a.list ≤ bound

section Step

variable {a b : Arena} {live : Finset Nat} {n m bound : Nat}

/-- **A region in which a request fits nowhere** is fragmented at most that far. -/
theorem Arena.Within.total_le (h : a.Within live m bound) (hacc : a.Accounts)
    (hcoal : Coalesced a.list) (hcard : live.card ≤ n) {size : Nat}
    (hm : (requestBlock size).size ≤ m) (hfit : firstFit (requestBlock size).size a.list = none) :
    Segments.total a.list ≤ n * m + (n + 1) * (m - 8) := by
  have hlen := (hacc.usedAt_length_le h.live).trans hcard
  have hused : ∀ b ∈ a.list, b.alloc = true → b.size ≤ m := by
    intro b hb halloc
    obtain ⟨off, hoff⟩ := exists_mem_located 0 hb
    obtain ⟨i, size, hi, hsize⟩ := hacc off b (mem_usedAt.mpr ⟨hoff, halloc⟩)
    exact hsize.trans_le (h.sizes i off size hi)
  have hfree : ∀ b ∈ a.list, b.alloc = false → b.size ≤ m - 8 := by
    intro b hb halloc
    have hlt := firstFit_none.mp hfit b hb halloc
    have hdvd := b.unit_dvd
    have hdvd' := (requestBlock size).unit_dvd
    omega
  calc Segments.total a.list
      ≤ (usedAt 0 a.list).length * m + ((usedAt 0 a.list).length + 1) * (m - 8) :=
        (total_le_of_coalesced hcoal hused hfree).1
    _ ≤ n * m + (n + 1) * (m - 8) := by gcongr

/-- An allocation stays within the bound, and is refused only when the bound exceeds the room. -/
theorem Arena.Within.allocate (h : a.Within live m (blockBound n m)) (hacc : a.Accounts)
    (hcoal : Coalesced a.list) (hcard : live.card ≤ n) {size : Nat}
    (hm : (requestBlock size).size ≤ m) :
    (∀ g, allocateBlock a.list size = some g → Segments.total g.list ≤ blockBound n m) ∧
      (blockBound n m ≤ heapRoom → allocateBlock a.list size ≠ none) := by
  have hexp := expendBlock_size (requestBlock size)
  constructor
  · intro g hg
    rcases total_allocate hg with heq | ⟨hfit, heq⟩
    · exact heq.trans_le h.total
    · have hle := h.total_le hacc hcoal hcard hm hfit
      rw [heq, blockBound]
      omega
  · intro hroom hnone
    rw [allocateBlock, Segments.allocate] at hnone
    cases hfit : firstFit (requestBlock size).size a.list with
    | some f => simp [hfit] at hnone
    | none =>
        have hle := h.total_le hacc hcoal hcard hm hfit
        rw [blockBound] at hroom
        rw [hfit] at hnone
        simp only at hnone
        rw [if_pos (by omega)] at hnone
        simp at hnone

/-- The entries after a request under an index. -/
theorem Arena.Within.update (h : a.Within live m bound) {list : List Block} {index off size : Nat}
    {returned : List (Option Nat)} (hm : (requestBlock size).size ≤ m)
    (htotal : Segments.total list ≤ bound) :
    Arena.Within ⟨list, Function.update a.table index (some (off, size)), returned⟩
      (insert index live) m bound := by
  refine ⟨fun i hi => ?_, fun i off' size' hi => ?_, htotal⟩
  · by_cases hidx : i = index
    · exact Finset.mem_insert.mpr (Or.inl hidx)
    · simp only [Function.update_of_ne hidx] at hi
      exact Finset.mem_insert.mpr (Or.inr (h.live i hi))
  · by_cases hidx : i = index
    · subst hidx
      simp only [Function.update_self, Option.some.injEq, Prod.mk.injEq] at hi
      exact hi.2 ▸ hm
    · simp only [Function.update_of_ne hidx] at hi
      exact h.sizes i off' size' hi

/-- **A request keeps the bound**, and is answered when the bound is within the room. -/
theorem Arena.Within.serve (h : a.Within live m (blockBound n m)) (hacc : a.Accounts)
    (hcoal : Coalesced a.list) (hcard : live.card ≤ n) {r : Request} (hm : r.blockSize ≤ m)
    (hmove : a.serve r = some b) :
    b.Within (r.liveAfter live) m (blockBound n m) ∧
      (blockBound n m ≤ heapRoom → ∀ done, OnlyZeroNull done a.returned →
        OnlyZeroNull (done ++ [r]) b.returned) := by
  have hserve := (Arena.serve_eq_some.mp hmove).2
  cases r with
  | malloc index size =>
      obtain ⟨hbound, hroom⟩ := h.allocate hacc hcoal hcard hm
      obtain ⟨hnone, rfl⟩ | ⟨g, hg, rfl⟩ := Arena.move_malloc hserve
      · exact ⟨⟨fun i hi => Finset.mem_insert.mpr (Or.inr (h.live i hi)), h.sizes, h.total⟩,
          fun hle => absurd hnone (hroom hle)⟩
      · exact ⟨h.update hm (hbound g hg), fun _ _ hret => hret.concat rfl fun hnone => nomatch hnone⟩
  | realloc index size =>
      obtain ⟨hbound, hroom⟩ := h.allocate hacc hcoal hcard hm
      obtain ⟨old, hold, ⟨hwhy, rfl⟩ | ⟨g, f, -, hg, hlist, -, rfl⟩⟩ := Arena.move_realloc hserve
      · refine ⟨⟨h.live, h.sizes, h.total⟩, fun hle done hret => ?_⟩
        rcases hwhy with rfl | hnone
        · exact hret.concat rfl fun _ => ⟨index, rfl⟩
        · exact absurd hnone (hroom hle)
      · have htotal : Segments.total f.release.list ≤ blockBound n m := by
          rw [Focus.total_release, hlist]
          exact hbound g hg
        refine ⟨?_, fun _ _ hret => hret.concat rfl fun hnone => nomatch hnone⟩
        rw [← Finset.insert_eq_of_mem (h.live index (by simp [hold]))]
        exact h.update hm htotal
  | free index =>
      obtain ⟨old, f, -, hlist, -, rfl⟩ := Arena.move_free hserve
      refine ⟨⟨fun i hi => ?_, fun i off size hi => ?_, ?_⟩, fun _ done hret => ?_⟩
      · have hidx : i ≠ index := by
          rintro rfl
          simp at hi
        simp only [Function.update_of_ne hidx] at hi
        exact Finset.mem_erase.mpr ⟨hidx, h.live i hi⟩
      · have hidx : i ≠ index := by
          rintro rfl
          simp at hi
        simp only [Function.update_of_ne hidx] at hi
        exact h.sizes i off size hi
      · rw [Focus.total_release, hlist]
        exact h.total
      · -- a release has no answer
        rwa [OnlyZeroNull, List.filter_append, List.filter_singleton, Request.isAnswered, cond_false,
          List.append_nil]

end Step

/-- A fresh arena is within every bound. -/
theorem Arena.Within.start (n m : Nat) : Arena.start.Within ∅ m (blockBound n m) := by
  refine ⟨by simp [Arena.start], by simp [Arena.start], ?_⟩
  have hchunk : Segments.total Arena.start.list = 4096 := by decide
  rw [hchunk, blockBound]
  omega

/-- A guarded run is followed by an arena that stays within the bound. -/
theorem Replay.run_within {s : Memlib} {es : List Event} {w : Replay} {n m : Nat}
    (h : Run Replay.step Replay.Guarded (Replay.start s) es w)
    (hlive : ∀ done, done <+: es.filterMap Event.toRequest → (liveIds done).card ≤ n)
    (hsize : ∀ r ∈ es.filterMap Event.toRequest, r.blockSize ≤ m) :
    ∃ a, Accounted w a ∧
      a.Within (liveIds (es.filterMap Event.toRequest)) m (blockBound n m) ∧
      (blockBound n m ≤ heapRoom → OnlyZeroNull (es.filterMap Event.toRequest) a.returned) := by
  refine h.history
    (I := fun done w => ∃ a, Accounted w a ∧
      a.Within (liveIds (done.filterMap Event.toRequest)) m (blockBound n m) ∧
      (blockBound n m ≤ heapRoom → OnlyZeroNull (done.filterMap Event.toRequest) a.returned))
    ⟨Arena.start, Accounted.start s, Arena.Within.start n m, fun _ => List.Forall₂.nil⟩ ?_
  rintro done e w w' hprefix ⟨a, ha, hwithin, hanswered⟩ hg hs
  obtain ⟨b, hb, hab⟩ := ha.step hg hs
  have hreq := hprefix.filterMap Event.toRequest
  rw [List.filterMap_append] at hreq ⊢
  refine ⟨b, hab, ?_⟩
  cases e with
  | write index off v =>
      obtain rfl := Option.some.inj hb
      simp only [List.filterMap_cons, Event.toRequest, List.filterMap_nil, List.append_nil]
      exact ⟨hwithin, hanswered⟩
  | request r =>
      simp only [List.filterMap_cons, Event.toRequest, List.filterMap_nil] at hreq ⊢
      have hmem : r ∈ es.filterMap Event.toRequest := hreq.subset (by simp)
      obtain ⟨hwithin', hnext⟩ := hwithin.serve ha.accounts ha.simulates.layout.coalesced
        (hlive _ ((List.prefix_append _ _).trans hreq)) (hsize r hmem) hb
      rw [liveIds_concat]
      exact ⟨hwithin', fun hroom => hnext hroom _ (hanswered hroom)⟩

/-- **The heap is bounded.** When at most `n` ids are live at once and no block longer than `m` is asked
for, every run of legal events that the heap serves keeps the heap within `blockBound n m` bytes and
the 16 bytes around the blocks. When these are at most `MAX_HEAP` bytes, every allocation and
reallocation has its answer, and only those of a reallocation to size zero are null. -/
theorem replay_heap_bound {s : Memlib} {es : List Event} {w : Replay} {n m : Nat}
    (h : Run Replay.step Replay.Guarded (Replay.start s) es w)
    (hlive : ∀ done, done <+: es.filterMap Event.toRequest → (liveIds done).card ≤ n)
    (hsize : ∀ r ∈ es.filterMap Event.toRequest, r.blockSize ≤ m) :
    w.heap.memHeapsize ≤ blockBound n m + 16 ∧
      (blockBound n m + 16 ≤ maxHeap → OnlyZeroNull (es.filterMap Event.toRequest) w.returned) := by
  obtain ⟨a, ha, hwithin, hanswered⟩ := Replay.run_within h hlive hsize
  constructor
  · have htotal := hwithin.total
    rw [ha.simulates.layout.memHeapsize_eq]
    omega
  · intro hroom
    rw [maxHeap_eq] at hroom
    rw [ha.simulates.returned]
    exact hanswered (by rw [heapRoom_eq]; omega)

/-- At most two of the ids of the sample are live at once, with blocks of at most 4008 bytes. -/
theorem replay_heap_bound_sample : ∃ w,
    Run Replay.step Replay.Guarded (Replay.start blankMemlib) sampleEvents w ∧
      w.heap.memHeapsize ≤ 24128 ∧ none ∉ w.returned := by
  obtain ⟨w, hw, -⟩ := exists_run_of_any Replay.step Replay.Guarded
    (Replay.start blankMemlib) sampleEvents (fun _ => true) (by decide +kernel)
  have hlive : ∀ done, done <+: sampleEvents.filterMap Event.toRequest →
      (liveIds done).card ≤ 2 := by
    intro done hdone
    have hall : ∀ done ∈ (sampleEvents.filterMap Event.toRequest).inits,
        (liveIds done).card ≤ 2 := by decide
    exact hall done ((List.mem_inits _ _).mpr hdone)
  obtain ⟨hbound, hanswered⟩ := replay_heap_bound hw hlive (m := 4008) (by decide)
  have hroom : blockBound 2 4008 + 16 = 24128 := by decide
  rw [hroom] at hbound hanswered
  refine ⟨w, hw, hbound, (hanswered (by decide)).notMem fun index => ?_⟩
  simp [sampleEvents, Event.toRequest]

/-! ## Blocks that never leave a sliver -/

/-- In a list of blocks whose sizes are multiples of 16 no block is 8 bytes too long. -/
theorem not_leavesSliver_of_dvdSizes {bs : List Block} (hbs : DvdSizes 16 bs) {a : Block}
    (ha : 16 ∣ a.size) : ¬ LeavesSliver bs a := by
  have hexp : 16 ∣ (expendBlock a).size := by
    rw [expendBlock_size]
    omega
  rw [LeavesSliver]
  cases hf : firstFit a.size bs with
  | some f =>
      obtain ⟨rfl, -⟩ := firstFit_some hf
      have hmid := (Focus.dvdSizes_list.mp hbs).2.1
      simp only
      omega
  | none =>
      have hmid := (Focus.dvdSizes_list.mp (dvdSizes_grown hbs hexp)).2.1
      simp only
      omega

/-- A move keeps the sizes multiples of 16. -/
theorem Arena.dvdSizes_serve {a b : Arena} (h : DvdSizes 16 a.list) {r : Request}
    (hr : 16 ∣ r.blockSize) (hmove : a.serve r = some b) : DvdSizes 16 b.list := by
  have hserve := (Arena.serve_eq_some.mp hmove).2
  have hallocate {size : Nat} (hsize : 16 ∣ (requestBlock size).size) {g : Focus 8 16}
      (hg : allocateBlock a.list size = some g) : DvdSizes 16 g.list := by
    refine dvdSizes_allocate hg h hsize ?_
    rw [expendBlock_size]
    omega
  cases r with
  | malloc index size =>
      obtain ⟨-, rfl⟩ | ⟨g, hg, rfl⟩ := Arena.move_malloc hserve
      · exact h
      · exact hallocate hr hg
  | realloc index size =>
      obtain ⟨old, -, ⟨-, rfl⟩ | ⟨g, f, -, hg, hlist, -, rfl⟩⟩ := Arena.move_realloc hserve
      · exact h
      · exact Focus.dvdSizes_release (hlist ▸ hallocate hr hg)
  | free index =>
      obtain ⟨old, f, -, hlist, -, rfl⟩ := Arena.move_free hserve
      exact Focus.dvdSizes_release (hlist ▸ h)

/-- The requests whose blocks are multiples of 16, with sizes up to `INT_MAX`. -/
def Request.Even : Request → Prop
  | .malloc _ size => 16 ∣ (requestBlock size).size
  | .realloc _ size => 16 ∣ (requestBlock size).size ∧ size ≤ intMax
  | .free _ => True

/-- The block of an even request is a multiple of 16 bytes. -/
theorem Request.Even.dvd {r : Request} (h : r.Even) : 16 ∣ r.blockSize := by
  cases r with
  | malloc index size => exact h
  | realloc index size => exact h.1
  | free index => exact Nat.dvd_zero 16

/-- A replay in a list of blocks whose sizes are multiples of 16. -/
def Replay.Even (w : Replay) : Prop := ∃ a, Simulates w a ∧ DvdSizes 16 a.list

/-- At the start all blocks are even. -/
theorem Replay.Even.start (s : Memlib) : (Replay.start s).Even :=
  ⟨Arena.start, Simulates.start s, by decide⟩

/-- A legal event with an even request is served. -/
theorem Replay.Even.guarded {w : Replay} (h : w.Even) {e : Event} (hlegal : w.Legal e)
    (he : ∀ r, e.toRequest = some r → r.Even) : w.Guarded e := by
  obtain ⟨a, hsim, hdvd⟩ := h
  refine ⟨hlegal, ?_⟩
  have hserves {size : Nat} (hmax : size ≤ intMax) (hsize : 16 ∣ (requestBlock size).size) :
      w.heap.Serves size := by
    refine Heap.serves_of_le hsim.layout hmax fun hsliver => ?_
    have hwrap : intMax + 15 < 2 ^ 64 := by decide
    exact not_leavesSliver_of_dvdSizes hdvd hsize
      ((leavesSliver_iff hsim.layout (by omega)).mp hsliver)
  cases e with
  | write index off v => trivial
  | request r =>
      have hr := he r rfl
      cases r with
      | malloc index size => exact hserves hlegal.2.2 hr
      | realloc index size => exact hserves hr.2 hr.1
      | free index => trivial

/-- **The step lemma**: a guarded event with an even request leaves an even replay. -/
theorem Replay.Even.step {w w' : Replay} (h : w.Even) {e : Event} (hg : w.Guarded e)
    (he : ∀ r, e.toRequest = some r → r.Even) (hs : w.step e = some w') : w'.Even := by
  obtain ⟨a, hsim, hdvd⟩ := h
  obtain ⟨b, hb⟩ := hsim.moves hg
  obtain ⟨w'', hs', hsim'⟩ := hsim.step hg.1 hb
  rw [hs] at hs'
  obtain rfl := Option.some.inj hs'
  refine ⟨b, hsim', ?_⟩
  cases e with
  | write index off v =>
      obtain rfl := Option.some.inj hb
      exact hdvd
  | request r => exact Arena.dvdSizes_serve hdvd (he r rfl).dvd hb

/-- **Even requests are always served.** When all blocks asked for are multiples of 16 bytes long, no
legal run leaves a sliver: it is a run that the heap serves. -/
theorem replay_even_sizes {s : Memlib} {es : List Event} {w : Replay}
    (h : Run Replay.step Replay.Legal (Replay.start s) es w)
    (heven : ∀ r ∈ es.filterMap Event.toRequest, r.Even) :
    Run Replay.step Replay.Guarded (Replay.start s) es w := by
  refine h.strengthen (I := Replay.Even) (P := fun e => ∀ r, e.toRequest = some r → r.Even) ?_
    (fun e he r hr => heven r (List.mem_filterMap.mpr ⟨e, he, hr⟩)) (Replay.Even.start s)
  intro w e w' hw he hlegal hs
  have hguard := hw.guarded hlegal he
  exact ⟨hguard, hw.step hguard he hs⟩

/-- Blocks of 32, 4016 and 112 bytes. -/
def evenEvents : List Event :=
  [.request (.malloc 0 24), .request (.malloc 1 4004), .request (.realloc 0 100),
    .request (.free 1)]

/-- A run of even requests, with client writes, is served. -/
theorem replay_even_sizes_sample : ∃ w,
    Run Replay.step Replay.Guarded (Replay.start blankMemlib) evenEvents w := by
  obtain ⟨w, hw, -⟩ := exists_run_of_any Replay.step Replay.Legal
    (Replay.start blankMemlib) evenEvents (fun _ => true) (by decide +kernel)
  refine ⟨w, replay_even_sizes hw fun r hr => ?_⟩
  simp only [evenEvents, List.filterMap_cons, Event.toRequest, List.filterMap_nil, List.mem_cons,
    List.not_mem_nil, or_false] at hr
  obtain rfl | rfl | rfl | rfl := hr <;> simp only [Request.Even] <;> decide

end MallocBench
