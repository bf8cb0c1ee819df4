import MallocBench.Allocator.Accounting
import MallocBench.Harness.Sessions
import Mathlib.Data.Fintype.EquivFin

/-! # `mm.c` as a malloc package

The four functions of `mm.c` on the variable `heap_listp` and the memory system are a package
(`mmPackage`). It does not honour the malloc contract: a request that leaves 8 bytes of a block spoils
the walk over the heap. `servedPackage` is the same package with these requests answered by null, so
that nothing is promised after them.

* `session_replays`: a session with `servedPackage` is a replay of the requests, with the client's
  writes between them.
* **`servedPackage_contract`**: it honours the malloc contract, whenever the heap starts at a multiple
  of 8. -/

namespace MallocBench

open ByteMemory Segments Runs

/-! ## The packages -/

/-- The allocator's state in a process. -/
def Process.heap (s : Process Nat) : Heap := { toMemlib := s.memlib, heapListp := s.globals }

/-- A process with this allocator's state. -/
def Heap.process (h : Heap) : Process Nat := ⟨h.heapListp, h.toMemlib⟩

/-- The heap in the process made of it. -/
@[simp] theorem Heap.heap_process (h : Heap) : h.process.heap = h := rfl

/-- The process made of its heap. -/
@[simp] theorem Process.process_heap (s : Process Nat) : s.heap.process = s := rfl

/-- The answer of a call. A search that leaves the memory has no behaviour in C; here it is null. -/
def answer (s : Process Nat) : Option (Option Nat × Heap) → Nat × Process Nat
  | none => (0, s)
  | some (p, h) => (p.getD 0, h.process)

/-- `mm.c`. -/
def mmPackage : Package Nat where
  mmInit s := ((mmInit s.memlib).1, (mmInit s.memlib).2.process)
  mmMalloc size s := answer s (mmMalloc s.heap size)
  mmRealloc ptr size s := answer s (mmRealloc s.heap ptr size)
  mmFree ptr s := (mmFree s.heap ptr).process

/-- `mm.c` with null for the requests that the heap does not serve as it should. -/
def servedPackage : Package Nat where
  mmInit := mmPackage.mmInit
  mmMalloc size s :=
    if size ≤ intMax ∧ s.heap.Serves size then mmPackage.mmMalloc size s else (0, s)
  mmRealloc ptr size s :=
    if size < 2 ^ 64 ∧ s.heap.Serves size then mmPackage.mmRealloc ptr size s else (0, s)
  mmFree := mmPackage.mmFree

/-- An answer that is not null. -/
theorem of_answer {s t : Process Nat} {r : Option (Option Nat × Heap)} {p : Nat}
    (h : answer s r = (p, t)) (hp : p ≠ 0) : r = some (some p, t.heap) := by
  rcases r with _ | ⟨_ | q, g⟩
  · exact absurd (Prod.mk.inj h).1.symm hp
  · exact absurd (Prod.mk.inj h).1.symm hp
  · obtain ⟨rfl, rfl⟩ := Prod.mk.inj h
    rfl

/-- `mm_malloc` of the guarded package, when it is not null. -/
theorem served_malloc {s t : Process Nat} {size p : Nat}
    (h : servedPackage.mmMalloc size s = (p, t)) (hp : p ≠ 0) :
    size ≤ intMax ∧ s.heap.Serves size ∧ mmMalloc s.heap size = some (some p, t.heap) := by
  simp only [servedPackage] at h
  split at h
  · next hok => exact ⟨hok.1, hok.2, of_answer h hp⟩
  · exact absurd (Prod.mk.inj h).1.symm hp

/-- `mm_realloc` of the guarded package, when it is not null. -/
theorem served_realloc {s t : Process Nat} {ptr size p : Nat}
    (h : servedPackage.mmRealloc ptr size s = (p, t)) (hp : p ≠ 0) :
    size < 2 ^ 64 ∧ s.heap.Serves size ∧ mmRealloc s.heap ptr size = some (some p, t.heap) := by
  simp only [servedPackage] at h
  split at h
  · next hok => exact ⟨hok.1, hok.2, of_answer h hp⟩
  · exact absurd (Prod.mk.inj h).1.symm hp

/-- The guard changes null answers only. -/
theorem served_malloc_eq {s : Process Nat} {size : Nat}
    (h : (servedPackage.mmMalloc size s).1 ≠ 0) :
    mmPackage.mmMalloc size s = servedPackage.mmMalloc size s := by
  simp only [servedPackage] at h ⊢
  split at h
  · next hok => rw [if_pos hok]
  · exact absurd rfl h

/-- Where it answers, the package that only serves some requests reallocates like `mm.c`. -/
theorem served_realloc_eq {s : Process Nat} {ptr size : Nat}
    (h : (servedPackage.mmRealloc ptr size s).1 ≠ 0) :
    mmPackage.mmRealloc ptr size s = servedPackage.mmRealloc ptr size s := by
  simp only [servedPackage] at h ⊢
  split at h
  · next hok => rw [if_pos hok]
  · exact absurd rfl h

/-! ## Sessions are replays -/

/-- Where a payload of a replay is. -/
def Payload.extent (p : Payload) : Extent := ⟨p.ptr, p.size⟩

/-- The replay has made the requests, none of them answered with null, and is in the state of the
process and its payloads. -/
structure Replays (start : Process Nat) (done : List Request) (s : Process Nat)
    (blocks : Nat → Option Extent) (w : Replay) : Prop where
  run : ∃ es, Run Replay.step Replay.Guarded (Replay.start start.memlib) es w ∧
    es.filterMap Event.toRequest = done
  heap : w.heap = s.heap
  blocks : ∀ i, (w.blocks i).map Payload.extent = blocks i
  answered : none ∉ w.returned

namespace Replays

variable {start s t : Process Nat} {done : List Request} {blocks : Nat → Option Extent}
  {w w' : Replay} {index size p : Nat}

/-- The payload of a live id. -/
theorem live (h : Replays start done s blocks w) {b : Extent} (hb : blocks index = some b) :
    ∃ q, w.blocks index = some q ∧ q.extent = b :=
  Option.map_eq_some_iff.mp ((h.blocks index).trans hb)

/-- An id without a payload has none in the replay. -/
theorem none_of_none (h : Replays start done s blocks w) (hn : blocks index = none) :
    w.blocks index = none := by
  have := h.blocks index
  rwa [hn, Option.map_eq_none_iff] at this

/-- A new payload under an index. -/
theorem update (h : Replays start done s blocks w) {q : Payload} {new : Option Extent}
    (hq : (some q).map Payload.extent = new) (i : Nat) :
    (Function.update w.blocks index (some q) i).map Payload.extent =
      Function.update blocks index new i := by
  by_cases hi : i = index
  · subst hi
    rw [Function.update_self, Function.update_self, hq]
  · rw [Function.update_of_ne hi, Function.update_of_ne hi, h.blocks]

/-- One more event of the replay. -/
theorem run_concat (h : Replays start done s blocks w) {e : Event} (hg : w.Guarded e)
    (hs : w.step e = some w') :
    ∃ es, Run Replay.step Replay.Guarded (Replay.start start.memlib) es w' ∧
      es.filterMap Event.toRequest = done ++ [e].filterMap Event.toRequest := by
  obtain ⟨es, hrun, hes⟩ := h.run
  exact ⟨es ++ [e], hrun.concat hg hs, by rw [List.filterMap_append, hes]⟩

/-- An allocation that is granted. -/
theorem malloc (h : Replays start done s blocks w) (hfresh : blocks index = none) (hsize : 0 < size)
    (hcall : servedPackage.mmMalloc size s = (p, t)) (hp : p ≠ 0) :
    ∃ w', w.step (.request (.malloc index size)) = some w' ∧
      Replays start (done ++ [.malloc index size]) t
        (Function.update blocks index (some ⟨p, size⟩)) w' := by
  obtain ⟨hmax, hserves, hm⟩ := served_malloc hcall hp
  rw [← h.heap] at hserves hm
  have hstep : w.step (.request (.malloc index size)) = some ⟨t.heap,
      Function.update w.blocks index (some ⟨p, size, fun i => t.heap.mem (p + i)⟩),
      w.returned ++ [some (p - t.heap.memStartBrk)]⟩ := by
    rw [Replay.step, Replay.serve, hm]
  have hguard : w.Guarded (.request (.malloc index size)) :=
    ⟨⟨h.none_of_none hfresh, hsize, hmax⟩, hserves⟩
  refine ⟨_, hstep, h.run_concat hguard hstep, rfl, ?_, ?_⟩
  · exact h.update rfl
  · simpa using h.answered

/-- A reallocation that is granted. -/
theorem realloc (h : Replays start done s blocks w) {old : Extent} (hlive : blocks index = some old)
    (hcall : servedPackage.mmRealloc old.ptr size s = (p, t)) (hp : p ≠ 0) :
    ∃ w' q q', w.step (.request (.realloc index size)) = some w' ∧ w.blocks index = some q ∧
      q.extent = old ∧ w'.blocks index = some q' ∧ q'.extent = ⟨p, size⟩ ∧
      (∀ k, k < q.size → q'.bytes k = q.bytes k) ∧
      Replays start (done ++ [.realloc index size]) t
        (Function.update blocks index (some ⟨p, size⟩)) w' := by
  obtain ⟨hmax, hserves, hm⟩ := served_realloc hcall hp
  obtain ⟨q, hq, rfl⟩ := h.live hlive
  rw [← h.heap] at hserves hm
  have hm' : mmRealloc w.heap q.ptr size = some (some p, t.heap) := hm
  have hstep : w.step (.request (.realloc index size)) = some ⟨t.heap,
      Function.update w.blocks index
        (some ⟨p, size, fun i => if i < q.size then q.bytes i else t.heap.mem (p + i)⟩),
      w.returned ++ [some (p - t.heap.memStartBrk)]⟩ := by
    rw [Replay.step, Replay.serve, hq]
    simp only [hm']
  have hguard : w.Guarded (.request (.realloc index size)) := ⟨⟨by simp [hq], hmax⟩, hserves⟩
  refine ⟨_, q, _, hstep, hq, rfl, Function.update_self .., rfl, fun k hk => if_pos hk,
    h.run_concat hguard hstep, rfl, ?_, ?_⟩
  · exact h.update rfl
  · simpa using h.answered

/-- A release. -/
theorem free (h : Replays start done s blocks w) {old : Extent} (hlive : blocks index = some old) :
    ∃ w', w.step (.request (.free index)) = some w' ∧ w'.blocks = Function.update w.blocks index none ∧
      Replays start (done ++ [.free index]) (servedPackage.mmFree old.ptr s)
        (Function.update blocks index none) w' := by
  obtain ⟨q, hq, rfl⟩ := h.live hlive
  have hstep : w.step (.request (.free index)) = some ⟨mmFree w.heap q.ptr,
      Function.update w.blocks index none, w.returned⟩ := by
    rw [Replay.step, Replay.serve, hq]
  have hguard : w.Guarded (.request (.free index)) := by
    refine ⟨?_, trivial⟩
    rw [Replay.Legal, hq]
    rfl
  refine ⟨_, hstep, rfl, h.run_concat hguard hstep, ?_, fun i => ?_, h.answered⟩
  · simp only [h.heap]
    rfl
  · by_cases hi : i = index
    · subst hi
      simp
    · simp only [Function.update_of_ne hi, h.blocks]

/-- Overwriting the first bytes of a payload, one after the other. -/
theorem write (h : Replays start done s blocks w) {b : Extent} (hlive : blocks index = some b)
    (bytes : Nat → UInt8) {n : Nat} (hn : n ≤ b.size) :
    ∃ w', Replays start done (s.setMem (blit s.memlib.mem b.ptr n bytes)) blocks w' := by
  induction n with
  | zero =>
      have hmem : blit s.memlib.mem b.ptr 0 bytes = s.memlib.mem :=
        funext fun x => blit_apply_of_notMem _ _ _ _ (by omega)
      rw [hmem]
      exact ⟨w, h⟩
  | succ n ih =>
      obtain ⟨w', h'⟩ := ih (by omega)
      obtain ⟨q, hq, rfl⟩ := h'.live hlive
      have hstep : w'.step (.write index n (bytes n)) = some
          ⟨w'.heap.setMem (Function.update w'.heap.mem (q.ptr + n) (bytes n)),
            Function.update w'.blocks index
              (some { q with bytes := Function.update q.bytes n (bytes n) }), w'.returned⟩ := by
        rw [Replay.step, hq]
      have hguard : w'.Guarded (.write index n (bytes n)) := ⟨⟨q, hq, hn⟩, trivial⟩
      obtain ⟨es, hrun, hes⟩ := h'.run_concat hguard hstep
      refine ⟨_, ⟨es, hrun, ?_⟩, ?_, fun i => ?_, h'.answered⟩
      · rwa [List.filterMap_cons, Event.toRequest, List.filterMap_nil, List.append_nil] at hes
      · simp only [h'.heap, blit_succ]
        rfl
      · by_cases hi : i = index
        · subst hi
          simp only [Function.update_self]
          exact hlive.symm
        · simp only [Function.update_of_ne hi, h'.blocks]

end Replays

/-- **A session is a replay** of its requests. -/
theorem session_replays {start s : Process Nat} {done : List Request} {blocks : Nat → Option Extent}
    (hs : Session servedPackage start done s blocks) : ∃ w, Replays start done s blocks w := by
  induction hs with
  | init => exact ⟨Replay.start start.memlib, ⟨[], Run.nil _, rfl⟩, rfl, fun i => rfl, by
      simp [Replay.start]⟩
  | malloc _ hfresh hsize hcall hp ih =>
      obtain ⟨w, h⟩ := ih
      obtain ⟨w', -, h'⟩ := h.malloc hfresh hsize hcall hp
      exact ⟨w', h'⟩
  | realloc _ hlive _ hcall hp ih =>
      obtain ⟨w, h⟩ := ih
      obtain ⟨w', -, -, -, -, -, -, -, -, h'⟩ := h.realloc hlive hcall hp
      exact ⟨w', h'⟩
  | free _ hlive ih =>
      obtain ⟨w, h⟩ := ih
      obtain ⟨w', -, -, h'⟩ := h.free hlive
      exact ⟨w', h'⟩
  | write _ hlive bytes ih =>
      obtain ⟨w, h⟩ := ih
      exact h.write hlive bytes le_rfl

/-! ## The contract -/

/-- A payload is aligned, in the heap, and holds what the client knows. -/
theorem Simulates.payload {w : Replay} {a : Arena} (h : Simulates w a)
    (halign : 8 ∣ w.heap.memStartBrk) {i : Nat} {q : Payload} (hq : w.blocks i = some q) :
    8 ∣ q.ptr ∧ w.heap.memHeapLo ≤ q.ptr ∧ q.ptr + q.size ≤ w.heap.memHeapHi + 1 ∧
      ∀ k, k < q.size → w.heap.mem (q.ptr + k) = q.bytes k := by
  obtain ⟨⟨c, hc, -, hsize⟩, hbytes⟩ := h.held i q hq
  obtain ⟨hlo, hhi⟩ := bounds_of_mem_located hc
  have hdvd := dvd_of_mem_located hc
  have hlistp : w.heap.heapListp = w.heap.memStartBrk + 8 := h.layout.listp
  have hbrk := h.layout.tiled.brk_eq
  rw [Memlib.memHeapLo, Memlib.memHeapHi]
  exact ⟨by omega, by omega, by omega, hbytes⟩

/-- Two payloads are in two blocks. -/
theorem Simulates.payloads_apart {w : Replay} {a : Arena} (h : Simulates w a) {i j : Nat} {p q : Payload}
    (hp : w.blocks i = some p) (hq : w.blocks j = some q) (hij : i ≠ j) :
    p.ptr + p.size ≤ q.ptr ∨ q.ptr + q.size ≤ p.ptr := by
  obtain ⟨c, hc, -, hcsize⟩ := (h.held i p hp).block
  obtain ⟨d, hd, -, hdsize⟩ := (h.held j q hq).block
  have := located_disjoint hc hd (h.apart i j p q hp hq hij)
  omega

namespace Replays

variable {start s t : Process Nat} {done done' : List Request} {blocks blocks' : Nat → Option Extent}
  {w w' : Replay} {i : Nat} {b : Extent}

/-- What the replay knows of a payload. -/
theorem payload (h : Replays start done s blocks w) (halign : 8 ∣ start.memlib.memStartBrk)
    (hb : blocks i = some b) : ∃ q, w.blocks i = some q ∧ q.extent = b ∧ 8 ∣ b.ptr ∧
      s.memlib.memHeapLo ≤ b.ptr ∧ b.ptr + b.size ≤ s.memlib.memHeapHi + 1 ∧
      ∀ k, k < b.size → s.memlib.mem (b.ptr + k) = q.bytes k := by
  obtain ⟨q, hq, rfl⟩ := h.live hb
  obtain ⟨es, hrun, -⟩ := h.run
  obtain ⟨a, -, hsim⟩ := Replay.run_simulates hrun
  have hpay := hsim.payload ((Replay.run_memStartBrk hrun).symm ▸ halign) hq
  rw [h.heap] at hpay
  exact ⟨q, hq, rfl, hpay⟩

/-- Two states of one replay hold the same bytes in a payload that has kept its place and contents. -/
theorem unchanged (h : Replays start done s blocks w) (h' : Replays start done' t blocks' w')
    (halign : 8 ∣ start.memlib.memStartBrk) (hb : blocks i = some b)
    (hkeep : w'.blocks i = w.blocks i) : b.Unchanged s t := by
  obtain ⟨q, hq, rfl, -, -, -, hbytes⟩ := h.payload halign hb
  have hb' : blocks' i = some q.extent := by
    rw [← h'.blocks, hkeep, hq]
    rfl
  obtain ⟨q', hq', -, -, -, -, hbytes'⟩ := h'.payload halign hb'
  obtain rfl : q = q' := by
    rw [hkeep, hq] at hq'
    exact Option.some.inj hq'
  intro k hk
  rw [hbytes k hk, hbytes' k hk]

/-- Some id is not live. -/
theorem exists_fresh (h : Replays start done s blocks w) : ∃ j, blocks j = none := by
  obtain ⟨es, hrun, hes⟩ := h.run
  obtain ⟨j, hj⟩ := Infinite.exists_notMem_finset (liveIds done)
  refine ⟨j, ?_⟩
  have hlive := Replay.run_live hrun j
  rw [hes] at hlive
  rw [← h.blocks, Option.map_eq_none_iff]
  by_contra hn
  exact hj (hlive hn)

end Replays

/-- **`mm.c` honours the malloc contract** on the requests that the heap serves, in every session and
whatever the client writes into its payloads, when the heap starts at a multiple of 8. -/
theorem servedPackage_contract (start : Process Nat) (halign : 8 ∣ start.memlib.memStartBrk) :
    Contract servedPackage start where
  init := (mmInit_layout (s := start.memlib.memResetBrk) rfl).1.ge
  aligned hs i b hb := by
    obtain ⟨w, h⟩ := session_replays hs
    obtain ⟨-, -, -, hdvd, -⟩ := h.payload halign hb
    exact hdvd
  inHeap hs i b hb := by
    obtain ⟨w, h⟩ := session_replays hs
    obtain ⟨-, -, -, -, hlo, hhi, -⟩ := h.payload halign hb
    exact ⟨hlo, by omega⟩
  disjoint hs i j a b hij ha hb := by
    obtain ⟨w, h⟩ := session_replays hs
    obtain ⟨p, hp, rfl⟩ := h.live ha
    obtain ⟨q, hq, rfl⟩ := h.live hb
    obtain ⟨es, hrun, -⟩ := h.run
    obtain ⟨a, -, hsim⟩ := Replay.run_simulates hrun
    have hapart := hsim.payloads_apart hp hq hij
    have hpsize := hs.size_pos i _ ha
    have hqsize := hs.size_pos j _ hb
    refine Set.disjoint_left.mpr fun x hxp hxq => ?_
    simp only [Extent.addresses, Payload.extent, Set.mem_Icc] at hxp hxq hpsize hqsize
    omega
  malloc_untouched hs size p t hsize hcall hp i b hb := by
    obtain ⟨w, h⟩ := session_replays hs
    -- the call is that of an allocation under an id that is not live
    obtain ⟨j, hj⟩ := h.exists_fresh
    obtain ⟨w', hstep, h'⟩ := h.malloc hj hsize hcall hp
    have hij : i ≠ j := by
      rintro rfl
      simp [hj] at hb
    refine h.unchanged h' halign hb ?_
    obtain ⟨-, -, hm⟩ := served_malloc hcall hp
    rw [← h.heap] at hm
    rw [Replay.step, Replay.serve, hm] at hstep
    obtain rfl := Option.some.inj hstep
    exact Function.update_of_ne hij ..
  realloc_untouched hs i old size p t hlive hsize hcall hp j b hij hb := by
    obtain ⟨w, h⟩ := session_replays hs
    obtain ⟨w', q, q', hstep, hq, hext, -, -, -, h'⟩ := h.realloc hlive hcall hp
    refine h.unchanged h' halign hb ?_
    obtain ⟨-, -, hm⟩ := served_realloc hcall hp
    rw [← h.heap, ← hext] at hm
    have hm' : mmRealloc w.heap q.ptr size = some (some p, t.heap) := hm
    rw [Replay.step, Replay.serve, hq] at hstep
    simp only [hm'] at hstep
    obtain rfl := Option.some.inj hstep
    exact Function.update_of_ne hij ..
  realloc_preserves hs i old size p t hlive hsize hcall hp k hk := by
    obtain ⟨w, h⟩ := session_replays hs
    obtain ⟨w', q, q', -, hq, hext, hq', -, hbytes, h'⟩ := h.realloc hlive hcall hp
    obtain ⟨r, hr, hrext, -, -, -, hheld⟩ := h.payload halign hlive
    obtain ⟨r', hr', -, -, -, -, hheld'⟩ := h'.payload halign (Function.update_self ..)
    obtain rfl := Option.some.inj (hq.symm.trans hr)
    obtain rfl := Option.some.inj (hq'.symm.trans hr')
    have hsize : q.size = old.size := congrArg Extent.size hext
    rw [hheld' k (by simp only; omega), hbytes k (by omega), hheld k (by omega)]
  free_untouched hs i old hlive j b hij hb := by
    obtain ⟨w, h⟩ := session_replays hs
    obtain ⟨w', -, hw', h'⟩ := h.free hlive
    refine h.unchanged h' halign hb ?_
    rw [hw', Function.update_of_ne hij]

end MallocBench
