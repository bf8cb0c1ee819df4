import MallocBench.Allocator.Realloc
import MallocBench.Transition.Runs

/-! # Replaying requests

A replay is the heap together with the client's table of live blocks, as `mdriver.c` keeps it: the
client names a block by its index in the trace, and between requests it writes inside the payloads
of its blocks (`Replay.step`). `Arena` is the same system without memory: a block list, and for
every live block its offset and size. Its moves are functions of the requests alone.

`Simulates` relates the two. `Simulates.step` is the one step lemma behind the results on whole
runs: wherever the arena moves, the replay makes a step, the payloads keep their bytes, and the two
stay related; `Simulates.moves` says that the arena does move on every request the heap serves. -/

namespace MallocBench

open ByteMemory Segments Runs

/-! ## Replays -/

/-- A request of a trace (`traceop_t`). -/
inductive Request where
  | malloc (index size : Nat)
  | realloc (index size : Nat)
  | free (index : Nat)
  deriving DecidableEq

/-- What happens in a replay: a request, or the client's write of a byte of a payload. -/
inductive Event where
  | request (r : Request)
  | write (index off : Nat) (v : UInt8)
  deriving DecidableEq

/-- The request an event is, if it is one. -/
def Event.toRequest : Event → Option Request
  | .request r => some r
  | .write _ _ _ => none

/-- A live payload: its address, the size requested, and the bytes the client knows it to hold. These
are the bytes found there at the allocation, changed by nothing but the client's own writes; a
`realloc` keeps them up to the smaller of the two sizes. -/
structure Payload where
  ptr : Nat
  size : Nat
  bytes : Nat → UInt8

/-- The state of a replay. -/
structure Replay where
  /-- The heap. -/
  heap : Heap
  /-- The live blocks by index (`blocks` and `block_sizes` of `trace_t`). -/
  blocks : Nat → Option Payload
  /-- What `mm_malloc` and `mm_realloc` returned so far: null, or an offset from `mem_start_brk`. -/
  returned : List (Option Nat)

namespace Replay

/-- The start of a replay: `mem_reset_brk`, then `mm_init`. -/
def start (s : Memlib) : Replay := ⟨(mmInit s.memResetBrk).2, fun _ => none, []⟩

/-- Serve a request. `none` when it names no live block, or when the search leaves the memory. -/
def serve (w : Replay) : Request → Option Replay
  | .malloc index size =>
    match mmMalloc w.heap size with
    | none => none
    | some (none, h) => some ⟨h, w.blocks, w.returned ++ [none]⟩
    | some (some p, h) =>
      some ⟨h, Function.update w.blocks index (some ⟨p, size, fun i => h.mem (p + i)⟩),
        w.returned ++ [some (p - h.memStartBrk)]⟩
  | .realloc index size =>
    match w.blocks index with
    | none => none
    | some old =>
      match mmRealloc w.heap old.ptr size with
      | none => none
      | some (none, h) => some ⟨h, w.blocks, w.returned ++ [none]⟩
      | some (some p, h) =>
        some ⟨h, Function.update w.blocks index
            -- above the old size the client knows only what it finds there
            (some ⟨p, size, fun i => if i < old.size then old.bytes i else h.mem (p + i)⟩),
          w.returned ++ [some (p - h.memStartBrk)]⟩
  | .free index =>
    match w.blocks index with
    | none => none
    | some p => some ⟨mmFree w.heap p.ptr, Function.update w.blocks index none, w.returned⟩

/-- One event of a replay. -/
def step (w : Replay) : Event → Option Replay
  | .request r => w.serve r
  | .write index off v =>
    match w.blocks index with
    | none => none
    | some p =>
      some ⟨w.heap.setMem (Function.update w.heap.mem (p.ptr + off) v),
        Function.update w.blocks index (some { p with bytes := Function.update p.bytes off v }),
        w.returned⟩

/-- What a client may do: allocate between 1 and `INT_MAX` bytes under a new index, reallocate or
free a live block, and write inside a live payload. -/
def Legal (w : Replay) : Event → Prop
  | .request (.malloc index size) => w.blocks index = none ∧ 1 ≤ size ∧ size ≤ intMax
  | .request (.realloc index size) => (w.blocks index).isSome ∧ size < 2 ^ 64
  | .request (.free index) => (w.blocks index).isSome
  | .write index off _ => ∃ p, w.blocks index = some p ∧ off < p.size

/-- The events the heap serves as it should. -/
def Served (w : Replay) : Event → Prop
  | .request (.malloc _ size) => w.heap.Serves size
  | .request (.realloc _ size) => w.heap.Serves size
  | .request (.free _) => True
  | .write _ _ _ => True

/-- A legal event that the heap serves. -/
def Guarded (w : Replay) (e : Event) : Prop := w.Legal e ∧ w.Served e

instance (w : Replay) (e : Event) : Decidable (w.Legal e) :=
  match e with
  | .request (.malloc index size) =>
    decidable_of_iff ((w.blocks index).isNone ∧ 1 ≤ size ∧ size ≤ intMax)
      (by rw [Legal, Option.isNone_iff_eq_none])
  | .request (.realloc _ _) => inferInstanceAs (Decidable (_ ∧ _))
  | .request (.free index) => inferInstanceAs (Decidable ((w.blocks index).isSome = true))
  | .write index off _ =>
    decidable_of_iff ((w.blocks index).any fun p => off < p.size)
      (by simp [Legal, Option.any_eq_true])

instance (w : Replay) (e : Event) : Decidable (w.Served e) :=
  match e with
  | .request (.malloc _ size) => inferInstanceAs (Decidable (w.heap.Serves size))
  | .request (.realloc _ size) => inferInstanceAs (Decidable (w.heap.Serves size))
  | .request (.free _) => isTrue trivial
  | .write _ _ _ => isTrue trivial

instance (w : Replay) (e : Event) : Decidable (w.Guarded e) :=
  inferInstanceAs (Decidable (_ ∧ _))

end Replay

/-! ## Arenas -/

/-- A replay without memory. -/
structure Arena where
  /-- The block list. -/
  list : List Block
  /-- Offset and requested size of the live blocks. -/
  table : Nat → Option (Nat × Nat)
  /-- What the requests returned so far. -/
  returned : List (Option Nat)

namespace Arena

/-- A fresh arena: one free chunk, nothing live. -/
def start : Arena := ⟨[chunk], fun _ => none, []⟩

/-- The move on a request. The first block starts 16 bytes above the start of the heap. -/
def move (a : Arena) : Request → Option Arena
  | .malloc index size =>
    match allocateBlock a.list size with
    | none => some ⟨a.list, a.table, a.returned ++ [none]⟩
    | some g =>
      some ⟨g.list, Function.update a.table index (some (g.offset, size)),
        a.returned ++ [some (g.offset + 16)]⟩
  | .realloc index size =>
    (a.table index).bind fun old =>
      -- `mm_malloc` refuses the request, so nothing is copied or freed
      if size = 0 then some ⟨a.list, a.table, a.returned ++ [none]⟩
      else
        match allocateBlock a.list size with
        | none => some ⟨a.list, a.table, a.returned ++ [none]⟩
        | some g =>
          (focusAt old.1 g.list).map fun f =>
            ⟨f.release.list, Function.update a.table index (some (g.offset, size)),
              a.returned ++ [some (g.offset + 16)]⟩
  | .free index =>
    (a.table index).bind fun old =>
      (focusAt old.1 a.list).map fun f =>
        ⟨f.release.list, Function.update a.table index none, a.returned⟩

/-- The requests an arena stands for the heap on. -/
def Served (a : Arena) : Request → Prop
  | .malloc _ size => ServesBlocks a.list size
  | .realloc _ size => ServesBlocks a.list size
  | .free _ => True

open Classical in
/-- The move on a served request. -/
noncomputable def serve (a : Arena) (r : Request) : Option Arena :=
  if a.Served r then a.move r else none

/-- A request is carried out by its move, when it is served. -/
theorem serve_eq_some {a b : Arena} {r : Request} :
    a.serve r = some b ↔ a.Served r ∧ a.move r = some b := by
  rw [serve]
  split <;> simp_all

end Arena

/-! ## The simulation -/

/-- The payload lies in a used block of the list and holds the bytes the client knows. -/
structure Payload.Held (p : Payload) (h : Heap) (bs : List Block) : Prop where
  block : ∃ c, (p.ptr, c) ∈ located (h.heapListp + 8) bs ∧ c.alloc = true ∧ p.size + 8 ≤ c.size
  bytes : ∀ i, i < p.size → h.mem (p.ptr + i) = p.bytes i

/-- A held payload stays held when its block keeps its place and its bytes. -/
theorem Payload.Held.keep {p : Payload} {h h' : Heap} {bs cs : List Block} (hp : p.Held h bs)
    (hlp : h'.heapListp = h.heapListp)
    (hkeep : ∀ c, (p.ptr, c) ∈ located (h.heapListp + 8) bs → c.alloc = true →
      (p.ptr, c) ∈ located (h.heapListp + 8) cs ∧
        ∀ x, p.ptr - 4 ≤ x → x < p.ptr + c.size - 4 → h'.mem x = h.mem x) : p.Held h' cs := by
  obtain ⟨c, hc, hused, hsize⟩ := hp.block
  obtain ⟨hc', hsame⟩ := hkeep c hc hused
  refine ⟨⟨c, by rwa [hlp], hused, hsize⟩, fun i hi => ?_⟩
  rw [hsame _ (by omega) (by omega), hp.bytes i hi]

/-- The arena `a` is the replay `w` without its memory. -/
structure Simulates (w : Replay) (a : Arena) : Prop where
  layout : w.heap.Layout a.list
  table : ∀ i, a.table i = (w.blocks i).map fun p => (p.ptr - (w.heap.heapListp + 8), p.size)
  held : ∀ i p, w.blocks i = some p → p.Held w.heap a.list
  apart : ∀ i j p q, w.blocks i = some p → w.blocks j = some q → i ≠ j → p.ptr ≠ q.ptr
  returned : w.returned = a.returned

namespace Simulates

variable {w : Replay} {a : Arena}

/-- The start of a replay is a fresh arena, whatever the memory holds. -/
theorem start (s : Memlib) : Simulates (Replay.start s) Arena.start := by
  obtain ⟨-, hl, -⟩ := mmInit_layout (s := s.memResetBrk) rfl
  exact ⟨hl, fun i => rfl, fun i p hp => by simp [Replay.start] at hp,
    fun i j p q hp => by simp [Replay.start] at hp, rfl⟩

/-- The step on one entry of the table: the other live payloads stay held, and the new entry, if
there is one, is held and apart from them. -/
theorem update (hsim : Simulates w a) {h : Heap} {bs : List Block} (index : Nat)
    (new : Option Payload) {entry : Option (Nat × Nat)} {r r' : List (Option Nat)}
    (hl : h.Layout bs) (hlp : h.heapListp = w.heap.heapListp)
    (hentry : entry = new.map fun p => (p.ptr - (w.heap.heapListp + 8), p.size))
    (hnew : ∀ p, new = some p → p.Held h bs ∧
      ∀ j q, w.blocks j = some q → j ≠ index → p.ptr ≠ q.ptr)
    (hother : ∀ j q, w.blocks j = some q → j ≠ index → q.Held h bs) (hr : r = r') :
    Simulates ⟨h, Function.update w.blocks index new, r⟩
      ⟨bs, Function.update a.table index entry, r'⟩ := by
  refine ⟨hl, fun i => ?_, fun i p hp => ?_, fun i j p q hp hq hij => ?_, hr⟩
  · rw [hlp]
    by_cases hi : i = index
    · subst hi
      simp only [Function.update_self, hentry]
    · simp only [Function.update_of_ne hi, hsim.table]
  · by_cases hi : i = index
    · subst hi
      simp only [Function.update_self] at hp
      exact (hnew p hp).1
    · simp only [Function.update_of_ne hi] at hp
      exact hother i p hp hi
  · by_cases hi : i = index
    · subst hi
      have hji : j ≠ i := fun h => hij h.symm
      simp only [Function.update_self] at hp
      simp only [Function.update_of_ne hji] at hq
      exact (hnew p hp).2 j q hq hji
    · simp only [Function.update_of_ne hi] at hp
      by_cases hj : j = index
      · subst hj
        simp only [Function.update_self] at hq
        exact ((hnew q hq).2 i p hp hi).symm
      · simp only [Function.update_of_ne hj] at hq
        exact hsim.apart i j p q hp hq hij

/-- A null result changes nothing but the record of results. -/
theorem null (hsim : Simulates w a) :
    Simulates ⟨w.heap, w.blocks, w.returned ++ [none]⟩ ⟨a.list, a.table, a.returned ++ [none]⟩ :=
  ⟨hsim.layout, hsim.table, hsim.held, hsim.apart, by rw [hsim.returned]⟩

/-- The arena knows the offset of a live block. -/
theorem table_of_live (hsim : Simulates w a) {index : Nat} {p : Payload}
    (hp : w.blocks index = some p) :
    a.table index = some (p.ptr - (w.heap.heapListp + 8), p.size) := by
  rw [hsim.table, hp]
  rfl

/-! ### The events -/

/-- A write inside a payload. -/
theorem write (hsim : Simulates w a) {index off : Nat} (v : UInt8) {p : Payload}
    (hp : w.blocks index = some p) (hoff : off < p.size) :
    ∃ w', w.step (.write index off v) = some w' ∧ Simulates w' a := by
  obtain ⟨c, hc, hused, hsize⟩ := (hsim.held index p hp).block
  have hge := hsim.layout.tiled.listp_ge
  have hpos := (bounds_of_mem_located hc).1
  -- the byte lies in a payload, and the walk reads tags only
  have hframe : ∀ x, x ≠ p.ptr + off →
      Function.update w.heap.mem (p.ptr + off) v x = w.heap.mem x :=
    fun x hx => Function.update_of_ne hx _ _
  have hl : (w.heap.setMem (Function.update w.heap.mem (p.ptr + off) v)).Layout a.list :=
    hsim.layout.setMem (hsim.layout.tiled.congr_payload hc fun x hx => hframe x (by omega))
      hsim.layout.coalesced
  refine ⟨_, by rw [Replay.step, hp], ?_⟩
  have htable : Function.update a.table index
      (some (p.ptr - (w.heap.heapListp + 8), p.size)) = a.table := by
    rw [← hsim.table_of_live hp, Function.update_eq_self]
  -- the entry of the table is written over by itself
  have hstep := hsim.update index (some { p with bytes := Function.update p.bytes off v }) hl rfl rfl
    ?_ ?_ hsim.returned
  · simp only [Option.map_some] at hstep
    rwa [htable] at hstep
  · rintro q hq
    obtain rfl := Option.some.inj hq
    refine ⟨⟨⟨c, hc, hused, hsize⟩, fun i hi => ?_⟩, fun j q hq hj => ?_⟩
    · simp only [Heap.setMem_mem] at hi ⊢
      by_cases hio : i = off
      · subst hio
        simp only [Function.update_self]
      · rw [hframe _ (by omega), Function.update_of_ne hio]
        exact (hsim.held index p hp).bytes i hi
    · exact hsim.apart index j p q hp hq (Ne.symm hj)
  · intro j q hq hj
    refine (hsim.held j q hq).keep rfl fun d hd _ => ⟨hd, fun x hx hx' => ?_⟩
    have hne := hsim.apart j index q p hq hp hj
    have hdisj := located_disjoint hd hc hne
    have hqpos := (bounds_of_mem_located hd).1
    exact hframe x (by omega)

/-- A served `mm_malloc`. -/
theorem malloc (hsim : Simulates w a) {index size : Nat} {b : Arena} (hsize : 1 ≤ size)
    (hs : w.heap.Serves size) (hmove : a.move (.malloc index size) = some b) :
    ∃ w', w.step (.request (.malloc index size)) = some w' ∧ Simulates w' b := by
  have hlistp : w.heap.heapListp = w.heap.memStartBrk + 8 := hsim.layout.listp
  rw [Arena.move] at hmove
  rw [Replay.step, Replay.serve]
  cases ha : allocateBlock a.list size with
  | none =>
      rw [ha] at hmove
      obtain rfl := Option.some.inj hmove
      -- no room for the block: the heap stays as it is
      rw [mmMalloc_none hsim.layout (by omega) hs ha]
      exact ⟨_, rfl, hsim.null⟩
  | some g =>
      rw [ha] at hmove
      obtain rfl := Option.some.inj hmove
      -- the new block starts where no used block did, and the used blocks keep their bytes
      obtain ⟨h, hm, hl, hlp, hst, hsame⟩ := mmMalloc_some hsim.layout (by omega) hs ha
      have hfit := le_allocate_size (requestBlock_le size) ha
      have hreq := size_add_le_requestBlock size
      rw [hm]
      refine ⟨_, rfl, hsim.update index _ hl hlp ?_ ?_ ?_ ?_⟩
      · simp only [Option.map_some, Nat.add_sub_cancel_left]
      · rintro p hp
        obtain rfl := Option.some.inj hp
        refine ⟨⟨⟨g.mid, ?_, allocate_used ha, by simp only; omega⟩, fun i _ => rfl⟩,
          fun j q hq _ => ?_⟩
        · rw [hlp]
          exact g.mid_mem_located _
        · obtain ⟨d, hd, hused, -⟩ := (hsim.held j q hq).block
          exact (allocate_fresh (by decide) ha hused hd).symm
      · intro j q hq _
        exact (hsim.held j q hq).keep hlp fun d hd hused =>
          ⟨allocate_keeps (by decide) (expendBlock_alloc _) ha hused hd, hsame _ d hd hused⟩
      · rw [hsim.returned, hst]
        congr 3
        omega

/-- A served `mm_realloc`. -/
theorem realloc (hsim : Simulates w a) {index size : Nat} {b : Arena} {p : Payload}
    (hp : w.blocks index = some p) (hs : w.heap.Serves size)
    (hmove : a.move (.realloc index size) = some b) :
    ∃ w', w.step (.request (.realloc index size)) = some w' ∧ Simulates w' b := by
  have hlistp : w.heap.heapListp = w.heap.memStartBrk + 8 := hsim.layout.listp
  obtain ⟨c, hc, hused, hcsize⟩ := (hsim.held index p hp).block
  rw [Arena.move, hsim.table_of_live hp, Option.bind_some] at hmove
  rw [Replay.step, Replay.serve, hp]
  simp only
  by_cases hsize : size = 0
  · rw [if_pos hsize] at hmove
    obtain rfl := Option.some.inj hmove
    -- a size of zero is refused before the search
    have hm : mmMalloc w.heap size = some (none, w.heap) := by rw [mmMalloc, if_pos hsize]
    rw [mmRealloc_none hm]
    exact ⟨_, rfl, hsim.null⟩
  rw [if_neg hsize] at hmove
  cases ha : allocateBlock a.list size with
  | none =>
      rw [ha] at hmove
      obtain rfl := Option.some.inj hmove
      rw [mmRealloc_none (mmMalloc_none hsim.layout hsize hs ha)]
      exact ⟨_, rfl, hsim.null⟩
  | some g =>
      -- the old block is released from the list that holds the new one already
      obtain ⟨f, h, hfocus, hflist, hfoff, hm, hl, hlp, hst, hcopy, hsame⟩ :=
        mmRealloc_some hsim.layout hc hused hsize hs ha
      have hfit := le_allocate_size (requestBlock_le size) ha
      have hreq := size_add_le_requestBlock size
      have hfresh := allocate_fresh (by decide) ha hused hc
      rw [ha] at hmove
      simp only [hfocus, Option.map_some] at hmove
      obtain rfl := Option.some.inj hmove
      rw [hm]
      refine ⟨_, rfl, hsim.update index _ hl hlp ?_ ?_ ?_ ?_⟩
      · simp only [Option.map_some, Nat.add_sub_cancel_left]
      · rintro q hq
        obtain rfl := Option.some.inj hq
        refine ⟨⟨⟨g.mid, ?_, allocate_used ha, by simp only; omega⟩, fun i hi => ?_⟩,
          fun j q hq _ => ?_⟩
        · rw [hlp]
          refine Focus.mem_located_release_used (allocate_used ha) ?_ (hfoff ▸ hfresh.symm)
          rw [hflist]
          exact g.mid_mem_located _
        · simp only at hi ⊢
          split
          · next hip =>
            rw [hcopy i hi (by omega)]
            exact (hsim.held index p hp).bytes i hip
          · rfl
        · obtain ⟨d, hd, hdused, -⟩ := (hsim.held j q hq).block
          exact (allocate_fresh (by decide) ha hdused hd).symm
      · intro j q hq hj
        have hqp := hsim.apart j index q p hq hp hj
        refine (hsim.held j q hq).keep hlp fun d hd hdused => ⟨?_, hsame _ d hd hdused hqp⟩
        refine Focus.mem_located_release_used hdused ?_ (hfoff ▸ hqp)
        rw [hflist]
        exact allocate_keeps (by decide) (expendBlock_alloc _) ha hdused hd
      · rw [hsim.returned, hst]
        congr 3
        omega

/-- An `mm_free` of a live block. -/
theorem free (hsim : Simulates w a) {index : Nat} {b : Arena} {p : Payload}
    (hp : w.blocks index = some p) (hmove : a.move (.free index) = some b) :
    ∃ w', w.step (.request (.free index)) = some w' ∧ Simulates w' b := by
  obtain ⟨c, hc, hused, hcsize⟩ := (hsim.held index p hp).block
  obtain ⟨f, hfocus, hflist, hfoff, hfmid⟩ := focusAt_of_mem (by decide) hc
  rw [Arena.move, hsim.table_of_live hp, Option.bind_some, hfocus, Option.map_some] at hmove
  obtain rfl := Option.some.inj hmove
  rw [Replay.step, Replay.serve, hp]
  have hl := hsim.layout
  rw [← hflist] at hl
  -- the other live payloads are in used blocks, which the release does not touch
  have hrel := mmFree_release hl
  have htot := hl.total_lt
  rw [maxHeap_eq] at htot
  rw [hfoff] at hrel
  refine ⟨_, rfl, hsim.update index _ hrel rfl rfl (fun q hq => by simp at hq) ?_ hsim.returned⟩
  intro j q hq hj
  have hqp := hsim.apart j index q p hq hp hj
  refine (hsim.held j q hq).keep rfl fun d hd hdused => ?_
  rw [← hflist] at hd
  refine ⟨Focus.mem_located_release_used hdused hd (hfoff ▸ hqp), fun x hx hx' => ?_⟩
  have := mmFree_frame hl.tiled.tagged hl.tiled.mid_blockAt (by omega) hd (hfoff ▸ hqp) hdused hx hx'
  rwa [hfoff] at this

/-- The arena and the heap serve the same requests. -/
theorem served_iff (hsim : Simulates w a) (r : Request) : w.Served (.request r) ↔ a.Served r := by
  cases r with
  | malloc index size => exact serves_iff hsim.layout size
  | realloc index size => exact serves_iff hsim.layout size
  | free index => exact Iff.rfl

/-- **The step lemma.** On a legal event on which the arena moves, the replay makes a step, and the
two stay related. -/
theorem step (hsim : Simulates w a) {e : Event} {b : Arena} (hlegal : w.Legal e)
    (hmove : advance Arena.serve a e.toRequest = some b) :
    ∃ w', w.step e = some w' ∧ Simulates w' b := by
  cases e with
  | write index off v =>
      obtain ⟨p, hp, hoff⟩ := hlegal
      obtain rfl := Option.some.inj hmove
      exact hsim.write v hp hoff
  | request r =>
      obtain ⟨hserved, hmove⟩ := Arena.serve_eq_some.mp hmove
      rw [← hsim.served_iff] at hserved
      cases r with
      | malloc index size => exact hsim.malloc hlegal.2.1 hserved hmove
      | realloc index size =>
          obtain ⟨p, hp⟩ := Option.isSome_iff_exists.mp hlegal.1
          exact hsim.realloc hp hserved hmove
      | free index =>
          obtain ⟨p, hp⟩ := Option.isSome_iff_exists.mp hlegal
          exact hsim.free hp hmove

/-- The arena moves on every event that is legal and served. -/
theorem moves (hsim : Simulates w a) {e : Event} (hg : w.Guarded e) :
    ∃ b, advance Arena.serve a e.toRequest = some b := by
  obtain ⟨hlegal, hserved⟩ := hg
  cases e with
  | write index off v => exact ⟨a, rfl⟩
  | request r =>
      rw [hsim.served_iff] at hserved
      -- what can fail is finding the block of a live payload
      suffices h : ∃ b, a.move r = some b by
        obtain ⟨b, hb⟩ := h
        exact ⟨b, Arena.serve_eq_some.mpr ⟨hserved, hb⟩⟩
      cases r with
      | malloc index size =>
          rw [Arena.move]
          split <;> exact ⟨_, rfl⟩
      | realloc index size =>
          obtain ⟨p, hp⟩ := Option.isSome_iff_exists.mp hlegal.1
          obtain ⟨c, hc, hused, -⟩ := (hsim.held index p hp).block
          rw [Arena.move, hsim.table_of_live hp, Option.bind_some]
          split
          · exact ⟨_, rfl⟩
          · cases ha : allocateBlock a.list size with
            | none => exact ⟨_, rfl⟩
            | some g =>
                obtain ⟨f, hf, -⟩ := focusAt_of_mem (by decide)
                  (allocate_keeps (by decide) (expendBlock_alloc _) ha hused hc)
                simp only [hf]
                exact ⟨_, rfl⟩
      | free index =>
          obtain ⟨p, hp⟩ := Option.isSome_iff_exists.mp hlegal
          obtain ⟨c, hc, -⟩ := (hsim.held index p hp).block
          obtain ⟨f, hf, -⟩ := focusAt_of_mem (by decide) hc
          rw [Arena.move, hsim.table_of_live hp, Option.bind_some, hf]
          exact ⟨_, rfl⟩

end Simulates

end MallocBench
