import MallocBench.Allocator.Contract
import MallocBench.Memory.Fragmentation
import MallocBench.Memory.SegmentMerging
import Mathlib.Data.Finset.Erase
import Mathlib.Data.Finset.Insert

/-! # No block is lost

The allocator keeps no table of what it handed out: whether a block is in use is a bit of its tags. This
module compares these bits with the client's table over whole replays.

* `Arena.move_malloc`, `Arena.move_realloc`, `Arena.move_free`: what a request does to an arena, case
  by case.
* **`replay_accounts`**: after every run whose requests the heap serves, the blocks marked in use are
  those of the live payloads, each exactly as long as its request needs; when nothing is live, the heap
  is one free block. -/

namespace MallocBench

open ByteMemory Segments Runs

/-! ## The cases of a move -/

namespace Arena

variable {a b : Arena} {index size : Nat}

/-- A null result. -/
def refuse (a : Arena) : Arena := ⟨a.list, a.table, a.returned ++ [none]⟩

/-- An allocation is refused, or its block is in the table and in the answer. -/
theorem move_malloc (h : a.move (.malloc index size) = some b) :
    (allocateBlock a.list size = none ∧ b = a.refuse) ∨
      ∃ g, allocateBlock a.list size = some g ∧
        b = ⟨g.list, Function.update a.table index (some (g.offset, size)),
          a.returned ++ [some (g.offset + 16)]⟩ := by
  rw [move] at h
  cases hg : allocateBlock a.list size with
  | none =>
      rw [hg] at h
      exact Or.inl ⟨rfl, (Option.some.inj h).symm⟩
  | some g =>
      rw [hg] at h
      exact Or.inr ⟨g, rfl, (Option.some.inj h).symm⟩

/-- A reallocation is refused, or its block takes the place of the old one, which is released. -/
theorem move_realloc (h : a.move (.realloc index size) = some b) :
    ∃ old, a.table index = some old ∧
      (((size = 0 ∨ allocateBlock a.list size = none) ∧ b = a.refuse) ∨
        ∃ g f : Focus 8 16, size ≠ 0 ∧ allocateBlock a.list size = some g ∧ f.list = g.list ∧ f.offset = old.1 ∧
          b = ⟨f.release.list, Function.update a.table index (some (g.offset, size)),
            a.returned ++ [some (g.offset + 16)]⟩) := by
  rw [move] at h
  obtain ⟨old, hold, h⟩ := Option.bind_eq_some_iff.mp h
  refine ⟨old, hold, ?_⟩
  split at h
  · next hzero => exact Or.inl ⟨Or.inl hzero, (Option.some.inj h).symm⟩
  · next hpos =>
    cases hg : allocateBlock a.list size with
    | none =>
        rw [hg] at h
        exact Or.inl ⟨Or.inr rfl, (Option.some.inj h).symm⟩
    | some g =>
        rw [hg] at h
        obtain ⟨f, hf, rfl⟩ := Option.map_eq_some_iff.mp h
        obtain ⟨hlist, hoff⟩ := focusAt_some hf
        exact Or.inr ⟨g, f, hpos, rfl, hlist, hoff, rfl⟩

/-- A release takes the block out of the table. -/
theorem move_free (h : a.move (.free index) = some b) :
    ∃ (old : Nat × Nat) (f : Focus 8 16), a.table index = some old ∧ f.list = a.list ∧ f.offset = old.1 ∧
      b = ⟨f.release.list, Function.update a.table index none, a.returned⟩ := by
  rw [move] at h
  obtain ⟨old, hold, h⟩ := Option.bind_eq_some_iff.mp h
  obtain ⟨f, hf, rfl⟩ := Option.map_eq_some_iff.mp h
  obtain ⟨hlist, hoff⟩ := focusAt_some hf
  exact ⟨old, f, hold, hlist, hoff, rfl⟩

end Arena

/-! ## Exact blocks -/

/-- Without a sliver the block that is placed is exactly as long as the request needs. -/
theorem allocateBlock_size {bs : List Block} {size : Nat} {g : Focus 8 16}
    (h : allocateBlock bs size = some g) (hs : ¬ LeavesSliver bs (requestBlock size)) :
    g.mid.size = (requestBlock size).size := by
  obtain ⟨f, rfl, hfit⟩ := allocate_cases h
  have hle : (requestBlock size).size ≤ f.mid.size := by
    rcases hfit with ⟨hf, -⟩ | ⟨-, -, rfl⟩
    · exact (firstFit_some hf).2.2
    · exact le_trans (requestBlock_le size) (le_grown_size bs _)
  have hne : f.mid.size ≠ (requestBlock size).size + 8 := by
    rw [LeavesSliver] at hs
    rcases hfit with ⟨hf, -⟩ | ⟨hf, -, rfl⟩
    · rwa [hf] at hs
    · rwa [hf] at hs
  have hdvd := f.mid.unit_dvd
  have hdvd' := (requestBlock size).unit_dvd
  rcases f.carve_size (requestBlock size) with heq | ⟨hlt, heq⟩
  · exact heq
  · omega

/-- A served request that is granted leaves no sliver. -/
theorem not_leavesSliver_of_serves {bs : List Block} {size : Nat} {g : Focus 8 16}
    (hbs : total bs + 16 ≤ maxHeap) (hpos : size ≠ 0) (hs : ServesBlocks bs size)
    (h : allocateBlock bs size = some g) : ¬ LeavesSliver bs (requestBlock size) := by
  rcases hs with hzero | hrefuse | ⟨-, -, hn⟩
  · exact absurd hzero hpos
  · rw [allocateBlock_of_refuses hbs hrefuse] at h
    simp at h
  · exact hn

/-! ## Accounts -/

/-- Every block in use belongs to a live entry of the table, and is as long as its request needs. -/
def Arena.Accounts (a : Arena) : Prop :=
  ∀ off c, (off, c) ∈ usedAt 0 a.list →
    ∃ i size, a.table i = some (off, size) ∧ c.size = (requestBlock size).size

namespace Arena.Accounts

variable {a b : Arena}

/-- At the start nothing is live. -/
theorem start : Arena.start.Accounts := by
  intro off c h
  have : usedAt 0 Arena.start.list = [] := rfl
  rw [this] at h
  exact absurd h List.not_mem_nil

/-- The blocks in use after an allocation. -/
theorem allocate (h : a.Accounts) (hbs : total a.list + 16 ≤ maxHeap) {size : Nat} (hpos : size ≠ 0)
    (hs : ServesBlocks a.list size) {g : Focus 8 16} (hg : allocateBlock a.list size = some g)
    {off : Nat} {c : Block} (hc : (off, c) ∈ usedAt 0 g.list) :
    (off = g.offset ∧ c.size = (requestBlock size).size) ∨
      ∃ i n, a.table i = some (off, n) ∧ c.size = (requestBlock n).size := by
  rcases (mem_usedAt_allocate (expendBlock_alloc _) hg).mp hc with ⟨rfl, rfl⟩ | hc
  · have hexact := allocateBlock_size hg (not_leavesSliver_of_serves hbs hpos hs hg)
    exact Or.inl ⟨Nat.zero_add _, hexact⟩
  · exact Or.inr (h off c hc)

/-- **A served request keeps the accounts**, when an allocation is under a new index. -/
theorem serve (h : a.Accounts) (hbs : total a.list + 16 ≤ maxHeap) {r : Request}
    (hfresh : ∀ index size, r = .malloc index size → a.table index = none ∧ size ≠ 0)
    (hmove : a.serve r = some b) : b.Accounts := by
  obtain ⟨hs, hmove⟩ := Arena.serve_eq_some.mp hmove
  cases r with
  | malloc index size =>
      obtain ⟨hnone, hpos⟩ := hfresh index size rfl
      obtain ⟨-, rfl⟩ | ⟨g, hg, rfl⟩ := Arena.move_malloc hmove
      · exact h
      · intro off c hc
        obtain ⟨rfl, hsize⟩ | ⟨i, n, hi, hsize⟩ := h.allocate hbs hpos hs hg hc
        · exact ⟨index, size, Function.update_self .., hsize⟩
        · have hne : i ≠ index := by
            rintro rfl
            simp [hnone] at hi
          exact ⟨i, n, (Function.update_of_ne hne ..).trans hi, hsize⟩
  | realloc index size =>
      obtain ⟨old, hold, ⟨-, rfl⟩ | ⟨g, f, hpos, hg, hlist, hoff, rfl⟩⟩ := Arena.move_realloc hmove
      · exact h
      · intro off c hc
        obtain ⟨hc, hne⟩ := Focus.mem_usedAt_release (by decide) hc
        rw [hlist] at hc
        rw [hoff, Nat.zero_add] at hne
        obtain ⟨rfl, hsize⟩ | ⟨i, n, hi, hsize⟩ := h.allocate hbs hpos hs hg hc
        · exact ⟨index, size, Function.update_self .., hsize⟩
        · -- the entry of another index: the old block of this one is gone
          have hother : i ≠ index := by
            rintro rfl
            rw [hold] at hi
            exact hne (congrArg Prod.fst (Option.some.inj hi)).symm
          exact ⟨i, n, (Function.update_of_ne hother ..).trans hi, hsize⟩
  | free index =>
      obtain ⟨old, f, hold, hlist, hoff, rfl⟩ := Arena.move_free hmove
      intro off c hc
      obtain ⟨hc, hne⟩ := Focus.mem_usedAt_release (by decide) hc
      rw [hlist] at hc
      rw [hoff, Nat.zero_add] at hne
      obtain ⟨i, n, hi, hsize⟩ := h off c hc
      have hother : i ≠ index := by
        rintro rfl
        rw [hold] at hi
        exact hne (congrArg Prod.fst (Option.some.inj hi)).symm
      exact ⟨i, n, (Function.update_of_ne hother ..).trans hi, hsize⟩

end Arena.Accounts

/-! ## Replays -/

/-- What a guarded run keeps: it is followed by an arena whose accounts are right. -/
structure Accounted (w : Replay) (a : Arena) : Prop where
  simulates : Simulates w a
  accounts : a.Accounts

/-- The replay starts with accounts. -/
theorem Accounted.start (s : Memlib) : Accounted (Replay.start s) Arena.start :=
  ⟨Simulates.start s, Arena.Accounts.start⟩

namespace Accounted

variable {w w' : Replay} {a : Arena}

/-- An index without a payload has no entry. -/
theorem table_eq_none (h : Accounted w a) {index : Nat} (hn : w.blocks index = none) :
    a.table index = none := by
  rw [h.simulates.table, hn]
  rfl

/-- **The step lemma**: the arena moves with the replay, and the accounts stay right. -/
theorem step (h : Accounted w a) {e : Event} (hg : w.Guarded e) (hs : w.step e = some w') :
    ∃ b, advance Arena.serve a e.toRequest = some b ∧ Accounted w' b := by
  obtain ⟨b, hb⟩ := h.simulates.moves hg
  obtain ⟨w'', hs', hsim⟩ := h.simulates.step hg.1 hb
  rw [hs] at hs'
  obtain rfl := Option.some.inj hs'
  refine ⟨b, hb, hsim, ?_⟩
  cases e with
  | write index off v =>
      obtain rfl := Option.some.inj hb
      exact h.accounts
  | request r =>
      refine h.accounts.serve h.simulates.layout.total_lt (fun index size hr => ?_) hb
      subst hr
      obtain ⟨hnone, hpos, -⟩ := hg.1
      exact ⟨h.table_eq_none hnone, by omega⟩

/-- A block in use is that of a live payload. -/
theorem owner (h : Accounted w a) {p : Nat} {c : Block}
    (hc : (p, c) ∈ usedAt (w.heap.heapListp + 8) a.list) :
    ∃ i q, w.blocks i = some q ∧ q.ptr = p ∧ c.size = (requestBlock q.size).size := by
  obtain ⟨hloc, hused⟩ := mem_usedAt.mp hc
  -- the entry of the table is at the block's offset
  obtain ⟨f, hlist, hoff, rfl⟩ := Focus.exists_of_mem_located hloc
  have hzero : (f.offset, f.mid) ∈ usedAt 0 a.list := by
    have := f.mid_mem_located 0
    rw [Nat.zero_add, hlist] at this
    exact mem_usedAt.mpr ⟨this, hused⟩
  obtain ⟨i, size, hi, hsize⟩ := h.accounts _ _ hzero
  rw [h.simulates.table] at hi
  obtain ⟨q, hq, heq⟩ := Option.map_eq_some_iff.mp hi
  obtain ⟨hptr, rfl⟩ := Prod.mk.inj heq
  obtain ⟨d, hd, -⟩ := (h.simulates.held i q hq).block
  have hle := (bounds_of_mem_located hd).1
  exact ⟨i, q, hq, by omega, hsize⟩

/-- When nothing is live, the blocks are joined to one. -/
theorem drained (h : Accounted w a) (hnone : ∀ i, w.blocks i = none) (hpos : 0 < total a.list) :
    ∃ b : Block, a.list = [b] ∧ b.alloc = false := by
  have hempty : usedAt (w.heap.heapListp + 8) a.list = [] := by
    refine List.eq_nil_iff_forall_not_mem.mpr fun x hx => ?_
    obtain ⟨i, q, hq, -⟩ := h.owner hx
    simp [hnone] at hq
  have hne : a.list ≠ [] := by
    intro hnil
    simp [hnil] at hpos
  have hjoin := joinFree_of_free hne (free_of_usedAt_nil hempty)
  rwa [joinFree_of_coalesced h.simulates.layout.coalesced] at hjoin

end Accounted

/-- A region of blocks never shrinks. -/
theorem Arena.total_le_serve {a b : Arena} {r : Request} (h : a.serve r = some b) :
    total a.list ≤ total b.list := by
  obtain ⟨-, hmove⟩ := Arena.serve_eq_some.mp h
  have hgrow {size : Nat} {g : Focus 8 16} (hg : allocateBlock a.list size = some g) :
      total a.list ≤ total g.list := by
    rcases total_allocate hg with heq | ⟨-, heq⟩ <;> omega
  cases r with
  | malloc index size =>
      obtain ⟨-, rfl⟩ | ⟨g, hg, rfl⟩ := Arena.move_malloc hmove
      · exact le_rfl
      · exact hgrow hg
  | realloc index size =>
      obtain ⟨old, -, ⟨-, rfl⟩ | ⟨g, f, -, hg, hlist, -, rfl⟩⟩ := Arena.move_realloc hmove
      · exact le_rfl
      · rw [Focus.total_release, hlist]
        exact hgrow hg
  | free index =>
      obtain ⟨old, f, -, hlist, -, rfl⟩ := Arena.move_free hmove
      rw [Focus.total_release, hlist]

/-- A guarded run is followed by an arena whose accounts are right and which has at least the first
chunk. -/
theorem Replay.run_accounted {s : Memlib} {es : List Event} {w : Replay}
    (h : Run Replay.step Replay.Guarded (Replay.start s) es w) :
    ∃ a, Accounted w a ∧ 4096 ≤ total a.list := by
  refine h.invariant (I := fun w => ∃ a, Accounted w a ∧ 4096 ≤ total a.list) ?_
    ⟨Arena.start, Accounted.start s, by decide⟩
  rintro w e w' ⟨a, ha, htotal⟩ hg hs
  obtain ⟨b, hb, hab⟩ := ha.step hg hs
  refine ⟨b, hab, ?_⟩
  cases e with
  | write index off v =>
      obtain rfl := Option.some.inj hb
      exact htotal
  | request r => exact htotal.trans (Arena.total_le_serve hb)

/-! ## Live ids -/

/-- The ids that are live after a request, when no request is answered with null. -/
def Request.liveAfter (live : Finset Nat) : Request → Finset Nat
  | .malloc index _ => insert index live
  | .realloc _ _ => live
  | .free index => live.erase index

/-- The ids that are live after the requests. -/
def liveIds (requests : List Request) : Finset Nat := requests.foldl Request.liveAfter ∅

/-- The last request changes the live ids last. -/
theorem liveIds_concat (requests : List Request) (r : Request) :
    liveIds (requests ++ [r]) = r.liveAfter (liveIds requests) := List.foldl_concat ..

/-- A request makes its own index live at most, and a release makes it dead. -/
theorem Replay.live_step {w w' : Replay} {r : Request} (h : w.step (.request r) = some w')
    {live : Finset Nat} (hlive : ∀ i, w.blocks i ≠ none → i ∈ live) :
    ∀ i, w'.blocks i ≠ none → i ∈ r.liveAfter live := by
  rw [step] at h
  intro i hi
  cases r with
  | malloc index size =>
      rw [Request.liveAfter, Finset.mem_insert]
      by_cases hidx : i = index
      · exact Or.inl hidx
      · refine Or.inr (hlive i ?_)
        rw [serve] at h
        split at h
        · simp at h
        · obtain rfl := Option.some.inj h
          exact hi
        · obtain rfl := Option.some.inj h
          simpa only [Function.update_of_ne hidx] using hi
  | realloc index size =>
      refine hlive i ?_
      rw [serve] at h
      split at h
      · simp at h
      · next old hold =>
        split at h
        · simp at h
        · obtain rfl := Option.some.inj h
          exact hi
        · obtain rfl := Option.some.inj h
          by_cases hidx : i = index
          · subst hidx
            simp [hold]
          · simpa only [Function.update_of_ne hidx] using hi
  | free index =>
      rw [serve] at h
      split at h
      · simp at h
      · obtain rfl := Option.some.inj h
        have hidx : i ≠ index := by
          rintro rfl
          simp at hi
        simp only [Function.update_of_ne hidx] at hi
        exact Finset.mem_erase.mpr ⟨hidx, hlive i hi⟩

/-- The live payloads of a replay are under live ids. -/
theorem Replay.run_live {s : Memlib} {guard : Replay → Event → Prop} {es : List Event} {w : Replay}
    (h : Run Replay.step guard (Replay.start s) es w) :
    ∀ i, w.blocks i ≠ none → i ∈ liveIds (es.filterMap Event.toRequest) := by
  refine h.history (I := fun done w => ∀ i, w.blocks i ≠ none →
    i ∈ liveIds (done.filterMap Event.toRequest)) (fun i hi => by simp [Replay.start] at hi) ?_
  intro done e w w' _ hlive _ hs
  rw [List.filterMap_append]
  cases e with
  | write index off v =>
      intro i hi
      refine (congrArg (i ∈ liveIds ·) (List.append_nil _)).mpr (hlive i ?_)
      rw [step] at hs
      split at hs
      · simp at hs
      · next p hp =>
        obtain rfl := Option.some.inj hs
        by_cases hidx : i = index
        · subst hidx
          simp [hp]
        · simp only [Function.update_of_ne hidx] at hi
          exact hi
  | request r =>
      intro i hi
      have := Replay.live_step hs hlive i hi
      rwa [← liveIds_concat] at this

/-! ## Whole replays -/

/-- **No block is lost.** After every run of legal events that the heap serves, the heap is well formed
with a block list in which the blocks in use are exactly those of the live payloads: each is as long as
its request needs, and each live payload has one. When no payload is live, the list is a single free
block of all of the heap but its 16 bytes of padding, prologue and epilogue. -/
theorem replay_accounts {s : Memlib} {es : List Event} {w : Replay}
    (h : Run Replay.step Replay.Guarded (Replay.start s) es w) :
    ∃ bs, w.heap.Layout bs ∧
      (∀ p c, (p, c) ∈ located (w.heap.heapListp + 8) bs → c.alloc = true →
        ∃ i q, w.blocks i = some q ∧ q.ptr = p ∧ c.size = (requestBlock q.size).size) ∧
      (∀ i q, w.blocks i = some q → ∃ c, (q.ptr, c) ∈ located (w.heap.heapListp + 8) bs ∧
        c.alloc = true ∧ c.size = (requestBlock q.size).size) ∧
      ((∀ i, w.blocks i = none) →
        ∃ b : Block, bs = [b] ∧ b.alloc = false ∧ b.size = w.heap.memHeapsize - 16) := by
  obtain ⟨a, ha, htotal⟩ := Replay.run_accounted h
  have hlay := ha.simulates.layout
  have howner : ∀ p c, (p, c) ∈ located (w.heap.heapListp + 8) a.list → c.alloc = true →
      ∃ i q, w.blocks i = some q ∧ q.ptr = p ∧ c.size = (requestBlock q.size).size :=
    fun p c hc hused => ha.owner (mem_usedAt.mpr ⟨hc, hused⟩)
  refine ⟨a.list, hlay, howner, ?_, ?_⟩
  · intro i q hq
    obtain ⟨c, hc, hused, -⟩ := (ha.simulates.held i q hq).block
    -- the payload the block belongs to is this one
    obtain ⟨j, q', hq', hptr, hsize⟩ := howner _ _ hc hused
    have hij : j = i := by
      by_contra hne
      exact ha.simulates.apart j i q' q hq' hq hne hptr
    subst hij
    obtain rfl := Option.some.inj (hq'.symm.trans hq)
    exact ⟨c, hc, hused, hsize⟩
  · intro hnone
    obtain ⟨b, hb, hfree⟩ := ha.drained hnone (by omega)
    refine ⟨b, hb, hfree, ?_⟩
    rw [hlay.memHeapsize_eq, hb, total_cons, total_nil]
    omega

/-- A replay that gives everything back. -/
def drainingEvents : List Event := sampleEvents ++ [.request (.free 0)]

/-- A run that leaves nothing live leaves one free block. -/
theorem replay_accounts_draining : ∃ w,
    Run Replay.step Replay.Guarded (Replay.start blankMemlib) drainingEvents w ∧
      ∃ b : Block, w.heap.Layout [b] ∧ b.alloc = false := by
  obtain ⟨w, hw, -⟩ := exists_run_of_any Replay.step Replay.Guarded
    (Replay.start blankMemlib) drainingEvents (fun _ => true) (by decide +kernel)
  have hnone : ∀ i, w.blocks i = none := by
    intro i
    by_contra hi
    have hmem := Replay.run_live hw i hi
    have hempty : liveIds (drainingEvents.filterMap Event.toRequest) = ∅ := by decide
    simp [hempty] at hmem
  obtain ⟨bs, hlay, -, -, hdrained⟩ := replay_accounts hw
  obtain ⟨b, rfl, hfree, -⟩ := hdrained hnone
  exact ⟨w, hw, b, hlay, hfree⟩

end MallocBench
