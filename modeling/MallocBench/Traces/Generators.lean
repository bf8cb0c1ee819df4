import MallocBench.Traces.CheckTrace

/-! # The trace generators and the `Makefile` of the traces

Each script `gen_*.pl` prints a header computed from its constants and then the requests of its loops;
`gen_binary2.pl` and `gen_realloc2.pl` differ from others in their constants only. `make` then has
`checktrace.pl` balance what the scripts print, and check what it has balanced.

* **`Trace.make`**: what `make` makes of a consistent trace with the right header.
* **`script_make`**: whatever the constants, this is what it makes of the scripts without random
  numbers. -/

namespace MallocBench

open Text

/-! ## What `make` makes of a trace -/

/-- **The files of a trace**: `text` is read as the trace, `checktrace.pl` prints it with releases of the
ids `left`, and what it prints is read, leaves nothing, and is found to be balanced. -/
structure Trace.Made (t : Trace) (text : List Char) (left : Finset Nat) : Prop where
  read : readTrace text = .ok t.file
  balanced : ∃ ids : List Nat, ids.Nodup ∧ (∀ i, i ∈ ids ↔ i ∈ left) ∧
    checkTrace text = some ⟨(t.balanced ids).text, none⟩ ∧
    readTrace (t.balanced ids).text = .ok (t.balanced ids).file ∧
    Consistent ∅ (t.balanced ids).requests ∧ liveIds (t.balanced ids).requests = ∅ ∧
    checkBalance (t.balanced ids).text = ⟨"Balanced trace.\n".toList, none⟩

/-- The script depends on the lines only. -/
theorem checkTrace_congr {s t : List Char} (h : feedLines s = feedLines t) :
    checkTrace s = checkTrace t := by
  rw [checkTrace, checkTrace, h]

/-- Releases do not change the largest id that is allocated. -/
theorem topId_append_frees (requests : List Request) (ids : List Nat) :
    topId (requests ++ ids.map .free) = topId requests := by
  induction requests with
  | nil =>
      induction ids with
      | nil => rfl
      | cons i ids ih => exact ih
  | cons r requests ih =>
      cases r with
      | malloc index size => exact congrArg (max index) ih
      | realloc index size => exact congrArg (max index) ih
      | free index => exact ih

/-- The ids that are live have been allocated. -/
theorem exists_malloc_of_live {requests : List Request} {live : Finset Nat} {i : Nat}
    (h : i ∈ requests.foldl Request.liveAfter live) : i ∈ live ∨ ∃ size, .malloc i size ∈ requests := by
  induction requests generalizing live with
  | nil => exact .inl h
  | cons r requests ih =>
      rcases ih h with hlive | ⟨size, hmem⟩
      · cases r with
        | malloc index size =>
            rcases Finset.mem_insert.mp hlive with rfl | hlive
            · exact .inr ⟨size, List.mem_cons_self⟩
            · exact .inl hlive
        | realloc index size => exact .inl hlive
        | free index => exact .inl (Finset.mem_of_mem_erase hlive)
      · exact .inr ⟨size, List.mem_cons_of_mem _ hmem⟩

/-- An id that is allocated is at most the largest one. -/
theorem le_topId {requests : List Request} {i size : Nat} (h : .malloc i size ∈ requests) :
    i ≤ topId requests := by
  induction requests with
  | nil => cases h
  | cons r requests ih =>
      rcases List.mem_cons.mp h with rfl | h
      · exact le_max_left _ _
      · have ih := ih h
        cases r with
        | malloc index size => exact le_max_of_le_right ih
        | realloc index size => exact le_max_of_le_right ih
        | free index => exact ih

/-- **What `make` makes of a consistent trace with the right header.** -/
theorem Trace.make {t : Trace} (ht : t.InRange) (hc : Consistent ∅ t.requests)
    (hids : t.numIds = topId t.requests + 1) (hops : t.numOps = t.requests.length)
    (hroom : t.numOps + (liveIds t.requests).card < 2 ^ 31) {text : List Char}
    (hwords : Text.words isCSpace text = t.words) (hlines : feedLines text = feedLines t.text) :
    t.Made text (liveIds t.requests) := by
  obtain ⟨ids, hnodup, hlive, -, hrun⟩ := t.checkTrace_consistent hc (by omega)
  obtain ⟨hbalanced, hnone⟩ := t.balanced_drains hc hnodup hlive
  have hlt : ∀ i ∈ ids, i < t.numIds := fun i hi => by
    obtain hempty | ⟨size, hmem⟩ := exists_malloc_of_live ((hlive i).mp hi)
    · exact absurd hempty (Finset.notMem_empty i)
    · exact hids ▸ Nat.lt_succ_of_le (le_topId hmem)
  have hlen : ids.length = (liveIds t.requests).card := length_eq_card hnodup hlive
  have hrange : (t.balanced ids).InRange :=
    ⟨ht.suggHeapsize, ht.numIds, show t.numOps + ids.length < 2 ^ 31 by omega, ht.weight,
      fun r hr => (List.mem_append.mp hr).elim (ht.requests r) fun hfree => by
        obtain ⟨i, hi, rfl⟩ := List.mem_map.mp hfree
        exact (hlt i hi).trans ht.numIds⟩
  exact ⟨readTrace_right ht hwords hids hops, ids, hnodup, hlive,
    (checkTrace_congr hlines).trans hrun,
    readTrace_right hrange (t.balanced ids).words_text
      (hids.trans (congrArg (· + 1) (topId_append_frees t.requests ids).symm))
      (by simp [Trace.balanced, hops]),
    hbalanced, hnone, (t.balanced ids).checkBalance_drained hbalanced hnone⟩

/-! ## Rounds of requests -/

section Rounds

variable {live : Nat → Finset Nat} {round : Nat → List Request} {n : Nat}

/-- A loop whose rounds are consistent is consistent. -/
theorem consistent_rounds
    (h : ∀ i < n, Consistent (live i) (round i) ∧
      (round i).foldl Request.liveAfter (live i) = live (i + 1)) :
    Consistent (live 0) ((List.range n).flatMap round) ∧
      ((List.range n).flatMap round).foldl Request.liveAfter (live 0) = live n := by
  induction n with
  | zero => exact ⟨trivial, rfl⟩
  | succ n ih =>
      obtain ⟨hfits, hlive⟩ := ih fun i hi => h i (by omega)
      obtain ⟨hlast, hnext⟩ := h n (by omega)
      rw [List.range_succ, List.flatMap_append, List.flatMap_singleton]
      refine ⟨consistent_append.mpr ⟨hfits, hlive.symm ▸ hlast⟩, ?_⟩
      rw [List.foldl_append, hlive, hnext]

/-- Rounds of one length make a loop of their number times it. -/
theorem length_rounds {k : Nat} (h : ∀ i, (round i).length = k) (n : Nat) :
    ((List.range n).flatMap round).length = k * n := by
  induction n with
  | zero => rfl
  | succ n ih =>
      rw [List.range_succ, List.flatMap_append, List.flatMap_singleton, List.length_append, ih, h]
      ring

end Rounds

/-- The largest id is one that is there, and no other is larger. -/
theorem topId_eq {requests : List Request} {top : Nat}
    (hle : ∀ index size, .malloc index size ∈ requests ∨ .realloc index size ∈ requests → index ≤ top)
    (htop : ∃ size, .malloc top size ∈ requests ∨ .realloc top size ∈ requests) :
    topId requests = top := by
  refine le_antisymm ?_ ?_
  · clear htop
    induction requests with
    | nil => exact Nat.zero_le _
    | cons r requests ih =>
        have ih := ih fun index size h => hle index size (h.imp (List.mem_cons_of_mem _)
          (List.mem_cons_of_mem _))
        cases r with
        | malloc index size => exact max_le (hle index size (.inl List.mem_cons_self)) ih
        | realloc index size => exact max_le (hle index size (.inr List.mem_cons_self)) ih
        | free index => exact ih
  · clear hle
    obtain ⟨size, hmem⟩ := htop
    induction requests with
    | nil => simp at hmem
    | cons r requests ih =>
        have hrest : topId requests ≤ topId (r :: requests) := by
          cases r with
          | malloc index size => exact le_max_right _ _
          | realloc index size => exact le_max_right _ _
          | free index => exact le_rfl
        rcases hmem with hmem | hmem <;> rcases List.mem_cons.mp hmem with rfl | hmem
        · exact le_max_left _ _
        · exact (ih (.inl hmem)).trans hrest
        · exact le_max_left _ _
        · exact (ih (.inr hmem)).trans hrest

/-! ## The scripts without random numbers -/

/-- `gen_binary.pl` and `gen_binary2.pl`. -/
def binaryTrace (blkSize1 blkSize2 numIters : Nat) : Trace :=
  let blkSize12 := blkSize1 + blkSize2
  { suggHeapsize := ((blkSize1 + blkSize2 + blkSize12) * numIters + 100 : Nat)
    numIds := 3 * numIters
    numOps := 4 * numIters
    weight := 1
    requests :=
      ((List.range numIters).flatMap fun i => [.malloc (2 * i) blkSize1, .malloc (2 * i + 1) blkSize2]) ++
        ((List.range numIters).flatMap fun i => [.free (2 * i + 1)]) ++
        (List.range numIters).flatMap fun i => [.malloc (2 * numIters + i) blkSize12] }

/-- `gen_coalescing.pl`. -/
def coalescingTrace (blkSize numIters : Nat) : Trace where
  suggHeapsize := (2 * blkSize * numIters + 100 : Nat)
  numIds := 3 * numIters
  numOps := 6 * numIters
  weight := 1
  requests := (List.range numIters).flatMap fun i =>
    let blk1 := 3 * i
    let blk2 := blk1 + 1
    let blk3 := blk1 + 2
    [.malloc blk1 blkSize, .malloc blk2 blkSize, .free blk1, .free blk2, .malloc blk3 (2 * blkSize),
      .free blk3]

/-- The loop of `gen_realloc.pl`, with the variables it advances, and the two lines after it. -/
def reallocRounds (sizeIncrement mallocSize : Nat) : Nat → Nat → Nat → List Request
  | 0, blk, _ => [.free blk, .free 0]
  | n + 1, blk, reallocSize =>
    .realloc 0 (reallocSize + sizeIncrement) :: .malloc (blk + 1) mallocSize :: .free (blk + 1 - 1) ::
      reallocRounds sizeIncrement mallocSize n (blk + 1) (reallocSize + sizeIncrement)

/-- `gen_realloc.pl` and `gen_realloc2.pl`, which compute the first line in different ways. -/
def reallocTrace (suggHeapsize reallocSize sizeIncrement mallocSize numIters : Nat) : Trace where
  suggHeapsize
  numIds := numIters + 1
  numOps := 3 * numIters + 1
  weight := 1
  requests := .malloc 0 reallocSize :: .malloc 1 mallocSize ::
    reallocRounds sizeIncrement mallocSize (numIters - 1) 1 reallocSize

/-- A script with its constants. -/
inductive Script where
  | binary (blkSize1 blkSize2 numIters : Nat)
  | coalescing (blkSize numIters : Nat)
  | realloc (suggHeapsize reallocSize sizeIncrement mallocSize numIters : Nat)

namespace Script

/-- `gen_binary.pl`. -/
def genBinary : Script := .binary 64 (512 - 64) 2000

/-- `gen_binary2.pl`. -/
def genBinary2 : Script := .binary 16 (128 - 16) 4000

/-- `gen_coalescing.pl`. -/
def genCoalescing : Script := .coalescing 4095 2400

/-- `gen_realloc.pl`. In its first line `num_iters` has lost its `$`, so that it counts as 0. -/
def genRealloc : Script := .realloc (0 * (512 + 128 * 2) + 100) 512 128 128 4800

/-- `gen_realloc2.pl`. -/
def genRealloc2 : Script := .realloc (4092 + 5 * (4800 - 1) + 16 * 4800 + 100) 4092 5 16 4800

/-- The trace it prints. -/
def trace : Script → Trace
  | .binary blkSize1 blkSize2 numIters => binaryTrace blkSize1 blkSize2 numIters
  | .coalescing blkSize numIters => coalescingTrace blkSize numIters
  | .realloc suggHeapsize reallocSize sizeIncrement mallocSize numIters =>
    reallocTrace suggHeapsize reallocSize sizeIncrement mallocSize numIters

/-- What it prints. The scripts for reallocations do not end their last line. -/
def text : Script → List Char
  | .realloc suggHeapsize reallocSize sizeIncrement mallocSize numIters =>
    (reallocTrace suggHeapsize reallocSize sizeIncrement mallocSize numIters).text.dropLast
  | s => s.trace.text

/-- Its loops run, its sizes are positive, and its numbers fit an `int`, also that of the requests of the
balanced trace: a binary trace leaves two ids in each round. -/
def Ok : Script → Prop
  | .binary blkSize1 blkSize2 numIters => 0 < blkSize1 ∧ 0 < blkSize2 ∧ 0 < numIters ∧
      (blkSize1 + blkSize2 + (blkSize1 + blkSize2)) * numIters + 100 < 2 ^ 31 ∧ 6 * numIters < 2 ^ 31
  | .coalescing blkSize numIters => 0 < blkSize ∧ 0 < numIters ∧
      2 * blkSize * numIters + 100 < 2 ^ 31 ∧ 6 * numIters < 2 ^ 31
  | .realloc suggHeapsize reallocSize sizeIncrement mallocSize numIters => 0 < reallocSize ∧
      0 < mallocSize ∧ 0 < numIters ∧ suggHeapsize < 2 ^ 31 ∧
      reallocSize + sizeIncrement * (numIters - 1) < 2 ^ 31 ∧ mallocSize < 2 ^ 31 ∧
      3 * numIters + 1 < 2 ^ 31

/-- The ids it leaves: in the binary traces, all but those of the second blocks. -/
def left : Script → Finset Nat
  | .binary _ _ numIters =>
    (Finset.range (3 * numIters)).filter fun i => i < 2 * numIters → i % 2 = 0
  | .coalescing .. => ∅
  | .realloc .. => ∅

end Script

/-- The size is positive. -/
def Request.Sized : Request → Prop
  | .malloc _ size => 0 < size
  | .realloc _ size => 0 < size
  | .free _ => True

/-- Requests are legal when they are consistent and their sizes are positive. -/
theorem legalRequests_iff {live : Finset Nat} {requests : List Request} :
    LegalRequests live requests ↔ Consistent live requests ∧ ∀ r ∈ requests, r.Sized := by
  induction requests generalizing live with
  | nil => simp [LegalRequests, Consistent]
  | cons r requests ih =>
      cases r <;>
        simp only [LegalRequests, Consistent, Request.Fits, Request.liveAfter, ih, List.forall_mem_cons,
          Request.Sized] <;>
        tauto

/-- What the theorem on all scripts says of each. -/
structure Script.Fine (s : Script) : Prop where
  range : ∀ r ∈ s.trace.requests, r.InRange
  sized : ∀ r ∈ s.trace.requests, r.Sized
  consistent : Consistent ∅ s.trace.requests
  live : liveIds s.trace.requests = s.left
  ids : s.trace.numIds = topId s.trace.requests + 1
  ops : s.trace.numOps = s.trace.requests.length

section Binary

variable {blkSize1 blkSize2 numIters : Nat}

/-- The three loops of `gen_binary.pl`, with what is live after each. -/
theorem binary_consistent :
    Consistent ∅ (binaryTrace blkSize1 blkSize2 numIters).requests ∧
      liveIds (binaryTrace blkSize1 blkSize2 numIters).requests =
        (Script.binary blkSize1 blkSize2 numIters).left := by
  obtain ⟨hfill, hfilled⟩ := @consistent_rounds (fun i => Finset.range (2 * i))
    (fun i => [.malloc (2 * i) blkSize1, .malloc (2 * i + 1) blkSize2]) numIters fun i _ =>
      ⟨by simp [Consistent, Request.Fits, Request.liveAfter], by
        ext j
        simp [Request.liveAfter]
        omega⟩
  obtain ⟨hdrop, hdropped⟩ := @consistent_rounds
    (fun i => (Finset.range (2 * numIters)).filter fun j => j < 2 * i → j % 2 = 0)
    (fun i => [.free (2 * i + 1)]) numIters fun i hi =>
      ⟨by simp [Consistent, Request.Fits]; omega, by
        ext j
        simp [Request.liveAfter]
        omega⟩
  obtain ⟨hrefill, hrefilled⟩ := @consistent_rounds
    (fun i => (Finset.range (2 * numIters + i)).filter fun j => j < 2 * numIters → j % 2 = 0)
    (fun i => [.malloc (2 * numIters + i) (blkSize1 + blkSize2)]) numIters fun i _ =>
      ⟨by simp [Consistent, Request.Fits], by
        ext j
        simp [Request.liveAfter]
        omega⟩
  have hfirst : Finset.range (2 * 0) = ∅ := rfl
  have hsecond : ((Finset.range (2 * numIters)).filter fun j => j < 2 * 0 → j % 2 = 0) =
      Finset.range (2 * numIters) := by
    ext j
    simp
  have hthird : ((Finset.range (2 * numIters + 0)).filter fun j => j < 2 * numIters → j % 2 = 0) =
      (Finset.range (2 * numIters)).filter fun j => j < 2 * numIters → j % 2 = 0 := rfl
  rw [hfirst] at hfill hfilled
  rw [hsecond] at hdrop hdropped
  rw [hthird] at hrefill hrefilled
  constructor
  · refine consistent_append.mpr ⟨consistent_append.mpr ⟨hfill, hfilled.symm ▸ hdrop⟩, ?_⟩
    rw [List.foldl_append, hfilled, hdropped]
    exact hrefill
  · rw [liveIds, binaryTrace, List.foldl_append, List.foldl_append, hfilled, hdropped, hrefilled,
      Script.left]
    congr 2
    omega

/-- The traces of `gen_binary.pl` are consistent, with the header that they need. -/
theorem binary_fine (h : (Script.binary blkSize1 blkSize2 numIters).Ok) :
    (Script.binary blkSize1 blkSize2 numIters).Fine := by
  obtain ⟨h₁, h₂, hn, hsugg, hops⟩ := h
  have hsize : blkSize1 + blkSize2 < 2 ^ 31 := by nlinarith
  have hmem : ∀ r ∈ (binaryTrace blkSize1 blkSize2 numIters).requests,
      (∃ i < numIters, r = .malloc (2 * i) blkSize1 ∨ r = .malloc (2 * i + 1) blkSize2 ∨
        r = .free (2 * i + 1) ∨ r = .malloc (2 * numIters + i) (blkSize1 + blkSize2)) := by
    intro r hr
    simp only [binaryTrace, List.mem_append, List.mem_flatMap, List.mem_range, List.mem_cons,
      List.not_mem_nil, or_false] at hr
    obtain (⟨i, hi, hr | hr⟩ | ⟨i, hi, hr⟩) | ⟨i, hi, hr⟩ := hr
    · exact ⟨i, hi, .inl hr⟩
    · exact ⟨i, hi, .inr (.inl hr)⟩
    · exact ⟨i, hi, .inr (.inr (.inl hr))⟩
    · exact ⟨i, hi, .inr (.inr (.inr hr))⟩
  refine ⟨fun r hr => ?_, fun r hr => ?_, binary_consistent.1, binary_consistent.2, ?_, ?_⟩
  · obtain ⟨i, hi, rfl | rfl | rfl | rfl⟩ := hmem r hr <;>
      simp only [Request.InRange] <;> omega
  · obtain ⟨i, hi, rfl | rfl | rfl | rfl⟩ := hmem r hr <;>
      simp only [Request.Sized] <;> omega
  · have htop : topId (binaryTrace blkSize1 blkSize2 numIters).requests = 3 * numIters - 1 := by
      refine topId_eq (fun index size hr => ?_) ⟨blkSize1 + blkSize2, .inl ?_⟩
      · obtain hr | hr := hr <;> obtain ⟨i, hi, heq | heq | heq | heq⟩ := hmem _ hr <;>
          simp at heq <;> omega
      · simp only [binaryTrace, List.mem_append, List.mem_flatMap, List.mem_range, List.mem_singleton]
        exact .inr ⟨numIters - 1, by omega, by simp; omega⟩
    show 3 * numIters = topId (binaryTrace blkSize1 blkSize2 numIters).requests + 1
    omega
  · show 4 * numIters = (binaryTrace blkSize1 blkSize2 numIters).requests.length
    simp only [binaryTrace, List.length_append]
    rw [@length_rounds _ 2 (fun _ => rfl), @length_rounds _ 1 (fun _ => rfl),
      @length_rounds _ 1 (fun _ => rfl)]
    omega

end Binary

/-- So are those of `gen_coalescing.pl`. -/
theorem coalescing_fine {blkSize numIters : Nat} (h : (Script.coalescing blkSize numIters).Ok) :
    (Script.coalescing blkSize numIters).Fine := by
  obtain ⟨hblk, hn, hsugg, hops⟩ := h
  have hsize : 2 * blkSize < 2 ^ 31 := by nlinarith
  have hmem : ∀ r ∈ (coalescingTrace blkSize numIters).requests, ∃ i < numIters, ∃ k < 3,
      r = .malloc (3 * i + k) blkSize ∨ r = .malloc (3 * i + k) (2 * blkSize) ∨
        r = .free (3 * i + k) := by
    intro r hr
    simp only [coalescingTrace, List.mem_flatMap, List.mem_range, List.mem_cons, List.not_mem_nil,
      or_false] at hr
    obtain ⟨i, hi, rfl | rfl | rfl | rfl | rfl | rfl⟩ := hr
    · exact ⟨i, hi, 0, by omega, .inl rfl⟩
    · exact ⟨i, hi, 1, by omega, .inl rfl⟩
    · exact ⟨i, hi, 0, by omega, .inr (.inr rfl)⟩
    · exact ⟨i, hi, 1, by omega, .inr (.inr rfl)⟩
    · exact ⟨i, hi, 2, by omega, .inr (.inl rfl)⟩
    · exact ⟨i, hi, 2, by omega, .inr (.inr rfl)⟩
  -- nothing is live between two rounds
  have hrounds : Consistent ∅ (coalescingTrace blkSize numIters).requests ∧
      liveIds (coalescingTrace blkSize numIters).requests = ∅ :=
    @consistent_rounds (fun _ => ∅) _ numIters fun i _ =>
      ⟨by simp [Consistent, Request.Fits, Request.liveAfter], by
        ext j
        simp [Request.liveAfter]
        omega⟩
  refine ⟨fun r hr => ?_, fun r hr => ?_, hrounds.1, hrounds.2, ?_, ?_⟩
  · obtain ⟨i, hi, k, hk, rfl | rfl | rfl⟩ := hmem r hr <;> simp only [Request.InRange] <;> omega
  · obtain ⟨i, hi, k, hk, rfl | rfl | rfl⟩ := hmem r hr <;> simp only [Request.Sized] <;> omega
  · have htop : topId (coalescingTrace blkSize numIters).requests = 3 * numIters - 1 := by
      refine topId_eq (fun index size hr => ?_) ⟨2 * blkSize, .inl ?_⟩
      · obtain hr | hr := hr <;> obtain ⟨i, hi, k, hk, heq | heq | heq⟩ := hmem _ hr <;>
          simp at heq <;> omega
      · simp only [coalescingTrace, List.mem_flatMap, List.mem_range]
        exact ⟨numIters - 1, by omega, by simp; omega⟩
    show 3 * numIters = topId (coalescingTrace blkSize numIters).requests + 1
    omega
  · exact (@length_rounds _ 6 (fun _ => rfl) numIters).symm

section Realloc

variable {sizeIncrement mallocSize : Nat}

/-- From any round on, the large block and the last small one are live. -/
theorem realloc_consistent (n : Nat) {blk : Nat} (hblk : 0 < blk) (reallocSize : Nat) :
    Consistent {0, blk} (reallocRounds sizeIncrement mallocSize n blk reallocSize) ∧
      (reallocRounds sizeIncrement mallocSize n blk reallocSize).foldl Request.liveAfter {0, blk} = ∅ := by
  induction n generalizing blk reallocSize with
  | zero =>
      refine ⟨by simp [reallocRounds, Consistent, Request.Fits, Request.liveAfter]; omega, ?_⟩
      ext j
      simp [reallocRounds, Request.liveAfter]
      omega
  | succ n ih =>
      obtain ⟨hfits, hnone⟩ := @ih (blk + 1) (by omega) (reallocSize + sizeIncrement)
      have hnext : (insert (blk + 1) {0, blk} : Finset Nat).erase (blk + 1 - 1) = {0, blk + 1} := by
        ext j
        simp
        omega
      refine ⟨⟨by simp [Request.Fits], ?_, ?_, ?_⟩, ?_⟩
      · show blk + 1 ∉ ({0, blk} : Finset Nat)
        simp
      · show blk + 1 - 1 ∈ insert (blk + 1) ({0, blk} : Finset Nat)
        simp
      · show Consistent ((insert (blk + 1) {0, blk} : Finset Nat).erase (blk + 1 - 1)) _
        rwa [hnext]
      · rw [← hnone, ← hnext]
        rfl

/-- The rounds have three requests each, and the last two lines. -/
theorem length_reallocRounds (n blk reallocSize : Nat) :
    (reallocRounds sizeIncrement mallocSize n blk reallocSize).length = 3 * n + 2 := by
  induction n generalizing blk reallocSize with
  | zero => rfl
  | succ n ih => simp only [reallocRounds, List.length_cons, ih]; omega

/-- The requests of the rounds: releases, the large block, and small ones under the next ids. -/
theorem mem_reallocRounds {n blk reallocSize : Nat} {r : Request}
    (h : r ∈ reallocRounds sizeIncrement mallocSize n blk reallocSize) :
    (∃ i ≤ blk + n, r = .free i) ∨
      (∃ size, reallocSize ≤ size ∧ size ≤ reallocSize + sizeIncrement * n ∧ r = .realloc 0 size) ∨
      ∃ i ≤ blk + n, r = .malloc i mallocSize := by
  induction n generalizing blk reallocSize with
  | zero =>
      simp only [reallocRounds, List.mem_cons, List.not_mem_nil, or_false] at h
      obtain rfl | rfl := h
      · exact .inl ⟨blk, by omega, rfl⟩
      · exact .inl ⟨0, by omega, rfl⟩
  | succ n ih =>
      have hgrow : sizeIncrement * (n + 1) = sizeIncrement * n + sizeIncrement := by ring
      simp only [reallocRounds, List.mem_cons] at h
      obtain rfl | rfl | rfl | h := h
      · exact .inr (.inl ⟨_, by omega, by nlinarith, rfl⟩)
      · exact .inr (.inr ⟨_, by omega, rfl⟩)
      · exact .inl ⟨_, by omega, rfl⟩
      · obtain ⟨i, hi, rfl⟩ | ⟨size, hlow, hhigh, rfl⟩ | ⟨i, hi, rfl⟩ := ih h
        · exact .inl ⟨i, by omega, rfl⟩
        · exact .inr (.inl ⟨size, by omega, by omega, rfl⟩)
        · exact .inr (.inr ⟨i, by omega, rfl⟩)

/-- The last round allocates the largest id. -/
theorem malloc_mem_reallocRounds (n blk reallocSize : Nat) :
    .malloc (blk + (n + 1)) mallocSize ∈
      reallocRounds sizeIncrement mallocSize (n + 1) blk reallocSize := by
  induction n generalizing blk reallocSize with
  | zero => simp [reallocRounds]
  | succ n ih =>
      have hlast := ih (blk + 1) (reallocSize + sizeIncrement)
      rw [show blk + 1 + (n + 1) = blk + (n + 1 + 1) by omega] at hlast
      exact List.mem_cons_of_mem _ (List.mem_cons_of_mem _ (List.mem_cons_of_mem _ hlast))

/-- So are those of `gen_realloc.pl`. -/
theorem realloc_fine {suggHeapsize reallocSize numIters : Nat}
    (h : (Script.realloc suggHeapsize reallocSize sizeIncrement mallocSize numIters).Ok) :
    (Script.realloc suggHeapsize reallocSize sizeIncrement mallocSize numIters).Fine := by
  obtain ⟨hrealloc, hmalloc, hn, hsugg, hlast, hsmall, hops⟩ := h
  obtain ⟨n, rfl⟩ : ∃ n, numIters = n + 1 := ⟨numIters - 1, by omega⟩
  rw [Nat.add_sub_cancel] at hlast
  have hstart : insert 1 (insert 0 ∅) = ({0, 1} : Finset Nat) := by decide
  obtain ⟨hfits, hnone⟩ := @realloc_consistent sizeIncrement mallocSize n 1 Nat.one_pos reallocSize
  refine ⟨fun r hr => ?_, fun r hr => ?_,
    ⟨by simp [Request.Fits], by simp [Request.Fits, Request.liveAfter], ?_⟩, ?_, ?_, ?_⟩
  · obtain rfl | rfl | hr := List.mem_cons.mp hr |>.imp_right List.mem_cons.mp
    · exact ⟨by decide, by omega⟩
    · exact ⟨by decide, hsmall⟩
    · rw [Nat.add_sub_cancel] at hr
      obtain ⟨i, hi, rfl⟩ | ⟨size, hlow, hhigh, rfl⟩ | ⟨i, hi, rfl⟩ := mem_reallocRounds hr <;>
        simp only [Request.InRange] <;> omega
  · obtain rfl | rfl | hr := List.mem_cons.mp hr |>.imp_right List.mem_cons.mp
    · exact hrealloc
    · exact hmalloc
    · obtain ⟨i, hi, rfl⟩ | ⟨size, hlow, hhigh, rfl⟩ | ⟨i, hi, rfl⟩ := mem_reallocRounds hr <;>
        simp only [Request.Sized] <;> omega
  · show Consistent (insert 1 (insert 0 ∅)) _
    rwa [hstart]
  · show List.foldl Request.liveAfter (insert 1 (insert 0 ∅)) _ = ∅
    rwa [hstart]
  · have htop : topId (reallocTrace suggHeapsize reallocSize sizeIncrement mallocSize (n + 1)).requests =
        n + 1 := by
      refine topId_eq (fun index size hr => ?_) ⟨mallocSize, .inl ?_⟩
      · simp only [reallocTrace, List.mem_cons, Request.malloc.injEq, reduceCtorEq, false_or] at hr
        obtain (⟨rfl, -⟩ | ⟨rfl, -⟩ | hr) | hr := hr
        · omega
        · omega
        · obtain ⟨i, hi, heq⟩ | ⟨size, -, -, heq⟩ | ⟨i, hi, heq⟩ := mem_reallocRounds hr <;>
            simp at heq
          omega
        · obtain ⟨i, hi, heq⟩ | ⟨size, -, -, heq⟩ | ⟨i, hi, heq⟩ := mem_reallocRounds hr <;>
            simp at heq
          omega
      · cases n with
        | zero => exact List.mem_cons_of_mem _ List.mem_cons_self
        | succ n =>
            have hmem := @malloc_mem_reallocRounds sizeIncrement mallocSize n 1 reallocSize
            rw [show 1 + (n + 1) = n + 1 + 1 by omega] at hmem
            exact List.mem_cons_of_mem _ (List.mem_cons_of_mem _ hmem)
    exact congrArg (· + 1) htop.symm
  · show 3 * (n + 1) + 1 = (reallocRounds sizeIncrement mallocSize n 1 reallocSize).length + 1 + 1
    rw [length_reallocRounds]
    omega

end Realloc

/-- **All scripts** print consistent traces with the header that they need. -/
theorem Script.fine {s : Script} (h : s.Ok) : s.Fine := by
  cases s with
  | binary blkSize1 blkSize2 numIters => exact binary_fine h
  | coalescing blkSize numIters => exact coalescing_fine h
  | realloc suggHeapsize reallocSize sizeIncrement mallocSize numIters => exact realloc_fine h

/-- A binary trace leaves at most two ids in each round. -/
theorem card_binary_left_le (blkSize1 blkSize2 numIters : Nat) :
    (Script.binary blkSize1 blkSize2 numIters).left.card ≤ 2 * numIters := by
  have hsub : (Script.binary blkSize1 blkSize2 numIters).left ⊆
      (Finset.range (2 * numIters)).image fun k => if k < numIters then 2 * k else numIters + k := by
    intro i hi
    obtain ⟨hlt, heven⟩ := Finset.mem_filter.mp hi
    rw [Finset.mem_range] at hlt
    rw [Finset.mem_image]
    by_cases hfirst : i < 2 * numIters
    · have := heven hfirst
      exact ⟨i / 2, Finset.mem_range.mpr (by omega), by rw [if_pos (by omega)]; omega⟩
    · exact ⟨i - numIters, Finset.mem_range.mpr (by omega), by rw [if_neg (by omega)]; omega⟩
  calc (Script.binary blkSize1 blkSize2 numIters).left.card
      ≤ ((Finset.range (2 * numIters)).image _).card := Finset.card_le_card hsub
    _ ≤ (Finset.range (2 * numIters)).card := Finset.card_image_le
    _ = 2 * numIters := Finset.card_range _

/-- The numbers of the header fit an `int`, before and after the trace is balanced. -/
theorem Script.inRange {s : Script} (h : s.Ok) :
    s.trace.InRange ∧ s.trace.numOps + s.left.card < 2 ^ 31 := by
  have hrange := (Script.fine h).range
  have hone : -2 ^ 31 ≤ (1 : Int) ∧ (1 : Int) < 2 ^ 31 := by decide
  cases s with
  | binary blkSize1 blkSize2 numIters =>
      obtain ⟨-, -, -, hsugg, hops⟩ := h
      have hleft := card_binary_left_le blkSize1 blkSize2 numIters
      refine ⟨⟨by constructor <;> simp only [trace, binaryTrace] <;> omega,
        show 3 * numIters < 2 ^ 31 by omega, show 4 * numIters < 2 ^ 31 by omega, hone, hrange⟩, ?_⟩
      show 4 * numIters + _ < 2 ^ 31
      omega
  | coalescing blkSize numIters =>
      obtain ⟨-, -, hsugg, hops⟩ := h
      exact ⟨⟨by constructor <;> simp only [trace, coalescingTrace] <;> omega,
        show 3 * numIters < 2 ^ 31 by omega, show 6 * numIters < 2 ^ 31 by omega, hone, hrange⟩,
        show 6 * numIters + 0 < 2 ^ 31 by omega⟩
  | realloc suggHeapsize reallocSize sizeIncrement mallocSize numIters =>
      obtain ⟨-, -, -, hsugg, -, -, hops⟩ := h
      exact ⟨⟨by constructor <;> simp only [trace, reallocTrace] <;> omega,
        show numIters + 1 < 2 ^ 31 by omega, show 3 * numIters + 1 < 2 ^ 31 by omega, hone, hrange⟩,
        show 3 * numIters + 1 + 0 < 2 ^ 31 by omega⟩

/-- **A text without its last line feed** has the same words and lines, when it has a last line. -/
theorem Trace.text_dropLast {t : Trace} {requests : List Request} {r : Request}
    (h : t.requests = requests ++ [r]) :
    Text.words isCSpace t.text.dropLast = t.words ∧ feedLines t.text.dropLast = feedLines t.text := by
  set init := [intText t.suggHeapsize, Nat.toDigits 10 t.numIds, Nat.toDigits 10 t.numOps,
    intText t.weight] ++ requests.map Request.line with hinit
  have hlines : t.lines = init ++ [r.line] := by
    rw [Trace.lines, h, List.map_append, ← List.append_assoc]
    rfl
  have htext : t.text = (init.flatMap (· ++ ['\n']) ++ r.line) ++ ['\n'] := by
    rw [Trace.text, hlines, List.flatMap_append, List.flatMap_singleton, List.append_assoc]
  have hfeed := t.feed_notMem_lines
  rw [hlines] at hfeed
  have hne : r.line ≠ [] := fun hnil => by
    have hwords := r.words_line
    rw [hnil, words_nil] at hwords
    cases r <;> cases hwords
  constructor
  · have hwords := t.words_text
    rw [htext, words_append_cons (by decide), words_nil, List.append_nil] at hwords
    rw [htext, List.dropLast_concat, hwords]
  · have hall : feedLines t.text = t.lines := feedLines_flatMap t.feed_notMem_lines
    rw [hall, htext, List.dropLast_concat, hlines]
    exact feedLines_concat (fun line hline => hfeed line (List.mem_append_left _ hline))
      (hfeed _ (List.mem_append_right _ List.mem_cons_self)) hne

/-- The requests of a loop for reallocations end with the release of the large block. -/
theorem reallocRounds_concat (sizeIncrement mallocSize n blk reallocSize : Nat) :
    ∃ requests, reallocRounds sizeIncrement mallocSize n blk reallocSize = requests ++ [.free 0] := by
  induction n generalizing blk reallocSize with
  | zero => exact ⟨[.free blk], rfl⟩
  | succ n ih =>
      obtain ⟨requests, h⟩ := ih (blk + 1) (reallocSize + sizeIncrement)
      exact ⟨_ :: _ :: _ :: requests, by rw [reallocRounds, h]; rfl⟩

/-- What a script prints has the words and the lines of its trace. -/
theorem Script.text_trace (s : Script) :
    Text.words isCSpace s.text = s.trace.words ∧ feedLines s.text = feedLines s.trace.text := by
  cases s with
  | binary blkSize1 blkSize2 numIters => exact ⟨(binaryTrace _ _ _).words_text, rfl⟩
  | coalescing blkSize numIters => exact ⟨(coalescingTrace _ _).words_text, rfl⟩
  | realloc suggHeapsize reallocSize sizeIncrement mallocSize numIters =>
      obtain ⟨requests, h⟩ := reallocRounds_concat sizeIncrement mallocSize (numIters - 1) 1 reallocSize
      exact @Trace.text_dropLast (reallocTrace _ _ _ _ _) (_ :: _ :: requests) (.free 0)
        (by rw [reallocTrace, h]; rfl)

/-- **The scripts without random numbers**, whatever their constants: the requests are legal, the file
is read, and `make` balances it with releases of what the script leaves. -/
theorem script_make {s : Script} (h : s.Ok) :
    LegalRequests ∅ s.trace.requests ∧ s.trace.Made s.text s.left := by
  have hs := Script.fine h
  obtain ⟨hwords, hlines⟩ := s.text_trace
  obtain ⟨hrange, hroom⟩ := Script.inRange h
  refine ⟨legalRequests_iff.mpr ⟨hs.consistent, hs.sized⟩, ?_⟩
  rw [← hs.live]
  exact Trace.make hrange hs.consistent hs.ids hs.ops (hs.live.symm ▸ hroom) hwords hlines

/-- The scripts with the constants that they have. -/
theorem script_make_constants :
    Script.genBinary.trace.Made Script.genBinary.text Script.genBinary.left ∧
      Script.genBinary2.trace.Made Script.genBinary2.text Script.genBinary2.left ∧
      Script.genCoalescing.trace.Made Script.genCoalescing.text ∅ ∧
      Script.genRealloc.trace.Made Script.genRealloc.text ∅ ∧
      Script.genRealloc2.trace.Made Script.genRealloc2.text ∅ :=
  ⟨(script_make (by norm_num [Script.genBinary, Script.Ok])).2,
    (script_make (by norm_num [Script.genBinary2, Script.Ok])).2,
    (script_make (by norm_num [Script.genCoalescing, Script.Ok])).2,
    (script_make (by norm_num [Script.genRealloc, Script.Ok])).2,
    (script_make (by norm_num [Script.genRealloc2, Script.Ok])).2⟩

end MallocBench
