import MallocBench.Traces.Generators

/-! # The random traces (`traces/gen_random.pl`)

The script first lists the allocations of all blocks, and then looks for each of them in turn and puts its
release at a random place behind it. Here the random numbers are arbitrary.

* **`consistent_iff_own`**: a trace is consistent when the requests under each id are.
* **`genRandom_make`**: whatever numbers are drawn, the trace allocates every block and releases it later;
  it is read, and balanced from the start. -/

namespace MallocBench

open Text

/-! ## Requests under one id -/

namespace Request

/-- `$op->{seq}`. -/
def seq : Request → Nat
  | malloc index _ => index
  | realloc index _ => index
  | free index => index

/-- `$op->{type} eq "a"`. -/
def isAlloc : Request → Bool
  | malloc .. => true
  | _ => false

/-- Whether a request fits depends on its own id only. -/
theorem fits_congr {live live' : Finset Nat} {r : Request} (h : r.seq ∈ live ↔ r.seq ∈ live') :
    r.Fits live ↔ r.Fits live' := by
  cases r with
  | malloc index size => exact not_congr h
  | realloc index size => exact h
  | free index => exact h

/-- A request changes nothing for the other ids. -/
theorem mem_liveAfter {live : Finset Nat} {r : Request} {i : Nat} (h : r.seq ≠ i) :
    i ∈ r.liveAfter live ↔ i ∈ live := by
  cases r with
  | malloc index size => simp [liveAfter, Ne.symm (show index ≠ i from h)]
  | realloc index size => rfl
  | free index => simp [liveAfter, Ne.symm (show index ≠ i from h)]

/-- And what it does for its own id depends on nothing else. -/
theorem mem_liveAfter_congr {live live' : Finset Nat} {r : Request} {i : Nat}
    (h : i ∈ live ↔ i ∈ live') : i ∈ r.liveAfter live ↔ i ∈ r.liveAfter live' := by
  cases r with
  | malloc index size => simp [liveAfter, h]
  | realloc index size => exact h
  | free index => simp [liveAfter, h]

end Request

/-- The requests under one id. -/
def ownRequests (i : Nat) (requests : List Request) : List Request :=
  requests.filter fun r => r.seq = i

section Own

variable {live live' : Finset Nat} {i : Nat} {requests : List Request}

/-- So do the consistency of requests under one id, and whether the id is live after them. -/
theorem own_congr (hown : ∀ r ∈ requests, r.seq = i) (h : i ∈ live ↔ i ∈ live') :
    (Consistent live requests ↔ Consistent live' requests) ∧
      (i ∈ requests.foldl Request.liveAfter live ↔ i ∈ requests.foldl Request.liveAfter live') := by
  induction requests generalizing live live' with
  | nil => exact ⟨Iff.rfl, h⟩
  | cons r requests ih =>
      obtain rfl := hown r List.mem_cons_self
      obtain ⟨hrest, hmem⟩ := ih (fun q hq => hown q (List.mem_cons_of_mem _ hq))
        (Request.mem_liveAfter_congr h)
      exact ⟨and_congr (Request.fits_congr h) hrest, hmem⟩

/-- The requests under an id have that id. -/
theorem seq_of_mem_own {r : Request} (h : r ∈ ownRequests i requests) : r.seq = i := by
  simpa using (List.mem_filter.mp h).2

/-- The requests under an id in two parts of a trace. -/
theorem ownRequests_append (i : Nat) (a b : List Request) :
    ownRequests i (a ++ b) = ownRequests i a ++ ownRequests i b := List.filter_append ..

/-- A request under the id is one of them. -/
theorem ownRequests_self {r : Request} (h : r.seq = i) :
    ownRequests i (r :: requests) = r :: ownRequests i requests :=
  List.filter_cons_of_pos (by simpa using h)

/-- A request under another id is not. -/
theorem ownRequests_other {r : Request} (h : r.seq ≠ i) :
    ownRequests i (r :: requests) = ownRequests i requests :=
  List.filter_cons_of_neg (by simpa using h)

/-- **A trace is consistent** when the requests under each id are. -/
theorem consistent_iff_own :
    Consistent live requests ↔ ∀ i, Consistent live (ownRequests i requests) := by
  induction requests generalizing live with
  | nil => exact ⟨fun _ _ => trivial, fun _ => trivial⟩
  | cons r requests ih =>
      have hkeep : ∀ i, r.seq ≠ i → (Consistent (r.liveAfter live) (ownRequests i requests) ↔
          Consistent live (ownRequests i requests)) := fun i hi =>
        (own_congr (fun _ => seq_of_mem_own) (Request.mem_liveAfter hi)).1
      rw [Consistent, ih]
      constructor
      · rintro ⟨hfits, hrest⟩ i
        by_cases hi : r.seq = i
        · rw [ownRequests_self hi]
          exact ⟨hfits, hrest i⟩
        · rw [ownRequests_other hi]
          exact (hkeep i hi).mp (hrest i)
      · intro h
        have hr := h r.seq
        rw [ownRequests_self rfl] at hr
        refine ⟨hr.1, fun i => ?_⟩
        by_cases hi : r.seq = i
        · exact hi ▸ hr.2
        · exact (hkeep i hi).mpr (ownRequests_other hi ▸ h i)

/-- What is live depends on the requests under the id. -/
theorem mem_foldl_own :
    i ∈ requests.foldl Request.liveAfter live ↔
      i ∈ (ownRequests i requests).foldl Request.liveAfter live := by
  induction requests generalizing live with
  | nil => exact Iff.rfl
  | cons r requests ih =>
      rw [List.foldl_cons, ih]
      by_cases hi : r.seq = i
      · rw [ownRequests_self hi, List.foldl_cons]
      · rw [ownRequests_other hi]
        exact (own_congr (fun _ => seq_of_mem_own) (Request.mem_liveAfter hi)).2

end Own

/-! ## `gen_random.pl` -/

/-- The search for the allocation of `i`, from place `i` on. -/
def findAlloc (ops : List Request) (i : Nat) : Nat :=
  i + (ops.drop i).findIdx fun op => op.isAlloc && op.seq = i

/-- The second loop. `offset i x` is what `rand(x)` of round `i` adds to the place behind the allocation,
and what is put behind the end is put at the end. -/
def insertFree (offset : Nat → Nat → Nat) (numBlocks : Nat) (ops : List Request) (i : Nat) :
    List Request :=
  let minval := findAlloc ops i
  let pos := offset i (numBlocks + i - minval - 1) + minval + 1
  ops.take pos ++ .free i :: ops.drop pos

/-- The first loop, for the sizes drawn. -/
def allocOps (size : Nat → Nat) (numBlocks : Nat) : List Request :=
  (List.range numBlocks).map fun i => .malloc i (size i)

/-- `@trace` after a number of rounds of the second loop. -/
def randomOps (size : Nat → Nat) (offset : Nat → Nat → Nat) (numBlocks rounds : Nat) : List Request :=
  (List.range rounds).foldl (insertFree offset numBlocks) (allocOps size numBlocks)

/-- `gen_random.pl`, for the number of blocks and what `rand` returns. -/
def genRandom (size : Nat → Nat) (offset : Nat → Nat → Nat) (numBlocks : Nat) : Trace where
  suggHeapsize := (((List.range numBlocks).map size).sum + 100 : Nat)
  numIds := numBlocks
  numOps := 2 * numBlocks
  weight := 1
  requests := (randomOps size offset numBlocks numBlocks).take (2 * numBlocks)

/-- `@trace` in round `k`: the allocations are in order, and the blocks below `k` have a release, behind
their allocation. -/
structure RandomTrace (size : Nat → Nat) (numBlocks k : Nat) (ops : List Request) : Prop where
  length : ops.length = numBlocks + k
  allocs : ops.filter Request.isAlloc = allocOps size numBlocks
  freed : ∀ i < k, ownRequests i ops = [.malloc i (size i), .free i]
  kept : ∀ i, k ≤ i → ownRequests i ops = if i < numBlocks then [.malloc i (size i)] else []

namespace RandomTrace

variable {size : Nat → Nat} {offset : Nat → Nat → Nat} {numBlocks k : Nat} {ops : List Request}

/-- At the start each block is allocated, and none is released. -/
theorem start : RandomTrace size numBlocks 0 (allocOps size numBlocks) := by
  refine ⟨by simp [allocOps], List.filter_eq_self.mpr ?_, fun i hi => absurd hi (Nat.not_lt_zero i),
    fun i _ => ?_⟩
  · intro r hr
    obtain ⟨i, -, rfl⟩ := List.mem_map.mp hr
    rfl
  · induction numBlocks with
    | zero => rfl
    | succ n ih =>
        rw [allocOps, List.range_succ, List.map_append, ← allocOps, ownRequests_append, ih,
          List.map_singleton]
        by_cases hi : (Request.malloc n (size n)).seq = i
        · have heq : n = i := hi
          rw [ownRequests_self hi, if_neg (by omega), if_pos (by omega), heq]
          rfl
        · have hne : n ≠ i := hi
          rw [ownRequests_other hi]
          exact (List.append_nil _).trans (if_congr (by omega) rfl rfl)

/-- The allocation of `k` is not before place `k`. -/
theorem mem_drop (h : RandomTrace size numBlocks k ops) (hk : k < numBlocks) :
    .malloc k (size k) ∈ ops.drop k := by
  have hsplit : (ops.take k).filter Request.isAlloc ++ (ops.drop k).filter Request.isAlloc =
      allocOps size numBlocks := by
    rw [← List.filter_append, List.take_append_drop, h.allocs]
  have hshort : ((ops.take k).filter Request.isAlloc).length ≤ k :=
    (List.length_filter_le ..).trans (List.length_take_le ..)
  have hget : (allocOps size numBlocks)[k]? = some (.malloc k (size k)) := by
    simp [allocOps, hk]
  rw [← hsplit, List.getElem?_append_right hshort] at hget
  exact (List.mem_filter.mp (List.mem_of_getElem? hget)).1

/-- The search ends at the allocation. -/
theorem getElem?_findAlloc (h : RandomTrace size numBlocks k ops) (hk : k < numBlocks) :
    ops[findAlloc ops k]? = some (.malloc k (size k)) := by
  set found := fun op : Request => op.isAlloc && op.seq = k
  have hmem := h.mem_drop hk
  have hfound : (ops.drop k).findIdx found < (ops.drop k).length :=
    List.findIdx_lt_length_of_exists ⟨_, hmem, by simp [found, Request.isAlloc, Request.seq]⟩
  have hget : ops[findAlloc ops k]? = some ((ops.drop k)[(ops.drop k).findIdx found]) := by
    rw [findAlloc, ← List.getElem?_drop, List.getElem?_eq_getElem hfound]
  have hop := List.findIdx_getElem (w := hfound)
  rw [hget]
  generalize (ops.drop k)[(ops.drop k).findIdx found] = op at hget hop
  have hown : op ∈ ownRequests k ops := List.mem_filter.mpr ⟨List.mem_of_getElem? hget, by
    simpa [found] using (Bool.and_eq_true_iff.mp hop).2⟩
  rw [h.kept k le_rfl, if_pos hk] at hown
  rw [List.mem_singleton.mp hown]

/-- **One round** puts the release of `k` behind its allocation. -/
theorem step (h : RandomTrace size numBlocks k ops) (hk : k < numBlocks) :
    RandomTrace size numBlocks (k + 1) (insertFree offset numBlocks ops k) := by
  have hget := h.getElem?_findAlloc hk
  rw [insertFree]
  set pos := offset k (numBlocks + k - findAlloc ops k - 1) + findAlloc ops k + 1
  have hsplit : ∀ i, ownRequests i (ops.take pos) ++ ownRequests i (ops.drop pos) =
      ownRequests i ops := fun i => by
    rw [← ownRequests_append, List.take_append_drop]
  have hother : ∀ i, k ≠ i → ownRequests i (ops.take pos ++ .free k :: ops.drop pos) =
      ownRequests i ops := fun i hi => by
    rw [ownRequests_append, @ownRequests_other i _ (.free k) hi, hsplit]
  refine ⟨?_, ?_, fun i hi => ?_, fun i hi => ?_⟩
  · rw [List.length_append, List.length_cons, ← Nat.add_assoc, ← List.length_append,
      List.take_append_drop, h.length]
    omega
  · rw [List.filter_append, List.filter_cons_of_neg (by simp [Request.isAlloc]), ← List.filter_append,
      List.take_append_drop, h.allocs]
  · by_cases hik : k = i
    · subst hik
      -- the allocation is the one request under the id, and it is before the place
      have hlt : findAlloc ops k < pos := Nat.lt_succ_of_le (Nat.le_add_left _ _)
      have hplace : (ops.take pos)[findAlloc ops k]? = some (.malloc k (size k)) := by
        rw [List.getElem?_take_of_lt hlt, hget]
      have hbefore : .malloc k (size k) ∈ ownRequests k (ops.take pos) :=
        List.mem_filter.mpr ⟨List.mem_of_getElem? hplace, by simp [Request.seq]⟩
      have hone := hsplit k
      rw [h.kept k le_rfl, if_pos hk] at hone
      obtain ⟨hnone, -⟩ | ⟨hfirst, hsecond⟩ := List.append_eq_singleton_iff.mp hone
      · rw [hnone] at hbefore
        cases hbefore
      · rw [ownRequests_append, @ownRequests_self k _ (.free k) rfl, hfirst, hsecond]
        rfl
    · rw [hother i hik]
      exact h.freed i (by omega)
  · rw [hother i (by omega)]
    exact h.kept i (by omega)

/-- All rounds. -/
theorem rounds (size : Nat → Nat) (offset : Nat → Nat → Nat) (numBlocks : Nat) :
    ∀ k ≤ numBlocks, RandomTrace size numBlocks k (randomOps size offset numBlocks k)
  | 0, _ => start
  | k + 1, hk => by
      rw [randomOps, List.range_succ, List.foldl_concat]
      exact (rounds size offset numBlocks k (by omega)).step hk

end RandomTrace

section Random

variable (size : Nat → Nat) (offset : Nat → Nat → Nat) (numBlocks : Nat)

/-- The trace that is printed. -/
theorem genRandom_requests :
    RandomTrace size numBlocks numBlocks (genRandom size offset numBlocks).requests := by
  have h := RandomTrace.rounds size offset numBlocks numBlocks le_rfl
  rwa [genRandom, List.take_of_length_le (by rw [h.length]; omega)]

/-- A request of the trace is an allocation or a release of a block. -/
theorem genRandom_mem {r : Request} (hr : r ∈ (genRandom size offset numBlocks).requests) :
    ∃ i < numBlocks, r = .malloc i (size i) ∨ r = .free i := by
  have h := genRandom_requests size offset numBlocks
  have hown : r ∈ ownRequests r.seq (genRandom size offset numBlocks).requests :=
    List.mem_filter.mpr ⟨hr, by simp⟩
  by_cases hlt : r.seq < numBlocks
  · rw [h.freed r.seq hlt] at hown
    exact ⟨r.seq, hlt, by simpa using hown⟩
  · rw [h.kept r.seq (by omega), if_neg hlt] at hown
    cases hown

/-- The requests under each id are an allocation and a release. -/
theorem genRandom_consistent :
    Consistent ∅ (genRandom size offset numBlocks).requests ∧
      liveIds (genRandom size offset numBlocks).requests = ∅ := by
  have h := genRandom_requests size offset numBlocks
  constructor
  · refine consistent_iff_own.mpr fun i => ?_
    by_cases hi : i < numBlocks
    · rw [h.freed i hi]
      simp [Consistent, Request.Fits, Request.liveAfter]
    · rw [h.kept i (by omega), if_neg hi]
      trivial
  · refine Finset.eq_empty_of_forall_notMem fun i hlive => ?_
    rw [liveIds, mem_foldl_own] at hlive
    by_cases hi : i < numBlocks
    · rw [h.freed i hi] at hlive
      simp [Request.liveAfter] at hlive
    · rw [h.kept i (by omega), if_neg hi] at hlive
      simp at hlive

variable {size numBlocks}

/-- **`gen_random.pl`**, whatever numbers it draws: the trace is read, it allocates every block and
releases it later, and `checktrace.pl` has nothing to add. -/
theorem genRandom_make (hn : 0 < numBlocks) (hsum : ((List.range numBlocks).map size).sum + 100 < 2 ^ 31)
    (hops : 2 * numBlocks < 2 ^ 31) :
    (genRandom size offset numBlocks).Made (genRandom size offset numBlocks).text ∅ ∧
      ∀ i < numBlocks,
        ownRequests i (genRandom size offset numBlocks).requests = [.malloc i (size i), .free i] := by
  have h := genRandom_requests size offset numBlocks
  obtain ⟨hconsistent, hlive⟩ := genRandom_consistent size offset numBlocks
  have hsize : ∀ i < numBlocks, size i < 2 ^ 31 := fun i hi => by
    have hle := List.single_le_sum (fun n _ => Nat.zero_le n) (size i)
      (List.mem_map_of_mem (List.mem_range.mpr hi))
    omega
  have hrange : (genRandom size offset numBlocks).InRange :=
    ⟨by constructor <;> simp only [genRandom] <;> omega, show numBlocks < 2 ^ 31 by omega,
      show 2 * numBlocks < 2 ^ 31 by omega, show -2 ^ 31 ≤ (1 : Int) ∧ (1 : Int) < 2 ^ 31 by decide,
      fun r hr => by
        obtain ⟨i, hi, rfl | rfl⟩ := genRandom_mem size offset numBlocks hr
        · exact ⟨by omega, hsize i hi⟩
        · exact show i < 2 ^ 31 by omega⟩
  have htop : topId (genRandom size offset numBlocks).requests = numBlocks - 1 := by
    refine topId_eq (fun index s hr => ?_) ⟨size (numBlocks - 1), .inl ?_⟩
    · obtain hr | hr := hr <;>
        obtain ⟨i, hi, heq | heq⟩ := genRandom_mem size offset numBlocks hr <;> simp at heq
      omega
    · have hown := h.freed (numBlocks - 1) (by omega)
      have hmem : .malloc (numBlocks - 1) (size (numBlocks - 1)) ∈
          ownRequests (numBlocks - 1) (genRandom size offset numBlocks).requests := by
        rw [hown]
        exact List.mem_cons_self
      exact (List.mem_filter.mp hmem).1
  refine ⟨?_, h.freed⟩
  rw [← hlive]
  exact Trace.make hrange hconsistent (show numBlocks = _ + 1 by omega)
    (show 2 * numBlocks = _ by rw [h.length]; omega) (by rw [hlive]; exact hops)
    (genRandom size offset numBlocks).words_text rfl

/-- As many blocks as the script has, and some random numbers. -/
theorem genRandom_make_sample :
    (genRandom (fun i => 100 * i) (fun i x => i % x) 2400).Made
      (genRandom (fun i => 100 * i) (fun i x => i % x) 2400).text ∅ :=
  (genRandom_make _ (by decide) (by decide +kernel) (by decide)).1

end Random

end MallocBench
