import MallocBench.Lists.Smallest
import MallocBench.Numbers.Binary64

/-! # The K-best timer (`fcyc.c`, `clock.c`)

`fcyc` times a function again and again. It keeps the `kbest` smallest samples, in ascending order, by an
insertion in place, and stops when they agree within a tolerance or when there are enough samples. What it
returns is the first of them.

A sample is the difference of two readings of a cycle counter of 64 bits, whose halves are subtracted with
a borrow. Samples are doubles.

* **`Sampler.Keeps.addSample`**: the array holds the smallest of the samples so far.
* **`getCounter_eq`**: the difference of two readings, also when the counter wraps around in between.
* **`fcyc_isLeast`**: the result is the least of the samples taken, which are as many as it needs until
  `kbest` of them are close to the least. -/

namespace MallocBench

open Numbers Smallest

/-! ## The cycle counter -/

/-- `access_counter`: the high and the low half of the counter. -/
def accessCounter (counter : UInt64) : UInt32 × UInt32 := ((counter >>> 32).toUInt32, counter.toUInt32)

/-- `get_counter`, from the reading of `start_counter` and the one it makes itself. -/
def getCounter (cyc ncyc : UInt32 × UInt32) : ℚ :=
  let (cycHi, cycLo) := cyc
  let (ncycHi, ncycLo) := ncyc
  let lo := ncycLo - cycLo
  let borrow : UInt32 := if lo > ncycLo then 1 else 0
  let hi := ncycHi - cycHi - borrow
  nearest (nearest (nearest (hi.toNat * 2 ^ 30) * 4) + lo.toNat)

/-- The halves of the counter. -/
theorem toNat_accessCounter (counter : UInt64) :
    (accessCounter counter).1.toNat = counter.toNat / 2 ^ 32 ∧
      (accessCounter counter).2.toNat = counter.toNat % 2 ^ 32 := by
  have hlt := counter.toNat_lt
  constructor
  · simp only [accessCounter, UInt64.toNat_toUInt32, UInt64.toNat_shiftRight, Nat.shiftRight_eq_div_pow]
    exact Nat.mod_eq_of_lt (Nat.div_lt_of_lt_mul hlt)
  · exact UInt64.toNat_toUInt32 counter

/-- The halves of a difference. -/
theorem toNat_sub_halves (old new : UInt64) (oldHi oldLo newHi newLo borrow : UInt32)
    (hold : oldHi.toNat = old.toNat / 2 ^ 32 ∧ oldLo.toNat = old.toNat % 2 ^ 32)
    (hnew : newHi.toNat = new.toNat / 2 ^ 32 ∧ newLo.toNat = new.toNat % 2 ^ 32)
    (hborrow : borrow.toNat = if newLo.toNat < (newLo - oldLo).toNat then 1 else 0) :
    (newHi - oldHi - borrow).toNat * 2 ^ 32 + (newLo - oldLo).toNat = (new - old).toNat := by
  have holdlt := old.toNat_lt
  have hnewlt := new.toNat_lt
  rw [UInt32.toNat_sub] at hborrow
  rw [UInt32.toNat_sub, UInt32.toNat_sub, UInt32.toNat_sub, UInt64.toNat_sub, hborrow]
  split <;> omega

/-- **The difference of two readings** is right modulo `2 ^ 64`. It is rounded when it does not fit into
53 bits. -/
theorem getCounter_eq (old new : UInt64) :
    getCounter (accessCounter old) (accessCounter new) = nearest ((new - old).toNat : ℚ) := by
  have hgrid (hi : UInt32) (k : Nat) : nearest (hi.toNat * 2 ^ k) = hi.toNat * 2 ^ k := by
    rw [← zpow_natCast]
    exact nearest_of_grid (hi.toNat_lt.le.trans (by norm_num)) (by omega)
  -- neither product is rounded
  have hexact (hi : UInt32) : nearest (nearest (hi.toNat * 2 ^ 30) * 4) = hi.toNat * 2 ^ 32 := by
    rw [hgrid, ← hgrid hi 32]
    congr 1
    ring
  have hborrow (lo newLo : UInt32) :
      (if lo > newLo then 1 else 0 : UInt32).toNat = if newLo.toNat < lo.toNat then 1 else 0 := by
    simp only [gt_iff_lt, UInt32.lt_iff_toNat_lt]
    split <;> rfl
  have hsub := toNat_sub_halves old new _ _ _ _ _ (toNat_accessCounter old) (toNat_accessCounter new)
    (hborrow _ _)
  rw [getCounter, hexact, ← hsub, Nat.cast_add, Nat.cast_mul, Nat.cast_pow, Nat.cast_ofNat]

/-! ## The sampler -/

/-- `values` and `samplecount`. -/
structure Sampler where
  values : Nat → ℚ
  samplecount : Nat

/-- `init_sampler`. -/
def initSampler : Sampler := ⟨fun _ => 0, 0⟩

/-- The insertion sort of `add_sample`, from a position down. -/
def siftDown (values : Nat → ℚ) : Nat → Nat → ℚ
  | 0 => values
  | pos + 1 =>
    if values pos > values (pos + 1) then
      let temp := values pos
      let values := Function.update values pos (values (pos + 1))
      siftDown (Function.update values (pos + 1) temp) pos
    else values

/-- `add_sample`. -/
def Sampler.addSample (kbest : Nat) (s : Sampler) (val : ℚ) : Sampler :=
  if s.samplecount < kbest then
    ⟨siftDown (Function.update s.values s.samplecount val) s.samplecount, s.samplecount + 1⟩
  else if val < s.values (kbest - 1) then
    ⟨siftDown (Function.update s.values (kbest - 1) val) (kbest - 1), s.samplecount + 1⟩
  else ⟨s.values, s.samplecount + 1⟩

/-- `has_converged`. -/
def Sampler.hasConverged (kbest : Nat) (epsilon : ℚ) (s : Sampler) : Bool :=
  decide (kbest ≤ s.samplecount) &&
    decide (nearest (nearest (1 + epsilon) * s.values 0) ≥ s.values (kbest - 1))

/-- The loop of `fcyc`, with at most so many passes. `cyc` are the measured cycles. -/
def fcycLoop (kbest maxsamples : Nat) (epsilon : ℚ) (cyc : Nat → ℚ) : Nat → Sampler → Sampler
  | 0, s => s
  | passes + 1, s =>
    let s := s.addSample kbest (cyc s.samplecount)
    if !s.hasConverged kbest epsilon && decide (s.samplecount < maxsamples) then
      fcycLoop kbest maxsamples epsilon cyc passes s
    else s

/-- `fcyc`. The body of the loop is run once at least. -/
def fcyc (kbest maxsamples : Nat) (epsilon : ℚ) (cyc : Nat → ℚ) : ℚ :=
  (fcycLoop kbest maxsamples epsilon cyc (max 1 maxsamples) initSampler).values 0

/-! ## The array -/

/-- The first `n` entries. -/
def firstValues (values : Nat → ℚ) (n : Nat) : List ℚ := (List.range n).map values

/-- One value more is at the end. -/
theorem firstValues_succ (values : Nat → ℚ) (n : Nat) :
    firstValues values (n + 1) = firstValues values n ++ [values n] := by
  rw [firstValues, List.range_succ, List.map_append]
  rfl

/-- The first values depend on the first entries. -/
theorem firstValues_congr {values values' : Nat → ℚ} {n : Nat} (h : ∀ i < n, values i = values' i) :
    firstValues values n = firstValues values' n :=
  List.map_congr_left fun i hi => h i (List.mem_range.mp hi)

/-- Later entries do not change them. -/
theorem firstValues_update (values : Nat → ℚ) {n i : Nat} (h : n ≤ i) (x : ℚ) :
    firstValues (Function.update values i x) n = firstValues values n :=
  firstValues_congr fun j hj => Function.update_of_ne (by omega) x values

/-- They are as many as asked for. -/
theorem length_firstValues (values : Nat → ℚ) (n : Nat) : (firstValues values n).length = n := by
  simp [firstValues]

/-- **The insertion** puts an entry in its place before the sorted entries, and leaves those after it. -/
theorem siftDown_spec (values : Nat → ℚ) (pos : Nat) (h : (firstValues values pos).Pairwise (· ≤ ·)) :
    firstValues (siftDown values pos) (pos + 1) =
        (firstValues values pos).orderedInsert (· ≤ ·) (values pos) ∧
      ∀ i, pos < i → siftDown values pos i = values i := by
  induction pos generalizing values with
  | zero => exact ⟨rfl, fun _ _ => rfl⟩
  | succ pos ih =>
      have hsorted := h
      rw [firstValues_succ] at hsorted
      obtain ⟨hfront, -, hlast⟩ := List.pairwise_append.mp hsorted
      rw [siftDown]
      split
      · next hgt =>
        -- the entry is swapped with the one before it
        set swapped := Function.update (Function.update values pos (values (pos + 1))) (pos + 1)
          (values pos) with hswapped
        have hkeep : firstValues swapped pos = firstValues values pos := by
          rw [hswapped, firstValues_update _ (by omega), firstValues_update _ le_rfl]
        have hpos : swapped pos = values (pos + 1) := by
          rw [hswapped, Function.update_of_ne (by omega), Function.update_self]
        have hnext : swapped (pos + 1) = values pos := Function.update_self ..
        obtain ⟨hinsert, hframe⟩ := ih swapped (hkeep ▸ hfront)
        constructor
        · rw [firstValues_succ, hinsert, hframe _ (by omega), hkeep, hpos, hnext, firstValues_succ,
            orderedInsert_concat hsorted hgt.le]
        · intro i hi
          rw [hframe i (by omega), hswapped, Function.update_of_ne (by omega),
            Function.update_of_ne (by omega)]
      · next hle =>
        refine ⟨?_, fun _ _ => rfl⟩
        have hall : ∀ y ∈ firstValues values (pos + 1), y ≤ values (pos + 1) := by
          intro y hy
          rw [firstValues_succ] at hy
          rcases List.mem_append.mp hy with hy | hy
          · exact (hlast y hy _ List.mem_cons_self).trans (not_lt.mp hle)
          · exact List.mem_singleton.mp hy ▸ not_lt.mp hle
        rw [firstValues_succ, orderedInsert_last h hall]

/-- The sampler holds the `kbest` smallest of the samples. -/
structure Sampler.Keeps (kbest : Nat) (samples : List ℚ) (s : Sampler) : Prop where
  samplecount : s.samplecount = samples.length
  values : firstValues s.values (min kbest samples.length) = smallest kbest samples

/-- At the start no sample is kept. -/
theorem Sampler.keeps_init (kbest : Nat) : initSampler.Keeps kbest [] :=
  ⟨rfl, by simp [smallest, firstValues]⟩

namespace Sampler.Keeps

variable {kbest : Nat} {samples : List ℚ} {s : Sampler}

/-- **A sample is added.** -/
theorem addSample (hk : 0 < kbest) (h : s.Keeps kbest samples) (val : ℚ) :
    (s.addSample kbest val).Keeps kbest (samples ++ [val]) := by
  have hsorted : (firstValues s.values (min kbest samples.length)).Pairwise (· ≤ ·) :=
    h.values ▸ pairwise_smallest
  have hlength : (samples ++ [val]).length = samples.length + 1 := by simp
  rw [Sampler.addSample, h.samplecount]
  split
  · next hlt =>
    -- there is room for it
    rw [min_eq_right hlt.le] at hsorted
    have hvalues := h.values
    rw [min_eq_right hlt.le] at hvalues
    have hkeep : firstValues (Function.update s.values samples.length val) samples.length =
        firstValues s.values samples.length := firstValues_update _ le_rfl val
    obtain ⟨hinsert, -⟩ := siftDown_spec (Function.update s.values samples.length val) samples.length
      (hkeep ▸ hsorted)
    refine ⟨hlength.symm, ?_⟩
    have hall : ((firstValues s.values samples.length).orderedInsert (· ≤ ·) val).length ≤ kbest := by
      rw [List.orderedInsert_length, length_firstValues]
      exact hlt
    rw [hlength, min_eq_right hlt, hinsert, hkeep, Function.update_self, smallest_concat, ← hvalues,
      List.take_of_length_le hall]
  · next hge =>
    have hfull : min kbest samples.length = kbest := min_eq_left (not_lt.mp hge)
    obtain ⟨k, rfl⟩ := Nat.exists_eq_succ_of_ne_zero hk.ne'
    have hvalues := h.values
    rw [hfull] at hvalues hsorted
    rw [firstValues_succ] at hsorted
    obtain ⟨hfront, -, hlast⟩ := List.pairwise_append.mp hsorted
    have hmin : min (k + 1) (samples ++ [val]).length = k + 1 := by
      rw [hlength]
      omega
    split
    · next hlt =>
      -- it takes the place of the largest
      have hkeep : firstValues (Function.update s.values k val) k = firstValues s.values k :=
        firstValues_update _ le_rfl val
      obtain ⟨hinsert, -⟩ := siftDown_spec (Function.update s.values k val) k (hkeep ▸ hfront)
      refine ⟨hlength.symm, ?_⟩
      have hlen : ((firstValues s.values k).orderedInsert (· ≤ ·) val).length = k + 1 := by
        rw [List.orderedInsert_length, length_firstValues]
      rw [Function.update_self, hkeep] at hinsert
      rw [hmin, smallest_concat, ← hvalues, firstValues_succ s.values k,
        orderedInsert_concat hsorted hlt.le]
      exact hinsert.trans (hlen ▸ List.take_left).symm
    · next hge' =>
      -- it is none of the smallest
      have hall : ∀ y ∈ firstValues s.values (k + 1), y ≤ val := by
        intro y hy
        rw [firstValues_succ] at hy
        rcases List.mem_append.mp hy with hy | hy
        · exact (hlast y hy _ List.mem_cons_self).trans (not_lt.mp hge')
        · exact List.mem_singleton.mp hy ▸ not_lt.mp hge'
      have htake : (firstValues s.values (k + 1)).length = k + 1 := length_firstValues _ _
      refine ⟨hlength.symm, ?_⟩
      rw [hmin, smallest_concat, ← hvalues, orderedInsert_last (firstValues_succ s.values k ▸ hsorted) hall]
      exact (htake ▸ List.take_left).symm

/-- The first entry is the least sample. -/
theorem isLeast (hk : 0 < kbest) (h : s.Keeps kbest samples) (hne : samples ≠ []) :
    IsLeast {x | x ∈ samples} (s.values 0) := by
  have hpos : 0 < min kbest samples.length := lt_min hk (List.length_pos_of_ne_nil hne)
  have hfirst : (smallest kbest samples).getD 0 0 = s.values 0 := by
    rw [← h.values, firstValues, List.getD_eq_getElem?_getD, List.getElem?_map, List.getElem?_range hpos]
    rfl
  exact hfirst ▸ isLeast_smallest hk hne 0

/-- **The samples have converged** when `kbest` of them are close to the least. -/
theorem hasConverged_iff (hk : 0 < kbest) (h : s.Keeps kbest samples) (epsilon : ℚ) :
    s.hasConverged kbest epsilon = true ↔
      kbest ≤ samples.countP (· ≤ nearest (nearest (1 + epsilon) * s.values 0)) := by
  rw [Sampler.hasConverged, h.samplecount, Bool.and_eq_true, decide_eq_true_eq, decide_eq_true_eq]
  by_cases hfew : kbest ≤ samples.length
  · have hlast : (smallest kbest samples).getD (kbest - 1) 0 = s.values (kbest - 1) := by
      rw [← h.values, min_eq_left hfew, firstValues, List.getD_eq_getElem?_getD, List.getElem?_map,
        List.getElem?_range (by omega)]
      rfl
    rw [ge_iff_le, ← hlast, getD_smallest_le_iff hk hfew]
    exact ⟨fun hboth => hboth.2, fun hcount => ⟨hfew, hcount⟩⟩
  · refine iff_of_false (fun hboth => hfew hboth.1) fun hcount => hfew (hcount.trans ?_)
    exact List.countP_le_length

end Sampler.Keeps

/-! ## The loop -/

/-- Of the first `n` samples, `kbest` are close to the least. -/
def Agree (kbest : Nat) (epsilon : ℚ) (cyc : Nat → ℚ) (n : Nat) : Prop :=
  ∃ best, IsLeast (cyc '' Set.Iio n) best ∧
    kbest ≤ ((Finset.range n).filter fun i => cyc i ≤ nearest (nearest (1 + epsilon) * best)).card

section Loop

variable {kbest maxsamples : Nat} {epsilon : ℚ} {cyc : Nat → ℚ} {s : Sampler} {n : Nat}

/-- The least of the first samples is in the first entry. -/
theorem isLeast_firstValues (hk : 0 < kbest) (h : s.Keeps kbest (firstValues cyc n)) (hn : 0 < n) :
    IsLeast (cyc '' Set.Iio n) (s.values 0) := by
  have hne : firstValues cyc n ≠ [] := List.ne_nil_of_length_pos (by rwa [length_firstValues])
  have hset : {x | x ∈ firstValues cyc n} = cyc '' Set.Iio n := by
    ext x
    simp [firstValues]
  exact hset ▸ h.isLeast hk hne

/-- **The sampler has converged** exactly when the samples agree. -/
theorem hasConverged_agree (hk : 0 < kbest) (h : s.Keeps kbest (firstValues cyc n)) (hn : 0 < n) :
    s.hasConverged kbest epsilon = true ↔ Agree kbest epsilon cyc n := by
  have hleast := isLeast_firstValues hk h hn
  have hcount (b : ℚ) : (firstValues cyc n).countP (· ≤ b) =
      ((Finset.range n).filter fun i => cyc i ≤ b).card := by
    rw [firstValues, List.countP_map, List.countP_eq_length_filter]
    rfl
  rw [h.hasConverged_iff hk, hcount]
  constructor
  · exact fun hle => ⟨_, hleast, hle⟩
  · rintro ⟨best, hbest, hle⟩
    rwa [hbest.unique hleast] at hle

/-- **The loop** takes a sample at least, and goes on while neither reason to stop is there. -/
theorem fcycLoop_keeps (hk : 0 < kbest) {passes : Nat} (h : s.Keeps kbest (firstValues cyc n))
    (hpos : 0 < passes) (hpasses : maxsamples ≤ n + passes) :
    ∃ m, n < m ∧ (fcycLoop kbest maxsamples epsilon cyc passes s).Keeps kbest (firstValues cyc m) ∧
      (Agree kbest epsilon cyc m ∨ maxsamples ≤ m) ∧
      ∀ i, n < i → i < m → ¬ Agree kbest epsilon cyc i ∧ i < maxsamples := by
  induction passes generalizing s n with
  | zero => exact absurd hpos (Nat.lt_irrefl 0)
  | succ passes ih =>
      have hcount : s.samplecount = n := h.samplecount.trans (length_firstValues cyc n)
      have hnext : (s.addSample kbest (cyc s.samplecount)).Keeps kbest (firstValues cyc (n + 1)) := by
        rw [firstValues_succ, hcount]
        exact h.addSample hk (cyc n)
      have hagree := @hasConverged_agree kbest epsilon cyc _ _ hk hnext n.succ_pos
      have hcount' := hnext.samplecount.trans (length_firstValues cyc (n + 1))
      rw [fcycLoop]
      split
      · next hgo =>
        rw [Bool.and_eq_true, Bool.not_eq_true', decide_eq_true_eq, hcount'] at hgo
        obtain ⟨hnot, hlt⟩ := hgo
        obtain ⟨m, hm, hkeeps, hstop, hbefore⟩ := ih hnext (by omega) (by omega)
        refine ⟨m, by omega, hkeeps, hstop, fun i hi him => ?_⟩
        rcases (Nat.succ_le_of_lt hi).eq_or_lt with rfl | hi
        · refine ⟨fun hall => ?_, hlt⟩
          rw [← hagree, hnot] at hall
          exact Bool.false_ne_true hall
        · exact hbefore i hi him
      · next hstop =>
        refine ⟨n + 1, by omega, hnext, ?_, fun i hi him => by omega⟩
        by_contra hno
        rw [not_or, ← hagree, Bool.not_eq_true, not_le] at hno
        apply hstop
        rw [hno.1, hcount', decide_eq_true hno.2]
        rfl

end Loop

/-- **The timer** returns the least of the samples it takes. It takes no more of them once `kbest` are
close to the least, or once there are `maxsamples`. -/
theorem fcyc_isLeast (kbest maxsamples : Nat) (hk : 0 < kbest) (epsilon : ℚ) (start stop : Nat → UInt64) :
    let elapsed i := nearest ((stop i - start i).toNat : ℚ)
    ∃ n, 0 < n ∧ (Agree kbest epsilon elapsed n ∨ maxsamples ≤ n) ∧
      (∀ m, 0 < m → m < n → ¬ Agree kbest epsilon elapsed m ∧ m < maxsamples) ∧
      IsLeast (elapsed '' Set.Iio n)
        (fcyc kbest maxsamples epsilon fun i =>
          getCounter (accessCounter (start i)) (accessCounter (stop i))) := by
  intro elapsed
  obtain ⟨n, hn, hkeeps, hstop, hbefore⟩ :=
    @fcycLoop_keeps kbest maxsamples epsilon elapsed initSampler 0 hk (max 1 maxsamples)
      (Sampler.keeps_init kbest) (by omega) (by omega)
  refine ⟨n, hn, hstop, hbefore, ?_⟩
  rw [funext fun i => getCounter_eq (start i) (stop i)]
  exact isLeast_firstValues hk hkeeps hn

/-- A function of 100 cycles, with a counter that wraps around while it runs. -/
theorem fcyc_isLeast_wrap : 0 < 3 ∧
    fcyc 3 20 (nearest (1 / 100))
      (fun _ => getCounter (accessCounter 18446744073709551606) (accessCounter 90)) = 100 := by
  refine ⟨by decide, ?_⟩
  obtain ⟨-, -, -, -, ⟨i, -, hbest⟩, -⟩ :=
    fcyc_isLeast 3 20 (by decide) (nearest (1 / 100)) (fun _ => 18446744073709551606) fun _ => 90
  have helapsed : ((90 : UInt64) - 18446744073709551606).toNat = 100 := by decide
  exact hbest.symm.trans (helapsed ▸ (isBinary64_natCast (by norm_num)).2.2)

end MallocBench
