import MallocBench.Scripts.HarnessDiffs
import MallocBench.Scripts.MdriverOutput
import Mathlib.Data.Finset.Card

/-! # A participant's status from its attempts

`run_participant` repeats build and run until an attempt fails, and `result_from_attempts` makes one
result of the attempts it has: a status, the common count of valid traces and the medians of the
measures.

* **`resultFromAttempts_returns_iff`**: the aggregation raises exactly when an integer is too large for a
  double or the two middle values of an even number of them have too large a sum.
* **`runAttempts_status`**: there is a result and its status is the one the README defines, unless the
  aggregation raises or every attempt counts the same number of valid traces and that is more than
  there are. -/

namespace MallocBench

open Numbers

/-! ## Attempts and results -/

/-- The status values, with that of a repository that was synchronised. -/
inductive Status where
  | ok
  | incorrect
  | unstable
  | buildFail
  | runFail
  | harnessDiff
  | participantError
  | dirtyRepo
  | syncFail
  | synced
  deriving DecidableEq

/-- The record `run_single_attempt` returns, with the number of the attempt. -/
structure Attempt where
  status : Status
  error : Option String
  measures : Measures
  attempt : Nat
  deriving DecidableEq

/-- The measures of an attempt that has none. -/
def noMeasures : Measures := ⟨none, none, none, none, none, none⟩

/-- The result of a participant, known by its alias. An absent entry and one that is `None` are the
same here, as they are for `dict.get`. -/
structure Result where
  participant : List Char
  repoUrl : List Char
  branch : List Char
  commit : Option (List Char)
  mode : Mode
  status : Option Status
  harnessDiffCount : Nat
  error : Option String
  attempts : List Attempt
  correct : Option Nat
  utilPercent : Option Nat
  totalOps : Option Nat
  totalSecs : Option Double
  throughputKops : Option Double
  perfidx : Option Double

/-! ## Medians -/

/-- `median_or_none`. -/
def medianOrNone (values : List Double) : Option Double :=
  if values = [] then none else some (median values)

/-- `stable_value_or_none`. -/
def stableValueOrNone (values : List Nat) : Option Nat := values.head?

/-- `compute_throughput_kops`. -/
def computeThroughputKops (totalOps : Option Binary64) (totalSecs : Option Double) : Option Double :=
  match totalOps, totalSecs with
  | some ops, some secs =>
    if secs.le (.ofRat 0) then none else some (Double.divideBy 1000 (Double.divide ops secs))
  | _, _ => none

/-- `[float(value) for value in values]`. -/
def floats : List Nat → Except PyError (List Binary64)
  | [] => .ok []
  | n :: rest => do
    let x ← pyFloatOfNat n
    let xs ← floats rest
    return x :: xs

/-- `int(median_or_none(values)) if values else None`. -/
def intMedian (values : List Binary64) : Except PyError (Option Nat) :=
  if values = [] then .ok none
  else do
    let n ← pyIntOfDouble (median (values.map .finite))
    return some n

/-! ## From attempts to a result -/

/-- The attempts that did not fail. -/
def successful (attempts : List Attempt) : List Attempt := attempts.filter (·.status = .ok)

/-- Their counts of valid traces. -/
def correctValues (attempts : List Attempt) : List Nat :=
  (successful attempts).filterMap (·.measures.correct)

/-- Their utilisations. -/
def utilValues (attempts : List Attempt) : List Nat :=
  (successful attempts).filterMap (·.measures.utilPercent)

/-- Their operations. -/
def opsValues (attempts : List Attempt) : List Nat :=
  (successful attempts).filterMap (·.measures.totalOps)

/-- The throughput of one attempt. -/
def throughput (attempt : Attempt) : Except PyError (Option Double) :=
  match attempt.measures.totalOps with
  | some n => do
    let ops ← pyFloatOfNat n
    return computeThroughputKops (some ops) attempt.measures.totalSecs
  | none => .ok (computeThroughputKops none attempt.measures.totalSecs)

/-- `kops_values`. -/
def kopsValues : List Attempt → Except PyError (List Double)
  | [] => .ok []
  | attempt :: rest => do
    let kops ← throughput attempt
    let others ← kopsValues rest
    return kops.toList ++ others

/-- The attempts disagree: one failed, or two counted differently. -/
def Unstable (attempts : List Attempt) : Prop :=
  (successful attempts).length ≠ attempts.length ∨ 1 < (correctValues attempts).toFinset.card

instance (attempts : List Attempt) : Decidable (Unstable attempts) :=
  inferInstanceAs (Decidable (_ ∨ _))

/-- The status of attempts one of which succeeded. -/
def statusOf (attempts : List Attempt) (expectedTraces : Nat) : Status :=
  if Unstable attempts then .unstable
  else
    match (correctValues attempts).head? with
    | some correct => if correct < expectedTraces then .incorrect else .ok
    | none => .ok

/-- `result_from_attempts`. -/
def resultFromAttempts (base : Result) (attempts : List Attempt) (expectedTraces : Nat) :
    Except PyError Result :=
  match attempts.head? with
  | none => .ok { base with attempts := attempts }
  | some first =>
    if successful attempts = [] then
      .ok
        { base with
          attempts := attempts
          status := some first.status
          correct := none
          utilPercent := none
          throughputKops := none
          perfidx := none
          error := first.error <|> base.error }
    else do
      let ops ← floats (opsValues attempts)
      let kops ← kopsValues (successful attempts)
      let utils ← floats (utilValues attempts)
      let utilPercent ← intMedian utils
      let totalOps ← intMedian ops
      return { base with
        attempts := attempts
        status := some (statusOf attempts expectedTraces)
        error := ((attempts.find? (·.status ≠ .ok)).bind (·.error)) <|> base.error
        correct := stableValueOrNone (correctValues attempts)
        utilPercent := utilPercent
        totalOps := totalOps
        totalSecs := medianOrNone ((successful attempts).filterMap (·.measures.totalSecs))
        throughputKops := (medianOrNone kops).map Double.round3
        perfidx := medianOrNone ((successful attempts).filterMap (·.measures.perfidx)) }

/-! ## When the aggregation raises -/

/-- The doubles nearest to some integers. -/
def doubles (values : List Nat) : List Double := values.map fun n : Nat => .ofRat (n : ℚ)

/-- No integer is too large for a double, and the two middle ones of an even number of values do not
have too large a sum. -/
structure InRange (values : List Nat) : Prop where
  fits : ∀ n ∈ values, FloatFits n
  median : MedianFits (doubles values)

/-- Converting a list returns iff converting each integer does. -/
theorem floats_returns_iff (values : List Nat) :
    (∃ xs, floats values = .ok xs) ↔ ∀ n ∈ values, FloatFits n := by
  induction values with
  | nil => exact iff_of_true ⟨[], rfl⟩ (by simp)
  | cons n rest ih =>
      rw [List.forall_mem_cons, ← ih, ← pyFloatOfNat_eq_ok_iff, floats]
      simp only [exists_bind_eq_ok]
      simp [pure, Except.pure]

/-- The doubles are the nearest ones. -/
theorem floats_eq {values : List Nat} {xs : List Binary64} (h : floats values = .ok xs) :
    xs.map .finite = doubles values := by
  unfold doubles
  induction values generalizing xs with
  | nil =>
      obtain rfl := Except.ok.inj h
      rfl
  | cons n rest ih =>
      rw [floats, bind_eq_ok] at h
      obtain ⟨x, hx, h⟩ := h
      obtain ⟨ys, hys, h⟩ := bind_eq_ok.mp h
      obtain rfl := Except.ok.inj h
      have hn : Double.ofRat n = .finite x := by
        unfold pyFloatOfNat at hx
        split at hx
        · next y hy =>
          obtain rfl := Except.ok.inj hx
          exact hy
        · exact absurd hx (by simp)
      rw [List.map_cons, List.map_cons, ih hys, hn]

/-- The median of integers is converted back iff it is finite. -/
theorem intMedian_returns_iff (xs : List Binary64) :
    (∃ n, intMedian xs = .ok n) ↔ MedianFits (xs.map .finite) := by
  unfold intMedian
  by_cases hnil : xs = []
  · subst hnil
    exact iff_of_true ⟨none, rfl⟩ (by simp [MedianFits])
  · have hne : xs.map Double.finite ≠ [] := by simpa using hnil
    rw [if_neg hnil, exists_bind_eq_ok, ← median_ne_inf_iff hne (by simp), ← pyIntOfDouble_eq_ok_iff]
    simp [pure, Except.pure]

/-- The throughputs are computed when the operations are converted. -/
theorem kopsValues_returns (attempts : List Attempt)
    (h : ∀ n ∈ attempts.filterMap (·.measures.totalOps), FloatFits n) :
    ∃ kops, kopsValues attempts = .ok kops := by
  induction attempts with
  | nil => exact ⟨[], rfl⟩
  | cons attempt rest ih =>
      have hrest : ∃ kops, kopsValues rest = .ok kops := by
        apply ih
        intro n hn
        apply h n
        rw [List.filterMap_cons]
        split
        · exact hn
        · exact List.mem_cons_of_mem _ hn
      have hone : ∃ kops, throughput attempt = .ok kops := by
        unfold throughput
        split
        · next n hn =>
          rw [exists_bind_eq_ok]
          have hfits : FloatFits n := by
            apply h n
            exact List.mem_filterMap.mpr ⟨attempt, List.mem_cons_self, hn⟩
          obtain ⟨x, hx⟩ := pyFloatOfNat_eq_ok_iff.mpr hfits
          exact ⟨x, hx, _, rfl⟩
        · exact ⟨_, rfl⟩
      obtain ⟨kops, hkops⟩ := hone
      obtain ⟨others, hothers⟩ := hrest
      unfold kopsValues
      rw [exists_bind_eq_ok]
      refine ⟨kops, hkops, ?_⟩
      rw [exists_bind_eq_ok]
      exact ⟨others, hothers, _, rfl⟩

/-- No value is in range. -/
theorem inRange_nil : InRange [] :=
  ⟨by simp, by simp [MedianFits, doubles]⟩

/-- **Integers that doubles have** are in range: the sum of two of them does not overflow. -/
theorem inRange_of_le {values : List Nat} (h : ∀ n ∈ values, n ≤ 2 ^ 53) : InRange values := by
  have hthreshold : ((2 ^ 54 : ℕ) : ℚ) < overflowThreshold := by
    have hpow : (2 : ℚ) ^ (970 : ℤ) * 2 ^ (54 : ℤ) = 2 ^ (1024 : ℤ) := by
      rw [← zpow_add₀ two_ne_zero]
      rfl
    have htwo : (2 : ℚ) ≤ 2 ^ (970 : ℤ) := by
      calc (2 : ℚ) = 2 ^ (1 : ℤ) := (zpow_one 2).symm
        _ ≤ 2 ^ (970 : ℤ) := zpow_le_zpow_right₀ one_le_two (by decide)
    rw [overflowThreshold, ← hpow]
    generalize (2 : ℚ) ^ (970 : ℤ) = x at htwo
    norm_num
    linarith
  have hvalue : ∀ v ∈ doubles values, ∃ x : Binary64, v = .finite x ∧ x.value ≤ 2 ^ 53 := by
    intro v hv
    obtain ⟨n, hn, rfl⟩ := List.mem_map.mp hv
    obtain ⟨x, hx, hvalue⟩ := Double.ofRat_exact_iff.mpr (isBinary64_natCast (h n hn))
    exact ⟨x, hx, by rw [hvalue]; exact_mod_cast h n hn⟩
  constructor
  · intro n hn
    refine lt_of_le_of_lt ?_ hthreshold
    exact_mod_cast (h n hn).trans (Nat.pow_le_pow_right (by decide) (by decide))
  · rintro ⟨hne, -⟩
    obtain ⟨x, hx, hxle⟩ := hvalue _ (lowerMiddle_mem hne)
    obtain ⟨y, hy, hyle⟩ := hvalue _ (upperMiddle_mem hne)
    have hnonneg : 0 ≤ x.value + y.value := add_nonneg x.isBinary64.1 y.isBinary64.1
    rw [hx, hy, Double.add, Ne, Double.ofRat_eq_inf_iff hnonneg, not_le]
    refine lt_of_le_of_lt ?_ hthreshold
    push_cast
    linarith

/-- **The aggregation returns** iff the operations and the utilisations are in range. -/
theorem resultFromAttempts_returns_iff (base : Result) (attempts : List Attempt)
    (expectedTraces : Nat) :
    (∃ result, resultFromAttempts base attempts expectedTraces = .ok result) ↔
      InRange (opsValues attempts) ∧ InRange (utilValues attempts) := by
  have hnone : successful attempts = [] →
      InRange (opsValues attempts) ∧ InRange (utilValues attempts) := by
    intro hempty
    unfold opsValues utilValues
    rw [hempty]
    exact ⟨inRange_nil, inRange_nil⟩
  unfold resultFromAttempts
  cases hhead : attempts.head? with
  | none =>
      rw [List.head?_eq_none_iff] at hhead
      exact iff_of_true ⟨_, rfl⟩ (hnone (by rw [hhead]; rfl))
  | some first =>
      by_cases hempty : successful attempts = []
      · simp only [if_pos hempty]
        exact iff_of_true ⟨_, rfl⟩ (hnone hempty)
      · simp only [if_neg hempty, exists_bind_eq_ok]
        constructor
        · rintro ⟨ops, hops, kops, -, utils, hutils, percent, hpercent, total, htotal, -⟩
          -- each conversion that returned gives its condition
          have hfitsOps := (floats_returns_iff _).mp ⟨ops, hops⟩
          have hfitsUtils := (floats_returns_iff _).mp ⟨utils, hutils⟩
          have hmedianOps := (intMedian_returns_iff ops).mp ⟨total, htotal⟩
          have hmedianUtils := (intMedian_returns_iff utils).mp ⟨percent, hpercent⟩
          rw [floats_eq hops] at hmedianOps
          rw [floats_eq hutils] at hmedianUtils
          exact ⟨⟨hfitsOps, hmedianOps⟩, ⟨hfitsUtils, hmedianUtils⟩⟩
        · rintro ⟨hops, hutils⟩
          -- the throughputs convert the same operations, so they raise nothing new
          obtain ⟨ops, hops'⟩ := (floats_returns_iff _).mpr hops.fits
          obtain ⟨utils, hutils'⟩ := (floats_returns_iff _).mpr hutils.fits
          obtain ⟨kops, hkops⟩ := kopsValues_returns (successful attempts) hops.fits
          obtain ⟨percent, hpercent⟩ :=
            (intMedian_returns_iff utils).mpr (by rw [floats_eq hutils']; exact hutils.median)
          obtain ⟨total, htotal⟩ :=
            (intMedian_returns_iff ops).mpr (by rw [floats_eq hops']; exact hops.median)
          exact ⟨ops, hops', kops, hkops, utils, hutils', percent, hpercent, total, htotal, _, rfl⟩

/-! ## The attempt loop -/

/-- The statuses of a failed attempt. -/
def Attempt.Failed (attempt : Attempt) : Prop :=
  attempt.status = .buildFail ∨ attempt.status = .runFail

instance : DecidablePred Attempt.Failed :=
  fun _ => inferInstanceAs (Decidable (_ ∨ _))

/-- The loop of `run_participant` over the attempts still to make: it stops after a failed one. -/
def attemptLoop (runAttempt : Nat → Except PyError Attempt) :
    Nat → Nat → Except PyError (List Attempt)
  | 0, _ => .ok []
  | n + 1, attemptNumber => do
    let attempt ← runAttempt attemptNumber
    if attempt.Failed then return [{ attempt with attempt := attemptNumber }]
    else do
      let rest ← attemptLoop runAttempt n (attemptNumber + 1)
      return { attempt with attempt := attemptNumber } :: rest

/-- The end of `run_participant`: the loop, and the result of its attempts. -/
def runAttempts (base : Result) (runAttempt : Nat → Except PyError Attempt)
    (repeats expectedTraces : Nat) : Except PyError Result := do
  let attempts ← attemptLoop runAttempt repeats 1
  resultFromAttempts base attempts expectedTraces

/-- The attempts up to the first failed one. -/
def upToFailure : List Attempt → List Attempt
  | [] => []
  | attempt :: rest => if attempt.Failed then [attempt] else attempt :: upToFailure rest

/-- The outcomes of so many attempts, numbered. -/
def outcomes (outcome : Nat → Attempt) (n first : Nat) : List Attempt :=
  (List.range' first n).map fun k => { outcome k with attempt := k }

/-- **The loop makes the attempts up to the first failed one.** -/
theorem attemptLoop_eq (outcome : Nat → Attempt) (n first : Nat) :
    attemptLoop (fun k => .ok (outcome k)) n first = .ok (upToFailure (outcomes outcome n first)) := by
  induction n generalizing first with
  | zero => rfl
  | succ n ih =>
      -- the number of an attempt does not change whether it failed
      have hfailed : Attempt.Failed { outcome first with attempt := first } ↔
          (outcome first).Failed := Iff.rfl
      unfold outcomes at ih ⊢
      rw [List.range'_succ, List.map_cons, attemptLoop, upToFailure]
      by_cases h : (outcome first).Failed
      · rw [if_pos (hfailed.mpr h)]
        change (if (outcome first).Failed then _ else _) = _
        rw [if_pos h]
        rfl
      · rw [if_neg (mt hfailed.mp h)]
        change (if (outcome first).Failed then _ else _) = _
        rw [if_neg h, ih (first + 1)]
        rfl

/-! ## The README's definition -/

/-- What `run_single_attempt` can return: a failed attempt, or one that counted the valid traces. -/
def Attempt.Possible (attempt : Attempt) : Prop :=
  attempt.Failed ∨ attempt.status = .ok ∧ attempt.measures.correct ≠ none

/-- The status as the README defines it, from the outcomes of all attempts. The first failure decides;
a later failure, or two counts that differ, is unstable; `OK` means that the common count is the
number of traces. -/
def readmeStatus (attempts : List Attempt) (expectedTraces : Nat) : Status :=
  match attempts with
  | [] => .ok
  | first :: later =>
    if first.Failed then first.status
    else if (∃ a ∈ later, a.Failed) ∨
        ∃ a ∈ attempts, ∃ b ∈ attempts, a.status = .ok ∧ b.status = .ok ∧
          a.measures.correct ≠ b.measures.correct then .unstable
    else if ∀ a ∈ attempts, a.measures.correct = some expectedTraces then .ok
    else .incorrect

/-- Every attempt succeeds with the same count, and it is more than the number of traces. -/
def Overcounts (attempts : List Attempt) (expectedTraces : Nat) : Prop :=
  ∃ correct, expectedTraces < correct ∧
    ∀ a ∈ attempts, a.status = .ok ∧ a.measures.correct = some correct

/-- A possible attempt that did not fail succeeded. -/
theorem Attempt.Possible.ok {a : Attempt} (h : a.Possible) (hf : ¬ a.Failed) :
    a.status = .ok ∧ ∃ correct, a.measures.correct = some correct := by
  obtain ⟨hok, hcorrect⟩ := h.resolve_left hf
  exact ⟨hok, Option.ne_none_iff_exists'.mp hcorrect⟩

/-- A failed attempt did not succeed. -/
theorem Attempt.Failed.ne_ok {a : Attempt} (h : a.Failed) : a.status ≠ .ok := by
  rcases h with h | h
  · rw [h]
    decide
  · rw [h]
    decide

/-- Without a failed attempt the loop makes them all. -/
theorem upToFailure_eq_self {attempts : List Attempt} (h : ∀ a ∈ attempts, ¬ a.Failed) :
    upToFailure attempts = attempts := by
  induction attempts with
  | nil => rfl
  | cons a rest ih =>
      rw [List.forall_mem_cons] at h
      rw [upToFailure, if_neg h.1, ih h.2]

/-- A failed attempt stops the loop, and is the last one made. -/
theorem exists_failed_upToFailure {attempts : List Attempt} (h : ∃ a ∈ attempts, a.Failed) :
    ∃ a ∈ upToFailure attempts, a.Failed := by
  induction attempts with
  | nil =>
      obtain ⟨a, ha, -⟩ := h
      exact absurd ha List.not_mem_nil
  | cons a rest ih =>
      unfold upToFailure
      by_cases ha : a.Failed
      · rw [if_pos ha]
        exact ⟨a, List.mem_singleton_self a, ha⟩
      · rw [if_neg ha]
        obtain ⟨b, hb, hfailed⟩ := h
        rcases List.mem_cons.mp hb with rfl | hb
        · exact absurd hfailed ha
        · obtain ⟨c, hc, hcfailed⟩ := ih ⟨b, hb, hfailed⟩
          exact ⟨c, List.mem_cons_of_mem _ hc, hcfailed⟩

/-- With a failed attempt not all are successful. -/
theorem unstable_of_failed {attempts : List Attempt} (h : ∃ a ∈ attempts, a.Failed) :
    Unstable attempts := by
  left
  obtain ⟨a, ha, hfailed⟩ := h
  have hlt : (successful attempts).length < attempts.length := by
    apply List.length_filter_lt_length_iff_exists.mpr
    exact ⟨a, ha, by simpa using hfailed.ne_ok⟩
  omega

/-- If all attempts succeed, they are unstable iff two counts differ. -/
theorem unstable_iff_of_ok {attempts : List Attempt} (h : ∀ a ∈ attempts, a.status = .ok)
    (hcorrect : ∀ a ∈ attempts, ∃ correct, a.measures.correct = some correct) :
    Unstable attempts ↔
      ∃ a ∈ attempts, ∃ b ∈ attempts, a.measures.correct ≠ b.measures.correct := by
  have hall : successful attempts = attempts := by
    apply List.filter_eq_self.mpr
    intro a ha
    simpa using h a ha
  unfold Unstable correctValues
  rw [hall, Finset.one_lt_card]
  simp only [List.mem_toFinset, List.mem_filterMap, ne_eq, not_true_eq_false, false_or]
  constructor
  · rintro ⟨m, ⟨a, ha, ham⟩, n, ⟨b, hb, hbn⟩, hne⟩
    refine ⟨a, ha, b, hb, ?_⟩
    rw [ham, hbn, Option.some.injEq]
    exact hne
  · rintro ⟨a, ha, b, hb, hne⟩
    obtain ⟨m, hm⟩ := hcorrect a ha
    obtain ⟨n, hn⟩ := hcorrect b hb
    refine ⟨m, ⟨a, ha, hm⟩, n, ⟨b, hb, hn⟩, ?_⟩
    rw [hm, hn, Option.some.injEq] at hne
    exact hne

/-- The status of the attempts made. -/
theorem resultFromAttempts_status {base result : Result} {attempts : List Attempt} {first : Attempt}
    {expectedTraces : Nat} (hfirst : attempts.head? = some first)
    (h : resultFromAttempts base attempts expectedTraces = .ok result) :
    result.status =
      if successful attempts = [] then some first.status
      else some (statusOf attempts expectedTraces) := by
  unfold resultFromAttempts at h
  rw [hfirst] at h
  by_cases hempty : successful attempts = []
  · simp only [if_pos hempty] at h
    rw [if_pos hempty]
    obtain rfl := Except.ok.inj h
    rfl
  · simp only [if_neg hempty, bind_eq_ok] at h
    rw [if_neg hempty]
    obtain ⟨_, -, _, -, _, -, _, -, _, -, h⟩ := h
    obtain rfl := Except.ok.inj h
    rfl

/-- The status of attempts that all succeed with the same count. -/
theorem statusOf_common {attempts : List Attempt} (hne : attempts ≠ []) {correct : Nat}
    (h : ∀ a ∈ attempts, a.status = .ok ∧ a.measures.correct = some correct) (expectedTraces : Nat) :
    statusOf attempts expectedTraces = if correct < expectedTraces then .incorrect else .ok := by
  have hstable : ¬ Unstable attempts := by
    rw [unstable_iff_of_ok (fun a ha => (h a ha).1) fun a ha => ⟨correct, (h a ha).2⟩]
    rintro ⟨a, ha, b, hb, hdiffer⟩
    rw [(h a ha).2, (h b hb).2] at hdiffer
    exact hdiffer rfl
  have hhead : (correctValues attempts).head? = some correct := by
    obtain ⟨a, rest, rfl⟩ := List.exists_cons_of_ne_nil hne
    obtain ⟨hok, hcount⟩ := h a List.mem_cons_self
    unfold correctValues successful
    rw [List.filter_cons_of_pos (by simpa using hok), List.filterMap_cons]
    simp only [hcount, List.head?_cons]
  unfold statusOf
  rw [if_neg hstable, hhead]

/-- The README's status of attempts that all succeed with the same count. -/
theorem readmeStatus_common {attempts : List Attempt} (hne : attempts ≠ []) {correct : Nat}
    (h : ∀ a ∈ attempts, a.status = .ok ∧ a.measures.correct = some correct) (expectedTraces : Nat) :
    readmeStatus attempts expectedTraces = if correct = expectedTraces then .ok else .incorrect := by
  obtain ⟨first, later, rfl⟩ := List.exists_cons_of_ne_nil hne
  have hnofail : ∀ a ∈ first :: later, ¬ a.Failed := fun a ha hfailed =>
    hfailed.ne_ok (h a ha).1
  have hstable : ¬ ((∃ a ∈ later, a.Failed) ∨ ∃ a ∈ first :: later, ∃ b ∈ first :: later,
      a.status = .ok ∧ b.status = .ok ∧ a.measures.correct ≠ b.measures.correct) := by
    rintro (⟨a, ha, hfailed⟩ | ⟨a, ha, b, hb, -, -, hdiffer⟩)
    · exact hnofail a (List.mem_cons_of_mem _ ha) hfailed
    · exact hdiffer ((h a ha).2.trans (h b hb).2.symm)
  have hexpected : (∀ a ∈ first :: later, a.measures.correct = some expectedTraces) ↔
      correct = expectedTraces := by
    constructor
    · intro hexpected
      have hcount := (h first List.mem_cons_self).2
      exact Option.some.inj (hcount.symm.trans (hexpected first List.mem_cons_self))
    · rintro rfl a ha
      exact (h a ha).2
  rw [readmeStatus, if_neg (hnofail first List.mem_cons_self), if_neg hstable]
  simp only [hexpected]

/-- Attempts that all succeed with the same count overcount iff the count is too large. -/
theorem overcounts_common {attempts : List Attempt} (hne : attempts ≠ []) {correct : Nat}
    (h : ∀ a ∈ attempts, a.status = .ok ∧ a.measures.correct = some correct) (expectedTraces : Nat) :
    Overcounts attempts expectedTraces ↔ expectedTraces < correct := by
  constructor
  · rintro ⟨other, hlt, hother⟩
    obtain ⟨a, ha⟩ := List.exists_mem_of_ne_nil attempts hne
    obtain rfl : correct = other :=
      Option.some.inj ((h a ha).2.symm.trans (hother a ha).2)
    exact hlt
  · intro hlt
    exact ⟨correct, hlt, h⟩

/-- A failed attempt counts nothing, so not all overcount. -/
theorem not_overcounts_of_failed {attempts : List Attempt} (h : ∃ a ∈ attempts, a.Failed)
    (expectedTraces : Nat) : ¬ Overcounts attempts expectedTraces := by
  obtain ⟨a, ha, hfailed⟩ := h
  rintro ⟨correct, -, hall⟩
  exact hfailed.ne_ok (hall a ha).1

/-- Successful attempts with the first one's count everywhere, or two that differ. -/
theorem exists_common_or_differ {first : Attempt} {later : List Attempt}
    (hok : ∀ a ∈ first :: later, a.status = .ok ∧ ∃ correct, a.measures.correct = some correct) :
    (∃ correct, ∀ a ∈ first :: later, a.status = .ok ∧ a.measures.correct = some correct) ∨
      ∃ a ∈ first :: later, ∃ b ∈ first :: later, a.measures.correct ≠ b.measures.correct := by
  obtain ⟨-, correct, hcorrect⟩ := hok first List.mem_cons_self
  by_cases hsame : ∀ a ∈ first :: later, a.measures.correct = some correct
  · exact Or.inl ⟨correct, fun a ha => ⟨(hok a ha).1, hsame a ha⟩⟩
  · push Not at hsame
    obtain ⟨a, ha, hdiffer⟩ := hsame
    exact Or.inr ⟨a, ha, first, List.mem_cons_self, by rwa [hcorrect]⟩

/-- The result of a loop whose first attempt fails has that attempt's status. -/
theorem status_of_first_failed {first : Attempt} {later : List Attempt} (hfirst : first.Failed)
    {expectedTraces : Nat} {base result : Result}
    (hresult : resultFromAttempts base (upToFailure (first :: later)) expectedTraces = .ok result) :
    result.status = some first.status := by
  -- the loop stops at once
  have hran : upToFailure (first :: later) = [first] := if_pos hfirst
  have hnone : successful [first] = [] := by
    unfold successful
    rw [List.filter_cons_of_neg (by simpa using hfirst.ne_ok), List.filter_nil]
  rw [hran] at hresult
  rw [resultFromAttempts_status rfl hresult, if_pos hnone]

/-- The result of a loop whose first attempt succeeds has the status of the attempts made. -/
theorem status_of_first_ok {first : Attempt} {later : List Attempt} (hfirst : ¬ first.Failed)
    (hok : first.status = .ok) {expectedTraces : Nat} {base result : Result}
    (hresult : resultFromAttempts base (upToFailure (first :: later)) expectedTraces = .ok result) :
    result.status = some (statusOf (first :: upToFailure later) expectedTraces) := by
  have hran : upToFailure (first :: later) = first :: upToFailure later := if_neg hfirst
  have hsome : successful (first :: upToFailure later) ≠ [] := by
    unfold successful
    rw [List.filter_cons_of_pos (by simpa using hok)]
    exact List.cons_ne_nil _ _
  rw [hran] at hresult
  rw [resultFromAttempts_status rfl hresult, if_neg hsome]

/-- **The status of the loop** and the README's, compared on the list of all outcomes. -/
theorem status_eq_readme_iff {first : Attempt} {later : List Attempt}
    (h : ∀ a ∈ first :: later, a.Possible) (expectedTraces : Nat) {base result : Result}
    (hresult : resultFromAttempts base (upToFailure (first :: later)) expectedTraces = .ok result) :
    result.status = some (readmeStatus (first :: later) expectedTraces) ↔
      ¬ Overcounts (first :: later) expectedTraces := by
  by_cases hfirst : first.Failed
  · refine iff_of_true ?_ (not_overcounts_of_failed ⟨first, List.mem_cons_self, hfirst⟩ _)
    rw [status_of_first_failed hfirst hresult, readmeStatus, if_pos hfirst]
  rw [status_of_first_ok hfirst ((h first List.mem_cons_self).ok hfirst).1 hresult,
    Option.some.injEq]
  by_cases hlater : ∃ a ∈ later, a.Failed
  · -- a later attempt fails: the one that stops the loop is among those made
    obtain ⟨a, ha, hfailed⟩ := exists_failed_upToFailure hlater
    have hunstable : Unstable (first :: upToFailure later) :=
      unstable_of_failed ⟨a, List.mem_cons_of_mem _ ha, hfailed⟩
    obtain ⟨b, hb, hbfailed⟩ := hlater
    refine iff_of_true ?_ (not_overcounts_of_failed ⟨b, List.mem_cons_of_mem _ hb, hbfailed⟩ _)
    rw [statusOf, if_pos hunstable, readmeStatus, if_neg hfirst, if_pos (Or.inl ⟨b, hb, hbfailed⟩)]
  -- no attempt fails: all are made
  have hnofail : ∀ a ∈ later, ¬ a.Failed := fun a ha hfailed => hlater ⟨a, ha, hfailed⟩
  have hall : ∀ a ∈ first :: later, ¬ a.Failed := List.forall_mem_cons.mpr ⟨hfirst, hnofail⟩
  have hok : ∀ a ∈ first :: later, a.status = .ok ∧ ∃ correct, a.measures.correct = some correct :=
    fun a ha => (h a ha).ok (hall a ha)
  have hne : first :: later ≠ [] := List.cons_ne_nil _ _
  rw [upToFailure_eq_self hnofail]
  obtain ⟨correct, hcommon⟩ | hdiffer := exists_common_or_differ hok
  · rw [statusOf_common hne hcommon, readmeStatus_common hne hcommon,
      overcounts_common hne hcommon]
    rcases lt_trichotomy correct expectedTraces with hlt | heq | hgt
    · rw [if_pos hlt, if_neg hlt.ne]
      exact iff_of_true rfl hlt.not_gt
    · rw [if_neg heq.not_lt, if_pos heq]
      exact iff_of_true rfl (by omega)
    · -- the code only asks whether the count is too small
      rw [if_neg hgt.not_gt, if_neg hgt.ne']
      exact iff_of_false (by decide) (not_not.mpr hgt)
  · have hunstable := (unstable_iff_of_ok (fun a ha => (hok a ha).1)
      fun a ha => (hok a ha).2).mpr hdiffer
    obtain ⟨a, ha, b, hb, hcounts⟩ := hdiffer
    have hreadme : ∃ a ∈ first :: later, ∃ b ∈ first :: later, a.status = .ok ∧ b.status = .ok ∧
        a.measures.correct ≠ b.measures.correct :=
      ⟨a, ha, b, hb, (hok a ha).1, (hok b hb).1, hcounts⟩
    rw [statusOf, if_pos hunstable, readmeStatus, if_neg hfirst, if_pos (Or.inr hreadme)]
    refine iff_of_true rfl ?_
    rintro ⟨correct, -, hsame⟩
    exact hcounts ((hsame a ha).2.trans (hsame b hb).2.symm)

/-- **The status of a participant** whose attempts have these outcomes is the README's, unless they
overcount or the measures of the attempts made are out of range, when there is no result. -/
theorem runAttempts_status (base : Result) {outcome : Nat → Attempt}
    (h : ∀ k, (outcome k).Possible) {repeats : Nat} (hrepeats : 1 ≤ repeats) (expectedTraces : Nat) :
    (∃ result, runAttempts base (fun k => .ok (outcome k)) repeats expectedTraces = .ok result ∧
      result.status = some (readmeStatus (outcomes outcome repeats 1) expectedTraces)) ↔
    ¬ Overcounts (outcomes outcome repeats 1) expectedTraces ∧
      InRange (opsValues (upToFailure (outcomes outcome repeats 1))) ∧
        InRange (utilValues (upToFailure (outcomes outcome repeats 1))) := by
  have hrun : runAttempts base (fun k => .ok (outcome k)) repeats expectedTraces =
      resultFromAttempts base (upToFailure (outcomes outcome repeats 1)) expectedTraces := by
    unfold runAttempts
    rw [attemptLoop_eq]
    rfl
  have hstatus : ∀ result,
      resultFromAttempts base (upToFailure (outcomes outcome repeats 1)) expectedTraces =
          .ok result →
        (result.status = some (readmeStatus (outcomes outcome repeats 1) expectedTraces) ↔
          ¬ Overcounts (outcomes outcome repeats 1) expectedTraces) := by
    intro result hresult
    have hpossible : ∀ a ∈ outcomes outcome repeats 1, a.Possible := by
      intro a ha
      obtain ⟨k, -, rfl⟩ := List.mem_map.mp ha
      exact h k
    obtain ⟨first, later, hcons⟩ : ∃ first later, outcomes outcome repeats 1 = first :: later := by
      obtain ⟨n, rfl⟩ := Nat.exists_eq_add_of_le' hrepeats
      exact ⟨_, _, rfl⟩
    rw [hcons] at hpossible hresult ⊢
    exact status_eq_readme_iff hpossible expectedTraces hresult
  rw [hrun, ← resultFromAttempts_returns_iff base _ expectedTraces]
  constructor
  · rintro ⟨result, hresult, hreadme⟩
    exact ⟨(hstatus result hresult).mp hreadme, result, hresult⟩
  · rintro ⟨hcount, result, hresult⟩
    exact ⟨result, hresult, (hstatus result hresult).mpr hcount⟩

/-- A result before any attempt. -/
def sampleBaseResult : Result where
  participant := "alice".toList
  repoUrl := "https://example.com/alice.git".toList
  branch := "main".toList
  commit := none
  mode := .repo
  status := some .synced
  harnessDiffCount := 1
  error := none
  attempts := []
  correct := none
  utilPercent := none
  totalOps := none
  totalSecs := none
  throughputKops := none
  perfidx := none

/-- A successful attempt whose harness prints this count. -/
def sampleAttempt (correct : Nat) : Attempt where
  status := .ok
  error := none
  measures := { noMeasures with correct := some correct, perfidx := some (.ofRat 84) }
  attempt := 0

/-- `runAttempts_status` for three attempts that count eleven of eleven traces. -/
theorem runAttempts_status_sample :
    ∃ result,
      runAttempts sampleBaseResult (fun _ => .ok (sampleAttempt 11)) 3 11 = .ok result ∧
        result.status = some (readmeStatus (outcomes (fun _ => sampleAttempt 11) 3 1) 11) := by
  have hpossible : ∀ k : Nat, ((fun _ => sampleAttempt 11) k).Possible := by
    intro k
    exact Or.inr ⟨rfl, by simp [sampleAttempt]⟩
  refine (runAttempts_status sampleBaseResult hpossible (by decide : 1 ≤ 3) 11).mpr
    ⟨?_, inRange_nil, inRange_nil⟩
  rintro ⟨correct, hlt, hall⟩
  have hcount := (hall _ List.mem_cons_self).2
  obtain rfl : 11 = correct := Option.some.inj hcount
  exact absurd hlt (lt_irrefl _)

/-- **Twelve of eleven traces are `OK`**, which the README calls incorrect. -/
theorem overcount_is_ok :
    ∃ result,
      runAttempts sampleBaseResult (fun _ => .ok (sampleAttempt 12)) 1 11 = .ok result ∧
        result.status = some .ok ∧
        readmeStatus (outcomes (fun _ => sampleAttempt 12) 1 1) 11 = .incorrect := by
  have hrun : runAttempts sampleBaseResult (fun _ => .ok (sampleAttempt 12)) 1 11 =
      resultFromAttempts sampleBaseResult [{ sampleAttempt 12 with attempt := 1 }] 11 := rfl
  -- the attempt prints no totals, so nothing is out of range
  have hreturns := (resultFromAttempts_returns_iff sampleBaseResult
    [{ sampleAttempt 12 with attempt := 1 }] 11).mpr ⟨inRange_nil, inRange_nil⟩
  obtain ⟨result, hresult⟩ := hreturns
  refine ⟨result, hrun.trans hresult, ?_, by decide⟩
  rw [resultFromAttempts_status rfl hresult]
  decide

end MallocBench
