import MallocBench.Scripts.Attempts
import MallocBench.Scripts.ScoreConfig

/-! # The performance index and the score

The driver weighs the average utilisation against the throughput, which counts up to that of `libc`, and
prints the sum as the performance index. The scripts compute the same sum from what is printed: from the
utilisation in whole percent, with the throughput in thousands of operations a second, and they round it
to one place. The formulas are read over any `Arithmetic`, and compared over the rational numbers.

* **`perfindex_eq`**, **`computeScore_record`**: both are the weighted sum, of the exact utilisation and of
  the printed one.
* **`computeScore_perfindex`**: they differ by the two roundings. -/

namespace MallocBench

open Numbers

section Formulas

variable {α : Type} [SignedArithmetic α]

/-! ## The driver -/

/-- The summary of a trace (`stats_t`). -/
structure TraceStats (α : Type) where
  ops : α
  valid : Bool
  secs : α
  util : α

/-- The aggregate statistics: the sums, and the number of valid traces. -/
structure Totals (α : Type) where
  secs : α
  ops : α
  util : α
  numcorrect : Nat

/-- One pass of the loop that accumulates them. -/
def Totals.add (t : Totals α) (stats : TraceStats α) : Totals α where
  secs := Arithmetic.add t.secs stats.secs
  ops := Arithmetic.add t.ops stats.ops
  util := Arithmetic.add t.util stats.util
  numcorrect := if stats.valid then t.numcorrect + 1 else t.numcorrect

/-- The loop. -/
def aggregate (mmStats : List (TraceStats α)) : Totals α :=
  let zero := Arithmetic.constant 0
  mmStats.foldl Totals.add ⟨zero, zero, zero, 0⟩

/-- `p1`: the part of the utilisation. -/
def utilPart (utilWeight avgMmUtil : α) : α := Arithmetic.mul utilWeight avgMmUtil

/-- `p2`: the part of the throughput, which counts up to that of `libc`. -/
def thruPart (utilWeight avgLibcThruput avgMmThroughput : α) : α :=
  let weight := SignedArithmetic.sub (Arithmetic.constant 1) utilWeight
  if Arithmetic.lt avgLibcThruput avgMmThroughput then weight
  else Arithmetic.mul weight (Arithmetic.divide avgMmThroughput avgLibcThruput)

/-- `perfindex` of an average utilisation, a number of operations and their time. -/
def perfindex (utilWeight avgLibcThruput avgMmUtil ops secs : α) : α :=
  Arithmetic.mul
    (Arithmetic.add (utilPart utilWeight avgMmUtil)
      (thruPart utilWeight avgLibcThruput (Arithmetic.divide ops secs)))
    (Arithmetic.constant 100)

/-- The performance index of a run: 0 when there were errors. -/
def mainPerfindex (utilWeight avgLibcThruput : α) (errors : Nat) (mmStats : List (TraceStats α)) : α :=
  let t := aggregate mmStats
  if errors = 0 then
    perfindex utilWeight avgLibcThruput
      (Arithmetic.divide t.util (Arithmetic.constant mmStats.length)) t.ops t.secs
  else Arithmetic.constant 0

/-! ## The scripts -/

/-- `compute_throughput_kops`, over any numbers. -/
def computeThroughputKopsOver (totalOps totalSecs : Option α) : Option α :=
  match totalOps, totalSecs with
  | some ops, some secs =>
    if Arithmetic.le secs (Arithmetic.constant 0) then none
    else some (Arithmetic.divide (Arithmetic.divide ops secs) (Arithmetic.constant 1000))
  | _, _ => none

end Formulas

/-! ## Exact numbers -/

section Exact

variable {u secs w cap : ℚ}

/-- The driver's comparison with the cap is a minimum. -/
theorem perfindex_eq (w u ops secs : ℚ) (hcap : 0 < cap) :
    perfindex w cap u ops secs = 100 * (w * u + (1 - w) * min (ops / secs / cap) 1) := by
  simp only [perfindex, utilPart, thruPart, Exact.mul_eq, Exact.add_eq, Exact.divide_eq, Exact.sub_eq,
    Exact.constant_eq, Exact.lt_eq, decide_eq_true_eq]
  by_cases h : cap < ops / secs
  · rw [if_pos h, min_eq_right ((one_le_div hcap).mpr h.le)]
    ring
  · rw [if_neg h, min_eq_left ((div_le_one hcap).mpr (not_lt.mp h))]
    ring

/-- The throughput of a positive time. -/
theorem computeThroughputKopsOver_exact (ops : ℚ) (hsecs : 0 < secs) :
    computeThroughputKopsOver (some ops) (some secs) = some (ops / secs / 1000) := by
  simp [computeThroughputKopsOver, Exact.le_eq, hsecs]

/-- The score under the record of `w` and `cap`: the same sum, rounded. The thousands cancel. -/
theorem computeScore_record (w utilPercent ops secs : ℚ) (hcap : 0 < cap) :
    computeScore (some utilPercent) (some (ops / secs / 1000)) (some (scoreRecord w cap)) =
      .ok (some (Arithmetic.round 1
        (100 * (w * (utilPercent / 100) + (1 - w) * min (ops / secs / cap) 1)))) := by
  have hpos : ¬ cap / 1000 ≤ 0 := by
    rw [not_le]
    positivity
  have hunits : ops / secs / 1000 / (cap / 1000) = ops / secs / cap := by
    field_simp
  simp only [computeScore, scoreRecord, Exact.mul_eq, Exact.add_eq, Exact.divide_eq, Exact.sub_eq,
    Exact.constant_eq, Exact.le_eq, Exact.pyMin_eq_min, decide_eq_true_eq, if_neg hpos, hunits,
    mul_comm (100 : ℚ)]

/-- **The error of the two roundings**: that of the utilisation is weighted, that of the score is not. -/
theorem abs_round_weighted_sub_le {utilPercent : ℤ} (hutil : |(utilPercent : ℚ) - 100 * u| ≤ 1 / 2)
    (hw : 0 ≤ w) (part : ℚ) :
    |Arithmetic.round 1 (100 * (w * (utilPercent / 100) + part)) - 100 * (w * u + part)| ≤
      w / 2 + 1 / 20 := by
  have hround := Exact.abs_round_sub_le (100 * (w * (utilPercent / 100) + part)) 1
  have hweighted : |100 * (w * (utilPercent / 100) + part) - 100 * (w * u + part)| ≤ w / 2 := by
    rw [show 100 * (w * (utilPercent / 100) + part) - 100 * (w * u + part) =
      w * (utilPercent - 100 * u) by ring, abs_mul, abs_of_nonneg hw]
    calc w * |(utilPercent : ℚ) - 100 * u| ≤ w * (1 / 2) := mul_le_mul_of_nonneg_left hutil hw
      _ = w / 2 := by ring
  calc |Arithmetic.round 1 (100 * (w * (utilPercent / 100) + part)) - 100 * (w * u + part)|
      ≤ |Arithmetic.round 1 (100 * (w * (utilPercent / 100) + part)) -
          100 * (w * (utilPercent / 100) + part)| +
        |100 * (w * (utilPercent / 100) + part) - 100 * (w * u + part)| := abs_sub_le _ _ _
    _ ≤ 1 / (2 * 10 ^ 1) + w / 2 := add_le_add hround hweighted
    _ = w / 2 + 1 / 20 := by ring

/-- The aggregate statistics are sums. -/
theorem foldl_add_exact (mmStats : List (TraceStats ℚ)) (t : Totals ℚ) :
    mmStats.foldl Totals.add t =
      ⟨t.secs + (mmStats.map TraceStats.secs).sum, t.ops + (mmStats.map TraceStats.ops).sum,
        t.util + (mmStats.map TraceStats.util).sum,
        t.numcorrect + (mmStats.filter TraceStats.valid).length⟩ := by
  induction mmStats generalizing t with
  | nil => simp
  | cons stats rest ih =>
      rw [List.foldl_cons, ih, Totals.add]
      cases hvalid : stats.valid <;> simp [hvalid, add_assoc, Nat.add_comm]

/-- **The index of a run without errors** is that of the average utilisation, the operations of all
traces and their time. -/
theorem mainPerfindex_eq (w cap : ℚ) (mmStats : List (TraceStats ℚ)) :
    mainPerfindex w cap 0 mmStats =
      perfindex w cap ((mmStats.map TraceStats.util).sum / mmStats.length)
        (mmStats.map TraceStats.ops).sum (mmStats.map TraceStats.secs).sum := by
  rw [mainPerfindex, if_pos rfl, aggregate, foldl_add_exact]
  simp

end Exact

/-- **The two formulas agree.** With the utilisation in whole percent, the throughput of
`compute_throughput_kops` and the record of `parse_score_config`, the score differs from the performance
index of the driver by what rounding the utilisation and the score can change, below the throughput of
`libc`, at it and above it. -/
theorem computeScore_perfindex (u w cap secs : ℚ) (ops : ℕ) (utilPercent : ℤ)
    (hutil : |(utilPercent : ℚ) - 100 * u| ≤ 1 / 2) (hw : 0 ≤ w) (hcap : 0 < cap) (hsecs : 0 < secs) :
    ∃ score,
      computeScore (some (utilPercent : ℚ))
          (computeThroughputKopsOver (some (ops : ℚ)) (some secs)) (some (scoreRecord w cap)) =
        .ok (some score) ∧
      perfindex w cap u ops secs = 100 * (w * u + (1 - w) * min (ops / secs / cap) 1) ∧
      |score - perfindex w cap u ops secs| ≤ w / 2 + 1 / 20 := by
  have hperfindex := perfindex_eq w u ops secs hcap
  rw [computeThroughputKopsOver_exact (ops : ℚ) hsecs]
  refine ⟨_, computeScore_record w utilPercent ops secs hcap, hperfindex, ?_⟩
  rw [hperfindex]
  exact abs_round_weighted_sub_le hutil hw _

/-- Under the weight and the throughput of `config.h`, 1011 operations in 1 ms at 73 %. -/
theorem computeScore_perfindex_config :
    ∃ score,
      computeScore (some ((73 : ℤ) : ℚ))
          (computeThroughputKopsOver (some ((1011 : ℕ) : ℚ)) (some (1 / 1000)))
          (some (scoreRecord (3 / 5) 600000)) = .ok (some score) ∧
      |score - perfindex (3 / 5) 600000 (2913 / 4000) ((1011 : ℕ) : ℚ) (1 / 1000)| ≤
        3 / 5 / 2 + 1 / 20 := by
  obtain ⟨score, hscore, -, herror⟩ := computeScore_perfindex (2913 / 4000) (3 / 5) 600000 (1 / 1000)
    1011 73 (by norm_num [abs_le]) (by norm_num) (by norm_num) (by norm_num)
  exact ⟨score, hscore, herror⟩

end MallocBench
