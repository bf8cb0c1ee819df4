import MallocBench.Memory.Intervals
import MallocBench.Transition.Runs
import Mathlib.Algebra.Group.Nat.Defs
import Mathlib.Data.List.Pairwise

/-! # The range list of the harness (`mdriver.c`)

While it replays a trace, `eval_mm_valid` keeps the extents of the live payloads in a list:
`add_range` checks a new payload and records it, `remove_range` drops the record of a freed one. The
allocator under test is arbitrary, so the calls are too: any address, any size, any heap bounds.

`add_range` looks for an endpoint of the new payload inside a recorded one. That finds every way
two intervals can meet but one: the new payload strictly surrounds a recorded one
(`checkRange_eq_none`). In every run of calls that stay clear of this case the recorded ranges are
pairwise disjoint (`ranges_disjoint`). -/

namespace MallocBench

open Runs Intervals

/-- `ALIGNMENT` of `config.h`. -/
def alignment : Nat := 8

/-- `IS_ALIGNED(p)`, on the address truncated to `unsigned int`. -/
def IsAligned (p : Nat) : Prop := p % 2 ^ 32 % alignment = 0

instance (p : Nat) : Decidable (IsAligned p) := inferInstanceAs (Decidable (_ = _))

/-- An address is aligned when it is a multiple of 8. -/
theorem isAligned_iff (p : Nat) : IsAligned p ↔ 8 ∣ p := by
  rw [IsAligned, alignment]
  omega

/-- The extent of a payload (`range_t`): its low and its high address. -/
structure Range where
  lo : Nat
  hi : Nat
  lo_le_hi : lo ≤ hi

/-- The addresses of a range. -/
def Range.addresses (r : Range) : Set Nat := Set.Icc r.lo r.hi

/-! ## Errors -/

/-- A pointer as `printf` writes it with `%p`. -/
def formatPtr (p : Nat) : String :=
  if p = 0 then "(nil)" else "0x" ++ String.ofList (Nat.toDigits 16 p)

/-- The complaints of `add_range` about a payload. -/
inductive RangeError where
  | notAligned (lo : Nat)
  | outsideHeap (lo hi heapLo heapHi : Nat)
  | overlaps (lo hi : Nat) (p : Range)

/-- The text of a complaint. -/
def RangeError.msg : RangeError → String
  | .notAligned lo =>
    "Payload address (" ++ formatPtr lo ++ ") not aligned to " ++ toString alignment ++ " bytes"
  | .outsideHeap lo hi heapLo heapHi =>
    "Payload (" ++ formatPtr lo ++ ":" ++ formatPtr hi ++ ") lies outside heap (" ++
      formatPtr heapLo ++ ":" ++ formatPtr heapHi ++ ")"
  | .overlaps lo hi p =>
    "Payload (" ++ formatPtr lo ++ ":" ++ formatPtr hi ++ ") overlaps another payload (" ++
      formatPtr p.lo ++ ":" ++ formatPtr p.hi ++ ")\n"

/-- The part of the driver's state the range list is in. -/
structure Harness where
  /-- `*ranges`. -/
  ranges : List Range
  /-- `errors`: the number of errors found. -/
  errors : Nat
  /-- What was printed. -/
  out : String

/-- `LINENUM(i)`: the line of a trace file that holds request `i`. -/
def lineNum (i : Nat) : Nat := i + 5

/-- `malloc_error`: count and report an error of the allocator. -/
def Harness.mallocError (s : Harness) (tracenum opnum : Nat) (msg : String) : Harness :=
  { s with
    errors := s.errors + 1
    out := s.out ++ "ERROR [trace " ++ toString tracenum ++ ", line " ++ toString (lineNum opnum) ++
      "]: " ++ msg ++ "\n" }

/-! ## The functions -/

/-- The three tests of `add_range`: alignment, heap bounds, overlap with each recorded range. -/
def checkRange (ranges : List Range) (heapLo heapHi lo hi : Nat) : Option RangeError :=
  if ¬ IsAligned lo then some (.notAligned lo)
  else if lo < heapLo ∨ heapHi < lo ∨ hi < heapLo ∨ heapHi < hi then
    some (.outsideHeap lo hi heapLo heapHi)
  else
    (ranges.find? fun p =>
      decide ((p.lo ≤ lo ∧ lo ≤ p.hi) ∨ (p.lo ≤ hi ∧ hi ≤ p.hi))).map (.overlaps lo hi)

/-- `add_range`: 1 when the payload is recorded, 0 when it is rejected. `none` is the failed
assertion that the size is positive. -/
def Harness.addRange (s : Harness) (heapLo heapHi lo size tracenum opnum : Nat) :
    Option (Nat × Harness) :=
  if h : 0 < size then
    match checkRange s.ranges heapLo heapHi lo (lo + size - 1) with
    | some e => some (0, s.mallocError tracenum opnum e.msg)
    | none => some (1, { s with ranges := ⟨lo, lo + size - 1, by omega⟩ :: s.ranges })
  else none

/-- `remove_range`: drop the first record that starts at `lo`. -/
def Harness.removeRange (s : Harness) (lo : Nat) : Harness :=
  { s with ranges := s.ranges.eraseP fun p => decide (p.lo = lo) }

/-- `clear_ranges`: drop all records. -/
def Harness.clearRanges (s : Harness) : Harness := { s with ranges := [] }

/-! ## Runs of calls -/

/-- A call of the range list functions. The heap bounds are those in force at the call. -/
inductive RangeCall where
  | add (heapLo heapHi lo size tracenum opnum : Nat)
  | remove (lo : Nat)

namespace Harness

/-- The effect of a call. -/
def step (s : Harness) : RangeCall → Option Harness
  | .add heapLo heapHi lo size tracenum opnum =>
    (s.addRange heapLo heapHi lo size tracenum opnum).map Prod.snd
  | .remove lo => some (s.removeRange lo)

/-- The payload is aligned and inside the heap, neither of its ends lies in a recorded range, but a
recorded range lies strictly between them. -/
def Swallows (s : Harness) (heapLo heapHi lo size : Nat) : Prop :=
  8 ∣ lo ∧ heapLo ≤ lo ∧ lo + size - 1 ≤ heapHi ∧
    (∀ r ∈ s.ranges, lo ∉ r.addresses ∧ lo + size - 1 ∉ r.addresses) ∧
    ∃ r ∈ s.ranges, lo < r.lo ∧ r.hi < lo + size - 1

/-- The calls the driver may make: sizes are positive. -/
def Legal (_ : Harness) : RangeCall → Prop
  | .add _ _ _ size _ _ => 0 < size
  | .remove _ => True

/-- A legal call that does not swallow a recorded range. -/
def Guarded (s : Harness) : RangeCall → Prop
  | .add heapLo heapHi lo size _ _ => 0 < size ∧ ¬ s.Swallows heapLo heapHi lo size
  | .remove _ => True

/-- The payload is aligned, inside the heap, and shares no address with a recorded range. -/
def Clear (s : Harness) (heapLo heapHi lo size : Nat) : Prop :=
  8 ∣ lo ∧ Set.Icc lo (lo + size - 1) ⊆ Set.Icc heapLo heapHi ∧
    ∀ r ∈ s.ranges, Disjoint (Set.Icc lo (lo + size - 1)) r.addresses

/-- No two recorded ranges share an address. -/
def Disjointed (s : Harness) : Prop :=
  s.ranges.Pairwise fun r q => Disjoint r.addresses q.addresses

end Harness

/-! ## One call -/

/-- **What the three tests let through**: an aligned payload inside the heap, neither end of which
lies in a recorded range. -/
theorem checkRange_eq_none {ranges : List Range} {heapLo heapHi lo hi : Nat} (h : lo ≤ hi) :
    checkRange ranges heapLo heapHi lo hi = none ↔
      8 ∣ lo ∧ heapLo ≤ lo ∧ hi ≤ heapHi ∧
        ∀ r ∈ ranges, lo ∉ r.addresses ∧ hi ∉ r.addresses := by
  rw [checkRange]
  by_cases ha : IsAligned lo
  · rw [if_neg (not_not.mpr ha)]
    rw [isAligned_iff] at ha
    by_cases hb : lo < heapLo ∨ heapHi < lo ∨ hi < heapLo ∨ heapHi < hi
    · rw [if_pos hb]
      refine iff_of_false (by simp) ?_
      rintro ⟨-, hlo, hhi, -⟩
      omega
    · rw [if_neg hb, Option.map_eq_none_iff, List.find?_eq_none]
      simp only [decide_eq_true_eq, not_or, Range.addresses, Set.mem_Icc, ha, true_and]
      constructor
      · exact fun hall => ⟨by omega, by omega, hall⟩
      · exact fun hall => hall.2.2
  · rw [if_pos ha]
    rw [isAligned_iff] at ha
    exact iff_of_false (by simp) fun hall => ha hall.1

namespace Harness

variable {s : Harness} {heapLo heapHi lo size tracenum opnum : Nat}

/-- What a call with a positive size returns: 1 with the range recorded when the tests let it
through, 0 with one more error and the same list otherwise. -/
theorem addRange_cases (hsize : 0 < size) :
    (checkRange s.ranges heapLo heapHi lo (lo + size - 1) = none ∧
      ∃ s' r, s.addRange heapLo heapHi lo size tracenum opnum = some (1, s') ∧
        s'.ranges = r :: s.ranges ∧ r.addresses = Set.Icc lo (lo + size - 1)) ∨
    (checkRange s.ranges heapLo heapHi lo (lo + size - 1) ≠ none ∧
      ∃ s', s.addRange heapLo heapHi lo size tracenum opnum = some (0, s') ∧
        s'.ranges = s.ranges ∧ s'.errors = s.errors + 1) := by
  rw [addRange, dif_pos hsize]
  cases checkRange s.ranges heapLo heapHi lo (lo + size - 1) with
  | none => exact Or.inl ⟨rfl, _, _, rfl, rfl, rfl⟩
  | some e => exact Or.inr ⟨by simp, _, rfl, rfl, rfl⟩

/-- The record of a payload that the tests let through. -/
theorem addRange_of_check (hsize : 0 < size)
    (hc : checkRange s.ranges heapLo heapHi lo (lo + size - 1) = none) :
    s.addRange heapLo heapHi lo size tracenum opnum =
      some (1, { s with ranges := ⟨lo, lo + size - 1, by omega⟩ :: s.ranges }) := by
  rw [addRange, dif_pos hsize, hc]

/-- Where no two records start at one address, no record that starts at `lo` is left. -/
theorem lo_ne_of_mem_removeRange (hs : s.ranges.Pairwise fun r q => r.lo ≠ q.lo) {r : Range}
    (hr : r ∈ (s.removeRange lo).ranges) : r.lo ≠ lo := by
  rw [removeRange] at hr
  generalize s.ranges = ranges at hs hr
  induction ranges with
  | nil => exact absurd hr List.not_mem_nil
  | cons q rest ih =>
      obtain ⟨hhead, htail⟩ := List.pairwise_cons.mp hs
      by_cases hq : q.lo = lo
      · rw [List.eraseP_cons_of_pos (by simpa using hq)] at hr
        exact fun h => hhead r hr (hq.trans h.symm)
      · rw [List.eraseP_cons_of_neg (by simpa using hq)] at hr
        rcases List.mem_cons.mp hr with rfl | hr
        · exact hq
        · exact ih htail hr

/-- The call returns 1 iff the tests let the payload through. -/
theorem addRange_one_iff (hsize : 0 < size) :
    (∃ s', s.addRange heapLo heapHi lo size tracenum opnum = some (1, s')) ↔
      checkRange s.ranges heapLo heapHi lo (lo + size - 1) = none := by
  rcases addRange_cases (s := s) hsize with ⟨hc, s', r, hs', -⟩ | ⟨hc, s', hs', -⟩
  · exact iff_of_true ⟨s', hs'⟩ hc
  · refine iff_of_false ?_ hc
    rintro ⟨t, ht⟩
    rw [hs'] at ht
    simp at ht

/-- A payload the tests let through is clear unless it swallows a recorded range. -/
theorem clear_iff_of_check (hsize : 0 < size)
    (hc : checkRange s.ranges heapLo heapHi lo (lo + size - 1) = none) :
    s.Clear heapLo heapHi lo size ↔ ¬ s.Swallows heapLo heapHi lo size := by
  have hle : lo ≤ lo + size - 1 := by omega
  obtain ⟨ha, hlo, hhi, hends⟩ := (checkRange_eq_none hle).mp hc
  constructor
  · rintro ⟨-, -, hdis⟩ ⟨-, -, -, -, r, hr, hsur⟩
    refine (not_disjoint_Icc_iff hle r.lo_le_hi).mpr ?_ (hdis r hr)
    exact Or.inr (Or.inr hsur)
  · intro hn
    refine ⟨ha, Set.Icc_subset_Icc hlo hhi, fun r hr => ?_⟩
    by_contra hmeet
    rcases (not_disjoint_Icc_iff hle r.lo_le_hi).mp hmeet with h | h | h
    · exact (hends r hr).1 h
    · exact (hends r hr).2 h
    · exact hn ⟨ha, hlo, hhi, hends, r, hr, h⟩

/-- **One call, exactly**: what `add_range` accepts is clear iff the call does not swallow a
recorded range. -/
theorem addRange_sound_iff (hsize : 0 < size) :
    ((∃ s', s.addRange heapLo heapHi lo size tracenum opnum = some (1, s')) →
      s.Clear heapLo heapHi lo size) ↔ ¬ s.Swallows heapLo heapHi lo size := by
  rw [addRange_one_iff hsize]
  by_cases hc : checkRange s.ranges heapLo heapHi lo (lo + size - 1) = none
  · rw [← clear_iff_of_check hsize hc]
    exact ⟨fun h => h hc, fun h _ => h⟩
  · refine iff_of_true (fun h => absurd h hc) fun hsw => hc ?_
    obtain ⟨ha, hlo, hhi, hends, -⟩ := hsw
    exact (checkRange_eq_none (by omega)).mpr ⟨ha, hlo, hhi, hends⟩

/-- A guarded call keeps the recorded ranges pairwise disjoint. -/
theorem step_disjointed {c : RangeCall} {s' : Harness} (hs : s.Disjointed) (hg : s.Guarded c)
    (h : s.step c = some s') : s'.Disjointed := by
  cases c with
  | add heapLo heapHi lo size tracenum opnum =>
      obtain ⟨hsize, hsw⟩ := hg
      rw [step] at h
      rcases addRange_cases (s := s) hsize with ⟨hc, t, r, ht, hr, hri⟩ | ⟨-, t, ht, hr, -⟩
      · rw [ht] at h
        obtain rfl := Option.some.inj h
        have hclear := (clear_iff_of_check hsize hc).mpr hsw
        rw [Disjointed, hr]
        refine List.pairwise_cons.mpr ⟨fun q hq => ?_, hs⟩
        rw [hri]
        exact hclear.2.2 q hq
      · rw [ht] at h
        obtain rfl := Option.some.inj h
        rw [Disjointed, hr]
        exact hs
  | remove lo =>
      obtain rfl := Option.some.inj h
      exact List.Pairwise.sublist List.eraseP_sublist hs

end Harness

/-! ## All runs -/

/-- The harness at the start of a trace: an empty list. -/
def Harness.start (errors : Nat) (out : String) : Harness := ⟨[], errors, out⟩

/-- **The range list is a sound overlap detector**, one case apart. In every run of calls none of
which swallows a recorded range, the recorded ranges are pairwise disjoint; and in the state reached,
`add_range` returns 1 for clear payloads only, exactly as long as the payload does not swallow a
recorded range. -/
theorem ranges_disjoint {errors : Nat} {out : String} {calls : List RangeCall} {s : Harness}
    (h : Run Harness.step Harness.Guarded (Harness.start errors out) calls s) :
    s.Disjointed ∧
      ∀ heapLo heapHi lo size tracenum opnum, 0 < size →
        (((∃ s', s.addRange heapLo heapHi lo size tracenum opnum = some (1, s')) →
          s.Clear heapLo heapHi lo size) ↔ ¬ s.Swallows heapLo heapHi lo size) := by
  refine ⟨h.invariant (fun _ _ _ hs hg hst => Harness.step_disjointed hs hg hst) List.Pairwise.nil,
    fun heapLo heapHi lo size tracenum opnum hsize => Harness.addRange_sound_iff hsize⟩

/-- Two payloads in a heap of a page. -/
theorem ranges_disjoint_two : ∃ s,
    Run Harness.step Harness.Guarded (Harness.start 0 "")
      [.add 1024 5135 1040 8 0 0, .add 1024 5135 1056 64 0 1] s ∧ s.Disjointed := by
  suffices hrun : ∃ s, Run Harness.step Harness.Guarded (Harness.start 0 "")
      [.add 1024 5135 1040 8 0 0, .add 1024 5135 1056 64 0 1] s by
    obtain ⟨s, hs⟩ := hrun
    exact ⟨s, hs, (ranges_disjoint hs).1⟩
  refine ⟨_, Run.cons ⟨by decide, ?_⟩ rfl (Run.cons ⟨by decide, ?_⟩ rfl (Run.nil _))⟩
  · rintro ⟨-, -, -, -, r, hr, -⟩
    exact absurd hr List.not_mem_nil
  · rintro ⟨-, -, -, -, r, hr, hlo, -⟩
    obtain rfl := List.mem_singleton.mp hr
    exact absurd hlo (by decide)

/-- A block of 64 bytes around a live block of 8 is accepted. -/
theorem ranges_overlap : ∃ s,
    Run Harness.step Harness.Legal (Harness.start 0 "")
      [.add 1024 5135 1048 8 0 0, .add 1024 5135 1040 64 0 1] s ∧ ¬ s.Disjointed := by
  refine ⟨_, Run.cons (show 0 < 8 by decide) rfl
    (Run.cons (show 0 < 64 by decide) rfl (Run.nil _)), fun h => ?_⟩
  have hdis := List.rel_of_pairwise_cons h List.mem_cons_self
  have hleft : 1048 ∈ Set.Icc 1040 1103 := ⟨by decide, by decide⟩
  have hright : 1048 ∈ Set.Icc 1048 1055 := ⟨by decide, by decide⟩
  exact Set.disjoint_left.mp hdis hleft hright

end MallocBench
