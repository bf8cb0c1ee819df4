import MallocBench.Harness.Driver
import MallocBench.Scripts.DriverReport
import MallocBench.Text.Scanning

/-! # What the driver prints about any package

`./mdriver -v -g` prints its options and the team, then each error of the package on a line of its own,
then a table of the traces, the performance index or the number of errors, and two lines for the
autograder. The scripts look for four patterns in all of this.

* **`evalTraces_out`**: whatever the package does, no line that reports an error matches a pattern.
* **`DriverRun.parse_stdout`**: the scripts read the number of traces without an error, and the index that
  was computed; when there were errors they read an index of 0 and no totals. -/

namespace MallocBench

open ByteMemory Numbers Text

/-! ## Lines that match no pattern -/

/-- **A line that starts otherwise**, after white space, matches no pattern. -/
theorem matchLine_eq_none (blanks : List Char) {line : List Char} {c : Char}
    (hblanks : ∀ d ∈ blanks, isSpace d = true) (hspace : isSpace c = false) (hc : c ∉ "cpPT".toList) :
    matchLine (blanks ++ c :: line) = none := by
  simp only [String.reduceToList, List.mem_cons, List.not_mem_nil, or_false, not_or] at hc
  obtain ⟨hcorrect, hperfidx, hperf, htotal⟩ := hc
  obtain ⟨rest, hstrip⟩ : ∃ rest, strip (blanks ++ c :: line) = c :: rest := by
    have hdrop : (blanks ++ c :: line).dropWhile isSpace = c :: line := by
      rw [List.dropWhile_append_of_pos hblanks, List.dropWhile_cons_of_neg (by simp [hspace])]
    have hprefix := prefix_rstrip (w := [c]) (by simp [hspace]) line
    obtain ⟨rest, hrest⟩ := hprefix
    exact ⟨rest, by rw [strip, hdrop]; exact hrest.symm⟩
  have hindex : perfLineRe.matchGroups (c :: rest) = none := by
    apply Pattern.matchGroups_eq_none
    intro k hk
    obtain rfl : k = .set ['P'] := List.mem_singleton.mp hk
    simpa [CharClass.mem] using hperf
  have htotals : totalRe.matchGroups (blanks ++ c :: line) = none := by
    have hsplit : totalRe = anySpace :: totalRe.tail := rfl
    have hrest : Pattern.matchGroups totalRe.tail (c :: line) = none := by
      apply Pattern.matchGroups_eq_none
      intro k hk
      obtain rfl : k = .set ['T'] := List.mem_singleton.mp hk
      simpa [CharClass.mem] using htotal
    rw [hsplit, Pattern.matchGroups_run (by decide) (by decide) ⟨hblanks, trivial⟩
      (by simpa [anySpace, CharClass.mem] using hspace), hrest]
    rfl
  rw [matchLine, hstrip, matchStripped_of_head hcorrect hperfidx, hindex, Option.map_none]
  simp only [htotals]

/-- A line that starts like the totals and goes on otherwise matches none either. -/
theorem matchLine_other_T {line : List Char} {c : Char} (hc : c ≠ 'o') :
    matchLine ('T' :: c :: line) = none := by
  obtain ⟨rest, hstrip⟩ : ∃ rest, strip ('T' :: c :: line) = 'T' :: rest := by
    obtain ⟨rest, hrest⟩ := prefix_rstrip (w := ['T']) (by rintro d ⟨⟩; decide) (c :: line)
    exact ⟨rest, by rw [strip, List.dropWhile_cons_of_neg (by decide)]; exact hrest.symm⟩
  have hindex : perfLineRe.matchGroups ('T' :: rest) = none :=
    Pattern.matchGroups_eq_none (by decide) _
  have htotals : totalRe.matchGroups ('T' :: c :: line) = none := by
    have hsplit : totalRe = anySpace :: (Pattern.lit "T" ++ totalRe.tail.tail) := rfl
    have hrest : Pattern.matchGroups totalRe.tail.tail (c :: line) = none := by
      apply Pattern.matchGroups_eq_none
      intro k hk
      obtain rfl : k = .set ['o'] := List.mem_singleton.mp hk
      simpa [CharClass.mem] using hc
    have hrun := @Pattern.matchGroups_run anySpace (Pattern.lit "T" ++ totalRe.tail.tail) []
      ('T' :: c :: line) (by decide) (by decide) ⟨by simp, trivial⟩ (by rintro d ⟨⟩; decide)
    have hlit := Pattern.matchGroups_lit "T" totalRe.tail.tail (c :: line)
    rw [hsplit]
    refine hrun.trans ?_
    rw [show 'T' :: c :: line = "T".toList ++ c :: line from rfl, hlit, hrest]
    rfl
  rw [matchLine, hstrip, matchStripped_of_head (by decide) (by decide), hindex, Option.map_none]
  simp only [htotals]

/-- The text is made of whole lines that match no pattern. -/
structure QuietText (s : List Char) : Prop where
  quiet : Quiet s
  whole : WholeLines s

/-- Nothing is quiet. -/
theorem quietText_nil : QuietText [] := by
  refine ⟨?_, .inl rfl⟩
  rw [Quiet, splitlines_nil]
  exact fun line hline => absurd hline List.not_mem_nil

/-- Two quiet texts make a quiet text. -/
theorem QuietText.append {s t : List Char} (hs : QuietText s) (ht : QuietText t) : QuietText (s ++ t) := by
  constructor
  · rw [Quiet, splitlines_wholeLines hs.whole]
    exact fun line hline => (List.mem_append.mp hline).elim (hs.quiet line) (ht.quiet line)
  · rcases ht.whole with rfl | ⟨front, rfl⟩
    · rw [List.append_nil]
      exact hs.whole
    · exact .inr ⟨s ++ front, (List.append_assoc ..).symm⟩

/-- One line. -/
theorem quietText_line {line : List Char} (hone : OneLine line) (hnone : matchLine line = none) :
    QuietText (line ++ ['\n']) := by
  constructor
  · rw [Quiet, splitlines_cons hone, splitlines_nil]
    exact fun l hl => List.mem_singleton.mp hl ▸ hnone
  · exact .inr ⟨line, rfl⟩

/-- Lines that match no pattern are a quiet text. -/
theorem quietText_printLines {lines : List (List Char)}
    (h : ∀ line ∈ lines, OneLine line ∧ matchLine line = none) : QuietText (printLines lines) := by
  induction lines with
  | nil => exact quietText_nil
  | cons line lines ih =>
      obtain ⟨⟨hone, hnone⟩, hrest⟩ := List.forall_mem_cons.mp h
      rw [printLines, List.flatMap_cons]
      exact (quietText_line hone hnone).append (ih hrest)

/-! ## Reports of errors -/

/-- The digits of a number break no line. -/
theorem oneLine_toDigits_hex (n : Nat) : OneLine (Nat.toDigits 16 n) := by
  induction n using Nat.strongRecOn with
  | ind n ih =>
      have hdigit : ∀ d < 16, OneLine [Nat.digitChar d] := by decide
      rw [Nat.toDigits_eq_if (by decide)]
      split
      · next hlt => exact hdigit n hlt
      · next hge =>
        exact oneLine_append.mpr ⟨ih (n / 16) (Nat.div_lt_self (by omega) (by decide)),
          hdigit _ (Nat.mod_lt n (by decide))⟩

/-- A pointer is printed on one line. -/
theorem oneLine_formatPtr (p : Nat) : OneLine (formatPtr p).toList := by
  rw [formatPtr]
  split
  · decide
  · rw [String.toList_append, oneLine_append, @String.toList_ofList (Nat.toDigits 16 p)]
    exact ⟨by decide, oneLine_toDigits_hex p⟩

/-- A number is printed by its digits. -/
theorem toList_toString (n : Nat) : (toString n).toList = Nat.toDigits 10 n := by
  rw [Nat.toString_eq_repr, Nat.repr, String.toList_ofList]

/-- A message is one line, or one that is ended. -/
def Message (msg : String) : Prop :=
  OneLine msg.toList ∨ ∃ m : String, OneLine m.toList ∧ msg = m ++ "\n"

/-- A text of one line is a message. -/
theorem message_line {msg : String} (h : OneLine msg.toList) : Message msg := .inl h

/-- So is one that ends its line. -/
theorem message_ended {m : String} (h : OneLine m.toList) : Message (m ++ "\n") := .inr ⟨m, h, rfl⟩

/-- The errors of `add_range` have messages. -/
theorem RangeError.message (e : RangeError) : Message e.msg := by
  cases e with
  | notAligned lo =>
      have hline : OneLine ("Payload address (" ++ formatPtr lo ++ ") not aligned to " ++
          toString alignment ++ " bytes").toList := by
        simp only [String.toList_append, toList_toString, oneLine_append, oneLine_formatPtr,
          oneLine_toDigits, and_true]
        decide +kernel
      exact message_line hline
  | outsideHeap lo hi heapLo heapHi =>
      have hline : OneLine ("Payload (" ++ formatPtr lo ++ ":" ++ formatPtr hi ++
          ") lies outside heap (" ++ formatPtr heapLo ++ ":" ++ formatPtr heapHi ++ ")").toList := by
        simp only [String.toList_append, oneLine_append, oneLine_formatPtr, and_true]
        decide +kernel
      exact message_line hline
  | overlaps lo hi p =>
      have hline : OneLine ("Payload (" ++ formatPtr lo ++ ":" ++ formatPtr hi ++
          ") overlaps another payload (" ++ formatPtr p.lo ++ ":" ++ formatPtr p.hi ++ ")").toList := by
        simp only [String.toList_append, oneLine_append, oneLine_formatPtr, and_true]
        decide +kernel
      have hended := message_ended hline
      rwa [@String.append_assoc _ ")" "\n"] at hended

/-- **A report of an error** is quiet. -/
theorem mallocError_quiet {s : Harness} (h : QuietText s.out.toList) (tracenum opnum : Nat) {msg : String}
    (hmsg : Message msg) : QuietText (s.mallocError tracenum opnum msg).out.toList := by
  set head := "ERROR [trace ".toList ++ Nat.toDigits 10 tracenum ++ ", line ".toList ++
    Nat.toDigits 10 (lineNum opnum) ++ "]: ".toList with hhead
  have hout : (s.mallocError tracenum opnum msg).out.toList =
      s.out.toList ++ (head ++ msg.toList ++ ['\n']) := by
    simp only [Harness.mallocError, String.toList_append, toList_toString, hhead, List.append_assoc]
    rfl
  have hline : ∀ {text : List Char}, OneLine text → QuietText (head ++ text ++ ['\n']) := by
    intro text htext
    refine quietText_line ?_ (matchLine_eq_none [] (c := 'E') (by simp) (by decide) (by decide))
    simp only [hhead, oneLine_append, oneLine_toDigits, htext, and_true]
    decide
  rw [hout]
  rcases hmsg with hone | ⟨m, hone, rfl⟩
  · exact h.append (hline hone)
  · have hempty : QuietText ([] ++ ['\n']) := quietText_line (by simp [OneLine]) (by decide)
    have htwo := h.append ((hline hone).append hempty)
    simpa [List.append_assoc] using htwo

variable {σ : Type}

/-- `add_range` prints nothing but its errors. -/
theorem addRange_quiet {s s' : Harness} (h : QuietText s.out.toList)
    {heapLo heapHi lo size tracenum opnum r : Nat}
    (hadd : s.addRange heapLo heapHi lo size tracenum opnum = some (r, s')) : QuietText s'.out.toList := by
  rw [Harness.addRange] at hadd
  split at hadd
  · split at hadd
    · next e _ =>
      obtain ⟨-, rfl⟩ := Prod.mk.inj (Option.some.inj hadd)
      exact mallocError_quiet h tracenum opnum e.message
    · obtain ⟨-, rfl⟩ := Prod.mk.inj (Option.some.inj hadd)
      exact h
  · simp at hadd

/-- The messages of `eval_mm_valid` itself. -/
theorem message_evalMmValid {msg : String}
    (h : msg ∈ ["mm_init failed.", "mm_malloc failed.", "mm_realloc failed.",
      "mm_realloc did not preserve the data from old block"]) : Message msg := by
  refine message_line ?_
  revert msg
  decide +kernel

/-- A request prints nothing but its error. -/
theorem evalOp_out {pkg : Package σ} {tracenum i : Nat} {st : Evaluation σ} {r : Request}
    {result : Nat × Evaluation σ} (h : evalOp pkg tracenum i st r = some result)
    (hquiet : QuietText st.harness.out.toList) : QuietText result.2.harness.out.toList := by
  cases r with
  | malloc index size =>
      rw [evalOp] at h
      split at h
      next p s hcall =>
      split at h
      · obtain rfl := Option.some.inj h
        exact mallocError_quiet hquiet _ _ (message_evalMmValid (by simp))
      · split at h
        · simp at h
        · next hadd =>
          obtain rfl := Option.some.inj h
          exact addRange_quiet hquiet hadd
        · next hadd =>
          obtain rfl := Option.some.inj h
          exact addRange_quiet hquiet hadd
  | realloc index size =>
      rw [evalOp] at h
      split at h
      next p s hcall =>
      split at h
      · obtain rfl := Option.some.inj h
        exact mallocError_quiet hquiet _ _ (message_evalMmValid (by simp))
      · split at h
        · simp at h
        · next hadd =>
          obtain rfl := Option.some.inj h
          exact addRange_quiet (s := st.harness.removeRange _) hquiet hadd
        · next hadd =>
          have hadded := addRange_quiet (s := st.harness.removeRange _) hquiet hadd
          simp only at h
          generalize fillKept _ _ _ _ = kept at h
          cases kept with
          | true =>
              obtain rfl := Option.some.inj h
              exact hadded
          | false =>
              obtain rfl := Option.some.inj h
              exact mallocError_quiet hadded _ _ (message_evalMmValid (by simp))
  | free index =>
      obtain rfl := Option.some.inj h
      exact hquiet

/-- Neither does the loop over the requests. -/
theorem evalOps_out {pkg : Package σ} {tracenum i : Nat} {st : Evaluation σ} {ops : List Request}
    {result : Nat × Evaluation σ} (h : evalOps pkg tracenum i st ops = some result)
    (hquiet : QuietText st.harness.out.toList) : QuietText result.2.harness.out.toList := by
  induction ops generalizing st i with
  | nil =>
      obtain rfl := Option.some.inj h
      exact hquiet
  | cons r rest ih =>
      rw [evalOps] at h
      split at h
      · simp at h
      · next hop =>
        obtain rfl := Option.some.inj h
        exact evalOp_out hop hquiet
      · next hop => exact ih h (evalOp_out hop hquiet)

/-- Neither does the check of a trace. -/
theorem evalMmValid_out {pkg : Package σ} {tracenum : Nat} {st : Evaluation σ} {ops : List Request}
    {result : Nat × Evaluation σ} (h : evalMmValid pkg tracenum st ops = some result)
    (hquiet : QuietText st.harness.out.toList) : QuietText result.2.harness.out.toList := by
  rw [evalMmValid] at h
  split at h
  next r s hinit =>
  simp only at h
  split at h
  · obtain rfl := Option.some.inj h
    exact mallocError_quiet (s := st.harness.clearRanges) hquiet _ _ (message_evalMmValid (by simp))
  · exact evalOps_out h hquiet

section Loop

variable {α : Type} [Arithmetic α]

/-- **What the loop over the traces prints** is quiet, whatever the package does. -/
theorem evalTraces_out {pkg : Package σ} {i : Nat} {st st' : Evaluation σ}
    {traces : List (LoadedTrace α)} {stats : List (TraceStats α)}
    (h : evalTraces pkg i st traces = some (stats, st')) (hquiet : QuietText st.harness.out.toList) :
    QuietText st'.harness.out.toList := by
  induction traces generalizing i st stats with
  | nil =>
      obtain ⟨-, rfl⟩ := Prod.mk.inj (Option.some.inj h)
      exact hquiet
  | cons trace rest ih =>
      rw [evalTraces] at h
      obtain ⟨⟨first, st₁⟩, hfirst, h⟩ := Option.bind_eq_some_iff.mp h
      obtain ⟨⟨more, st₂⟩, hrest, heq⟩ := Option.map_eq_some_iff.mp h
      obtain ⟨-, rfl⟩ := Prod.mk.inj heq
      refine ih hrest ?_
      rw [evalTrace] at hfirst
      split at hfirst
      · simp at hfirst
      · next hvalid =>
        obtain ⟨-, rfl⟩ := Prod.mk.inj (Option.some.inj hfirst)
        exact evalMmValid_out hvalid hquiet
      · next hvalid =>
        obtain ⟨u, hu, h⟩ := Option.bind_eq_some_iff.mp hfirst
        obtain ⟨st₂, hsecs, heq⟩ := Option.map_eq_some_iff.mp h
        obtain ⟨-, rfl⟩ := Prod.mk.inj heq
        rw [fsecs_harness hsecs, evalMmUtil_harness hu]
        exact evalMmValid_out hvalid hquiet

end Loop

/-! ## What the driver prints -/

/-- The strings of `team_t`. -/
structure Team where
  teamname : List Char
  name1 : List Char
  id1 : List Char
  name2 : List Char
  id2 : List Char

/-- What `main` prints of the team, which `mm.c` has to fill in. An error is printed before an exit. -/
def teamLines (team : Team) : Except String (List (List Char)) :=
  if team.teamname = [] then
    .error "ERROR: Please provide the information about your team in mm.c."
  else if team.name1 = [] ∨ team.id1 = [] then
    .error "ERROR.  You must fill in all team member 1 fields!"
  else if (team.name2 ≠ [] ∧ team.id2 = []) ∨ (team.name2 = [] ∧ team.id2 ≠ []) then
    .error "ERROR.  You must fill in all or none of the team member 2 ID fields!"
  else
    .ok (["Team Name:".toList ++ team.teamname,
      "Member 1 :".toList ++ (team.name1 ++ (":".toList ++ team.id1))] ++
      if team.name2 ≠ [] then ["Member 2 :".toList ++ (team.name2 ++ (":".toList ++ team.id2))] else [])

/-- What `mdriver -v -g` prints before it evaluates the package: its options (118 is `v` and 103 is `g`),
the team, where the traces are and how the time is taken. -/
def startLines (team : Team) : Except String (List (List Char)) := do
  let lines ← teamLines team
  return ["getopt returned: 118".toList, "getopt returned: 103".toList] ++ lines ++
    ["Using default tracefiles in ./traces/".toList,
      "Measuring performance with gettimeofday().".toList]

/-- A number as `%.0f` rounds it. Counts, times, utilizations and the parts of the index are not negative
where it is used, with a weight from 0 to 1 and a positive reference throughput: a negative number, which
it takes to 0, has a sign in C. -/
def rounded (x : ℚ) : Nat := (roundHalfEven x).toNat

/-- `%.0f` of a quotient. Over 0 it is no number. -/
def quotientText (x y : ℚ) : List Char :=
  if y ≠ 0 then Nat.toDigits 10 (rounded (x / y))
  else if x = 0 then "-nan".toList
  else "inf".toList

/-- `"%5s%7s %5s%8s%10s%6s"`. -/
def tableHead : List Char :=
  padded 5 "trace".toList ++ (padded 7 " valid".toList ++ (" ".toList ++ (padded 5 "util".toList ++
    (padded 8 "ops".toList ++ (padded 10 "secs".toList ++ padded 6 "Kops".toList)))))

/-- `"%6s%8s%10s%6s"` of four dashes. -/
def dashes : List Char :=
  padded 6 "-".toList ++ (padded 8 "-".toList ++ (padded 10 "-".toList ++ padded 6 "-".toList))

/-- The line of a trace. -/
def traceLine (i : Nat) (stats : TraceStats ℚ) : List Char :=
  padded 2 (Nat.toDigits 10 i) ++
    if stats.valid then
      padded 10 "yes".toList ++ (padded 5 (Nat.toDigits 10 (rounded (stats.util * 100))) ++ ("%".toList ++
        (padded 8 (Nat.toDigits 10 (rounded stats.ops)) ++
          (padded 10 (fixedPoint 6 (rounded (stats.secs * 10 ^ 6))) ++
            padded 6 (quotientText (stats.ops / 1000) stats.secs)))))
    else padded 10 "no".toList ++ dashes

/-- The line of totals. The sums go over the traces that are valid. -/
def totalsLine (errors : Nat) (mmStats : List (TraceStats ℚ)) : List Char :=
  padded 12 "Total       ".toList ++
    if errors = 0 then
      let t := aggregate (mmStats.filter TraceStats.valid)
      padded 5 (Nat.toDigits 10 (rounded (t.util / mmStats.length * 100))) ++ ("%".toList ++
        (padded 8 (Nat.toDigits 10 (rounded t.ops)) ++ (padded 10 (fixedPoint 6 (rounded (t.secs * 10 ^ 6))) ++
          padded 6 (quotientText (t.ops / 1000) t.secs))))
    else dashes

/-- The numbers of a run. -/
def driverReport (utilWeight avgLibcThruput : ℚ) (errors : Nat) (mmStats : List (TraceStats ℚ)) :
    DriverReport :=
  let t := aggregate mmStats
  { util := rounded (t.util / mmStats.length * 100)
    ops := rounded t.ops
    micros := rounded (t.secs * 10 ^ 6)
    kops := rounded (t.ops / 1000 / t.secs)
    correct := t.numcorrect
    utilPart := rounded (utilPart utilWeight (t.util / mmStats.length) * 100)
    thruPart := rounded (thruPart utilWeight avgLibcThruput (t.ops / t.secs) * 100)
    perfidx := rounded (mainPerfindex utilWeight avgLibcThruput errors mmStats) }

/-- The line of the performance index, or of the errors. -/
def indexLine (r : DriverReport) (errors : Nat) : List Char :=
  if errors = 0 then r.perfIndexLine
  else "Terminated with ".toList ++ (Nat.toDigits 10 errors ++ " errors".toList)

/-- What `mdriver -v -g` has printed when it exits: what was printed before and in the loop over the
traces, and the results. (The throughput is a quotient by the time, which is not 0.) -/
def driverStdout (utilWeight avgLibcThruput : ℚ) (harness : Harness) (mmStats : List (TraceStats ℚ)) :
    List Char :=
  let r := driverReport utilWeight avgLibcThruput harness.errors mmStats
  harness.out.toList ++ printLines ([[], "Results for mm malloc:".toList, tableHead] ++
    mmStats.mapIdx traceLine ++ [totalsLine harness.errors mmStats, [], indexLine r harness.errors,
      r.correctLine, r.perfidxLine])

/-! ## What is read of it -/

/-- A quotient is printed on one line. -/
theorem oneLine_quotientText (x y : ℚ) : OneLine (quotientText x y) := by
  rw [quotientText]
  split_ifs
  · exact oneLine_toDigits _
  · decide
  · decide

/-- The line of a trace starts with its number. -/
theorem traceLine_quiet (i : Nat) (stats : TraceStats ℚ) :
    OneLine (traceLine i stats) ∧ matchLine (traceLine i stats) = none := by
  constructor
  · rw [traceLine, oneLine_append]
    refine ⟨oneLine_padded (oneLine_toDigits i), ?_⟩
    split
    · simp only [oneLine_append, oneLine_padded (oneLine_toDigits _),
        oneLine_padded (oneLine_fixedPoint _ _), oneLine_padded (oneLine_quotientText _ _), and_true]
      decide
    · decide
  · obtain ⟨c, cs, hcs⟩ := List.exists_cons_of_ne_nil (Nat.toDigits_ne_nil (n := i) (b := 10))
    have hdigit : isAsciiDigit c = true := isAsciiDigit_toDigits (hcs ▸ List.mem_cons_self)
    rw [traceLine, padded, List.leftpad, hcs, List.append_assoc, List.cons_append]
    refine matchLine_eq_none _ (fun d hd => ?_) (isSpace_of_isDecimal (isDecimal_ascii hdigit))
      (of_isAsciiDigit (p := fun c => c ∉ "cpPT".toList) (by decide) hdigit)
    rw [List.eq_of_mem_replicate hd]
    decide

/-- The texts before the totals. -/
theorem table_quiet (mmStats : List (TraceStats ℚ)) :
    QuietText (printLines ([[], "Results for mm malloc:".toList, tableHead] ++
      mmStats.mapIdx traceLine)) := by
  refine quietText_printLines fun line hline => ?_
  rcases List.mem_append.mp hline with hline | hline
  · have hhead : ∀ line ∈ [[], "Results for mm malloc:".toList, tableHead],
        OneLine line ∧ matchLine line = none := by
      decide +kernel
    exact hhead line hline
  · obtain ⟨i, hi, rfl⟩ := List.mem_mapIdx.mp hline
    exact traceLine_quiet i _

/-- The line with the number of errors matches no pattern. -/
theorem terminated_quiet (errors : Nat) :
    OneLine ("Terminated with ".toList ++ (Nat.toDigits 10 errors ++ " errors".toList)) ∧
      matchLine ("Terminated with ".toList ++ (Nat.toDigits 10 errors ++ " errors".toList)) = none := by
  constructor
  · simp only [oneLine_append, oneLine_toDigits, true_and]
    decide
  · exact matchLine_other_T (c := 'e') (by decide)

/-- Neither does the line of totals after errors. -/
theorem dashes_quiet : OneLine (padded 12 "Total       ".toList ++ dashes) ∧
    matchLine (padded 12 "Total       ".toList ++ dashes) = none := by
  decide +kernel

variable {utilWeight avgLibcThruput : ℚ} {harness : Harness} {mmStats : List (TraceStats ℚ)}

/-- **After errors** the scripts read the number of correct traces and an index of 0. -/
theorem parse_driverStdout_errors (hquiet : QuietText harness.out.toList) (herr : harness.errors ≠ 0)
    (hcorrect : (aggregate mmStats).numcorrect < 10 ^ maxStrDigits) :
    parseMdriverOutput (driverStdout utilWeight avgLibcThruput harness mmStats) =
      .ok ⟨some (aggregate mmStats).numcorrect, some (.ofRat 0), none, none, none, none⟩ := by
  set r := driverReport utilWeight avgLibcThruput harness.errors mmStats with hr
  have hindex : r.perfidx = 0 := by
    have hzero : rounded 0 = 0 := congrArg Int.toNat (roundHalfEven_intCast 0)
    rw [hr, driverReport, mainPerfindex, if_neg herr]
    exact hzero
  have hfront : QuietText (harness.out.toList ++ printLines ([[], "Results for mm malloc:".toList, tableHead] ++
      mmStats.mapIdx traceLine) ++ printLines [totalsLine harness.errors mmStats, [],
        indexLine r harness.errors]) := by
    refine (hquiet.append (table_quiet mmStats)).append (quietText_printLines fun line hline => ?_)
    simp only [List.mem_cons, List.not_mem_nil, or_false] at hline
    rcases hline with rfl | rfl | rfl
    · rw [totalsLine, if_neg herr]
      exact dashes_quiet
    · decide
    · rw [indexLine, if_neg herr]
      exact terminated_quiet _
  have hsplit : driverStdout utilWeight avgLibcThruput harness mmStats =
      (harness.out.toList ++ printLines ([[], "Results for mm malloc:".toList, tableHead] ++
        mmStats.mapIdx traceLine) ++ printLines [totalsLine harness.errors mmStats, [],
          indexLine r harness.errors]) ++ (r.correctLine ++ '\n' :: (r.perfidxLine ++ '\n' :: [])) := by
    simp only [driverStdout, printLines, List.flatMap_append, List.flatMap_cons, List.flatMap_nil,
      List.append_assoc, List.append_nil, ← hr]
    simp
  have hlines : splitlines (driverStdout utilWeight avgLibcThruput harness mmStats) =
      splitlines (harness.out.toList ++ printLines ([[], "Results for mm malloc:".toList, tableHead] ++
        mmStats.mapIdx traceLine) ++ printLines [totalsLine harness.errors mmStats, [],
          indexLine r harness.errors]) ++ [r.correctLine, r.perfidxLine] := by
    obtain ⟨-, -, hone, htwo⟩ := r.oneLine
    rw [hsplit, splitlines_wholeLines hfront.whole, splitlines_cons hone, splitlines_cons htwo,
      splitlines_nil]
  rw [parseMdriverOutput, hlines, readLines_quiet hfront.quiet]
  simp only [readLines, matchLine_correctLine, matchLine_perfidxLine, LineMatch.read, pyFloat_toDigits,
    pyInt_toDigits, hindex, if_pos (show r.correct < 10 ^ maxStrDigits from hcorrect)]
  rfl

/-- The lines of the team do not break, so none is taken for another. -/
structure Team.OneLine (team : Team) : Prop where
  teamname : MallocBench.OneLine team.teamname
  name1 : MallocBench.OneLine team.name1
  id1 : MallocBench.OneLine team.id1
  name2 : MallocBench.OneLine team.name2
  id2 : MallocBench.OneLine team.id2

/-- What is printed first is quiet. -/
theorem startLines_quiet {team : Team} (hteam : team.OneLine) {lines : List (List Char)}
    (h : startLines team = .ok lines) : QuietText (printLines lines) := by
  have hmember : ∀ {line : List Char}, OneLine ('M' :: line) →
      OneLine ('M' :: line) ∧ matchLine ('M' :: line) = none := fun hone =>
    ⟨hone, matchLine_eq_none [] (by simp) (by decide) (by decide)⟩
  have hfixed : ∀ line ∈ ["getopt returned: 118".toList, "getopt returned: 103".toList,
      "Using default tracefiles in ./traces/".toList,
      "Measuring performance with gettimeofday().".toList],
      OneLine line ∧ matchLine line = none := by
    decide +kernel
  have hname : OneLine ("Team Name:".toList ++ team.teamname) :=
    oneLine_append.mpr ⟨by decide, hteam.teamname⟩
  have hone : OneLine ("Member 1 :".toList ++ (team.name1 ++ (":".toList ++ team.id1))) := by
    simp only [oneLine_append, hteam.name1, hteam.id1, and_true, true_and]
    decide
  have htwo : OneLine ("Member 2 :".toList ++ (team.name2 ++ (":".toList ++ team.id2))) := by
    simp only [oneLine_append, hteam.name2, hteam.id2, and_true, true_and]
    decide
  have hlines : ∀ lines, teamLines team = .ok lines →
      ∀ line ∈ lines, OneLine line ∧ matchLine line = none := by
    intro lines hok line hline
    rw [teamLines] at hok
    split_ifs at hok
    · obtain rfl := Except.ok.inj hok
      simp only [List.mem_append, List.mem_cons, List.not_mem_nil, or_false] at hline
      rcases hline with (rfl | rfl) | rfl
      · exact ⟨hname, matchLine_other_T (c := 'e') (by decide)⟩
      · exact hmember hone
      · exact hmember htwo
    · obtain rfl := Except.ok.inj hok
      simp only [List.append_nil, List.mem_cons, List.not_mem_nil, or_false] at hline
      rcases hline with rfl | rfl
      · exact ⟨hname, matchLine_other_T (c := 'e') (by decide)⟩
      · exact hmember hone
  obtain ⟨team, hok, h⟩ := bind_eq_ok.mp h
  obtain rfl := Except.ok.inj h
  refine quietText_printLines fun line hline => ?_
  rcases List.mem_append.mp hline with hline | hline
  · rcases List.mem_append.mp hline with hline | hline
    · exact hfixed line (List.mem_append_left _ hline)
    · exact hlines _ hok line hline
  · exact hfixed line (List.mem_append_right ["getopt returned: 118".toList,
      "getopt returned: 103".toList] hline)

/-! ## A run of the driver -/

/-- The text around the results of a run without errors. -/
def otherLines (harness : Harness) (mmStats : List (TraceStats ℚ)) : OtherLines where
  beforeTotal := harness.out.toList ++
    printLines ([[], "Results for mm malloc:".toList, tableHead] ++ mmStats.mapIdx traceLine)
  beforePerfIndex := ['\n']
  beforeCorrect := []
  beforePerfidx := []
  afterwards := []

/-- **The text around the results is not read.** -/
theorem otherLines_unread (mmStats : List (TraceStats ℚ)) (hquiet : QuietText harness.out.toList) :
    (otherLines harness mmStats).Unread := by
  have hbefore := hquiet.append (table_quiet mmStats)
  have hblank : QuietText ['\n'] := @quietText_line [] (by decide) (by decide)
  have hnone := quietText_nil
  exact ⟨⟨hbefore.quiet, hbefore.whole⟩, ⟨hblank.quiet, hblank.whole⟩, ⟨hnone.quiet, hnone.whole⟩,
    ⟨hnone.quiet, hnone.whole⟩, hnone.quiet⟩

/-- **Without errors** the output is one that the scripts have a report of. -/
theorem driverStdout_valid (herr : harness.errors = 0) (hvalid : ∀ x ∈ mmStats, x.valid = true)
    (hsecs : (aggregate mmStats).secs ≠ 0) :
    driverStdout utilWeight avgLibcThruput harness mmStats =
      driverOutput (driverReport utilWeight avgLibcThruput 0 mmStats) (otherLines harness mmStats) := by
  have hfilter : mmStats.filter TraceStats.valid = mmStats := List.filter_eq_self.mpr hvalid
  have htotals : totalsLine 0 mmStats =
      (driverReport utilWeight avgLibcThruput 0 mmStats).totalLine := by
    have hkops : ∀ x : ℚ, quotientText x (aggregate mmStats).secs =
        Nat.toDigits 10 (rounded (x / (aggregate mmStats).secs)) := fun x => if_pos hsecs
    rw [totalsLine, if_pos rfl, hfilter]
    simp only [hkops]
    rfl
  simp only [driverStdout, driverOutput, otherLines, printLines, indexLine, herr, htotals,
    List.flatMap_append, List.flatMap_cons, List.flatMap_nil, List.append_assoc, List.append_nil]
  simp

/-- A run of `mdriver -v -g`: the heap it starts with, the traces it reads, and how the loop ends. What it
prints is made of numbers: the utilizations are measured on heaps that are not empty, and the times are
not negative, with a positive sum in a run without an error. -/
structure DriverRun {σ : Type} (pkg : Package σ) where
  team : Team
  lines : List (List Char)
  started : startLines team = .ok lines
  start : Evaluation σ
  harness : start.harness = Harness.start 0 (String.ofList (printLines lines))
  traces : List (LoadedTrace ℚ)
  stats : List (TraceStats ℚ)
  finish : Evaluation σ
  evaluated : evalTraces pkg 0 start traces = some (stats, finish)
  measured : HeapsMeasured pkg 0 start traces
  timed : ∀ t ∈ traces, 0 ≤ t.secs
  total : finish.harness.errors = 0 → 0 < (aggregate stats).secs

namespace DriverRun

variable {σ : Type} {pkg : Package σ} (d : DriverRun pkg)

/-- The errors it has counted. -/
def errors : Nat := d.finish.harness.errors

variable (utilWeight avgLibcThruput)

/-- Its numbers. -/
def report : DriverReport := driverReport utilWeight avgLibcThruput d.errors d.stats

/-- What it prints. -/
def stdout : List Char := driverStdout utilWeight avgLibcThruput d.finish.harness d.stats

/-- What the scripts know of it. -/
def measures : Measures :=
  let r := d.report utilWeight avgLibcThruput
  if d.errors = 0 ∧ r.Narrow then
    ⟨some (d.traces.length - d.errors), some (.ofRat r.perfidx), some r.util, some r.ops,
      some (.ofRat (r.micros / 10 ^ 6)), some r.kops⟩
  else ⟨some (d.traces.length - d.errors), some (.ofRat r.perfidx), none, none, none, none⟩

variable {utilWeight avgLibcThruput}

/-- The correct traces are those without an error. -/
theorem numcorrect : (aggregate d.stats).numcorrect = d.traces.length - d.errors := by
  obtain ⟨hlength, herrors⟩ := evalTraces_invalid d.evaluated
  have hsplit := List.length_eq_countP_add_countP TraceStats.valid (l := d.stats)
  rw [List.countP_eq_length_filter] at hsplit
  rw [d.harness] at herrors
  rw [aggregate, foldl_add_exact, errors, herrors, ← hlength, hsplit]
  simp [Harness.start]

/-- There are no more errors than traces. -/
theorem errors_le : d.errors ≤ d.traces.length := by
  obtain ⟨hlength, herrors⟩ := evalTraces_invalid d.evaluated
  rw [d.harness] at herrors
  rw [errors, herrors, ← hlength, Harness.start, Nat.zero_add]
  exact List.countP_le_length

/-- Without errors all traces are valid. -/
theorem valid (h : d.errors = 0) : ∀ x ∈ d.stats, x.valid = true := by
  obtain ⟨-, herrors⟩ := evalTraces_invalid d.evaluated
  have hnone : d.stats.countP (fun x => ¬ x.valid) = 0 := by
    rw [errors] at h
    omega
  simpa [List.countP_eq_zero] using hnone

/-- What is printed before the results is quiet. -/
theorem quiet (hteam : d.team.OneLine) : QuietText d.finish.harness.out.toList := by
  refine evalTraces_out d.evaluated ?_
  rw [d.harness, Harness.start, String.toList_ofList]
  exact startLines_quiet hteam d.started

/-- **The scripts read what the driver has found.** Whatever the package does, they get the number of
traces without an error and the index that was computed. They get the totals when there were no errors
and the fields are narrower than their widths, and no totals otherwise. -/
theorem parse_stdout (hteam : d.team.OneLine) (hlength : d.traces.length < 10 ^ maxStrDigits)
    (hutil : d.errors = 0 → (d.report utilWeight avgLibcThruput).util < 10 ^ maxStrDigits) :
    parseMdriverOutput (d.stdout utilWeight avgLibcThruput) =
      .ok (d.measures utilWeight avgLibcThruput) := by
  have hcorrect : (aggregate d.stats).numcorrect < 10 ^ maxStrDigits := by
    rw [d.numcorrect]
    omega
  by_cases herr : d.errors = 0
  · have hother := otherLines_unread d.stats (d.quiet hteam)
    have hreport : driverReport utilWeight avgLibcThruput 0 d.stats =
        d.report utilWeight avgLibcThruput := by
      rw [report, herr]
    have hcount : (d.report utilWeight avgLibcThruput).correct = d.traces.length - d.errors :=
      d.numcorrect
    rw [stdout, driverStdout_valid herr (d.valid herr) (d.total herr).ne', hreport]
    by_cases hnarrow : (d.report utilWeight avgLibcThruput).Narrow
    · rw [parseMdriverOutput_narrow hnarrow hother, if_pos ⟨hutil herr, hcorrect⟩, hcount, measures,
        if_pos ⟨herr, hnarrow⟩]
    · rw [parseMdriverOutput_wide hnarrow hother,
        if_pos (show (d.report utilWeight avgLibcThruput).correct < _ from hcorrect), hcount, measures,
        if_neg fun h => hnarrow h.2]
  · have hzero : (d.report utilWeight avgLibcThruput).perfidx = 0 := by
      have hround : rounded 0 = 0 := congrArg Int.toNat (roundHalfEven_intCast 0)
      rw [report, driverReport, mainPerfindex, if_neg herr]
      exact hround
    rw [stdout, parse_driverStdout_errors (d.quiet hteam) herr hcorrect, measures,
      if_neg fun h => herr h.1, d.numcorrect, hzero]
    rfl

end DriverRun

end MallocBench
