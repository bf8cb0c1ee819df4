import MallocBench.Allocator.Grow
import MallocBench.Harness.Sessions
import MallocBench.Text.Scanning

/-! # Trace files (`read_trace`)

A trace file is a header of four numbers and one request to a line. `read_trace` reads it with `fscanf`,
checks the type character of each request as it goes, and asserts at the end that the header has the
right number of requests and of ids. A number that is missing leaves its variable as it was.

* **`readTrace_sound`**: in a trace that is read, the arrays of `num_ops` requests and `num_ids` blocks
  are large enough for it.
* **`readTrace_words`**: what becomes of a text with the words of a documented trace, however they are
  spaced: it is read back when the header is right, and is stopped by an assertion, or written past the
  end of the array, when it is not. -/

namespace MallocBench

open Text

/-! ## The reader -/

/-- One request of a trace (`traceop_t`). -/
inductive TraceOp where
  | alloc (index size : Int)
  | realloc (index size : Int)
  | free (index : Int)
  deriving DecidableEq

/-- The fields of a `trace_t` that `read_trace` stores. The two that nothing reads may be missing. -/
structure TraceFile where
  suggHeapsize : Option Int
  numIds : Int
  numOps : Int
  weight : Option Int
  ops : List TraceOp
  deriving DecidableEq

/-- Why `read_trace` does not return. -/
inductive ReadFailure where
  /-- No array has a negative length. -/
  | noMemory
  /-- `Bogus type character (%c) in tracefile %s`. -/
  | bogusType (c : Char)
  /-- One of the two assertions at the end. -/
  | assertion
  /-- C does not say what happens: a variable is read that was never stored, a number does not fit, a
  word does not fit its buffer, or a request is stored past the end of the array. -/
  | undefined
  deriving DecidableEq

/-- The variables of the loop. -/
structure Reading where
  index : Nat
  /-- It has no value before the first size is stored. -/
  size : Option Nat
  maxIndex : Nat
  /-- The array up to `op_index`. -/
  ops : List TraceOp

/-- The variables before the loop. -/
def Reading.start : Reading := ⟨0, none, 0, []⟩

/-- `MAXLINE`. -/
def maxLine : Nat := 1024

/-- `fscanf(tracefile, "%u %u", &index, &size)`. -/
def scanIndexSize (r : Reading) (s : List Char) :
    Except ReadFailure (Nat × Option Nat × List Char) :=
  match scanUnsigned s with
  | .undefined => .error .undefined
  | .mismatch rest => .ok (r.index, r.size, rest)
  | .stored index rest =>
    match scanUnsigned rest with
    | .undefined => .error .undefined
    | .mismatch rest => .ok (index, r.size, rest)
    | .stored size rest => .ok (index, some size, rest)

/-- `fscanf(tracefile, "%ud", &index)`. The `d` in the format takes a `d` after the number. -/
def scanIndex (r : Reading) (s : List Char) : Except ReadFailure (Nat × List Char) :=
  match scanUnsigned s with
  | .undefined => .error .undefined
  | .mismatch rest => .ok (r.index, rest)
  | .stored index rest => .ok (index, if rest.head? = some 'd' then rest.tail else rest)

/-- Store a request at `op_index`, and go on with the rest of the text. -/
def Reading.store (numOps : Int) (r : Reading) (op : TraceOp) (rest : List Char) :
    Except ReadFailure (Reading × List Char) :=
  if r.ops.length < numOps then .ok ({ r with ops := r.ops ++ [op] }, rest) else .error .undefined

/-- The cases `'a'` and `'r'`. -/
def readSized (op : Int → Int → TraceOp) (numOps : Int) (r : Reading) (s : List Char) :
    Except ReadFailure (Reading × List Char) :=
  match scanIndexSize r s with
  | .error e => .error e
  | .ok (_, none, _) => .error .undefined
  | .ok (index, some size, rest) =>
    let maxIndex := if index > r.maxIndex then index else r.maxIndex
    Reading.store numOps ⟨index, some size, maxIndex, r.ops⟩ (op (toInt32 index) (toInt32 size)) rest

/-- The switch on `type[0]`. -/
def readOp (numOps : Int) (r : Reading) (type s : List Char) :
    Except ReadFailure (Reading × List Char) :=
  match type.headD '\x00' with
  | 'a' => readSized .alloc numOps r s
  | 'r' => readSized .realloc numOps r s
  | 'f' =>
    match scanIndex r s with
    | .error e => .error e
    | .ok (index, rest) =>
      Reading.store numOps { r with index } (.free (toInt32 index)) rest
  | c => .error (.bogusType c)

/-- The loop. Each pass takes a word, so that it ends within as many passes as there are characters. -/
def readOps (numOps : Int) : Nat → Reading → List Char → Except ReadFailure Reading
  | 0, r, _ => .ok r
  | n + 1, r, s =>
    match scanWord s with
    | none => .ok r
    | some (type, rest) =>
      if maxLine ≤ type.length then .error .undefined
      else
        match readOp numOps r type rest with
        | .error e => .error e
        | .ok (r, rest) => readOps numOps n r rest

/-- `fscanf(tracefile, "%d", &field)` of a field of the header. -/
def scanField (s : List Char) : Except ReadFailure (Option Int × List Char) :=
  match scanInt s with
  | .undefined => .error .undefined
  | .mismatch rest => .ok (none, rest)
  | .stored i rest => .ok (some i, rest)

/-- The loop and the assertions. In the first one the `int` is converted to `unsigned`. -/
def readBody (suggHeapsize : Option Int) (numIds numOps : Int) (weight : Option Int) (s : List Char) :
    Except ReadFailure TraceFile :=
  if numOps < 0 ∨ numIds < 0 then .error .noMemory
  else
    match readOps numOps s.length .start s with
    | .error e => .error e
    | .ok r =>
      if (r.maxIndex : Int) = (numIds - 1) % 2 ^ 32 ∧ numOps = r.ops.length then
        .ok ⟨suggHeapsize, numIds, numOps, weight, r.ops⟩
      else .error .assertion

/-- `read_trace`, on the text of the file. -/
def readTrace (text : List Char) : Except ReadFailure TraceFile := do
  let (suggHeapsize, s) ← scanField text
  let (numIds, s) ← scanField s
  let (numOps, s) ← scanField s
  let (weight, s) ← scanField s
  match numIds, numOps with
  | some numIds, some numOps => readBody suggHeapsize numIds numOps weight s
  | _, _ => .error .undefined

/-! ## What is read is sound -/

/-- The id of an allocation or reallocation; only these count for `max_index`. -/
def TraceOp.sizedIndex? : TraceOp → Option Int
  | .alloc index _ => some index
  | .realloc index _ => some index
  | .free _ => none

/-- The invariant of the loop: the requests are in the array, `max_index` is above the ids that count,
and it is one of them when it is not 0. -/
structure Reading.Sound (numOps : Int) (r : Reading) : Prop where
  room : (r.ops.length : Int) ≤ numOps
  index_lt : r.index < 2 ^ 32
  maxIndex_lt : r.maxIndex < 2 ^ 32
  below : ∀ op ∈ r.ops, ∀ i, op.sizedIndex? = some i → ∃ k ≤ r.maxIndex, i = toInt32 k
  reached : r.maxIndex = 0 ∨ ∃ op ∈ r.ops, op.sizedIndex? = some (toInt32 r.maxIndex)

/-- At the start nothing has been read. -/
theorem Reading.sound_start {numOps : Int} (h : 0 ≤ numOps) : Reading.start.Sound numOps :=
  ⟨by simpa [Reading.start] using h, by decide, by decide, by simp [Reading.start], .inl rfl⟩

/-- What `%u` stores is an `unsigned`. -/
theorem scanUnsigned_lt {s rest : List Char} {n : Nat} (h : scanUnsigned s = .stored n rest) :
    n < 2 ^ 32 := by
  rw [scanUnsigned, scanNumeral] at h
  split at h
  · cases h
  · split at h
    · next a hstore =>
      obtain ⟨rfl, -⟩ := Scan.stored.inj h
      rw [storeUnsigned] at hstore
      split at hstore
      · next hlt =>
        obtain rfl := Option.some.inj hstore
        split <;> omega
      · cases hstore
    · cases h

/-- The index of a request with a size is an `unsigned int`. -/
theorem scanIndexSize_lt {r : Reading} {s rest : List Char} {index : Nat} {size : Option Nat}
    (hr : r.index < 2 ^ 32) (h : scanIndexSize r s = .ok (index, size, rest)) : index < 2 ^ 32 := by
  rw [scanIndexSize] at h
  split at h
  · cases h
  · obtain ⟨rfl, -⟩ := Prod.mk.inj (Except.ok.inj h)
    exact hr
  · next hindex =>
    split at h
    · cases h
    · obtain ⟨rfl, -⟩ := Prod.mk.inj (Except.ok.inj h)
      exact scanUnsigned_lt hindex
    · obtain ⟨rfl, -⟩ := Prod.mk.inj (Except.ok.inj h)
      exact scanUnsigned_lt hindex

/-- So is that of a release. -/
theorem scanIndex_lt {r : Reading} {s rest : List Char} {index : Nat} (hr : r.index < 2 ^ 32)
    (h : scanIndex r s = .ok (index, rest)) : index < 2 ^ 32 := by
  rw [scanIndex] at h
  split at h
  · cases h
  · obtain ⟨rfl, -⟩ := Prod.mk.inj (Except.ok.inj h)
    exact hr
  · next hindex =>
    obtain ⟨rfl, -⟩ := Prod.mk.inj (Except.ok.inj h)
    exact scanUnsigned_lt hindex

/-- A request is stored where there is room for it. -/
theorem Reading.store_ok {numOps : Int} {r r' : Reading} {op : TraceOp} {rest rest' : List Char}
    (h : r.store numOps op rest = .ok (r', rest')) :
    (r.ops.length : Int) < numOps ∧ r' = { r with ops := r.ops ++ [op] } := by
  rw [Reading.store] at h
  split at h
  · next hroom => exact ⟨hroom, (Prod.mk.inj (Except.ok.inj h)).1.symm⟩
  · cases h

namespace Reading.Sound

variable {numOps : Int} {r r' : Reading} {s rest type : List Char}

/-- A request with a size. -/
theorem sized {op : Int → Int → TraceOp}
    (hop : ∀ index size, (op index size).sizedIndex? = some index) (hr : r.Sound numOps)
    (h : readSized op numOps r s = .ok (r', rest)) : r'.Sound numOps := by
  rw [readSized] at h
  split at h
  · cases h
  · cases h
  · next index size rest' hscan =>
    have hindex := scanIndexSize_lt hr.index_lt hscan
    obtain ⟨hroom, rfl⟩ := Reading.store_ok h
    have hmax : (if index > r.maxIndex then index else r.maxIndex) = max r.maxIndex index := by
      split <;> omega
    have hlt := hr.maxIndex_lt
    refine ⟨by simpa using Int.add_one_le_of_lt hroom, hindex, ?_, fun op' hmem i hi => ?_, ?_⟩
    · simp only [hmax]
      omega
    · simp only [hmax]
      rcases List.mem_append.mp hmem with hold | hnew
      · obtain ⟨k, hk, rfl⟩ := hr.below op' hold i hi
        exact ⟨k, le_max_of_le_left hk, rfl⟩
      · rw [List.mem_singleton.mp hnew, hop] at hi
        exact ⟨index, le_max_right _ _, (Option.some.inj hi).symm⟩
    · simp only [hmax]
      by_cases hle : index ≤ r.maxIndex
      · rw [max_eq_left hle]
        exact hr.reached.imp_right fun ⟨op', hmem, hop'⟩ => ⟨op', List.mem_append_left _ hmem, hop'⟩
      · rw [max_eq_right (by omega)]
        exact .inr ⟨_, List.mem_append_right _ List.mem_cons_self, hop _ _⟩

/-- A free counts for the number of requests only. -/
theorem freed (hr : r.Sound numOps) {index : Nat} (hindex : index < 2 ^ 32)
    (h : Reading.store numOps { r with index } (.free (toInt32 index)) s = .ok (r', rest)) :
    r'.Sound numOps := by
  obtain ⟨hroom, rfl⟩ := Reading.store_ok h
  refine ⟨by simpa using Int.add_one_le_of_lt hroom, hindex, hr.maxIndex_lt, fun op' hmem i hi => ?_,
    hr.reached.imp_right fun ⟨op', hmem, hop'⟩ => ⟨op', List.mem_append_left _ hmem, hop'⟩⟩
  rcases List.mem_append.mp hmem with hold | hnew
  · exact hr.below op' hold i hi
  · rw [List.mem_singleton.mp hnew] at hi
    cases hi

/-- One pass of the loop. -/
theorem step (hr : r.Sound numOps) (h : readOp numOps r type s = .ok (r', rest)) :
    r'.Sound numOps := by
  rw [readOp] at h
  split at h
  · exact hr.sized (fun _ _ => rfl) h
  · exact hr.sized (fun _ _ => rfl) h
  · split at h
    · cases h
    · next hscan => exact hr.freed (scanIndex_lt hr.index_lt hscan) h
  · cases h

/-- The whole loop. -/
theorem loop (hr : r.Sound numOps) {n : Nat} (h : readOps numOps n r s = .ok r') : r'.Sound numOps := by
  induction n generalizing r s with
  | zero =>
      obtain rfl := Except.ok.inj h
      exact hr
  | succ n ih =>
      rw [readOps] at h
      split at h
      · obtain rfl := Except.ok.inj h
        exact hr
      · split at h
        · cases h
        · split at h
          · cases h
          · next hop => exact ih (hr.step hop) h

end Reading.Sound

/-- What an `int` field of the header can hold. -/
theorem scanInt_bounds {s rest : List Char} {i : Int} (h : scanInt s = .stored i rest) :
    -2 ^ 31 ≤ i ∧ i < 2 ^ 31 := by
  rw [scanInt, scanNumeral] at h
  split at h
  · cases h
  · split at h
    · next hstore =>
      obtain ⟨rfl, -⟩ := Scan.stored.inj h
      rw [storeInt] at hstore
      split at hstore <;> split at hstore
      · obtain rfl := Option.some.inj hstore
        omega
      · cases hstore
      · obtain rfl := Option.some.inj hstore
        omega
      · cases hstore
    · cases h

/-- A field of the header is an `int`. -/
theorem scanField_bounds {s rest : List Char} {i : Int} (h : scanField s = .ok (some i, rest)) :
    -2 ^ 31 ≤ i ∧ i < 2 ^ 31 := by
  rw [scanField] at h
  split at h
  · cases h
  · cases h
  · next hscan =>
    obtain ⟨hi, -⟩ := Prod.mk.inj (Except.ok.inj h)
    exact Option.some.inj hi ▸ scanInt_bounds hscan

/-- The four numbers of the header, then the rest. -/
theorem readTrace_ok {text : List Char} {f : TraceFile} (h : readTrace text = .ok f) :
    ∃ suggHeapsize numIds numOps weight s, (-2 ^ 31 ≤ numIds ∧ numIds < 2 ^ 31) ∧
      readBody suggHeapsize numIds numOps weight s = .ok f := by
  simp only [readTrace, bind, Except.bind] at h
  split at h
  · cases h
  · split at h
    · cases h
    · next hids =>
      split at h
      · cases h
      · split at h
        · cases h
        · split at h
          · next hsome _ => exact ⟨_, _, _, _, _, scanField_bounds (hids.trans (by rw [← hsome])), h⟩
          · cases h

/-- **A trace that is read fits its arrays.** It has `num_ops` requests; the ids it allocates or
reallocates are below `num_ids`, unless that is 0, and the last of them is `num_ids - 1`, unless that
is 0. -/
theorem readTrace_sound {text : List Char} {f : TraceFile} (h : readTrace text = .ok f) :
    (f.ops.length : Int) = f.numOps ∧ 0 ≤ f.numIds ∧
      (f.numIds ≠ 0 → ∀ op ∈ f.ops, ∀ i, op.sizedIndex? = some i → 0 ≤ i ∧ i < f.numIds) ∧
      (f.numIds ≠ 1 → ∃ op ∈ f.ops, op.sizedIndex? = some (f.numIds - 1)) := by
  obtain ⟨suggHeapsize, numIds, numOps, weight, s, ⟨hlow, hhigh⟩, hbody⟩ := readTrace_ok h
  rw [readBody] at hbody
  split at hbody
  · cases hbody
  · next hneg =>
    split at hbody
    · cases hbody
    · next r hloop =>
      have hr := (@Reading.sound_start numOps (by omega)).loop hloop
      split at hbody
      · next hassert =>
        obtain ⟨hmax, hlen⟩ := hassert
        obtain rfl := Except.ok.inj hbody
        have hlt := hr.maxIndex_lt
        refine ⟨hlen.symm, by simpa using by omega, fun hids op hop i hi => ?_, fun hids => ?_⟩
        · obtain ⟨k, hk, rfl⟩ := hr.below op hop i hi
          have hids' : numIds ≠ 0 := hids
          rw [toInt32_of_lt (by omega)]
          show 0 ≤ (k : Int) ∧ (k : Int) < numIds
          omega
        · have hids' : numIds ≠ 1 := hids
          obtain hzero | ⟨op, hop, hi⟩ := hr.reached
          · omega
          · refine ⟨op, hop, hi.trans (congrArg some ?_)⟩
            show toInt32 r.maxIndex = numIds - 1
            rw [toInt32]
            split <;> omega
      · cases hbody

/-! ## Documented traces -/

namespace Request

/-- The words of a request's line. -/
def words : Request → List (List Char)
  | .malloc index size => [['a'], Nat.toDigits 10 index, Nat.toDigits 10 size]
  | .realloc index size => [['r'], Nat.toDigits 10 index, Nat.toDigits 10 size]
  | .free index => [['f'], Nat.toDigits 10 index]

/-- The line. -/
def line (r : Request) : List Char := [' '].intercalate r.words

/-- The request as it is stored. -/
def toOp : Request → TraceOp
  | .malloc index size => .alloc index size
  | .realloc index size => .realloc index size
  | .free index => .free index

/-- Its numbers fit an `int`. -/
def InRange : Request → Prop
  | .malloc index size => index < 2 ^ 31 ∧ size < 2 ^ 31
  | .realloc index size => index < 2 ^ 31 ∧ size < 2 ^ 31
  | .free index => index < 2 ^ 31

instance (r : Request) : Decidable r.InRange :=
  match r with
  | .malloc _ _ => inferInstanceAs (Decidable (_ ∧ _))
  | .realloc _ _ => inferInstanceAs (Decidable (_ ∧ _))
  | .free _ => inferInstanceAs (Decidable (_ < _))

end Request

/-- The largest id that is allocated or reallocated, or 0. -/
def topId : List Request → Nat
  | [] => 0
  | .malloc index _ :: rest => max index (topId rest)
  | .realloc index _ :: rest => max index (topId rest)
  | .free _ :: rest => topId rest

/-- A trace as the documentation of the format has it. -/
structure Trace where
  suggHeapsize : Int
  numIds : Nat
  numOps : Nat
  weight : Int
  requests : List Request

namespace Trace

/-- The words of the file. -/
def words (t : Trace) : List (List Char) :=
  intText t.suggHeapsize :: Nat.toDigits 10 t.numIds :: Nat.toDigits 10 t.numOps ::
    intText t.weight :: t.requests.flatMap Request.words

/-- The header is four lines, then there is a line for each request. -/
def lines (t : Trace) : List (List Char) :=
  [intText t.suggHeapsize, Nat.toDigits 10 t.numIds, Nat.toDigits 10 t.numOps, intText t.weight] ++
    t.requests.map Request.line

/-- The file. -/
def text (t : Trace) : List Char := t.lines.flatMap (· ++ ['\n'])

/-- All numbers fit an `int`. -/
structure InRange (t : Trace) : Prop where
  suggHeapsize : -2 ^ 31 ≤ t.suggHeapsize ∧ t.suggHeapsize < 2 ^ 31
  numIds : t.numIds < 2 ^ 31
  numOps : t.numOps < 2 ^ 31
  weight : -2 ^ 31 ≤ t.weight ∧ t.weight < 2 ^ 31
  requests : ∀ r ∈ t.requests, r.InRange

/-- What `read_trace` makes of it. -/
def file (t : Trace) : TraceFile :=
  ⟨some t.suggHeapsize, t.numIds, t.numOps, some t.weight, t.requests.map Request.toOp⟩

end Trace

/-- The trace of the documentation. -/
def documentedTrace : Trace :=
  ⟨20000, 3, 8, 1, [.malloc 0 512, .malloc 1 128, .realloc 0 640, .malloc 2 128, .free 1,
    .realloc 0 768, .free 0, .free 2]⟩

/-- The trace of the documentation. -/
theorem readTrace_sound_documented : ∃ f, readTrace documentedTrace.text = .ok f ∧ f.numIds = 3 ∧
    ∀ op ∈ f.ops, ∀ i, op.sizedIndex? = some i → 0 ≤ i ∧ i < 3 := by
  have hread : readTrace documentedTrace.text = .ok documentedTrace.file := by decide +kernel
  exact ⟨_, hread, rfl, (readTrace_sound hread).2.2.1 (by decide)⟩

/-- The variables of the loop after a request. -/
def Reading.read (r : Reading) : Request → Reading
  | .malloc index size => ⟨index, some size, max r.maxIndex index, r.ops ++ [.alloc index size]⟩
  | .realloc index size => ⟨index, some size, max r.maxIndex index, r.ops ++ [.realloc index size]⟩
  | .free index => { r with index, ops := r.ops ++ [.free index] }

/-- The requests that are read, and the largest id. -/
theorem Reading.foldl_read (requests : List Request) (r : Reading) :
    (requests.foldl Reading.read r).ops = r.ops ++ requests.map Request.toOp ∧
      (requests.foldl Reading.read r).maxIndex = max r.maxIndex (topId requests) := by
  induction requests generalizing r with
  | nil => simp [topId]
  | cons q requests ih =>
      obtain ⟨hops, hmax⟩ := ih (r.read q)
      rw [List.foldl_cons, hops, hmax]
      cases q <;> simp [Reading.read, Request.toOp, topId, max_assoc]

/-- The largest id of requests in range is in range. -/
theorem topId_lt {requests : List Request} (h : ∀ r ∈ requests, r.InRange) : topId requests < 2 ^ 31 := by
  induction requests with
  | nil => decide
  | cons r requests ih =>
      have ih := ih fun q hq => h q (List.mem_cons_of_mem _ hq)
      have hr := h r List.mem_cons_self
      cases r with
      | malloc index size => exact max_lt hr.1 ih
      | realloc index size => exact max_lt hr.1 ih
      | free index => exact ih

/-- What is printed is words. -/
theorem Request.words_word (r : Request) : ∀ w ∈ r.words, IsWord isCSpace w := by
  have htype : ∀ c : Char, isCSpace c = false → IsWord isCSpace [c] := fun c hc =>
    ⟨List.cons_ne_nil _ _, fun d hd => List.mem_singleton.mp hd ▸ hc⟩
  cases r with
  | malloc index size => simpa [words] using ⟨htype 'a' (by decide), toDigits_word _, toDigits_word _⟩
  | realloc index size => simpa [words] using ⟨htype 'r' (by decide), toDigits_word _, toDigits_word _⟩
  | free index => simpa [words] using ⟨htype 'f' (by decide), toDigits_word _⟩

/-- The line of a request has its words. -/
theorem Request.words_line (r : Request) : Text.words isCSpace r.line = r.words :=
  words_intercalate (by decide) r.words_word

/-- The words of the file are those of the trace. -/
theorem Trace.words_text (t : Trace) : Text.words isCSpace t.text = t.words := by
  rw [Trace.text, words_flatMap (by decide), Trace.lines, List.flatMap_append, List.flatMap_map]
  simp only [Request.words_line, List.flatMap_cons, List.flatMap_nil, (intText_word _).words,
    (toDigits_word _).words]
  rfl

/-! ## Reading a documented trace -/

/-- A header field that is an `int`. -/
theorem scanField_words {s : List Char} {i : Int} {ws : List (List Char)}
    (h : Text.words isCSpace s = intText i :: ws) (hi : -2 ^ 31 ≤ i ∧ i < 2 ^ 31) :
    ∃ rest, scanField s = .ok (some i, rest) ∧ Text.words isCSpace rest = ws := by
  obtain ⟨rest, hscan, hws, -⟩ := scanInt_words h hi.1 hi.2
  exact ⟨rest, by rw [scanField, hscan], hws⟩

/-- An id and a size. -/
theorem readSized_words {s : List Char} {index size : Nat} {ws : List (List Char)}
    (h : Text.words isCSpace s = Nat.toDigits 10 index :: Nat.toDigits 10 size :: ws)
    (hindex : index < 2 ^ 31) (hsize : size < 2 ^ 31) (op : Int → Int → TraceOp) (numOps : Int)
    (r : Reading) :
    ∃ rest, Text.words isCSpace rest = ws ∧ rest.length ≤ s.length ∧
      readSized op numOps r s =
        Reading.store numOps ⟨index, some size, max r.maxIndex index, r.ops⟩ (op index size) rest := by
  obtain ⟨rest₁, hscan₁, hws₁, -, hlen₁⟩ := scanUnsigned_words h (by omega)
  obtain ⟨rest₂, hscan₂, hws₂, -, hlen₂⟩ := scanUnsigned_words hws₁ (by omega)
  have hscan : scanIndexSize r s = .ok (index, some size, rest₂) := by
    simp only [scanIndexSize, hscan₁, hscan₂]
  have hmax : (if index > r.maxIndex then index else r.maxIndex) = max r.maxIndex index := by
    split <;> omega
  refine ⟨rest₂, hws₂, by omega, ?_⟩
  simp only [readSized, hscan, hmax, toInt32_of_lt hindex, toInt32_of_lt hsize]

/-- An id, with no `d` after it. -/
theorem scanIndex_words {s : List Char} {index : Nat} {ws : List (List Char)}
    (h : Text.words isCSpace s = Nat.toDigits 10 index :: ws) (hindex : index < 2 ^ 31) (r : Reading) :
    ∃ rest, Text.words isCSpace rest = ws ∧ rest.length ≤ s.length ∧
      scanIndex r s = .ok (index, rest) := by
  obtain ⟨rest, hscan, hws, hhead, hlen⟩ := scanUnsigned_words h (by omega)
  have hd : rest.head? ≠ some 'd' := fun hd => absurd (hhead _ hd) (by decide)
  exact ⟨rest, hws, by omega, by simp only [scanIndex, hscan, if_neg hd]⟩

/-- One request of a documented trace, after its type. -/
theorem readOp_words {q : Request} {s : List Char} {ws : List (List Char)}
    (h : Text.words isCSpace s = q.words.tail ++ ws) (hq : q.InRange) (numOps : Int) (r : Reading) :
    ∃ rest, Text.words isCSpace rest = ws ∧ rest.length ≤ s.length ∧
      readOp numOps r (q.words.headD []) s =
        if r.ops.length < numOps then .ok (r.read q, rest) else .error .undefined := by
  cases q with
  | malloc index size => exact readSized_words h hq.1 hq.2 .alloc numOps r
  | realloc index size => exact readSized_words h hq.1 hq.2 .realloc numOps r
  | free index =>
      have hindex : index < 2 ^ 31 := hq
      obtain ⟨rest, hws, hlen, hscan⟩ := scanIndex_words h hindex r
      refine ⟨rest, hws, hlen, ?_⟩
      simp only [readOp, Request.words, List.headD_cons, hscan, toInt32_of_lt hindex]
      rfl

/-- **One request of a documented trace** takes one pass. -/
theorem readOps_request {q : Request} {s : List Char} {ws : List (List Char)} {n : Nat}
    (h : Text.words isCSpace s = q.words ++ ws) (hq : q.InRange) (hn : s.length ≤ n) (numOps : Int)
    (r : Reading) :
    ∃ rest m, Text.words isCSpace rest = ws ∧ rest.length ≤ m ∧
      readOps numOps n r s =
        if r.ops.length < numOps then readOps numOps m (r.read q) rest else .error .undefined := by
  have hhead : q.words.headD [] :: (q.words.tail ++ ws) = q.words ++ ws := by cases q <;> rfl
  have hshort : ¬ maxLine ≤ (q.words.headD []).length := by
    cases q <;> simp [Request.words, maxLine]
  obtain ⟨rest₁, hword, hws₁, hlen₁⟩ := scanWord_words (h.trans hhead.symm)
  obtain ⟨rest₂, hws₂, hlen₂, hop⟩ := readOp_words hws₁ hq numOps r
  obtain ⟨m, rfl⟩ : ∃ m, n = m + 1 := ⟨n - 1, by omega⟩
  refine ⟨rest₂, m, hws₂, by omega, ?_⟩
  rw [readOps, hword]
  by_cases hroom : (r.ops.length : Int) < numOps
  · simp only [if_neg hshort, hop, if_pos hroom]
  · simp only [if_neg hshort, hop, if_neg hroom]

/-- **The requests of a documented trace** are stored in order, as far as there is room. -/
theorem readOps_requests {requests : List Request} {s : List Char} {n : Nat} {numOps : Int}
    (h : Text.words isCSpace s = requests.flatMap Request.words) (hq : ∀ q ∈ requests, q.InRange)
    (hn : s.length ≤ n) {r : Reading} (hroom : (r.ops.length : Int) ≤ numOps) :
    readOps numOps n r s =
      if (r.ops.length + requests.length : Int) ≤ numOps then .ok (requests.foldl Reading.read r)
      else .error .undefined := by
  induction requests generalizing s n r with
  | nil =>
      rw [if_pos (by simpa using hroom)]
      cases n with
      | zero => rfl
      | succ n => rw [readOps, scanWord_eq_none h]; rfl
  | cons q requests ih =>
      obtain ⟨rest, m, hws, hm, hop⟩ := readOps_request h (hq q List.mem_cons_self) hn numOps r
      have hlen : (r.read q).ops.length = r.ops.length + 1 := by cases q <;> simp [Reading.read]
      rw [hop]
      split
      · next hlt =>
        rw [ih hws (fun p hp => hq p (List.mem_cons_of_mem _ hp)) hm (by rw [hlen]; omega), hlen]
        simp only [List.length_cons, List.foldl_cons]
        congr 1
        exact propext ⟨fun h => by omega, fun h => by omega⟩
      · next hge => rw [if_neg (by rw [List.length_cons]; omega)]

/-- The header of a documented trace. -/
theorem readTrace_header {t : Trace} (ht : t.InRange) {text : List Char}
    (h : Text.words isCSpace text = t.words) :
    ∃ s, Text.words isCSpace s = t.requests.flatMap Request.words ∧
      readTrace text = readBody (some t.suggHeapsize) t.numIds t.numOps (some t.weight) s := by
  have hnat : ∀ n : Nat, intText n = Nat.toDigits 10 n := fun n => rfl
  rw [Trace.words, ← hnat, ← hnat] at h
  obtain ⟨s₁, hsugg, h₁⟩ := scanField_words h ht.suggHeapsize
  obtain ⟨s₂, hids, h₂⟩ := scanField_words h₁ (by have := ht.numIds; omega)
  obtain ⟨s₃, hops, h₃⟩ := scanField_words h₂ (by have := ht.numOps; omega)
  obtain ⟨s₄, hweight, h₄⟩ := scanField_words h₃ ht.weight
  exact ⟨s₄, h₄, by simp only [readTrace, bind, Except.bind, hsugg, hids, hops, hweight]⟩

/-- The loop on a documented trace for which there is room. -/
theorem readOps_documented {t : Trace} (ht : t.InRange) {s : List Char}
    (h : Text.words isCSpace s = t.requests.flatMap Request.words)
    (hroom : t.requests.length ≤ t.numOps) :
    ∃ r, readOps t.numOps s.length .start s = .ok r ∧ r.ops = t.requests.map Request.toOp ∧
      r.maxIndex = topId t.requests := by
  have hempty : (Reading.start.ops.length : Int) ≤ t.numOps := by simp [Reading.start]
  have hloop := readOps_requests h ht.requests le_rfl hempty
  rw [if_pos (by simpa [Reading.start] using hroom)] at hloop
  obtain ⟨hops, hmax⟩ := Reading.foldl_read t.requests .start
  exact ⟨_, hloop, hops, hmax.trans (Nat.zero_max _)⟩

/-- **A documented trace with the right header is read.** -/
theorem readTrace_right {t : Trace} (ht : t.InRange) {text : List Char}
    (h : Text.words isCSpace text = t.words) (hids : t.numIds = topId t.requests + 1)
    (hops : t.numOps = t.requests.length) : readTrace text = .ok t.file := by
  obtain ⟨s, hs, hread⟩ := readTrace_header ht h
  obtain ⟨r, hloop, hreqs, hmax⟩ := readOps_documented ht hs hops.ge
  have hlt := ht.numIds
  rw [hread, readBody, if_neg (by omega), hloop]
  simp only [hreqs, hmax, List.length_map]
  rw [if_pos (by constructor <;> omega)]
  rfl

/-- **Documented traces.** Of a text with the words of a trace, `read_trace` makes the trace when its
header has the right number of requests and one id more than the largest. With too few requests it is
stopped by an assertion, and with too many it writes past the end of the array. -/
theorem readTrace_words {t : Trace} (ht : t.InRange) {text : List Char}
    (h : Text.words isCSpace text = t.words) :
    readTrace text =
      if t.numOps < t.requests.length then .error .undefined
      else if t.numIds = topId t.requests + 1 ∧ t.numOps = t.requests.length then .ok t.file
      else .error .assertion := by
  by_cases hmany : t.numOps < t.requests.length
  · obtain ⟨s, hs, hread⟩ := readTrace_header ht h
    have hempty : (Reading.start.ops.length : Int) ≤ t.numOps := by simp [Reading.start]
    have hfull : ¬ (Reading.start.ops.length + t.requests.length : Int) ≤ t.numOps := by
      simpa [Reading.start] using hmany
    rw [hread, readBody, if_neg (by omega), readOps_requests hs ht.requests le_rfl hempty,
      if_neg hfull, if_pos hmany]
  · rw [if_neg hmany]
    by_cases hok : t.numIds = topId t.requests + 1 ∧ t.numOps = t.requests.length
    · rw [if_pos hok, readTrace_right ht h hok.1 hok.2]
    · obtain ⟨s, hs, hread⟩ := readTrace_header ht h
      obtain ⟨r, hloop, hreqs, hmax⟩ := readOps_documented ht hs (not_lt.mp hmany)
      have hlt := ht.numIds
      have htop := topId_lt ht.requests
      rw [if_neg hok, hread, readBody, if_neg (by omega), hloop]
      simp only [hreqs, hmax, List.length_map]
      rw [if_neg fun hassert => hok (by constructor <;> omega)]

/-- The trace of the documentation is read as it is. -/
theorem readTrace_words_documented :
    readTrace documentedTrace.text = .ok documentedTrace.file := by
  have hrange : documentedTrace.InRange := ⟨by decide, by decide, by decide, by decide, by decide⟩
  rw [readTrace_words hrange documentedTrace.words_text]
  rfl

end MallocBench
