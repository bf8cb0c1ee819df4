import MallocBench.Harness.BumpPackage

/-! # Checking a malloc package (`eval_mm_valid`)

The driver replays a trace against the package under test. It records the extent of each payload in the
range list, fills each payload with the low byte of its id, and looks after a reallocation whether the
bytes that were kept are still the fill.

The byte read back is a `char`, which is signed, and it is compared with a number from 0 to 255. So the
check can succeed for ids with a low byte below 128 only.

* **`evalOp_malloc`**, **`evalOp_realloc`**, **`evalOp_free`**: what one request does under the malloc
  contract.
* **`evalMmValid_iff`**: the packages that honour the contract pass exactly the traces that reallocate
  such ids only. -/

namespace MallocBench

open ByteMemory

variable {σ : Type}

/-! ## The driver -/

/-- What `eval_mm_valid` works on: the process under test, the range list with the error count and the
output, and the arrays of the trace. -/
structure Evaluation (σ : Type) where
  process : Process σ
  harness : Harness
  /-- `trace->blocks`. -/
  blocks : Nat → Nat
  /-- `trace->block_sizes`. -/
  blockSizes : Nat → Nat

/-- A plain `char` as a number: it is signed. -/
def signedChar (b : UInt8) : Int := if b.toNat < 128 then b.toNat else b.toNat - 256

/-- `index & 0xFF`. -/
def lowByte (index : Nat) : Nat := index % 256

/-- `memset(p, index & 0xFF, size)`. -/
def Process.fill (s : Process σ) (p index size : Nat) : Process σ :=
  s.setMem (blit s.memlib.mem p size fun _ => UInt8.ofNat (lowByte index))

/-- The loop that compares the bytes kept with the fill. -/
def fillKept (m : Mem) (newp index oldsize : Nat) : Bool :=
  (List.range oldsize).all fun j => signedChar (m (newp + j)) = lowByte index

/-- Record a payload, fill it and remember its region. -/
def Evaluation.remember (st : Evaluation σ) (s : Process σ) (harness : Harness) (index p size : Nat) :
    Evaluation σ where
  process := s.fill p index size
  harness := harness
  blocks := Function.update st.blocks index p
  blockSizes := Function.update st.blockSizes index size

/-- The payload is filled with the low byte of its id. -/
@[simp] theorem Evaluation.remember_mem (st : Evaluation σ) (s : Process σ) (harness : Harness)
    (index p size : Nat) : (st.remember s harness index p size).process.memlib.mem =
      blit s.memlib.mem p size fun _ => UInt8.ofNat (lowByte index) := rfl

/-- One pass of the loop: 0 when the function returns 0, and 1 when it goes on. `none` is a failed
assertion. -/
def evalOp (pkg : Package σ) (tracenum i : Nat) (st : Evaluation σ) :
    Request → Option (Nat × Evaluation σ)
  | .malloc index size =>
    match pkg.mmMalloc size st.process with
    | (p, s) =>
      if p = 0 then
        some (0, { st with
          process := s
          harness := st.harness.mallocError tracenum i "mm_malloc failed." })
      else
        match st.harness.addRange s.memlib.memHeapLo s.memlib.memHeapHi p size tracenum i with
        | none => none
        | some (0, h) => some (0, { st with process := s, harness := h })
        | some (_, h) => some (1, st.remember s h index p size)
  | .realloc index size =>
    match pkg.mmRealloc (st.blocks index) size st.process with
    | (newp, s) =>
      if newp = 0 then
        some (0, { st with
          process := s
          harness := st.harness.mallocError tracenum i "mm_realloc failed." })
      else
        match (st.harness.removeRange (st.blocks index)).addRange s.memlib.memHeapLo
          s.memlib.memHeapHi newp size tracenum i with
        | none => none
        | some (0, h) => some (0, { st with process := s, harness := h })
        | some (_, h) =>
          let oldsize := if size < st.blockSizes index then size else st.blockSizes index
          if fillKept s.memlib.mem newp index oldsize then some (1, st.remember s h index newp size)
          else
            some (0, { st with
              process := s
              harness := h.mallocError tracenum i
                "mm_realloc did not preserve the data from old block" })
  | .free index =>
    some (1, { st with
      process := pkg.mmFree (st.blocks index) st.process
      harness := st.harness.removeRange (st.blocks index) })

/-- The loop over the requests, numbered from `i`. -/
def evalOps (pkg : Package σ) (tracenum : Nat) :
    Nat → Evaluation σ → List Request → Option (Nat × Evaluation σ)
  | _, st, [] => some (1, st)
  | i, st, r :: rest =>
    match evalOp pkg tracenum i st r with
    | none => none
    | some (0, st) => some (0, st)
    | some (_, st) => evalOps pkg tracenum (i + 1) st rest

/-- `eval_mm_valid`. -/
def evalMmValid (pkg : Package σ) (tracenum : Nat) (st : Evaluation σ) (ops : List Request) :
    Option (Nat × Evaluation σ) :=
  match pkg.mmInit st.process.resetBrk with
  | (r, s) =>
    let st := { st with process := s, harness := st.harness.clearRanges }
    if r < 0 then
      some (0, { st with harness := st.harness.mallocError tracenum 0 "mm_init failed." })
    else evalOps pkg tracenum 0 st ops

/-! ## The fill -/

/-- **A signed byte equals the fill** only when the fill is below 128. -/
theorem signedChar_ofNat_eq_iff (index : Nat) :
    signedChar (UInt8.ofNat (lowByte index)) = lowByte index ↔ lowByte index < 128 := by
  have hlt : lowByte index < 256 := Nat.mod_lt _ (by decide)
  have hnat : (UInt8.ofNat (lowByte index)).toNat = lowByte index := by
    rw [UInt8.toNat_ofNat']
    exact Nat.mod_eq_of_lt hlt
  rw [signedChar, hnat]
  split <;> omega

/-- The loop over bytes that hold the fill. -/
theorem fillKept_iff {m : Mem} {newp index oldsize : Nat} (hpos : 0 < oldsize)
    (hfill : ∀ k < oldsize, m (newp + k) = UInt8.ofNat (lowByte index)) :
    fillKept m newp index oldsize = true ↔ lowByte index < 128 := by
  rw [fillKept, List.all_eq_true, ← signedChar_ofNat_eq_iff]
  constructor
  · intro h
    have hfirst := h 0 (List.mem_range.mpr hpos)
    rwa [hfill 0 hpos, decide_eq_true_iff] at hfirst
  · intro h k hk
    rw [hfill k (List.mem_range.mp hk), decide_eq_true_iff]
    exact h

/-! ## One request -/

/-- The arrays and the range list describe the live payloads, each of which holds its fill. -/
structure Describes (mem : Mem) (ptrs sizes : Nat → Nat) (ranges : List Range)
    (blocks : Nat → Option Extent) : Prop where
  region : ∀ i b, blocks i = some b → ptrs i = b.ptr ∧ sizes i = b.size
  filled : ∀ i b, blocks i = some b → ∀ k < b.size, mem (b.ptr + k) = UInt8.ofNat (lowByte i)
  recorded : ∀ r ∈ ranges, ∃ i b, blocks i = some b ∧ r.addresses = b.addresses ∧ r.lo = b.ptr
  distinct : ranges.Pairwise fun r q => r.lo ≠ q.lo

/-- The driver follows a session. -/
structure Follows (pkg : Package σ) (start : Process σ) (done : List Request) (st : Evaluation σ)
    (blocks : Nat → Option Extent) : Prop where
  session : Session pkg start done st.process blocks
  describes : Describes st.process.memlib.mem st.blocks st.blockSizes st.harness.ranges blocks

/-- A call that leaves the payloads alone leaves them described. -/
theorem Describes.of_unchanged {s t : Process σ} {ptrs sizes : Nat → Nat} {ranges : List Range}
    {blocks : Nat → Option Extent} (h : Describes s.memlib.mem ptrs sizes ranges blocks)
    (hunchanged : ∀ i b, blocks i = some b → b.Unchanged s t) :
    Describes t.memlib.mem ptrs sizes ranges blocks where
  region := h.region
  filled i b hb k hk := by rw [hunchanged i b hb k hk, h.filled i b hb k hk]
  recorded := h.recorded
  distinct := h.distinct

/-- Without the record of a payload the others are described. -/
theorem Describes.remove {mem : Mem} {ptrs sizes : Nat → Nat} {h : Harness}
    {blocks : Nat → Option Extent} (hd : Describes mem ptrs sizes h.ranges blocks) {index : Nat}
    {old : Extent} (hlive : blocks index = some old) :
    Describes mem ptrs sizes (h.removeRange old.ptr).ranges (Function.update blocks index none) := by
  refine ⟨fun i b hb => hd.region i b (of_update_none hb).2,
    fun i b hb => hd.filled i b (of_update_none hb).2, ?_, ?_⟩
  · intro r hr
    obtain ⟨i, b, hb, haddr, hlo⟩ := hd.recorded r (List.eraseP_subset hr)
    have hi : i ≠ index := by
      rintro rfl
      obtain rfl := Option.some.inj (hb.symm.trans hlive)
      exact Harness.lo_ne_of_mem_removeRange hd.distinct hr hlo
    exact ⟨i, b, by rwa [Function.update_of_ne hi], haddr, hlo⟩
  · exact hd.distinct.sublist List.eraseP_sublist

section Steps

variable {pkg : Package σ} {start s : Process σ} {done : List Request} {st : Evaluation σ}
  {blocks : Nat → Option Extent} {index size p : Nat} {h : Harness} (hcontract : Contract pkg start)
  (hs : Session pkg start done s (Function.update blocks index (some ⟨p, size⟩))) (hsize : 0 < size)
  (hfresh : blocks index = none)
  (hd : Describes s.memlib.mem st.blocks st.blockSizes h.ranges blocks)

include hcontract hs hfresh

/-- The payload a session adds is apart from the others. -/
theorem disjoint_of_session {j : Nat} {b : Extent} (hb : blocks j = some b) :
    j ≠ index ∧ Disjoint (Extent.addresses ⟨p, size⟩) b.addresses := by
  have hj : j ≠ index := by
    rintro rfl
    exact absurd (hb.symm.trans hfresh) (by simp)
  exact ⟨hj, hcontract.disjoint hs index j _ b hj.symm (Function.update_self ..)
    (by rwa [Function.update_of_ne hj])⟩

include hsize hd

/-- It passes the tests of `add_range`. -/
theorem checkRange_of_session :
    checkRange h.ranges s.memlib.memHeapLo s.memlib.memHeapHi p (p + size - 1) = none := by
  have hself : Function.update blocks index (some ⟨p, size⟩) index = some ⟨p, size⟩ :=
    Function.update_self ..
  obtain ⟨hlo, hhi⟩ := hcontract.inHeap hs index _ hself
  refine (checkRange_eq_none (by omega)).mpr ⟨hcontract.aligned hs index _ hself, hlo, hhi, ?_⟩
  intro r hr
  obtain ⟨j, b, hb, haddr, -⟩ := hd.recorded r hr
  obtain ⟨-, hdisjoint⟩ := disjoint_of_session hcontract hs hfresh hb
  have hfirst : p ∈ Extent.addresses ⟨p, size⟩ := ⟨le_rfl, by simp only; omega⟩
  have hlast : p + size - 1 ∈ Extent.addresses ⟨p, size⟩ := ⟨by simp only; omega, le_rfl⟩
  rw [haddr]
  exact ⟨Set.disjoint_left.mp hdisjoint hfirst, Set.disjoint_left.mp hdisjoint hlast⟩

/-- **A payload that the contract allows is recorded and filled**, and the driver follows on. -/
theorem follows_remember (tracenum i : Nat) : ∃ h',
    h.addRange s.memlib.memHeapLo s.memlib.memHeapHi p size tracenum i = some (1, h') ∧
      Follows pkg start done (st.remember s h' index p size)
        (Function.update blocks index (some ⟨p, size⟩)) := by
  have hcheck := checkRange_of_session hcontract hs hsize hfresh hd
  refine ⟨_, Harness.addRange_of_check hsize hcheck, ?_, ?_, ?_, ?_, ?_⟩
  · exact hs.write (Function.update_self ..) _
  · intro j b hb
    obtain ⟨rfl, rfl⟩ | ⟨hj, hb⟩ := of_update_some hb
    · simp [Evaluation.remember]
    · simpa [Evaluation.remember, Function.update_of_ne hj] using hd.region j b hb
  · intro j b hb k hk
    rw [Evaluation.remember_mem]
    obtain ⟨rfl, rfl⟩ | ⟨-, hb⟩ := of_update_some hb
    · exact blit_apply_add _ _ _ _ hk
    · -- the fill stays inside the new payload
      obtain ⟨-, hdisjoint⟩ := disjoint_of_session hcontract hs hfresh hb
      have hmem : b.ptr + k ∈ b.addresses := ⟨Nat.le_add_right _ _, by omega⟩
      have hout := Set.disjoint_right.mp hdisjoint hmem
      simp only [Extent.addresses, Set.mem_Icc] at hout
      rw [blit_apply_of_notMem _ _ _ _ (by omega)]
      exact hd.filled j b hb k hk
  · intro r hr
    rcases List.mem_cons.mp hr with rfl | hr
    · exact ⟨index, _, Function.update_self .., rfl, rfl⟩
    · obtain ⟨j, b, hb, hrest⟩ := hd.recorded r hr
      have hj := (disjoint_of_session hcontract hs hfresh hb).1
      exact ⟨j, b, by rwa [Function.update_of_ne hj], hrest⟩
  · refine List.pairwise_cons.mpr ⟨fun r hr hlo => ?_, hd.distinct⟩
    obtain ⟨j, b, hb, haddr, -⟩ := hd.recorded r hr
    have hdisjoint := (disjoint_of_session hcontract hs hfresh hb).2
    have hfirst : p ∈ Extent.addresses ⟨p, size⟩ := ⟨le_rfl, by simp only; omega⟩
    refine Set.disjoint_left.mp hdisjoint hfirst ?_
    rw [← haddr]
    exact ⟨hlo.ge, hlo.trans_le r.lo_le_hi⟩

end Steps

section Requests

variable {pkg : Package σ} {start : Process σ} {done : List Request} {st : Evaluation σ}
  {blocks : Nat → Option Extent} (hcontract : Contract pkg start)
  (hf : Follows pkg start done st blocks) {index size : Nat} (tracenum i : Nat)

include hcontract hf

/-- **An allocation goes through.** -/
theorem evalOp_malloc (hfresh : blocks index = none) (hsize : 0 < size)
    (hnull : (pkg.mmMalloc size st.process).1 ≠ 0) :
    ∃ st' b, evalOp pkg tracenum i st (.malloc index size) = some (1, st') ∧
      Follows pkg start (done ++ [.malloc index size]) st' (Function.update blocks index (some b)) := by
  obtain ⟨p, s, hcall⟩ : ∃ p s, pkg.mmMalloc size st.process = (p, s) := ⟨_, _, rfl⟩
  rw [hcall] at hnull
  have hd := hf.describes.of_unchanged
    (hcontract.malloc_untouched hf.session size p s hsize hcall hnull)
  obtain ⟨h', hadd, hfollows⟩ := follows_remember hcontract
    (hf.session.malloc hfresh hsize hcall hnull) hsize hfresh hd tracenum i
  refine ⟨_, _, ?_, hfollows⟩
  simp only [evalOp, hcall, if_neg hnull, hadd]

/-- **A reallocation goes through for a low byte below 128**, and is rejected for another one. -/
theorem evalOp_realloc {old : Extent} (hlive : blocks index = some old) (hsize : 0 < size)
    (hnull : (pkg.mmRealloc old.ptr size st.process).1 ≠ 0) :
    ∃ st' b, evalOp pkg tracenum i st (.realloc index size) =
        some (if lowByte index < 128 then 1 else 0, st') ∧
      (lowByte index < 128 → Follows pkg start (done ++ [.realloc index size]) st'
        (Function.update blocks index (some b))) := by
  obtain ⟨p, s, hcall⟩ : ∃ p s, pkg.mmRealloc old.ptr size st.process = (p, s) := ⟨_, _, rfl⟩
  rw [hcall] at hnull
  obtain ⟨hptr, holdsize⟩ := hf.describes.region index old hlive
  have hd := (hf.describes.remove hlive).of_unchanged fun j b hb =>
    hcontract.realloc_untouched hf.session index old size p s hlive hsize hcall hnull j b
      (of_update_none hb).1 (of_update_none hb).2
  have hs := hf.session.realloc hlive hsize hcall hnull
  have hidem : Function.update (Function.update blocks index none) index (some ⟨p, size⟩) =
      Function.update blocks index (some ⟨p, size⟩) := Function.update_idem ..
  rw [← hidem] at hs
  obtain ⟨h', hadd, hfollows⟩ := follows_remember hcontract hs hsize (Function.update_self ..) hd
    tracenum i
  rw [hidem] at hfollows
  -- the bytes kept hold the fill
  have hkept : fillKept s.memlib.mem p index (if size < old.size then size else old.size) = true ↔
      lowByte index < 128 := by
    have hold := hf.session.size_pos index old hlive
    have hmin : (if size < old.size then size else old.size) = min old.size size := by
      split <;> omega
    rw [hmin]
    refine fillKept_iff (by omega) fun k hk => ?_
    rw [hcontract.realloc_preserves hf.session index old size p s hlive hsize hcall hnull k hk]
    exact hf.describes.filled index old hlive k (by omega)
  simp only [evalOp, hptr, hcall, if_neg hnull, hadd, holdsize, hkept]
  split
  · exact ⟨_, _, rfl, fun _ => hfollows⟩
  · next hhigh => exact ⟨_, ⟨p, size⟩, rfl, fun hlow => absurd hlow hhigh⟩

/-- **A release goes through.** -/
theorem evalOp_free {old : Extent} (hlive : blocks index = some old) :
    ∃ st', evalOp pkg tracenum i st (.free index) = some (1, st') ∧
      Follows pkg start (done ++ [.free index]) st' (Function.update blocks index none) := by
  have hptr := (hf.describes.region index old hlive).1
  have hd := (hf.describes.remove hlive).of_unchanged fun j b hb =>
    hcontract.free_untouched hf.session index old hlive j b (of_update_none hb).1 (of_update_none hb).2
  refine ⟨_, rfl, ?_, ?_⟩
  · rw [hptr]
    exact hf.session.free hlive
  · rw [hptr]
    exact hd

end Requests

/-! ## Whole traces -/

/-- A request that goes through is followed by the others. -/
theorem evalOps_cons {pkg : Package σ} {tracenum i : Nat} {st st' : Evaluation σ} {r : Request}
    (h : evalOp pkg tracenum i st r = some (1, st')) (rest : List Request) :
    evalOps pkg tracenum i st (r :: rest) = evalOps pkg tracenum (i + 1) st' rest := by
  rw [evalOps, h]
  rfl

/-- An id comes to the live ones. -/
theorem mem_insert_iff_update {live : Finset Nat} {blocks : Nat → Option Extent}
    (hlive : ∀ i, i ∈ live ↔ blocks i ≠ none) (index : Nat) (b : Extent) (i : Nat) :
    i ∈ insert index live ↔ Function.update blocks index (some b) i ≠ none := by
  rw [Finset.mem_insert, hlive]
  by_cases hi : i = index
  · subst hi
    simp
  · rw [Function.update_of_ne hi, or_iff_right hi]

/-- An id leaves the live ones. -/
theorem mem_erase_iff_update {live : Finset Nat} {blocks : Nat → Option Extent}
    (hlive : ∀ i, i ∈ live ↔ blocks i ≠ none) (index i : Nat) :
    i ∈ live.erase index ↔ Function.update blocks index none i ≠ none := by
  rw [Finset.mem_erase, hlive]
  by_cases hi : i = index
  · subst hi
    simp
  · rw [Function.update_of_ne hi, and_iff_right hi]

/-- The loop over the requests that are left. -/
theorem evalOps_iff {pkg : Package σ} {start : Process σ} (hcontract : Contract pkg start)
    {done rest : List Request} (hnull : NeverNull pkg start (done ++ rest)) {st : Evaluation σ}
    {blocks : Nat → Option Extent} (hf : Follows pkg start done st blocks) {live : Finset Nat}
    (hlive : ∀ i, i ∈ live ↔ blocks i ≠ none) (hlegal : LegalRequests live rest) (tracenum i : Nat) :
    (∃ st', evalOps pkg tracenum i st rest = some (1, st')) ↔
      ∀ index size, .realloc index size ∈ rest → lowByte index < 128 := by
  induction rest generalizing done st blocks live i with
  | nil => exact iff_of_true ⟨st, rfl⟩ fun index size h => absurd h List.not_mem_nil
  | cons r rest ih =>
      have hprefix : done ++ [r] <+: done ++ r :: rest := ⟨rest, by simp⟩
      have hrest : done ++ r :: rest = done ++ [r] ++ rest := by simp
      cases r with
      | malloc index size =>
          obtain ⟨hfresh, hsize, hlegal⟩ := hlegal
          obtain ⟨st', b, hop, hf'⟩ := evalOp_malloc hcontract hf tracenum i
            (not_not.mp (mt (hlive index).mpr hfresh)) hsize (hnull.malloc hf.session _ _ hprefix)
          rw [evalOps_cons hop, ih (hrest ▸ hnull) hf' (mem_insert_iff_update hlive index b) hlegal]
          simp
      | realloc index size =>
          obtain ⟨hmem, hsize, hlegal⟩ := hlegal
          obtain ⟨old, hold⟩ := Option.ne_none_iff_exists'.mp ((hlive index).mp hmem)
          obtain ⟨st', b, hop, hf'⟩ := evalOp_realloc hcontract hf tracenum i hold hsize
            (hnull.realloc hf.session _ _ _ hprefix hold)
          by_cases hlow : lowByte index < 128
          · rw [if_pos hlow] at hop
            have hlive' := mem_insert_iff_update hlive index b
            rw [Finset.insert_eq_of_mem hmem] at hlive'
            rw [evalOps_cons hop, ih (hrest ▸ hnull) (hf' hlow) hlive' hlegal]
            refine ⟨fun h j n hj => ?_, fun h j n hj => h j n (List.mem_cons_of_mem _ hj)⟩
            rcases List.mem_cons.mp hj with heq | hj
            · obtain ⟨rfl, rfl⟩ := Request.realloc.inj heq
              exact hlow
            · exact h j n hj
          · -- the function returns here
            rw [if_neg hlow] at hop
            refine iff_of_false ?_ fun h => hlow (h index size List.mem_cons_self)
            rw [evalOps, hop]
            simp
      | free index =>
          obtain ⟨hmem, hlegal⟩ := hlegal
          obtain ⟨old, hold⟩ := Option.ne_none_iff_exists'.mp ((hlive index).mp hmem)
          obtain ⟨st', hop, hf'⟩ := evalOp_free hcontract hf tracenum i hold
          rw [evalOps_cons hop, ih (hrest ▸ hnull) hf' (mem_erase_iff_update hlive index) hlegal]
          simp

/-- **The harness raises no false alarm**, exactly when it reallocates ids with a low byte below 128
only. -/
theorem evalMmValid_iff {pkg : Package σ} {st : Evaluation σ}
    (hcontract : Contract pkg st.process) {requests : List Request}
    (hlegal : LegalRequests ∅ requests) (hnull : NeverNull pkg st.process requests)
    (tracenum : Nat) :
    (∃ st', evalMmValid pkg tracenum st requests = some (1, st')) ↔
      ∀ index size, .realloc index size ∈ requests → lowByte index < 128 := by
  have hinit : ¬ (pkg.mmInit st.process.resetBrk).1 < 0 := not_lt.mpr hcontract.init
  have hloop : evalMmValid pkg tracenum st requests = evalOps pkg tracenum 0
      { st with
        process := (pkg.mmInit st.process.resetBrk).2
        harness := st.harness.clearRanges } requests := if_neg hinit
  rw [hloop]
  have hnull' : NeverNull pkg st.process ([] ++ requests) := hnull
  refine evalOps_iff hcontract hnull' ⟨Session.init, ?_⟩ (by simp) hlegal tracenum 0
  exact ⟨by simp, by simp, by simp [Harness.clearRanges], List.Pairwise.nil⟩

/-- The driver before a trace, with the simplest package and the heap at 1024. -/
def bumpEvaluation : Evaluation Unit where
  process := ⟨(), Memlib.memInit (fun _ => 0) 1024⟩
  harness := Harness.start 0 ""
  blocks _ := 0
  blockSizes _ := 0

/-- Id 0, as in the traces of the driver. -/
theorem evalMmValid_iff_zero :
    (∃ st', evalMmValid bumpPackage 0 bumpEvaluation [.malloc 0 8, .realloc 0 16, .free 0] =
      some (1, st')) ↔
    ∀ index size, .realloc index size ∈ [Request.malloc 0 8, .realloc 0 16, .free 0] →
      lowByte index < 128 :=
  evalMmValid_iff (bumpPackage_contract _) (by simp [LegalRequests])
    (bumpPackage_neverNull (by decide) (by decide)) 0

/-- Id 128 is rejected though the package honours the contract. -/
theorem evalMmValid_false_alarm :
    Contract bumpPackage bumpEvaluation.process ∧
      LegalRequests ∅ [.malloc 128 8, .realloc 128 16] ∧
      NeverNull bumpPackage bumpEvaluation.process [.malloc 128 8, .realloc 128 16] ∧
      ¬ ∃ st', evalMmValid bumpPackage 0 bumpEvaluation [.malloc 128 8, .realloc 128 16] =
        some (1, st') := by
  have hzero : (evalMmValid bumpPackage 0 bumpEvaluation [.malloc 128 8, .realloc 128 16]).map
      Prod.fst = some 0 := by decide +kernel
  refine ⟨bumpPackage_contract _, by simp [LegalRequests],
    bumpPackage_neverNull (by decide) (by decide), ?_⟩
  rintro ⟨st', h⟩
  rw [h] at hzero
  simp at hzero

end MallocBench
