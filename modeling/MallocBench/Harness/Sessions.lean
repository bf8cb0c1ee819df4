import MallocBench.Allocator.Replay
import MallocBench.Harness.RangeList
import Mathlib.Data.Finset.Erase
import Mathlib.Data.Finset.Insert

/-! # Sessions with a malloc package

A malloc package is its four functions, on variables of its own and the memory system. A session is what
a client may do with it: requests, and writes inside the live payloads. `Contract` says what the client
is promised in every session, whatever the package does inside.

The promises are relative to the state of the memory system in which the session starts, and say nothing
after a request that is answered with null: no package serves every request from a bounded heap. -/

namespace MallocBench

open ByteMemory

/-- The process: the variables of the malloc package and the memory system. -/
structure Process (σ : Type) where
  globals : σ
  memlib : Memlib

/-- A malloc package. A null pointer is 0. -/
structure Package (σ : Type) where
  mmInit : Process σ → Int × Process σ
  mmMalloc : Nat → Process σ → Nat × Process σ
  mmRealloc : Nat → Nat → Process σ → Nat × Process σ
  mmFree : Nat → Process σ → Process σ

/-- Where a payload is. -/
structure Extent where
  ptr : Nat
  size : Nat

/-- The addresses of a payload. -/
def Extent.addresses (b : Extent) : Set Nat := Set.Icc b.ptr (b.ptr + b.size - 1)

section Sessions

variable {σ : Type}

/-- The process with other bytes in its memory. -/
def Process.setMem (s : Process σ) (m : Mem) : Process σ :=
  { s with memlib := { s.memlib with mem := m } }

/-- The process with an empty heap. -/
def Process.resetBrk (s : Process σ) : Process σ := { s with memlib := s.memlib.memResetBrk }

/-- The memory that has been set. -/
@[simp] theorem Process.setMem_mem (s : Process σ) (m : Mem) : (s.setMem m).memlib.mem = m := rfl

/-- The payload has the same bytes in both states. -/
def Extent.Unchanged (b : Extent) (s t : Process σ) : Prop :=
  ∀ k < b.size, t.memlib.mem (b.ptr + k) = s.memlib.mem (b.ptr + k)

/-- The sessions: the requests made so far, the state of the process, and the live payloads under the
ids the client gave them. -/
inductive Session (pkg : Package σ) (start : Process σ) :
    List Request → Process σ → (Nat → Option Extent) → Prop
  | init : Session pkg start [] (pkg.mmInit start.resetBrk).2 fun _ => none
  | malloc {done : List Request} {s t : Process σ} {blocks : Nat → Option Extent} {index size p : Nat}
      (hs : Session pkg start done s blocks) (hfresh : blocks index = none) (hsize : 0 < size)
      (hcall : pkg.mmMalloc size s = (p, t)) (hp : p ≠ 0) :
      Session pkg start (done ++ [.malloc index size]) t
        (Function.update blocks index (some ⟨p, size⟩))
  | realloc {done : List Request} {s t : Process σ} {blocks : Nat → Option Extent}
      {index size p : Nat} {old : Extent} (hs : Session pkg start done s blocks)
      (hlive : blocks index = some old) (hsize : 0 < size)
      (hcall : pkg.mmRealloc old.ptr size s = (p, t)) (hp : p ≠ 0) :
      Session pkg start (done ++ [.realloc index size]) t
        (Function.update blocks index (some ⟨p, size⟩))
  | free {done : List Request} {s : Process σ} {blocks : Nat → Option Extent} {index : Nat}
      {old : Extent} (hs : Session pkg start done s blocks) (hlive : blocks index = some old) :
      Session pkg start (done ++ [.free index]) (pkg.mmFree old.ptr s)
        (Function.update blocks index none)
  | write {done : List Request} {s : Process σ} {blocks : Nat → Option Extent} {index : Nat}
      {b : Extent} (hs : Session pkg start done s blocks) (hlive : blocks index = some b)
      (bytes : Nat → UInt8) :
      Session pkg start done (s.setMem (blit s.memlib.mem b.ptr b.size bytes)) blocks

/-- **The malloc contract.** In every session the live payloads are aligned, in the heap and disjoint; a
call leaves the bytes of the other payloads, and `mm_realloc` carries those that fit over. -/
structure Contract (pkg : Package σ) (start : Process σ) : Prop where
  init : 0 ≤ (pkg.mmInit start.resetBrk).1
  aligned {done s blocks} (hs : Session pkg start done s blocks) :
    ∀ i b, blocks i = some b → alignment ∣ b.ptr
  inHeap {done s blocks} (hs : Session pkg start done s blocks) :
    ∀ i b, blocks i = some b → s.memlib.memHeapLo ≤ b.ptr ∧ b.ptr + b.size - 1 ≤ s.memlib.memHeapHi
  disjoint {done s blocks} (hs : Session pkg start done s blocks) :
    ∀ i j a b, i ≠ j → blocks i = some a → blocks j = some b → Disjoint a.addresses b.addresses
  malloc_untouched {done s blocks} (hs : Session pkg start done s blocks) :
    ∀ size p t, 0 < size → pkg.mmMalloc size s = (p, t) → p ≠ 0 →
      ∀ i b, blocks i = some b → b.Unchanged s t
  realloc_untouched {done s blocks} (hs : Session pkg start done s blocks) :
    ∀ i old size p t, blocks i = some old → 0 < size → pkg.mmRealloc old.ptr size s = (p, t) → p ≠ 0 →
      ∀ j b, j ≠ i → blocks j = some b → b.Unchanged s t
  realloc_preserves {done s blocks} (hs : Session pkg start done s blocks) :
    ∀ i old size p t, blocks i = some old → 0 < size → pkg.mmRealloc old.ptr size s = (p, t) → p ≠ 0 →
      ∀ k < min old.size size, t.memlib.mem (p + k) = s.memlib.mem (old.ptr + k)
  free_untouched {done s blocks} (hs : Session pkg start done s blocks) :
    ∀ i old, blocks i = some old → ∀ j b, j ≠ i → blocks j = some b →
      b.Unchanged s (pkg.mmFree old.ptr s)

/-- No session that makes these requests gets a null pointer for one of them. -/
structure NeverNull (pkg : Package σ) (start : Process σ) (requests : List Request) : Prop where
  malloc {done s blocks} (hs : Session pkg start done s blocks) :
    ∀ index size, done ++ [.malloc index size] <+: requests → (pkg.mmMalloc size s).1 ≠ 0
  realloc {done s blocks} (hs : Session pkg start done s blocks) :
    ∀ index size old, done ++ [.realloc index size] <+: requests → blocks index = some old →
      (pkg.mmRealloc old.ptr size s).1 ≠ 0

/-- The requests name live ids and have positive sizes, when these ids are live. -/
def LegalRequests (live : Finset Nat) : List Request → Prop
  | [] => True
  | .malloc index size :: rest => index ∉ live ∧ 0 < size ∧ LegalRequests (insert index live) rest
  | .realloc index size :: rest => index ∈ live ∧ 0 < size ∧ LegalRequests live rest
  | .free index :: rest => index ∈ live ∧ LegalRequests (live.erase index) rest

/-- The payloads with one under an id: this one, or one that is under another id. -/
theorem of_update_some {blocks : Nat → Option Extent} {index i : Nat} {new b : Extent}
    (hb : Function.update blocks index (some new) i = some b) :
    i = index ∧ b = new ∨ i ≠ index ∧ blocks i = some b := by
  by_cases hi : i = index
  · subst hi
    rw [Function.update_self] at hb
    exact .inl ⟨rfl, (Option.some.inj hb).symm⟩
  · rw [Function.update_of_ne hi] at hb
    exact .inr ⟨hi, hb⟩

/-- The payloads left without the one of an id. -/
theorem of_update_none {blocks : Nat → Option Extent} {index i : Nat} {b : Extent}
    (hb : Function.update blocks index none i = some b) : i ≠ index ∧ blocks i = some b := by
  have hi : i ≠ index := by
    rintro rfl
    exact absurd hb (by simp)
  exact ⟨hi, by rwa [Function.update_of_ne hi] at hb⟩

/-- Live payloads have positive sizes. -/
theorem Session.size_pos {pkg : Package σ} {start s : Process σ} {done : List Request}
    {blocks : Nat → Option Extent} (hs : Session pkg start done s blocks) :
    ∀ i b, blocks i = some b → 0 < b.size := by
  have hupdate {blocks : Nat → Option Extent} (h : ∀ i b, blocks i = some b → 0 < b.size) (j p : Nat)
      {size : Nat} (hsize : 0 < size) :
      ∀ i b, Function.update blocks j (some ⟨p, size⟩) i = some b → 0 < b.size := by
    intro i b hb
    obtain ⟨-, rfl⟩ | ⟨-, hb⟩ := of_update_some hb
    · exact hsize
    · exact h i b hb
  induction hs with
  | init => exact fun i b hb => absurd hb (by simp)
  | malloc _ _ hsize _ _ ih => exact hupdate ih _ _ hsize
  | realloc _ _ hsize _ _ ih => exact hupdate ih _ _ hsize
  | free _ _ ih => exact fun i b hb => ih i b (of_update_none hb).2
  | write _ _ _ ih => exact ih

end Sessions

end MallocBench
