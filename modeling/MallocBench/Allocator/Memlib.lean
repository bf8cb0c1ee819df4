import MallocBench.Memory.ByteMemory

/-! # The simulated memory system (`memlib.c`)

The driver gives the allocator a heap of `MAX_HEAP` bytes inside one `malloc`ed array. `Memlib` is
that array with its break pointer; the bytes themselves are the whole memory of the process, of
which the array is a part. That the break stays inside the array is carried by two fields, so
no value of the type has it elsewhere. -/

namespace MallocBench

open ByteMemory

/-- `MAX_HEAP` of `config.h`. -/
def maxHeap : Nat := 20 * (1 <<< 20)

/-- `MAX_HEAP`, in numbers. -/
@[simp] theorem maxHeap_eq : maxHeap = 20971520 := rfl

/-- The private variables of `memlib.c` and the memory they point into. -/
structure Memlib where
  /-- The memory of the process. -/
  mem : Mem
  /-- `mem_start_brk`: the first byte of the heap. -/
  memStartBrk : Nat
  /-- `mem_brk`: one past the last byte of the heap. -/
  memBrk : Nat
  /-- `mem_max_addr`: one past the last legal heap address. -/
  memMaxAddr : Nat
  start_le_brk : memStartBrk ≤ memBrk
  brk_le_max : memBrk ≤ memMaxAddr
  max_eq : memMaxAddr = memStartBrk + maxHeap

namespace Memlib

/-- `mem_init`, with the array at `base` and whatever bytes the memory holds. -/
def memInit (mem : Mem) (base : Nat) : Memlib :=
  ⟨mem, base, base, base + maxHeap, le_rfl, Nat.le_add_right _ _, rfl⟩

/-- `mem_reset_brk`: an empty heap over the memory as it stands. -/
def memResetBrk (s : Memlib) : Memlib :=
  { s with
    memBrk := s.memStartBrk
    start_le_brk := le_rfl
    brk_le_max := le_trans s.start_le_brk s.brk_le_max }

/-- `mem_sbrk`: the old break and the memory system with the break raised by `incr`, or `none` for
the error value `(void *)-1`, with nothing changed. The message printed on the error is left out. -/
def memSbrk (s : Memlib) (incr : Int) : Option (Nat × Memlib) :=
  if h : incr < 0 ∨ s.memMaxAddr < s.memBrk + incr.toNat then none
  else
    some (s.memBrk,
      { s with
        memBrk := s.memBrk + incr.toNat
        start_le_brk := le_trans s.start_le_brk (Nat.le_add_right _ _)
        brk_le_max := by omega })

/-- `mem_heap_lo`: the address of the first heap byte. -/
def memHeapLo (s : Memlib) : Nat := s.memStartBrk

/-- `mem_heap_hi`: the address of the last heap byte. -/
def memHeapHi (s : Memlib) : Nat := s.memBrk - 1

/-- `mem_heapsize`: the heap size in bytes. -/
def memHeapsize (s : Memlib) : Nat := s.memBrk - s.memStartBrk

/-- `mem_reset_brk` leaves the memory. -/
@[simp] theorem memResetBrk_mem (s : Memlib) : s.memResetBrk.mem = s.mem := rfl

/-- It leaves the start of the heap. -/
@[simp] theorem memResetBrk_memStartBrk (s : Memlib) :
    s.memResetBrk.memStartBrk = s.memStartBrk := rfl

/-- It sets the break to the start. -/
@[simp] theorem memResetBrk_memBrk (s : Memlib) : s.memResetBrk.memBrk = s.memStartBrk := rfl

/-- **`mem_sbrk` refuses** exactly a negative increment and one that does not fit below the end of
the array. -/
theorem memSbrk_eq_none {s : Memlib} {incr : Int} :
    s.memSbrk incr = none ↔ incr < 0 ∨ s.memMaxAddr < s.memBrk + incr.toNat := by
  rw [memSbrk]
  split <;> simp_all

/-- **What `mem_sbrk` grants**: the old break, with the new one `incr` bytes higher and nothing else
changed. -/
theorem memSbrk_natCast {s : Memlib} {n : Nat} (h : s.memBrk + n ≤ s.memMaxAddr) :
    ∃ s', s.memSbrk n = some (s.memBrk, s') ∧ s'.mem = s.mem ∧
      s'.memStartBrk = s.memStartBrk ∧ s'.memBrk = s.memBrk + n := by
  have hn : ¬ ((n : Int) < 0 ∨ s.memMaxAddr < s.memBrk + (n : Int).toNat) := by omega
  rw [memSbrk, dif_neg hn]
  exact ⟨_, rfl, rfl, rfl, by simp⟩

/-- `mem_sbrk` never moves the start of the heap. -/
theorem memSbrk_memStartBrk {s s' : Memlib} {incr : Int} {p : Nat}
    (h : s.memSbrk incr = some (p, s')) : s'.memStartBrk = s.memStartBrk := by
  rw [memSbrk] at h
  split at h
  · simp at h
  · obtain ⟨-, rfl⟩ := Prod.mk.inj (Option.some.inj h)
    rfl

/-- `mem_sbrk` moves the break upwards only. -/
theorem memSbrk_memBrk_le {s s' : Memlib} {incr : Int} {p : Nat}
    (h : s.memSbrk incr = some (p, s')) : s.memBrk ≤ s'.memBrk := by
  rw [memSbrk] at h
  split at h
  · simp at h
  · obtain ⟨-, rfl⟩ := Prod.mk.inj (Option.some.inj h)
    exact Nat.le_add_right _ _

end Memlib

end MallocBench
