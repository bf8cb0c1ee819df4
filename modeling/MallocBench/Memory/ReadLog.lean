import MallocBench.Memory.ByteMemory
import Mathlib.Data.Set.Defs
import Mathlib.Control.Monad.Basic

/-! # Computations that log what they read

A computation over a byte memory that keeps a log of the addresses it reads. `load` reads a number
and logs its bytes. `Returns m f a s` says of a computation `f` started in memory `m` what a caller
wants to know at once: it gives the value `a`, leaves the memory as it is, and reads no address
outside the set `s`. The rules for `pure`, `load` and `>>=` follow the syntax of a `do` block. -/

namespace MallocBench.ByteMemory

/-- A memory and the addresses read from it so far. -/
structure ReadState where
  /-- The memory. -/
  mem : Mem
  /-- The addresses read, in the order of the reads. -/
  reads : List Nat

/-- Computations over a memory whose reads are logged. -/
abbrev ReadM := StateM ReadState

/-- The little-endian number in the `n` bytes from `p`, with those bytes logged. -/
def load (p n : Nat) : ReadM Nat := fun s =>
  (loadLE s.mem p n, { s with reads := s.reads ++ List.range' p n })

section Returns

variable {α β : Type} {m : Mem} {f : ReadM α} {a : α} {b : β} {s t : Set Nat}

/-- Started in memory `m`, the computation `f` gives `a`, changes no byte and reads only addresses
in `s`. -/
def Returns (m : Mem) (f : ReadM α) (a : α) (s : Set Nat) : Prop :=
  ∀ log, ∃ addresses, f.run ⟨m, log⟩ = (a, ⟨m, log ++ addresses⟩) ∧ ∀ x ∈ addresses, x ∈ s

/-- What reads nothing reads within every set. -/
theorem Returns.pure (m : Mem) (a : α) (s : Set Nat) : Returns m (pure a) a s :=
  fun log => ⟨[], by rw [List.append_nil]; rfl, by simp⟩

/-- A load reads its own bytes. -/
theorem Returns.load {p n : Nat} (h : ∀ x, p ≤ x → x < p + n → x ∈ s) :
    Returns m (load p n) (loadLE m p n) s := by
  intro log
  refine ⟨List.range' p n, rfl, ?_⟩
  intro x hx
  obtain ⟨hlo, hhi⟩ := List.mem_range'_1.mp hx
  exact h x hlo hhi

/-- **Two computations in a row** read what the one or the other reads. -/
theorem Returns.bind {g : α → ReadM β} (hf : Returns m f a s) (hg : Returns m (g a) b s) :
    Returns m (f >>= g) b s := by
  intro log
  obtain ⟨xs, hrun, hxs⟩ := hf log
  obtain ⟨ys, hrun', hys⟩ := hg (log ++ xs)
  refine ⟨xs ++ ys, ?_, fun x hx => (List.mem_append.mp hx).elim (hxs x) (hys x)⟩
  rw [StateT.run_bind, hrun]
  show (g a).run ⟨m, log ++ xs⟩ = _
  rw [hrun', List.append_assoc]

/-- A computation gives one value. -/
theorem Returns.unique {a' : α} (h : Returns m f a s) (h' : Returns m f a' t) : a = a' := by
  obtain ⟨xs, hrun, -⟩ := h []
  obtain ⟨ys, hrun', -⟩ := h' []
  rw [hrun] at hrun'
  exact congrArg Prod.fst hrun'

/-- The set of addresses may be enlarged. -/
theorem Returns.mono (hf : Returns m f a s) (hst : ∀ x ∈ s, x ∈ t) : Returns m f a t := by
  intro log
  obtain ⟨xs, hrun, hxs⟩ := hf log
  exact ⟨xs, hrun, fun x hx => hst x (hxs x hx)⟩

end Returns

end MallocBench.ByteMemory
