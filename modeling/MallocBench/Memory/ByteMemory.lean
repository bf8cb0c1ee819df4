import Mathlib.Logic.Function.Basic
import Mathlib.Data.Nat.Init
import Mathlib.Tactic.Ring

/-! # Byte-addressed memory with little-endian words

A memory assigns one byte to every address. Numbers of `n` bytes are read and written
little-endian by `loadLE` and `storeLE`, and ranges are overwritten by `blit`, of which copying
and filling are the two instances. The lemmas are the usual read-over-write and frame laws: a
read sees the last overlapping write, a write leaves every byte outside its range alone, and a
read depends only on the bytes of its own range. -/

namespace MallocBench.ByteMemory

/-- A memory: one byte at every address. -/
abbrev Mem := Nat → UInt8

/-- The little-endian number in the `n` bytes from `a`. -/
def loadLE (m : Mem) : Nat → Nat → Nat
  | _, 0 => 0
  | a, n + 1 => (m a).toNat + 256 * loadLE m (a + 1) n

/-- Write the low `n` bytes of `v` little-endian from `a` on. -/
def storeLE (m : Mem) : Nat → Nat → Nat → Mem
  | _, _, 0 => m
  | a, v, n + 1 => Function.update (storeLE m (a + 1) (v / 256) n) a (UInt8.ofNat v)

/-! ## Stores -/

/-- **Frame of a store**: bytes outside `[a, a + n)` keep their value. -/
theorem storeLE_apply_of_notMem (m : Mem) (a v n x : Nat) (h : x < a ∨ a + n ≤ x) :
    storeLE m a v n x = m x := by
  induction n generalizing a v with
  | zero => rfl
  | succ n ih =>
      rw [storeLE, Function.update_of_ne (by omega)]
      exact ih (a + 1) (v / 256) (by omega)

/-! ## Loads -/

/-- A load of `n` bytes is a number below `256 ^ n`. -/
theorem loadLE_lt (m : Mem) (a n : Nat) : loadLE m a n < 256 ^ n := by
  induction n generalizing a with
  | zero => simp [loadLE]
  | succ n ih =>
      have hb : (m a).toNat < 256 := (m a).toNat_lt
      have hr := ih (a + 1)
      rw [loadLE, pow_succ]
      omega

/-- A load depends only on the bytes of its range. -/
theorem loadLE_congr {m m' : Mem} {a n : Nat} (h : ∀ x, a ≤ x → x < a + n → m' x = m x) :
    loadLE m' a n = loadLE m a n := by
  induction n generalizing a with
  | zero => rfl
  | succ n ih =>
      rw [loadLE, loadLE, h a le_rfl (by omega),
        ih fun x hx hx' => h x (by omega) (by omega)]

/-- A long load is its low part plus its high part shifted. -/
theorem loadLE_add (m : Mem) (a k n : Nat) :
    loadLE m a (k + n) = loadLE m a k + 256 ^ k * loadLE m (a + k) n := by
  induction k generalizing a with
  | zero => simp [loadLE]
  | succ k ih =>
      rw [show k + 1 + n = k + n + 1 by omega, loadLE, loadLE, ih (a + 1),
        show a + 1 + k = a + (k + 1) by omega]
      ring

/-- **Read over write, same range**: the stored number comes back modulo its width. -/
theorem loadLE_storeLE_same (m : Mem) (a v n : Nat) :
    loadLE (storeLE m a v n) a n = v % 256 ^ n := by
  induction n generalizing a v with
  | zero => simp [loadLE, Nat.mod_one]
  | succ n ih =>
      have hrest : loadLE (storeLE m a v (n + 1)) (a + 1) n
          = loadLE (storeLE m (a + 1) (v / 256) n) (a + 1) n :=
        loadLE_congr fun x hx _ => by rw [storeLE, Function.update_of_ne (by omega)]
      have hbyte : (storeLE m a v (n + 1) a).toNat = v % 256 := by
        rw [storeLE, Function.update_self]
        simp
      rw [loadLE, hrest, ih, hbyte, pow_succ, mul_comm (256 ^ n), Nat.mod_mul]

/-- **Read over write, disjoint ranges**: the store is not seen. -/
theorem loadLE_storeLE_of_disjoint (m : Mem) (a v k b n : Nat) (h : a + k ≤ b ∨ b + n ≤ a) :
    loadLE (storeLE m a v k) b n = loadLE m b n :=
  loadLE_congr fun x hx hx' => storeLE_apply_of_notMem m a v k x (by omega)

/-! ## Overwriting a range -/

/-- Overwrite `[dst, dst + n)` with the bytes `src 0, src 1, …`. -/
def blit (m : Mem) (dst n : Nat) (src : Nat → UInt8) : Mem :=
  fun x => if dst ≤ x ∧ x < dst + n then src (x - dst) else m x

/-- `memcpy`: copy `n` bytes from `src`, all of them read before the first is written. -/
def memcpy (m : Mem) (dst src n : Nat) : Mem := blit m dst n fun i => m (src + i)

/-- Byte `i` of an overwritten range is the `i`-th new byte. -/
theorem blit_apply_add (m : Mem) (dst n : Nat) (src : Nat → UInt8) {i : Nat} (h : i < n) :
    blit m dst n src (dst + i) = src i := by
  rw [blit, if_pos (by omega), Nat.add_sub_cancel_left]

/-- A range overwritten byte by byte. -/
theorem blit_succ (m : Mem) (dst n : Nat) (src : Nat → UInt8) :
    blit m dst (n + 1) src = Function.update (blit m dst n src) (dst + n) (src n) := by
  funext x
  by_cases hx : x = dst + n
  · subst hx
    rw [Function.update_self, blit_apply_add _ _ _ _ (Nat.lt_succ_self n)]
  · rw [Function.update_of_ne hx, blit, blit]
    split <;> split <;> first | rfl | omega

/-- **Frame of an overwrite**: bytes outside the range keep their value. -/
theorem blit_apply_of_notMem (m : Mem) (dst n : Nat) (src : Nat → UInt8) {x : Nat}
    (h : x < dst ∨ dst + n ≤ x) : blit m dst n src x = m x := by
  rw [blit, if_neg (by omega)]

end MallocBench.ByteMemory
