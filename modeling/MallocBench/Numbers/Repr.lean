import MallocBench.Numbers.Shortest
import MallocBench.Numbers.SignedFloats
import MallocBench.Text.FloatTexts

/-! # The text of a float

Python's `repr` of a float writes the digits of the shortest decimal, with a point among them, or with a
point behind the first of them and an exponent when the number is very large or very small. `float` reads
the same float back.

* **`Printed.readMagnitude_text`**: digits, a point and an exponent are read as they are meant.
* **`Printed.value_of`**: wherever the point is put, the number is the same.
* **`ofRat_printed`**: the text of a finite double stands for a number that is rounded to it. -/

namespace MallocBench.Numbers

open Text

/-! ## Digits with a point and an exponent -/

/-- The parts of a printed number. -/
structure Printed where
  whole : List Char
  fraction : List Char
  exponent : Option ℤ

namespace Printed

/-- A point and the digits after it, if there are any. -/
def fractionText (fraction : List Char) : List Char := if fraction = [] then [] else '.' :: fraction

/-- An exponent of at least two digits with its sign, if there is one. -/
def exponentText : Option ℤ → List Char
  | none => []
  | some e =>
    'e' :: (if e < 0 then '-' else '+') :: List.leftpad 2 '0' (Nat.toDigits 10 e.natAbs)

/-- The text of a number. -/
def text (p : Printed) : List Char := p.whole ++ (fractionText p.fraction ++ exponentText p.exponent)

/-- What it stands for. -/
def value (p : Printed) : ℚ :=
  digitsValue (p.whole ++ p.fraction) * 10 ^ (p.exponent.getD 0 - (p.fraction.length : ℤ))

/-- Digits before the point, without leading zeros, and digits after it. -/
structure Proper (p : Printed) : Prop where
  nonempty : p.whole ≠ []
  whole : ∀ c ∈ p.whole, isAsciiDigit c = true
  leading : p.whole.head? = some '0' → p.whole = ['0']
  fraction : ∀ c ∈ p.fraction, isAsciiDigit c = true

/-- A number that is padded with zeros has digits only. -/
theorem isAsciiDigit_leftpad {n : ℕ} {c : Char} (h : c ∈ List.leftpad 2 '0' (Nat.toDigits 10 n)) :
    isAsciiDigit c = true := by
  rw [List.leftpad, List.mem_append, List.mem_replicate] at h
  rcases h with ⟨-, rfl⟩ | h
  · decide
  · exact isAsciiDigit_toDigits h

/-- The first digits count as many tens as there are last ones. -/
theorem digitsValue_append {a b : List Char} (ha : ∀ c ∈ a, isAsciiDigit c = true)
    (hb : ∀ c ∈ b, isAsciiDigit c = true) :
    digitsValue (a ++ b) = digitsValue a * 10 ^ b.length + digitsValue b := by
  have hab : ∀ c ∈ a ++ b, isAsciiDigit c = true := fun c hc =>
    (List.mem_append.mp hc).elim (ha c) (hb c)
  rw [digitsValue_ascii hab, digitsValue_ascii ha, digitsValue_ascii hb, Nat.ofDigitChars_append,
    Nat.ofDigitChars_eq_ofDigitChars_zero, Nat.mul_comm]

/-- A zero is a digit. -/
theorem isAsciiDigit_zeros {n : ℕ} {c : Char} (h : c ∈ List.replicate n '0') : isAsciiDigit c = true :=
  (List.eq_of_mem_replicate h) ▸ by decide

/-- Zeros count nothing. -/
theorem digitsValue_zeros (n : ℕ) : digitsValue (List.replicate n '0') = 0 := by
  rw [digitsValue_ascii fun _ => isAsciiDigit_zeros, Nat.ofDigitChars_replicate_zero, Nat.mul_zero]

/-- The exponent is read back. -/
theorem readExponent_exponentText (e : Option ℤ) : readExponent (exponentText e) = some (e.getD 0) := by
  cases e with
  | none => rfl
  | some e =>
      have hdigits : ∀ c ∈ List.leftpad 2 '0' (Nat.toDigits 10 e.natAbs), isAsciiDigit c = true :=
        fun _ => isAsciiDigit_leftpad
      have hne : List.leftpad 2 '0' (Nat.toDigits 10 e.natAbs) ≠ [] := by
        rw [List.leftpad]
        exact List.append_ne_nil_of_right_ne_nil _ Nat.toDigits_ne_nil
      have hvalue : digitsValue (List.leftpad 2 '0' (Nat.toDigits 10 e.natAbs)) = e.natAbs := by
        rw [List.leftpad, digitsValue_append (fun _ => isAsciiDigit_zeros) fun _ => isAsciiDigit_toDigits,
          digitsValue_zeros, Nat.zero_mul, Nat.zero_add, digitsValue_toDigits]
      by_cases hneg : e < 0
      · simp only [exponentText, readExponent, if_pos hneg, readSign, hvalue, true_or, ne_eq, hne,
          not_false_eq_true, List.all_eq_true.mpr hdigits, and_self, if_true, Option.getD_some]
        congr 1
        omega
      · simp only [exponentText, readExponent, if_neg hneg, readSign, hvalue, true_or, ne_eq, hne,
          not_false_eq_true, List.all_eq_true.mpr hdigits, and_self, if_true, Option.getD_some,
          Bool.false_eq_true, if_false]
        congr 1
        omega

/-- An exponent begins with its letter. -/
theorem head?_exponentText {e : Option ℤ} {c : Char} (h : c ∈ (exponentText e).head?) : c = 'e' := by
  cases e with
  | none => cases h
  | some e => exact (Option.some.inj h).symm

/-- A run of digits ends before what is no digit. -/
theorem takeWhile_digits_append {a b : List Char} (ha : ∀ c ∈ a, isAsciiDigit c = true)
    (hb : ∀ c ∈ b.head?, isAsciiDigit c = false) :
    (a ++ b).takeWhile isAsciiDigit = a ∧ (a ++ b).dropWhile isAsciiDigit = b := by
  rw [List.takeWhile_append_of_pos ha, List.dropWhile_append_of_pos ha]
  cases b with
  | nil => exact ⟨List.append_nil a, rfl⟩
  | cons c b =>
      have hc : ¬ isAsciiDigit c = true := by
        rw [hb c rfl]
        exact Bool.false_ne_true
      rw [List.takeWhile_cons_of_neg hc, List.dropWhile_cons_of_neg hc, List.append_nil]
      exact ⟨rfl, rfl⟩

/-- **A printed number is read** as it is meant. -/
theorem readMagnitude_text {p : Printed} (h : p.Proper) : readMagnitude p.text = some p.value := by
  have hexp : ∀ c ∈ (exponentText p.exponent).head?, isAsciiDigit c = false := by
    intro c hc
    obtain rfl := head?_exponentText hc
    decide
  by_cases hf : p.fraction = []
  · have hpoint : (exponentText p.exponent).head? ≠ some '.' := fun hc =>
      absurd (head?_exponentText hc) (by decide)
    obtain ⟨htake, hdrop⟩ := takeWhile_digits_append h.whole hexp
    rw [text, fractionText, if_pos hf, List.nil_append]
    simp only [readMagnitude, htake, hdrop, if_neg hpoint, List.append_nil, if_neg h.nonempty,
      readExponent_exponentText, Option.map_some, value, hf]
  · obtain ⟨htake, hdrop⟩ := takeWhile_digits_append (b := '.' :: (p.fraction ++ exponentText p.exponent))
      h.whole (fun c hc => by obtain rfl := Option.some.inj hc; decide)
    obtain ⟨htake', hdrop'⟩ := takeWhile_digits_append h.fraction hexp
    have hne : p.whole ++ p.fraction ≠ [] := List.append_ne_nil_of_left_ne_nil h.nonempty _
    rw [text, fractionText, if_neg hf]
    simp only [readMagnitude, htake, hdrop, List.cons_append, List.head?_cons, if_true, List.tail_cons,
      htake', hdrop', if_neg hne, readExponent_exponentText, Option.map_some, value]

/-- Digits as `repr` writes them, with the point behind so many of them. -/
def of (digits : List Char) (point : ℤ) : Printed :=
  -- numbers from 0.0001 to below 1e16 have no exponent
  if -4 < point ∧ point ≤ 16 then
    if point ≤ 0 then ⟨['0'], List.replicate (-point).toNat '0' ++ digits, none⟩
    else if (digits.length : ℤ) ≤ point then
      -- a float is never written as an integer
      ⟨digits ++ List.replicate (point.toNat - digits.length) '0', ['0'], none⟩
    else ⟨digits.take point.toNat, digits.drop point.toNat, none⟩
  else ⟨digits.take 1, digits.drop 1, some (point - 1)⟩

section

variable {digits : List Char} (hdigits : ∀ c ∈ digits, isAsciiDigit c = true)

include hdigits

/-- **Where the point is put** does not change the number. -/
theorem value_of (point : ℤ) :
    (of digits point).value = digitsValue digits * 10 ^ (point - (digits.length : ℤ)) := by
  have hzero : ∀ c ∈ ['0'], isAsciiDigit c = true := by
    rintro c ⟨⟩
    · decide
    · contradiction
  rw [of]
  split
  · split
    · -- zeros before the digits
      next hpoint =>
      have hzeros : ∀ c ∈ '0' :: List.replicate (-point).toNat '0', isAsciiDigit c = true :=
        fun c hc => isAsciiDigit_zeros (n := (-point).toNat + 1) hc
      have hvalue : digitsValue ('0' :: List.replicate (-point).toNat '0') = 0 :=
        digitsValue_zeros ((-point).toNat + 1)
      have hlength : ((-point).toNat : ℤ) = -point := Int.toNat_of_nonneg (by omega)
      rw [value, ← List.append_assoc, List.singleton_append, digitsValue_append hzeros hdigits, hvalue,
        Nat.zero_mul, Nat.zero_add, List.length_append, List.length_replicate, Nat.cast_add, hlength,
        Option.getD_none]
      congr 2
      ring
    · split
      · -- zeros after them
        next hpoint hle =>
        have hlength : ((point.toNat - digits.length : ℕ) : ℤ) = point - digits.length := by omega
        have hall : ∀ c ∈ digits ++ List.replicate (point.toNat - digits.length) '0',
            isAsciiDigit c = true :=
          fun c hc => (List.mem_append.mp hc).elim (hdigits c) fun hc => isAsciiDigit_zeros hc
        rw [value, digitsValue_append hall hzero,
          digitsValue_append hdigits fun _ => isAsciiDigit_zeros, digitsValue_zeros,
          List.length_replicate, Option.getD_none]
        have hz : digitsValue ['0'] = 0 := digitsValue_zeros 1
        rw [hz, ← hlength, zpow_natCast, List.length_singleton, Nat.cast_one, zero_sub, zpow_neg_one]
        push_cast
        ring
      · -- the point among them
        next hpoint hlt =>
        rw [value, List.take_append_drop, List.length_drop, Option.getD_none]
        congr 2
        omega
  · rw [value, List.take_append_drop, List.length_drop, Option.getD_some]
    cases digits with
    | nil => simp [digitsValue]
    | cons d digits =>
        congr 2
        rw [List.length_cons]
        omega

/-- The shortest digits with a point somewhere are a proper text. -/
theorem proper_of (hne : digits ≠ []) (hhead : digits.head? ≠ some '0') (point : ℤ) :
    (of digits point).Proper := by
  have htake {n : ℕ} (hn : n ≠ 0) : digits.take n ≠ [] := by simp [hne, hn]
  have hfirst {n : ℕ} (hn : n ≠ 0) : (digits.take n).head? = digits.head? := by
    rw [List.head?_take, if_neg hn]
  rw [of]
  split
  · split
    · refine ⟨by simp, ?_, fun _ => rfl, ?_⟩
      · rintro c ⟨⟩
        · decide
        · contradiction
      · exact fun c hc => (List.mem_append.mp hc).elim (fun hc => isAsciiDigit_zeros hc) (hdigits c)
    · split
      · refine ⟨List.append_ne_nil_of_left_ne_nil hne _, ?_, fun hbad => ?_, ?_⟩
        · exact fun c hc => (List.mem_append.mp hc).elim (hdigits c) fun hc => isAsciiDigit_zeros hc
        · rw [List.head?_append_of_ne_nil _ hne] at hbad
          exact absurd hbad hhead
        · rintro c ⟨⟩
          · decide
          · contradiction
      · next hpoint _ =>
        have hn : point.toNat ≠ 0 := by omega
        refine ⟨htake hn, fun c hc => hdigits c (List.mem_of_mem_take hc), fun hbad => ?_,
          fun c hc => hdigits c (List.mem_of_mem_drop hc)⟩
        exact absurd (hfirst hn ▸ hbad) hhead
  · refine ⟨htake one_ne_zero, fun c hc => hdigits c (List.mem_of_mem_take hc), fun hbad => ?_,
      fun c hc => hdigits c (List.mem_of_mem_drop hc)⟩
    exact absurd (hfirst one_ne_zero ▸ hbad) hhead

end

/-- `repr` writes no integer. -/
theorem of_fraction_or_exponent {digits : List Char} (hne : digits ≠ []) (point : ℤ) :
    ¬ ((of digits point).fraction = [] ∧ (of digits point).exponent = none) := by
  rw [of]
  split
  · split
    · exact fun h => List.append_ne_nil_of_right_ne_nil _ hne h.1
    · split
      · exact fun h => List.cons_ne_nil _ _ h.1
      · rintro ⟨h, -⟩
        have hle := List.drop_eq_nil_iff.mp h
        omega
  · exact fun h => Option.some_ne_none _ h.2

end Printed

/-! ## The shortest decimal -/

/-- The digits of a number without the zeros at the end. -/
def significant (d : ℕ) : List Char := (Nat.toDigits 10 d).rdropWhile (· = '0')

/-- The significant digits are digits. -/
theorem isAsciiDigit_significant {d : ℕ} {c : Char} (h : c ∈ significant d) : isAsciiDigit c = true :=
  isAsciiDigit_toDigits ((List.rdropWhile_prefix (p := _) (Nat.toDigits 10 d)).subset h)

/-- The first digit of a positive number. -/
theorem head?_toDigits {d : ℕ} (h : 0 < d) : (Nat.toDigits 10 d).head? ≠ some '0' := by
  induction d using Nat.strongRecOn with
  | ind d ih =>
      rw [Nat.toDigits_eq_if (by decide)]
      split
      · next hlt =>
        have hall : ∀ n < 10, 0 < n → [Nat.digitChar n].head? ≠ some '0' := by decide
        exact hall d hlt h
      · next hge =>
        rw [List.head?_append_of_ne_nil _ Nat.toDigits_ne_nil]
        exact ih (d / 10) (by omega) (by omega)

/-- The zeros at the end are left to the weight. -/
theorem toDigits_significant (d : ℕ) :
    ∃ z, Nat.toDigits 10 d = significant d ++ List.replicate z '0' := by
  refine ⟨((Nat.toDigits 10 d).rtakeWhile (· = '0')).length, ?_⟩
  have hzeros : (Nat.toDigits 10 d).rtakeWhile (· = '0') =
      List.replicate ((Nat.toDigits 10 d).rtakeWhile (· = '0')).length '0' :=
    List.eq_replicate_of_mem fun c hc =>
      of_decide_eq_true (List.mem_rtakeWhile_imp (p := fun c => decide (c = '0')) hc)
  rw [← hzeros, significant]
  exact List.rdropWhile_append_rtakeWhile.symm

/-- What is left begins with a digit that is not zero. -/
theorem head?_significant {d : ℕ} (h : 0 < d) :
    significant d ≠ [] ∧ (significant d).head? ≠ some '0' := by
  obtain ⟨z, hz⟩ := toDigits_significant d
  have hhead := head?_toDigits h
  have hne : significant d ≠ [] := by
    intro hnil
    rw [hz, hnil, List.nil_append] at hhead
    cases z with
    | zero => exact Nat.toDigits_ne_nil (hz.trans (by rw [hnil]; rfl))
    | succ z => exact hhead rfl
  rw [hz, List.head?_append_of_ne_nil _ hne] at hhead
  exact ⟨hne, hhead⟩

/-- **Zeros at the end** are left out, and their weight is kept. -/
theorem digitsValue_significant (d : ℕ) (k : ℤ) :
    (digitsValue (significant d) * 10 ^ ((Nat.toDigits 10 d).length + k - (significant d).length : ℤ) : ℚ) =
      d * 10 ^ k := by
  obtain ⟨z, hz⟩ := toDigits_significant d
  have hvalue : d = digitsValue (significant d) * 10 ^ z := by
    calc d = digitsValue (Nat.toDigits 10 d) := (digitsValue_toDigits d).symm
      _ = digitsValue (significant d) * 10 ^ z := by
          rw [hz, Printed.digitsValue_append (fun _ => isAsciiDigit_significant)
            fun _ => Printed.isAsciiDigit_zeros, Printed.digitsValue_zeros, List.length_replicate]
          rfl
  have hlength : ((Nat.toDigits 10 d).length + k - (significant d).length : ℤ) = z + k := by
    rw [hz, List.length_append, List.length_replicate]
    push_cast
    ring
  rw [hlength, zpow_add₀ (by norm_num), zpow_natCast, ← mul_assoc]
  congr 1
  exact_mod_cast hvalue.symm

/-- The shortest decimal as `repr` writes it. -/
def printed (x : ℚ) : Printed :=
  if x = 0 then .of ['0'] 1
  else .of (significant (shortest x).1) ((Nat.toDigits 10 (shortest x).1).length + (shortest x).2)

/-- **The text of a double** stands for a number that is rounded to it. -/
theorem nearest_printed {x : ℚ} (hx : nearest x = x) (h0 : 0 ≤ x) :
    (printed x).Proper ∧ ¬ ((printed x).fraction = [] ∧ (printed x).exponent = none) ∧
      nearest (printed x).value = x := by
  have hzero : nearest 0 = 0 := nearest_of_multiple (n := 0) (by simp)
  rw [printed]
  split
  · next heq =>
    subst heq
    have hdigit : ∀ c ∈ ['0'], isAsciiDigit c = true := fun c hc =>
      Printed.isAsciiDigit_zeros (n := 1) hc
    refine ⟨⟨List.cons_ne_nil _ _, hdigit, fun _ => rfl, hdigit⟩,
      Printed.of_fraction_or_exponent (List.cons_ne_nil _ _) 1, ?_⟩
    have hvalue : (Printed.of ['0'] 1).value = 0 := by
      show ((digitsValue ['0', '0'] : ℕ) : ℚ) * _ = 0
      rw [show digitsValue ['0', '0'] = 0 from rfl, Nat.cast_zero, zero_mul]
    rw [hvalue, hzero]
  · next hne =>
    have hpos : 0 < x := lt_of_le_of_ne h0 (Ne.symm hne)
    -- the shortest decimal is not zero, since zero is not rounded to `x`
    have hshort := nearest_shortest hx hpos
    have hd : 0 < (shortest x).1 := by
      by_contra h
      rw [Nat.eq_zero_of_not_pos h, Nat.cast_zero, zero_mul, hzero] at hshort
      exact hne hshort.symm
    obtain ⟨hdigits, hhead⟩ := head?_significant hd
    refine ⟨Printed.proper_of (fun _ => isAsciiDigit_significant) hdigits hhead _,
      Printed.of_fraction_or_exponent hdigits _, ?_⟩
    rw [Printed.value_of fun _ => isAsciiDigit_significant, digitsValue_significant]
    exact hshort

/-! ## Texts of floats -/

/-- The characters of a printed number. -/
def isNumeralChar (c : Char) : Bool := isAsciiDigit c || ['.', 'e', '+', '-'].contains c

/-- A property of these characters, checked for each of them. -/
theorem of_isNumeralChar {p : Char → Prop} (hdigit : ∀ n < 0x3a, 0x30 ≤ n → p (Char.ofNat n))
    (hother : p '.' ∧ p 'e' ∧ p '+' ∧ p '-') {c : Char} (h : isNumeralChar c = true) : p c := by
  simp only [isNumeralChar, Bool.or_eq_true, List.contains_iff_mem, List.mem_cons, List.not_mem_nil,
    or_false] at h
  rcases h with h | rfl | rfl | rfl | rfl
  · exact of_isAsciiDigit hdigit h
  · exact hother.1
  · exact hother.2.1
  · exact hother.2.2.1
  · exact hother.2.2.2

/-- A printed number has the characters of a numeral. -/
theorem isNumeralChar_text {p : Printed} (h : p.Proper) {c : Char} (hc : c ∈ p.text) :
    isNumeralChar c = true := by
  have hdigit {c : Char} (hc : isAsciiDigit c = true) : isNumeralChar c = true := by
    rw [isNumeralChar, hc]
    rfl
  rw [Printed.text, List.mem_append, List.mem_append] at hc
  rcases hc with hc | hc | hc
  · exact hdigit (h.whole c hc)
  · rw [Printed.fractionText] at hc
    split at hc
    · exact absurd hc List.not_mem_nil
    · rcases List.mem_cons.mp hc with rfl | hc
      · decide
      · exact hdigit (h.fraction c hc)
  · cases hexp : p.exponent with
    | none =>
        rw [hexp] at hc
        exact absurd hc List.not_mem_nil
    | some e =>
        rw [hexp, Printed.exponentText] at hc
        rcases List.mem_cons.mp hc with rfl | hc
        · decide
        · rcases List.mem_cons.mp hc with rfl | hc
          · split <;> decide
          · exact hdigit (Printed.isAsciiDigit_leftpad hc)

/-- A text without underscores is kept. -/
theorem dropUnderscores_of_notMem {s : List Char} (h : '_' ∉ s) {last : Char} (hlast : last ≠ '_') :
    dropUnderscores last s = some s := by
  induction s generalizing last with
  | nil => rw [dropUnderscores, if_neg hlast]
  | cons c s ih =>
      have hc : c ≠ '_' := fun heq => h (heq ▸ List.mem_cons_self)
      rw [dropUnderscores, if_neg hc, if_neg fun hbad => hlast hbad.1,
        ih (fun hmem => h (List.mem_cons_of_mem _ hmem)) hc]
      rfl

/-- **`float` reads a printed number**, with or without a minus sign. -/
theorem readFloat_text {p : Printed} (h : p.Proper) (negative : Bool) :
    readFloat ((if negative then ['-'] else []) ++ p.text) = some (.finite negative p.value) := by
  set s := (if negative then ['-'] else []) ++ p.text with hs
  have hchars : ∀ c ∈ s, isNumeralChar c = true := by
    intro c hc
    rcases List.mem_append.mp hc with hc | hc
    · cases negative with
      | false => contradiction
      | true => exact List.mem_singleton.mp hc ▸ rfl
    · exact isNumeralChar_text h hc
  have hspace : ∀ c ∈ s, isSpace c = false := fun c hc =>
    of_isNumeralChar (p := fun c => isSpace c = false) (by decide) (by decide) (hchars c hc)
  have hstrip : strip s = s := strip_eq_self (fun c hc => hspace c (List.mem_of_mem_head? hc))
    fun c hc => hspace c (List.mem_of_mem_getLast? hc)
  have hascii : s.map asciiDigit = s := by
    have hself : ∀ c ∈ s, asciiDigit c = c := fun c hc =>
      of_isNumeralChar (p := fun c => asciiDigit c = c) (by decide) (by decide) (hchars c hc)
    rw [List.map_congr_left hself, List.map_id']
  have hunderscore : '_' ∉ s := fun hmem => absurd (hchars _ hmem) (by decide)
  obtain ⟨c, whole, hwhole⟩ := List.exists_cons_of_ne_nil h.nonempty
  have hc : isAsciiDigit c = true := h.whole c (hwhole ▸ List.mem_cons_self)
  have htext : p.text = c :: (whole ++ (Printed.fractionText p.fraction ++
      Printed.exponentText p.exponent)) := by
    rw [Printed.text, hwhole, List.cons_append]
  have hsign : readSign s = (negative, p.text) := by
    rw [hs, htext]
    cases negative with
    | true => rfl
    | false =>
        have hne : c ≠ '-' ∧ c ≠ '+' :=
          of_isAsciiDigit (p := fun c => c ≠ '-' ∧ c ≠ '+') (by decide) hc
        unfold readSign
        split
        · next heq => exact absurd (List.cons.inj heq).1 hne.1
        · next heq => exact absurd (List.cons.inj heq).1 hne.2
        · rfl
  -- the text is none of the words
  have hword {w : List Char} (hw : w.head? = some 'i' ∨ w.head? = some 'n') :
      p.text.map Char.toLower ≠ w := by
    rintro rfl
    have hlower : c.toLower ≠ 'i' ∧ c.toLower ≠ 'n' :=
      of_isAsciiDigit (p := fun c => c.toLower ≠ 'i' ∧ c.toLower ≠ 'n') (by decide) hc
    rw [htext, List.map_cons, List.head?_cons] at hw
    exact hw.elim (fun hi => hlower.1 (Option.some.inj hi)) fun hn => hlower.2 (Option.some.inj hn)
  have hinf : ¬ (p.text.map Char.toLower = "inf".toList ∨ p.text.map Char.toLower = "infinity".toList) :=
    not_or.mpr ⟨hword (.inl rfl), hword (.inl rfl)⟩
  rw [readFloat, hstrip, hascii, dropUnderscores_of_notMem hunderscore (by decide), Option.bind_some, hsign,
    readUnsigned, if_neg hinf, if_neg (hword (.inr rfl)), Printed.readMagnitude_text h]
  rfl

/-- `repr` of a float. -/
def PyFloat.repr : PyFloat → List Char
  | .signed negative (.finite x) => (if negative then ['-'] else []) ++ (printed x.value).text
  | .signed negative .inf => (if negative then ['-'] else []) ++ "inf".toList
  | .nan => "nan".toList

/-- The number that is printed for a double is rounded to it. -/
theorem ofRat_printed (x : Binary64) :
    (printed x.value).Proper ∧
      ¬ ((printed x.value).fraction = [] ∧ (printed x.value).exponent = none) ∧
      Double.ofRat (printed x.value).value = .finite x := by
  obtain ⟨hproper, hpoint, hvalue⟩ := nearest_printed x.isBinary64.2.2 x.isBinary64.1
  have hofRat : Double.ofRat (printed x.value).value = Double.ofRat x.value := by
    rw [Double.ofRat, Double.ofRat]
    simp only [hvalue, x.isBinary64.2.2]
  exact ⟨hproper, hpoint, hofRat.trans (Double.ofRat_value x)⟩

end MallocBench.Numbers
