import Mathlib.Data.Nat.Digits.Lemmas

/-!
# Positional notation with its length in front

A number is written with its most significant digit first. Notations of one length are ordered as
their numbers are; a digit in front that tells the length makes that true of all of them, also when
each is followed by more text, since no such notation begins another one.
-/

namespace ZeroCache

open List Nat

/-! ## Lists in lexicographic order -/

section Lists

variable {α β : Type} [LT α] [LT β]

/-- Texts that begin with words of one length are ordered by these words first. -/
theorem append_lt_append_iff {front front' : List α} (rest rest' : List α) (hlength : front.length = front'.length) :
    front ++ rest < front' ++ rest' ↔ front < front' ∨ front = front' ∧ rest < rest' := by
  induction front generalizing front' with
  | nil =>
    cases front' with
    | nil => simp [not_lt_nil]
    | cons => simp at hlength
  | cons a front ih =>
    cases front' with
    | nil => simp at hlength
    | cons =>
      have hrest := ih (by simpa using hlength)
      simp only [cons_append, cons_lt_cons_iff, cons.injEq]
      tauto

/-- Replacing letters by others that are ordered alike keeps the order of words. -/
theorem map_lt_map_iff {f : α → β} {l l' : List α}
    (hf : ∀ a ∈ l, ∀ a' ∈ l', (f a < f a' ↔ a < a') ∧ (f a = f a' ↔ a = a')) : l.map f < l'.map f ↔ l < l' := by
  induction l generalizing l' with
  | nil => cases l' <;> simp
  | cons a l ih =>
    cases l' with
    | nil => simp [not_lt_nil]
    | cons a' l' =>
      have hhead := hf a (by simp) a' (by simp)
      have htail : l.map f < l'.map f ↔ l < l' := ih fun b hb b' hb' => hf b (by simp [hb]) b' (by simp [hb'])
      simp only [map_cons, cons_lt_cons_iff, hhead.1, hhead.2, htail]

end Lists

/-! ## Digits -/

/-- The digits of a number, the most significant one first; zero has one digit. -/
def radix (b n : ℕ) : List ℕ := if n = 0 then [0] else (Nat.digits b n).reverse

/-- The number that digits stand for, the most significant one first. -/
def radixValue (b : ℕ) (digits : List ℕ) : ℕ := Nat.ofDigits b digits.reverse

@[simp]
theorem radixValue_radix (b n : ℕ) : radixValue b (radix b n) = n := by
  unfold radix radixValue
  split
  · next hzero => simp [hzero]
  · simp [ofDigits_digits]

theorem radixValue_cons (b d : ℕ) (digits : List ℕ) :
    radixValue b (d :: digits) = radixValue b digits + b ^ digits.length * d := by
  simp [radixValue, ofDigits_append]

theorem length_radix_pos (b n : ℕ) : 0 < (radix b n).length := by
  unfold radix
  split
  · simp
  · next hzero =>
    rw [length_reverse, length_pos_iff, digits_ne_nil_iff_ne_zero]
    exact hzero

/-- A longer notation is of the larger number. -/
theorem lt_of_length_radix_lt {b n m : ℕ} (h : (radix b n).length < (radix b m).length) : n < m := by
  by_contra hle
  have hlength := le_length_digits_le b m n (by omega)
  have hpos := length_radix_pos b n
  by_cases hm : m = 0
  · have hone : (radix b m).length = 1 := by simp [radix, hm]
    omega
  · have hn : n ≠ 0 := by omega
    simp only [radix, hn, hm, if_false, length_reverse] at h
    omega

section Base

variable {b : ℕ} (hb : 1 < b)
include hb

theorem lt_of_mem_radix {n d : ℕ} (hd : d ∈ radix b n) : d < b := by
  unfold radix at hd
  split at hd
  · simp only [mem_singleton] at hd
    omega
  · exact digits_lt_base hb (by simpa using hd)

theorem length_radix_le {n k : ℕ} (hk : 0 < k) : (radix b n).length ≤ k ↔ n < b ^ k := by
  unfold radix
  split
  · next hzero =>
    subst hzero
    simpa using ⟨fun _ => Nat.pow_pos (by omega), fun _ => hk⟩
  · rw [length_reverse, digits_length_le_iff hb]

variable {digits digits' : List ℕ}

theorem radixValue_lt (hdigits : ∀ d ∈ digits, d < b) : radixValue b digits < b ^ digits.length := by
  simpa [radixValue] using
    ofDigits_lt_base_pow_length (l := digits.reverse) hb (by simpa using hdigits)

/-- Among as many digits, a smaller first digit makes the smaller number. -/
theorem radixValue_cons_lt {d d' : ℕ} (hdigits : ∀ d ∈ digits, d < b)
    (hlength : digits.length = digits'.length) (hlt : d < d') :
    radixValue b (d :: digits) < radixValue b (d' :: digits') := by
  have hsmall := radixValue_lt hb hdigits
  have hstep : b ^ digits.length * (d + 1) ≤ b ^ digits.length * d' := mul_le_mul_left _ hlt
  rw [radixValue_cons, radixValue_cons, ← hlength]
  rw [mul_add] at hstep
  omega

/-- Among as many digits, words are ordered as their numbers. -/
theorem radixValue_lt_iff (hdigits : ∀ d ∈ digits, d < b)
    (hdigits' : ∀ d ∈ digits', d < b) (hlength : digits.length = digits'.length) :
    radixValue b digits < radixValue b digits' ↔ digits < digits' := by
  induction digits generalizing digits' with
  | nil =>
    cases digits' with
    | nil => simp
    | cons => simp at hlength
  | cons d digits ih =>
    cases digits' with
    | nil => simp at hlength
    | cons d' =>
      simp only [length_cons, add_right_cancel_iff] at hlength
      have hrest := fun e he => hdigits e (mem_cons_of_mem _ he)
      have hrest' := fun e he => hdigits' e (mem_cons_of_mem _ he)
      rw [cons_lt_cons_iff]
      rcases lt_trichotomy d d' with hlt | heq | hgt
      · simpa [hlt] using radixValue_cons_lt hb hrest hlength hlt
      · subst heq
        rw [radixValue_cons, radixValue_cons, ← hlength, add_lt_add_iff_right, ih hrest hrest' hlength]
        simp
      · have hback := radixValue_cons_lt hb hrest' hlength.symm hgt
        constructor
        · omega
        · rintro (h | ⟨h, -⟩) <;> omega

/-- Digits without a zero in front are the notation of their number. -/
theorem radix_radixValue (hdigits : ∀ d ∈ digits, d < b) (hne : digits ≠ [])
    (hzero : digits.head? = some 0 → digits = [0]) : radix b (radixValue b digits) = digits := by
  by_cases hhead : digits.head? = some 0
  · rw [hzero hhead]
    simp [radix, radixValue]
  · have hback : Nat.digits b (radixValue b digits) = digits.reverse := by
      refine digits_ofDigits b hb _ (by simpa using hdigits) (fun hrev hlast => hhead ?_)
      rw [getLast_reverse] at hlast
      rw [← hlast, head?_eq_some_head hne]
    have hpos : radixValue b digits ≠ 0 := by
      intro hvalue
      rw [hvalue, digits_zero] at hback
      exact hne (reverse_eq_nil_iff.mp hback.symm)
    rw [radix, if_neg hpos, hback, reverse_reverse]

/-- Only the notation of zero begins with a zero. -/
theorem eq_nil_of_radix_cons {n : ℕ} (h : radix b n = 0 :: digits) : digits = [] := by
  by_contra hne
  have hsmall := radixValue_lt hb (fun d hd => lt_of_mem_radix hb (n := n) (h ▸ mem_cons_of_mem 0 hd))
  have hvalue : n = radixValue b digits := by
    rw [← radixValue_radix b n, h, radixValue_cons, mul_zero, add_zero]
  rw [← hvalue, ← length_radix_le hb (length_pos_iff.mpr hne), h, length_cons] at hsmall
  omega

/-! ## The length in front -/

/-- A notation with a digit in front that tells its length, counted from zero. -/
def prefixed {α : Type} (digit : ℕ → α) (b n : ℕ) : List α :=
  digit ((radix b n).length - 1) :: (radix b n).map digit

section Prefixed

variable {α : Type} [LinearOrder α] {digit : ℕ → α} (hdigit : StrictMonoOn digit (Set.Iio b))
include hdigit

variable {n m : ℕ}

/-- Notations of one length are ordered as their numbers. -/
theorem map_radix_lt_iff (hlength : (radix b n).length = (radix b m).length) :
    (radix b n).map digit < (radix b m).map digit ↔ n < m := by
  have hn := fun d hd => lt_of_mem_radix hb (n := n) (d := d) hd
  have hm := fun d hd => lt_of_mem_radix hb (n := m) (d := d) hd
  have hmap : (radix b n).map digit < (radix b m).map digit ↔ radix b n < radix b m :=
    map_lt_map_iff fun d hd d' hd' => ⟨hdigit.lt_iff_lt (hn d hd) (hm d' hd'),
      hdigit.injOn.eq_iff (hn d hd) (hm d' hd')⟩
  rw [hmap, ← radixValue_lt_iff hb hn hm hlength, radixValue_radix, radixValue_radix]

theorem map_radix_inj : (radix b n).map digit = (radix b m).map digit ↔ n = m := by
  refine ⟨fun h => ?_, fun h => by rw [h]⟩
  have hlength : (radix b n).length = (radix b m).length := by
    simpa using congrArg length h
  have hlt := map_radix_lt_iff hb hdigit hlength
  have hgt := map_radix_lt_iff hb hdigit hlength.symm
  rw [h] at hlt hgt
  have hirrefl := lt_irrefl ((radix b m).map digit)
  have hnot := mt hlt.mpr hirrefl
  have hnot' := mt hgt.mpr hirrefl
  omega

/-- The digit that tells a length is ordered as the length. -/
theorem digit_length_lt_iff (hn : n < b ^ b) (hm : m < b ^ b) :
    (digit ((radix b n).length - 1) < digit ((radix b m).length - 1) ↔ (radix b n).length < (radix b m).length) ∧
    (digit ((radix b n).length - 1) = digit ((radix b m).length - 1) ↔ (radix b n).length = (radix b m).length) := by
  have hn' := (length_radix_le hb (by omega)).mpr hn
  have hm' := (length_radix_le hb (by omega)).mpr hm
  have hnpos := length_radix_pos b n
  have hmpos := length_radix_pos b m
  have hnmem : (radix b n).length - 1 ∈ Set.Iio b := Set.mem_Iio.mpr (by omega)
  have hmmem : (radix b m).length - 1 ∈ Set.Iio b := Set.mem_Iio.mpr (by omega)
  rw [hdigit.lt_iff_lt hnmem hmmem, hdigit.injOn.eq_iff hnmem hmmem]
  omega

/-- Texts that begin with a notation and its length are ordered by the number first. -/
theorem prefixed_append_lt_iff (hn : n < b ^ b) (hm : m < b ^ b) (rest rest' : List α) :
    prefixed digit b n ++ rest < prefixed digit b m ++ rest' ↔ n < m ∨ n = m ∧ rest < rest' := by
  obtain ⟨hlt, heq⟩ := digit_length_lt_iff hb hdigit hn hm
  unfold prefixed
  rw [cons_append, cons_append, cons_lt_cons_iff, hlt, heq]
  rcases lt_trichotomy (radix b n).length (radix b m).length with hless | hsame | hmore
  · have := lt_of_length_radix_lt hless
    simp [hless, this]
  · rw [append_lt_append_iff _ _ (by simpa using hsame), map_radix_lt_iff hb hdigit hsame, map_radix_inj hb hdigit]
    simp [hsame]
  · have := lt_of_length_radix_lt hmore
    constructor
    · rintro (h | ⟨h, -⟩) <;> omega
    · rintro (h | ⟨h, -⟩) <;> omega

end Prefixed

end Base

end ZeroCache
